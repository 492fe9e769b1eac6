import SystemCore.Libutils.BlobAccounts

/-!
# What is flattened can be read back

`flatten` computes the place of an entry from the build id that it writes, `getFlattenedSize`
from the longest build id there is, and `unflatten` from the build id that it finds. A cache
that is read back goes through `set`, which neither cleans nor refuses anything.
-/
namespace SystemCore.Libutils.BlobCache

open Lib Lib.Runs Lib.LittleEndian List CacheEntry

variable {ρ : Type} {nrand48 : ρ → Nat × ρ} {buildId : BuildId} {c c' : Cache ρ}
  {entries : List CacheEntry} {buffer buffer' bytes : List UInt8} {offset : Nat}

/-! ## Bytes in a buffer -/

/-- The bytes stand in the buffer, from `offset` on. -/
def At (buffer : List UInt8) (offset : Nat) (bytes : List UInt8) : Prop :=
  bytes <+: buffer.drop offset

def written (buffer : List UInt8) (offset : Nat) (bytes : List UInt8) : List UInt8 :=
  buffer.take offset ++ bytes ++ buffer.drop (offset + bytes.length)

theorem length_written (inside : offset + bytes.length ≤ buffer.length) :
    (written buffer offset bytes).length = buffer.length := by
  simp only [written, length_append, length_take, length_drop]
  omega

theorem at_written (inside : offset + bytes.length ≤ buffer.length) :
    At (written buffer offset bytes) offset bytes := by
  have front : (buffer.take offset).length = offset := by rw [length_take]; omega
  refine ⟨buffer.drop (offset + bytes.length), ?_⟩
  rw [written, append_assoc, drop_left' front]

variable {more : List UInt8} {e : CacheEntry}

/-- Writing behind the bytes leaves them as they are. -/
theorem At.written {n : Nat} (here : At buffer n more) (apart : n + more.length ≤ offset)
    (inside : offset ≤ buffer.length) : At (written buffer offset bytes) n more := by
  obtain ⟨rest, hrest⟩ := here
  have length : more.length ≤ ((buffer.take offset).drop n).length := by
    rw [length_drop, length_take]
    omega
  have front : more <+: (buffer.take offset).drop n := by
    rw [drop_take, ← hrest, prefix_take_iff]
    exact ⟨prefix_append _ _, by omega⟩
  rw [At, BlobCache.written, append_assoc, drop_append_of_le_length (by
    rw [length_take]; omega)]
  exact front.trans (prefix_append _ _)

theorem written_written (inside : offset + bytes.length ≤ buffer.length) :
    written (written buffer offset bytes) (offset + bytes.length) more =
      written buffer offset (bytes ++ more) := by
  have front : (buffer.take offset ++ bytes).length = offset + bytes.length := by
    rw [length_append, length_take]
    omega
  have back : (buffer.take offset ++ bytes ++ buffer.drop (offset + bytes.length)).drop
      (offset + bytes.length + more.length) = buffer.drop (offset + (bytes ++ more).length) := by
    rw [← drop_drop, drop_left' front, drop_drop, length_append, Nat.add_assoc]
  rw [written, written, take_left' front, back, written, append_assoc _ bytes more]

def pokes (offset : Nat) : List (List UInt8) → List UInt8 → Except Fault (List UInt8)
  | [], buffer => pure buffer
  | part :: parts, buffer => do
    let buffer ← poke buffer offset part
    pokes (offset + part.length) parts buffer

theorem pokes_eq {parts : List (List UInt8)}
    (inside : offset + parts.flatten.length ≤ buffer.length) :
    pokes offset parts buffer = .ok (written buffer offset parts.flatten) := by
  induction parts generalizing offset buffer with
  | nil => simp [pokes, written, pure, Except.pure]
  | cons part parts ih =>
    rw [flatten_cons, length_append] at inside
    have fits : offset + part.length ≤ buffer.length := by omega
    have hpoke : poke buffer offset part = .ok (written buffer offset part) :=
      if_neg (Nat.not_lt.mpr fits)
    rw [pokes, hpoke]
    refine (ih ?_).trans ?_
    · rw [length_written fits]
      omega
    · rw [written_written fits, flatten_cons]

theorem At.append (here : At buffer offset (bytes ++ more)) :
    At buffer offset bytes ∧ At buffer (offset + bytes.length) more := by
  obtain ⟨rest, hrest⟩ := here
  refine ⟨⟨more ++ rest, by rw [← append_assoc, hrest]⟩, rest, ?_⟩
  rw [← drop_drop, ← hrest, append_assoc, drop_left]

theorem At.slice (here : At buffer offset bytes) :
    (buffer.drop offset).take bytes.length = bytes := by
  obtain ⟨rest, hrest⟩ := here
  rw [← hrest, take_left]

theorem peek_at {w n : Nat} (here : At buffer offset (toBytes w n)) (small : n < 256 ^ w)
    (pos : 0 < w) : peek buffer offset w = .ok n := by
  have slice := here.slice
  have inside := here.length_le
  rw [toBytes_length] at slice inside
  rw [length_drop] at inside
  rw [peek, if_neg (by omega), field, slice, ofBytes_toBytes w n small]

/-! ## Sizes -/

def CacheEntry.span (e : CacheEntry) : Nat := align4 (entrySize e.key.length e.value.length)

theorem CacheEntry.span_bounds (small : e.size < 2 ^ 63) :
    entrySize e.key.length e.value.length = 16 + e.size ∧ 16 + e.size ≤ e.span ∧
      e.span ≤ e.footprint := by
  simp only [size] at small
  simp only [span, align4, entrySize, wrap, sizeofEntryHeader, footprint, size,
    sizeofBlob]
  omega

def spans (entries : List CacheEntry) : Nat := (entries.map CacheEntry.span).sum

theorem size_le_live (he : e ∈ entries) : e.size ≤ live entries := by
  obtain ⟨i, hi, rfl⟩ := getElem_of_mem he
  exact Nat.le_trans (le_sum size hi) (held_le_live entries)

theorem length_le_live (entries : List CacheEntry) : entries.length ≤ live entries := by
  induction entries with
  | nil => exact Nat.le_refl _
  | cons e es ih =>
    simp only [live, map_cons, sum_cons, length_cons, footprint,
      sizeofBlob] at ih ⊢
    omega

theorem spans_le_live (fits : live entries ≤ PTRDIFF_MAX) : spans entries ≤ live entries := by
  induction entries with
  | nil => exact Nat.le_refl _
  | cons e es ih =>
    have small : e.size < 2 ^ 63 := by
      have : e.size ≤ live (e :: es) := size_le_live mem_cons_self
      simp only [PTRDIFF_MAX] at fits
      omega
    have bound := (span_bounds small).2.2
    simp only [spans, live, map_cons, sum_cons] at ih fits ⊢
    have := ih (by omega)
    omega

theorem getFlattenedSize_eq (fits : live entries ≤ PTRDIFF_MAX) :
    getFlattenedSize entries = 124 + spans entries := by
  have total := spans_le_live fits
  have sum : ∀ (es : List CacheEntry) (start : Nat), start + spans es < 2 ^ 64 →
      es.foldl (fun size e => wrap (size + align4 (entrySize e.key.length e.value.length))) start =
        start + spans es := by
    intro es
    induction es with
    | nil => exact fun _ _ => rfl
    | cons e es ih =>
      intro start small
      have whole : spans (e :: es) = e.span + spans es := rfl
      rw [whole] at small ⊢
      have here : wrap (start + align4 (entrySize e.key.length e.value.length)) = start + e.span :=
        Nat.mod_eq_of_lt (show start + e.span < 2 ^ 64 by omega)
      rw [foldl_cons, here, ih (start + e.span) (by omega), Nat.add_assoc]
  have start : align4 (sizeofHeader + PROPERTY_VALUE_MAX) = 124 := by decide
  refine sum entries 124 ?_
  simp only [PTRDIFF_MAX] at fits
  omega

/-! ## Writing -/

/-- The parts of an entry in a buffer: the sizes, the key, the value and the padding. -/
def CacheEntry.parts (e : CacheEntry) : List (List UInt8) :=
  [toBytes 8 e.key.length, toBytes 8 e.value.length, e.key, e.value,
    List.replicate (e.span - entrySize e.key.length e.value.length) 0]

def CacheEntry.image (e : CacheEntry) : List UInt8 := e.parts.flatten

theorem CacheEntry.length_image (small : e.size < 2 ^ 63) : e.image.length = e.span := by
  obtain ⟨size, fit, -⟩ := CacheEntry.span_bounds small
  rw [CacheEntry.size] at size fit
  simp only [CacheEntry.image, CacheEntry.parts, flatten_cons, flatten_nil,
    length_append, toBytes_length, length_replicate, length_nil]
  omega

theorem flattenEntry_eq (e : CacheEntry) (offset : Nat) (buffer : List UInt8) :
    flattenEntry e offset buffer = pokes offset e.parts buffer := by
  simp only [flattenEntry, pokes, CacheEntry.parts, toBytes_length, Nat.add_assoc, Nat.reduceAdd,
    bind_pure, CacheEntry.span]

theorem small_of_fits (fits : live entries ≤ PTRDIFF_MAX) (he : e ∈ entries) : e.size < 2 ^ 63 := by
  have := size_le_live he
  simp only [PTRDIFF_MAX] at fits
  omega

theorem length_flatMap_image (fits : live entries ≤ PTRDIFF_MAX) :
    (entries.flatMap CacheEntry.image).length = spans entries := by
  rw [length_flatMap, spans]
  exact congrArg List.sum
    (map_congr_left fun e he => length_image (small_of_fits fits he))

theorem flattenEntries_ok : ∀ (entries : List CacheEntry) (offset : Nat) (buffer : List UInt8),
    live entries ≤ PTRDIFF_MAX → offset + spans entries ≤ buffer.length →
    buffer.length < 2 ^ 64 →
    flattenEntries buffer.length entries offset buffer =
      .ok (OK, written buffer offset (entries.flatMap CacheEntry.image)) := by
  intro entries
  induction entries with
  | nil =>
    intro offset buffer _ _ _
    simp [flattenEntries, written]
  | cons e es ih =>
    intro offset buffer fits inside bound
    have whole : spans (e :: es) = e.span + spans es := rfl
    have parts : live (e :: es) = e.footprint + live es := rfl
    have length := CacheEntry.length_image (small_of_fits fits mem_cons_self)
    have next : wrap (offset + e.span) = offset + e.span := Nat.mod_eq_of_lt (by omega)
    have room : ¬ buffer.length < offset + e.span := by omega
    have here : offset + e.image.length ≤ buffer.length := by omega
    have rest := ih (offset + e.span) (written buffer offset e.image) (by omega)
      (by rw [length_written here]; omega) (by rwa [length_written here])
    rw [length_written here, ← length, written_written here, length] at rest
    rw [flattenEntries, flattenEntry_eq, pokes_eq here]
    simp only [CacheEntry.span] at room next rest
    simp only [next, room, if_false, bind, Except.bind]
    exact rest

/-- The parts of the header, in front of the padding behind the versions and after it. -/
def versionParts : List (List UInt8) :=
  [toBytes 4 blobCacheMagic, toBytes 4 blobCacheVersion, toBytes 4 blobCacheDeviceVersion]

def countParts (buildId : BuildId) (numEntries : Nat) : List (List UInt8) :=
  [toBytes 8 numEntries, toBytes 4 buildId.bytes.length, buildId.bytes]

theorem flattenHeader_eq (buildId : BuildId) (numEntries : Nat) (buffer : List UInt8) :
    flattenHeader buildId numEntries buffer =
      (do pokes 16 (countParts buildId numEntries) (← pokes 0 versionParts buffer)) := by
  simp only [flattenHeader, pokes, versionParts, countParts, toBytes_length, Nat.reduceAdd,
    bind_pure, bind_assoc]

structure HeaderAt (buffer : List UInt8) (buildId : BuildId) (numEntries : Nat) : Prop where
  versions : At buffer 0 versionParts.flatten
  counts : At buffer 16 (countParts buildId numEntries).flatten

theorem length_countParts (buildId : BuildId) (numEntries : Nat) :
    (countParts buildId numEntries).flatten.length = 12 + buildId.bytes.length := by
  simp only [countParts, flatten_cons, flatten_nil, length_append, toBytes_length,
    length_nil]
  omega

theorem flattenHeader_ok (buildId : BuildId) (numEntries : Nat) (room : 124 ≤ buffer.length) :
    ∃ buffer', flattenHeader buildId numEntries buffer = .ok buffer' ∧
      HeaderAt buffer' buildId numEntries ∧ buffer'.length = buffer.length := by
  have short := buildId.short
  simp only [PROPERTY_VALUE_MAX] at short
  have twelve : versionParts.flatten.length = 12 := by decide
  have count := length_countParts buildId numEntries
  have first : 0 + versionParts.flatten.length ≤ buffer.length := by omega
  have second : 16 + (countParts buildId numEntries).flatten.length ≤
      (written buffer 0 versionParts.flatten).length := by
    rw [length_written first]
    omega
  refine ⟨_, ?_, ⟨(at_written first).written (by omega) (by omega), at_written second⟩, ?_⟩
  · rw [flattenHeader_eq, pokes_eq first]
    exact pokes_eq second
  · rw [length_written second, length_written first]

/-- The entries begin behind the build id. -/
def firstOffset (buildId : BuildId) : Nat := align4 (sizeofHeader + buildId.bytes.length)

theorem firstOffset_bounds (buildId : BuildId) :
    28 + buildId.bytes.length ≤ firstOffset buildId ∧ 32 ≤ firstOffset buildId ∧
      firstOffset buildId ≤ 124 := by
  have short := buildId.short
  simp only [PROPERTY_VALUE_MAX] at short
  simp only [firstOffset, align4, wrap, sizeofHeader]
  omega

/-- **`flatten` returns `OK`** for a buffer of `getFlattenedSize()` bytes, whatever they were. -/
theorem flatten_ok (buildId : BuildId) (fits : live entries ≤ PTRDIFF_MAX)
    (size : buffer.length = getFlattenedSize entries) :
    ∃ flat, flatten buildId entries buffer buffer.length = .ok (OK, flat) ∧
      flat.length = buffer.length ∧ HeaderAt flat buildId entries.length ∧
      At flat (firstOffset buildId) (entries.flatMap CacheEntry.image) := by
  rw [getFlattenedSize_eq fits] at size
  have total := spans_le_live fits
  have length := length_flatMap_image fits
  have count := length_countParts buildId entries.length
  have twelve : versionParts.flatten.length = 12 := by decide
  obtain ⟨id, start, bound⟩ := firstOffset_bounds buildId
  obtain ⟨b, hheader, header, len⟩ := flattenHeader_ok buildId entries.length
    (show 124 ≤ buffer.length by omega)
  have hentries := flattenEntries_ok entries (firstOffset buildId) b fits
    (by omega) (by simp only [PTRDIFF_MAX] at fits; omega)
  have inside : firstOffset buildId + (entries.flatMap image).length ≤ b.length := by
    omega
  rw [len] at hentries
  refine ⟨_, ?_, (length_written inside).trans len,
    ⟨header.versions.written (by omega) (by omega), header.counts.written (by omega) (by omega)⟩,
    at_written inside⟩
  have large : ¬ buffer.length < sizeofHeader := by
    simp only [sizeofHeader]
    omega
  simp only [flatten, large, if_false, hheader, bind, Except.bind]
  exact hentries

/-! ## Reading back -/

/-- A key behind all the others is added at the end. -/
theorem Splits.at_end {n : Nat} (split : Splits (against cmpEntry entries e) entries.length n)
    (last : ∀ f ∈ entries, cmpEntry f e < 0) : n = entries.length := by
  by_contra short
  have inside : n < entries.length := Nat.lt_of_le_of_ne split.le short
  have above := split.above n (Nat.le_refl _) inside
  rw [against_of_lt inside] at above
  have below := last entries[n] (getElem_mem inside)
  omega

/-- `set` of an allowed entry behind the others, with room for it, adds it at the end. -/
theorem set_appends (nrand48 : ρ → Nat × ρ) {data rest : List UInt8} (tidy : Tidy c)
    (accounts : Accounts c) (allowed : Allowed c.limits e)
    (last : ∀ f ∈ c.entries, cmpEntry f e < 0) (fits : live (c.entries ++ [e]) ≤ PTRDIFF_MAX)
    (room : c.totalSize + e.size ≤ c.limits.maxTotalSize) (hkey : data.take e.key.length = e.key)
    (hvalue : rest.take e.value.length = e.value) :
    set nrand48 c ⟨data, e.key.length⟩ ⟨rest, e.value.length⟩ =
      .ok { c with entries := c.entries ++ [e], totalSize := c.totalSize + e.size } := by
  have klen : e.key.length ≤ data.length := by
    rw [← hkey, length_take]
    exact Nat.min_le_right _ _
  have vlen : e.value.length ≤ rest.length := by
    rw [← hvalue, length_take]
    exact Nat.min_le_right _ _
  have whole : live (c.entries ++ [e]) = live c.entries + e.footprint := by simp [live]
  rw [whole] at fits
  simp only [footprint, size, PTRDIFF_MAX, sizeofBlob] at fits
  simp only [size] at room
  have sum_le := allowed.size_le
  have key_pos := allowed.key_pos
  have key_le := allowed.key_le
  have value_pos := allowed.value_pos
  have value_le := allowed.value_le
  have bytes : (Blob.mk data e.key.length).bytes = e.key := hkey
  have copied : (Blob.mk rest e.value.length).bytes = e.value := hvalue
  obtain ⟨i, missing⟩ : ∃ i : Int, indexOrderOf c.entries ⟨data, e.key.length⟩ = .ok (false, i) := by
    rcases indexOrderOf_readable tidy.sorted
        (show (Blob.mk data e.key.length).size ≤ (Blob.mk data e.key.length).data.length from klen)
        e.value with ⟨n, found⟩ | ⟨n, missing, -⟩
    · -- an entry with the key would not be below it
      obtain ⟨f, hf, -, same, -⟩ := indexOrderOf_found found
      have below := last f (mem_of_getElem? hf)
      rw [bytes] at same
      rw [cmpEntry, same] at below
      have self := cmpEntry_compares.self e
      rw [cmpEntry] at self
      omega
    · exact ⟨n, missing⟩
  obtain ⟨n, hadd, split⟩ := addEntry_ok tidy.sorted (v := e.value) missing klen bytes.symm
  obtain rfl := Splits.at_end split last
  rw [take_length, drop_length, append_nil] at hadd
  have key_blob : copyBlob (live c.entries) ⟨data, e.key.length⟩ = .ok e.key := by
    rw [copyBlob, if_neg (by simp only [PTRDIFF_MAX, sizeofBlob]; omega),
      if_neg (Nat.not_lt.mpr klen), hkey]
  have value_blob : copyBlob (live c.entries + e.key.length + sizeofBlob)
      ⟨rest, e.value.length⟩ = .ok e.value := by
    rw [copyBlob, if_neg (by simp only [PTRDIFF_MAX, sizeofBlob]; omega),
      if_neg (Nat.not_lt.mpr vlen), hvalue]
  have total := accounts.total
  have le := held_le_live c.entries
  simp only [held] at total
  have unwrapped : wrap (c.totalSize + e.key.length + e.value.length) =
      c.totalSize + e.size := by
    rw [size, ← Nat.add_assoc]
    exact Nat.mod_eq_of_lt (by omega)
  have enough : ¬ c.limits.maxTotalSize < c.totalSize + e.size := by
    simp only [size]
    omega
  have round : setRound nrand48 c ⟨data, e.key.length⟩ ⟨rest, e.value.length⟩ =
      .ok (false, { c with entries := c.entries ++ [e], totalSize := c.totalSize + e.size }) := by
    simp only [setRound, missing, createEntry, key_blob, value_blob, unwrapped, enough, if_false,
      hadd, bind, Except.bind, Bool.false_eq_true]
  have small : wrap (e.key.length + e.value.length) = e.key.length + e.value.length :=
    Nat.mod_eq_of_lt (by omega)
  rw [set, if_neg (by show ¬ _ < e.key.length; omega),
    if_neg (by show ¬ _ < e.value.length; omega), if_neg (by simp only [small]; omega),
    if_neg (by show ¬ e.key.length = 0; omega), if_neg (by show ¬ e.value.length = 0; omega)]
  simp only [setLoop, round, bind, Except.bind, Bool.false_eq_true, if_false]

theorem unflattenEntries_ok (nrand48 : ρ → Nat × ρ) (numbers : buffer.length < 2 ^ 64) :
    ∀ (es : List CacheEntry) (offset : Nat) (c : Cache ρ), Accounts c →
    Tidy ({ c with entries := c.entries ++ es }) →
    held c + (es.map CacheEntry.size).sum ≤ c.limits.maxTotalSize →
    offset + spans es ≤ buffer.length → At buffer offset (es.flatMap CacheEntry.image) →
    ∃ c', unflattenEntries nrand48 buffer buffer.length es.length offset c = .ok (OK, c') ∧
      c'.entries = c.entries ++ es := by
  intro es
  induction es with
  | nil => exact fun offset c _ _ _ _ _ => ⟨c, rfl, (append_nil _).symm⟩
  | cons e es ih =>
    intro offset c accounts tidy room inside entriesAt
    obtain ⟨here, rest⟩ := entriesAt.append
    have whole : spans (e :: es) = e.span + spans es := rfl
    have sizes : ((e :: es).map CacheEntry.size).sum = e.size + (es.map CacheEntry.size).sum := rfl
    have fits : live (c.entries ++ e :: es) ≤ PTRDIFF_MAX := tidy.fits
    have small : e.size < 2 ^ 63 := small_of_fits fits (by simp)
    rw [CacheEntry.length_image small] at rest
    obtain ⟨keyAt, here⟩ := here.append
    obtain ⟨valueAt, here⟩ := here.append
    obtain ⟨key, here⟩ := here.append
    have value := here.append.1
    rw [toBytes_length] at valueAt key value
    have split : c.entries ++ e :: es = c.entries ++ [e] ++ es := by simp
    have sub : (c.entries ++ [e]).Sublist (c.entries ++ e :: es) := by
      rw [split]
      exact sublist_append_left _ _
    have live_split : live (c.entries ++ e :: es) = live (c.entries ++ [e]) + live es := by
      rw [split, live, live, live, map_append, sum_append]
    have live_front : live (c.entries ++ [e]) = live c.entries + e.footprint := by simp [live]
    have tidy_c : Tidy c := tidy.subset rfl (sublist_append_left _ _) (by
      show live c.entries ≤ live (c.entries ++ e :: es)
      omega)
    obtain ⟨entry, fit, -⟩ := CacheEntry.span_bounds small
    have fit' : 16 + (e.key.length + e.value.length) ≤ e.span := fit
    have small' : e.key.length + e.value.length < 2 ^ 63 := small
    have keySize := peek_at keyAt (show e.key.length < 256 ^ 8 by omega) (by decide)
    have valueSize := peek_at valueAt (show e.value.length < 256 ^ 8 by omega) (by decide)
    have hkey : (buffer.drop (offset + 16)).take e.key.length = e.key := key.slice
    have hvalue : ((buffer.drop (offset + 16)).drop e.key.length).take e.value.length = e.value := by
      rw [drop_drop]
      exact value.slice
    have last : ∀ f ∈ c.entries, cmpEntry f e < 0 := fun f hf =>
      (pairwise_append.mp tidy.sorted).2.2 f hf e mem_cons_self
    have total := accounts.total
    have stored := set_appends nrand48 tidy_c accounts
      (tidy.allowed e (by simp)) last (by omega) (by rw [total]; omega) hkey hvalue
    have next : wrap (offset + e.span) = offset + e.span := Nat.mod_eq_of_lt (by omega)
    have header : wrap (offset + sizeofEntryHeader) = offset + 16 :=
      Nat.mod_eq_of_lt (by simp only [sizeofEntryHeader]; omega)
    obtain ⟨c', hrest, entries'⟩ := ih (offset + e.span)
      { c with entries := c.entries ++ [e], totalSize := c.totalSize + e.size }
      ⟨by simp [held, total], by show c.totalSize + e.size ≤ c.limits.maxTotalSize; omega⟩
      (by rw [split] at tidy; exact ⟨tidy.sorted, tidy.allowed, tidy.fits⟩)
      (by
        have more : held { c with
            entries := c.entries ++ [e], totalSize := c.totalSize + e.size } =
            held c + e.size := by simp [held]
        rw [more]
        show held c + e.size + _ ≤ c.limits.maxTotalSize
        omega) (by omega) rest
    refine ⟨c', ?_, entries'.trans split.symm⟩
    have room₁ : ¬ buffer.length < offset + 16 := by omega
    have room₂ : ¬ buffer.length < offset + e.span := by omega
    rw [length_cons, unflattenEntries]
    simp only [CacheEntry.span] at next room₂ hrest
    simp only [header, room₁, if_false, keySize, valueSize, next, room₂, stored, bind, Except.bind,
      hrest]

theorem sameBuildId_slice {id rest : List UInt8} (same : rest.take id.length = id) :
    sameBuildId id rest = .ok true := by
  induction id generalizing rest with
  | nil => rfl
  | cons a as ih =>
    cases rest with
    | nil => cases same
    | cons b bs =>
      rw [length_cons, take_succ_cons, List.cons.injEq] at same
      rw [sameBuildId, if_pos same.1.symm, ih same.2]

/-- **Read back.** A buffer that `flatten` has filled gives the entries to a fresh cache with
the same limits. -/
theorem unflatten_ok (tidy : Tidy c) (accounts : Accounts c) (randState : ρ)
    (header : HeaderAt buffer buildId c.entries.length)
    (entriesAt : At buffer (firstOffset buildId) (c.entries.flatMap CacheEntry.image))
    (size : buffer.length = getFlattenedSize c.entries) :
    ∃ c', unflatten nrand48 buildId (Cache.fresh c.limits randState) buffer buffer.length =
        .ok (OK, c') ∧ c'.entries = c.entries := by
  rw [getFlattenedSize_eq tidy.fits] at size
  have fits := tidy.fits
  have total := spans_le_live tidy.fits
  simp only [PTRDIFF_MAX] at fits
  obtain ⟨id, -, start⟩ := firstOffset_bounds buildId
  have short := buildId.short
  have count := length_le_live c.entries
  obtain ⟨magic, versions⟩ := header.versions.append
  obtain ⟨version, versions⟩ := versions.append
  obtain ⟨numEntries, counts⟩ := header.counts.append
  obtain ⟨idLength, counts⟩ := counts.append
  have magic := peek_at magic (by decide) (by decide)
  have version : peek buffer 4 4 = _ := peek_at version (by decide) (by decide)
  have device : peek buffer 8 4 = _ := peek_at versions.append.1 (by decide) (by decide)
  have numEntries := peek_at numEntries (by omega) (by decide)
  have idLength : peek buffer 24 4 = _ := peek_at idLength (by omega) (by decide)
  have same : sameBuildId _ (buffer.drop 28) = _ := sameBuildId_slice counts.append.1.slice
  obtain ⟨c', hentries, entries'⟩ := unflattenEntries_ok nrand48
    (show buffer.length < 2 ^ 64 by omega) c.entries (firstOffset buildId)
    (Cache.fresh c.limits randState) (fresh_kept c.limits randState).accounts
    ⟨tidy.sorted, tidy.allowed, tidy.fits⟩
    (by
      have le := accounts.le_max
      rw [accounts.total, held] at le
      simpa [held, Cache.fresh] using le)
    (by omega) entriesAt
  refine ⟨c', ?_, entries'⟩
  have large : ¬ buffer.length < sizeofHeader := by
    simp only [sizeofHeader]
    omega
  simp only [unflatten, large, if_false, magic, ne_eq, not_true, sameVersion, version, device,
    idLength, or_self, same, if_true, numEntries, bind, Except.bind]
  exact hentries

/-- An error leaves no entries. -/
theorem unflatten_error {size : Nat} {r : Int}
    (done : unflatten nrand48 buildId c buffer size = .ok (r, c')) (failed : r ≠ OK) :
    c'.entries = [] := by
  have loop : ∀ (n offset : Nat) (c : Cache ρ), Outcome (fun _ => True)
      (fun r => r.1 ≠ OK → r.2.entries = []) (unflattenEntries nrand48 buffer size n offset c) := by
    intro n
    induction n with
    | zero => exact fun offset c failed => absurd rfl failed
    | succ n ih =>
      intro offset c
      refine .ite (fun _ _ => rfl) fun _ => (Outcome.any _).bind fun keySize _ => ?_
      refine (Outcome.any _).bind fun valueSize _ => .ite (fun _ _ => rfl) fun _ => ?_
      exact (Outcome.any _).bind fun c₁ _ => ih _ c₁
  exact (unflatten_ends nrand48 trivial (fun _ _ => rfl) fun _ => loop _ _ _).of_ok done failed

/-- **The round trip.** What a cache that has only seen `set` holds is flattened into a buffer
of `getFlattenedSize()` bytes and read back by a fresh cache with the same limits; and
whatever a buffer holds, a cache that fails to read it has no entries. -/
theorem blob_flatten_round_trip (nrand48 : ρ → Nat × ρ) (buildId : BuildId) :
    (∀ (limits : Limits) (randState randState' : ρ) (calls : List Call) (c : Cache ρ)
        (buffer : List UInt8),
      (∀ call ∈ calls, ∃ key keySize value valueSize, call = .set key keySize value valueSize) →
      run (exec nrand48 buildId) (Cache.fresh limits randState) calls = .ok c →
      buffer.length = getFlattenedSize c.entries →
      ∃ flat, flatten buildId c.entries buffer buffer.length = .ok (OK, flat) ∧
        ∃ c', unflatten nrand48 buildId (Cache.fresh limits randState') flat flat.length =
            .ok (OK, c') ∧ c'.entries = c.entries) ∧
      ∀ (c c' : Cache ρ) (buffer : List UInt8) (size : Nat) (r : Int),
        unflatten nrand48 buildId c buffer size = .ok (r, c') → r ≠ OK → c'.entries = [] := by
  refine ⟨?_, fun c c' buffer size r done failed => unflatten_error done failed⟩
  intro limits randState randState' calls c buffer sets reached size
  have start := fresh_kept limits randState
  -- a cache that has only seen `set` is in order
  have kept : Kept (Cache.fresh limits randState) c := by
    refine run_of_along (P := Meets buildId) (Q := Kept (Cache.fresh limits randState)) ?_ calls
      start (along_of_forall ?_) reached
    · intro c call c' kept meets hexec
      exact kept.trans ((exec_ends nrand48 kept.tidy kept.accounts meets).of_ok hexec)
    · intro call hcall c
      obtain ⟨key, keySize, value, valueSize, rfl⟩ := sets call hcall
      trivial
  obtain ⟨flat, hflatten, length, header, entriesAt⟩ := flatten_ok buildId kept.tidy.fits size
  refine ⟨flat, hflatten, ?_⟩
  have limits_eq : c.limits = limits := kept.limits
  rw [← limits_eq]
  exact unflatten_ok kept.tidy kept.accounts randState' header entriesAt (length.trans size)

/-- Two entries and a buffer of sevens. -/
theorem blob_flatten_round_trip_two_entries :
    run (exec first noBuildId) (Cache.fresh ⟨2, 2, 8⟩ ()) [.set [1] 1 [2] 1, .set [0] 1 [3, 4] 2] =
        .ok ⟨⟨2, 2, 8⟩, 5, [⟨[0], [3, 4]⟩, ⟨[1], [2]⟩], ()⟩ ∧
      ∃ flat, flatten noBuildId [⟨[0], [3, 4]⟩, ⟨[1], [2]⟩] (List.replicate 164 7) 164 =
          .ok (OK, flat) ∧
        ∃ c', unflatten first noBuildId (Cache.fresh ⟨2, 2, 8⟩ ()) flat flat.length = .ok (OK, c') ∧
          c'.entries = [⟨[0], [3, 4]⟩, ⟨[1], [2]⟩] := by
  have reached : run (exec first noBuildId) (Cache.fresh ⟨2, 2, 8⟩ ())
      [.set [1] 1 [2] 1, .set [0] 1 [3, 4] 2] =
        .ok ⟨⟨2, 2, 8⟩, 5, [⟨[0], [3, 4]⟩, ⟨[1], [2]⟩], ()⟩ := by decide +kernel
  have trip := (blob_flatten_round_trip first noBuildId).1 ⟨2, 2, 8⟩ () () _ _
    (List.replicate 164 7) (by simp) reached (by rw [length_replicate]; decide +kernel)
  exact ⟨reached, trip⟩

end SystemCore.Libutils.BlobCache
