import SystemCore.Libziparchive.Indexing

/-!
# Finding names and going through them

In the table that the scan leaves, a search ends for every name, and finds exactly the names of
the records. Going through the archive visits the slots in order, so it comes to every record
whose name begins and ends as asked for, and to each of them once.
-/
namespace SystemCore.Libziparchive

open Lib ZipArchive List

/-! ## Searching -/

variable {entries : List ZipEntryName} {d : Directory} {s : Scan}

theorem Indexed.entryToIndex (h : Indexed d s entries)
    (hlen : entries.length < hashTableSize d.numEntries) (name : List UInt8) :
    (∃ i < hashTableSize d.numEntries, ∃ e ∈ entries, s.hashTable i = some e ∧
        nameOf d.directoryMap e = name ∧
        Libziparchive.entryToIndex d.directoryMap s.hashTable (hashTableSize d.numEntries) name =
          .ok i) ∨
      name ∉ entries.map (nameOf d.directoryMap) ∧
        Libziparchive.entryToIndex d.directoryMap s.hashTable (hashTableSize d.numEntries) name =
          .error (.returned kEntryNotFound) := by
  unfold Libziparchive.entryToIndex
  rcases h.probeName hlen name with ⟨i, hi, e, he, hslot, hname, hprobe⟩ | ⟨hnew, k, -, hprobe, -⟩
  · exact Or.inl ⟨i, hi, e, he, hslot, hname, by simp only [hprobe]⟩
  · exact Or.inr ⟨hnew, by simp only [hprobe]⟩

theorem Indexed.addToHash_ends (h : Indexed d s entries)
    (hlen : entries.length < hashTableSize d.numEntries) (e : ZipEntryName) :
    Libziparchive.addToHash d.directoryMap s.hashTable (hashTableSize d.numEntries) e ≠
      .error .endless := by
  have hread : bytesAt d.directoryMap e.name e.nameLength ≠ .error .endless := by
    unfold bytesAt
    split
    · exact fun h => nomatch h
    · split <;> exact fun h => nomatch h
  unfold Libziparchive.addToHash
  cases hbytes : bytesAt d.directoryMap e.name e.nameLength with
  | error err =>
    intro heq
    cases heq
    exact hread hbytes
  | ok name =>
    rcases h.probeName hlen name with ⟨i, -, -, -, -, -, hprobe⟩ | ⟨-, k, -, hprobe, -⟩
    · simp only [hprobe]
      exact fun h => nomatch h
    · simp only [hprobe]
      exact fun h => nomatch h

/-! ## Going through the archive -/

namespace ZipArchive

/-- What repeated calls of `Next` return, up to the end. -/
inductive Iterates (env : Env) (a : ZipArchive) : IterationHandle → List ZipEntryName → Prop where
  | done {handle : IterationHandle} :
      (a.next env handle).2 = .error (.returned kIterationEnd) → Iterates env a handle []
  | more {handle : IterationHandle} {data : ZipEntry} {name : ZipEntryName}
      {names : List ZipEntryName} :
      (a.next env handle).2 = .ok (data, name) → Iterates env a (a.next env handle).1 names →
        Iterates env a handle (name :: names)

def Asked (namePrefix nameSuffix name : List UInt8) : Prop :=
  namePrefix <+: name ∧ nameSuffix <:+ name

instance (namePrefix nameSuffix name : List UInt8) :
    Decidable (Asked namePrefix nameSuffix name) :=
  inferInstanceAs (Decidable (_ ∧ _))

variable {cd : List UInt8} {e : ZipEntryName}

theorem partMatches_front (h : Inside cd e) (part : List UInt8) :
    partMatches cd part e 0 = .ok (decide (part <+: nameOf cd e)) := by
  have hlen := h.length_nameOf
  unfold partMatches
  by_cases hempty : part.length = 0
  · rw [if_pos hempty, eq_nil_of_length_eq_zero hempty, decide_eq_true nil_prefix]
  rw [if_neg hempty]
  by_cases hle : e.nameLength ≥ part.length
  · have htake : (nameOf cd e).take part.length = (cd.drop (e.name + 0)).take part.length := by
      rw [nameOf, take_take, Nat.min_eq_left hle, Nat.add_zero]
    unfold Inside at h
    rw [if_pos hle, bytesAt_of_le (by omega), ← htake]
    simp only [prefix_iff_eq_take]
  · rw [if_neg hle, decide_eq_false fun hpre => hle (hlen ▸ hpre.length_le)]

theorem partMatches_back (h : Inside cd e) (part : List UInt8) :
    partMatches cd part e (e.nameLength - part.length) =
      .ok (decide (part <:+ nameOf cd e)) := by
  have hlen := h.length_nameOf
  unfold partMatches
  by_cases hempty : part.length = 0
  · rw [if_pos hempty, eq_nil_of_length_eq_zero hempty, decide_eq_true nil_suffix]
  rw [if_neg hempty]
  by_cases hle : e.nameLength ≥ part.length
  · have hdrop : (nameOf cd e).drop ((nameOf cd e).length - part.length) =
        (cd.drop (e.name + (e.nameLength - part.length))).take part.length := by
      rw [hlen, nameOf, drop_take, drop_drop,
        show e.nameLength - (e.nameLength - part.length) = part.length by omega]
    unfold Inside at h
    rw [if_pos hle, bytesAt_of_le (by omega), ← hdrop]
    simp only [suffix_iff_eq_drop]
  · rw [if_neg hle, decide_eq_false fun hsuf => hle (hlen ▸ hsuf.length_le)]

theorem nameMatches_of_inside (h : Inside cd e) (handle : IterationHandle) :
    nameMatches cd handle e =
      .ok (decide (Asked handle.namePrefix handle.nameSuffix (nameOf cd e))) := by
  unfold nameMatches
  rw [partMatches_front h, partMatches_back h]
  by_cases hpre : handle.namePrefix <+: nameOf cd e
  · simp [Asked, hpre]
  · simp [Asked, hpre]

variable {a : ZipArchive} {namePrefix nameSuffix : List UInt8}

/-- The slots from a place on whose names are asked for. -/
def askedFrom (a : ZipArchive) (namePrefix nameSuffix : List UInt8) :
    Nat → Nat → List (Nat × ZipEntryName)
  | 0, _ => []
  | n + 1, i =>
    match a.hashTable i with
    | none => askedFrom a namePrefix nameSuffix n (i + 1)
    | some e =>
      if Asked namePrefix nameSuffix (nameOf a.directory.directoryMap e) then
        (i, e) :: askedFrom a namePrefix nameSuffix n (i + 1)
      else askedFrom a namePrefix nameSuffix n (i + 1)

theorem nextMatch_eq (handle : IterationHandle) {n : Nat} :
    ∀ {i : Nat}, (∀ j < i + n, ∀ e, a.hashTable j = some e → Inside a.directory.directoryMap e) →
      nextMatch a handle n i =
        .ok (askedFrom a handle.namePrefix handle.nameSuffix n i).head? := by
  induction n with
  | zero => exact fun _ => rfl
  | succ n ih =>
    intro i hinside
    have hrest := ih (i := i + 1) fun j hj => hinside j (by omega)
    unfold nextMatch askedFrom
    cases he : a.hashTable i with
    | none => exact hrest
    | some e =>
      have hmatches := nameMatches_of_inside (hinside i (by omega) e he) handle
      by_cases hasked : Asked handle.namePrefix handle.nameSuffix
          (nameOf a.directory.directoryMap e)
      · simp [hmatches, hasked]
      · simp only [hmatches, hasked, decide_false, if_false]
        exact hrest

theorem askedFrom_eq {n : Nat} :
    ∀ {i : Nat}, askedFrom a namePrefix nameSuffix n i =
      (List.range' i n).filterMap fun j => (a.hashTable j).bind fun e =>
        if Asked namePrefix nameSuffix (nameOf a.directory.directoryMap e) then some (j, e)
        else none := by
  induction n with
  | zero => exact rfl
  | succ n ih =>
    intro i
    rw [askedFrom, List.range'_succ, filterMap_cons, ih]
    cases a.hashTable i with
    | none => rfl
    | some e =>
      dsimp only [Option.bind_some]
      split <;> rfl

theorem asked_slot {j : Nat} {x : Nat × ZipEntryName} :
    ((a.hashTable j).bind fun e =>
        if Asked namePrefix nameSuffix (nameOf a.directory.directoryMap e) then some (j, e)
        else none) = some x ↔
      x.1 = j ∧ a.hashTable x.1 = some x.2 ∧
        Asked namePrefix nameSuffix (nameOf a.directory.directoryMap x.2) := by
  simp only [Option.bind_eq_some_iff, Option.ite_none_right_eq_some, Option.some.injEq]
  constructor
  · rintro ⟨e, hslot, hasked, rfl⟩
    exact ⟨rfl, hslot, hasked⟩
  · rintro ⟨rfl, hslot, hasked⟩
    exact ⟨x.2, hslot, hasked, rfl⟩

variable {n i : Nat} {x : Nat × ZipEntryName}

/-- Behind a slot that is asked for come the rest. -/
theorem askedFrom_cons {xs : List (Nat × ZipEntryName)}
    (h : askedFrom a namePrefix nameSuffix n i = x :: xs) :
    i ≤ x.1 ∧ x.1 < i + n ∧ a.hashTable x.1 = some x.2 ∧
      xs = askedFrom a namePrefix nameSuffix (i + n - (x.1 + 1)) (x.1 + 1) := by
  rw [askedFrom_eq, filterMap_eq_cons_iff] at h
  obtain ⟨before, j, after, hrange, -, hx, rfl⟩ := h
  obtain ⟨rfl, hslot, -⟩ := asked_slot.mp hx
  obtain ⟨k, hk, -, hafter⟩ := List.range'_eq_append_iff.mp hrange
  obtain ⟨hplace, hpos, rfl⟩ := List.range'_eq_cons_iff.mp hafter.symm
  refine ⟨by omega, by omega, hslot, ?_⟩
  rw [askedFrom_eq, show n - k - 1 = i + n - (x.1 + 1) by omega]

/-- From a position on, the calls return the names that are asked for in the slots from there. -/
theorem iterates_from {env : Env} (size : Nat) (hsize : a.hashTableSize = size)
    (hinside : ∀ j < size, ∀ e, a.hashTable j = some e → Inside a.directory.directoryMap e)
    (hfind : ∀ j < size, a.hashTable j ≠ none → ∃ data, a.findEntryAt env j = .ok data) :
    ∀ {slots : List (Nat × ZipEntryName)} {handle : IterationHandle},
      handle.position ≤ size →
      askedFrom a handle.namePrefix handle.nameSuffix (size - handle.position) handle.position =
        slots →
      Iterates env a handle (slots.map (·.2)) := by
  intro slots
  induction slots with
  | nil =>
    intro handle hpos hslots
    have hmatch := nextMatch_eq (a := a) handle (n := size - handle.position)
      (i := handle.position) fun j hj => hinside j (by omega)
    rw [hslots] at hmatch
    refine .done ?_
    unfold next
    rw [hsize, hmatch]
    rfl
  | cons x slots ih =>
    intro handle hpos hslots
    obtain ⟨hle, hlt, hslot, hrest⟩ := askedFrom_cons hslots
    have hlt' : x.1 < size := by omega
    have hmatch := nextMatch_eq (a := a) handle (n := size - handle.position)
      (i := handle.position) fun j hj => hinside j (by omega)
    rw [hslots] at hmatch
    obtain ⟨data, hdata⟩ := hfind x.1 hlt' (by rw [hslot]; exact Option.some_ne_none _)
    have hnext : a.next env handle = ({ handle with position := x.1 + 1 }, .ok (data, x.2)) := by
      unfold next
      rw [hsize, hmatch]
      simp only [List.head?_cons, hdata]
    have hmore : Iterates env a { handle with position := x.1 + 1 } (slots.map (·.2)) := by
      refine @ih { handle with position := x.1 + 1 } hlt' ?_
      rw [hrest, Nat.add_sub_of_le hpos]
    have hok : (a.next env handle).2 = .ok (data, x.2) := by rw [hnext]
    refine .more hok ?_
    · rw [hnext]
      exact hmore

theorem mem_askedFrom :
    x ∈ askedFrom a namePrefix nameSuffix n i ↔
      (i ≤ x.1 ∧ x.1 < i + n) ∧ a.hashTable x.1 = some x.2 ∧
        Asked namePrefix nameSuffix (nameOf a.directory.directoryMap x.2) := by
  rw [askedFrom_eq, mem_filterMap]
  constructor
  · rintro ⟨j, hj, hx⟩
    obtain ⟨rfl, hslot⟩ := asked_slot.mp hx
    exact ⟨mem_range'_1.mp hj, hslot⟩
  · rintro ⟨hrange, hslot⟩
    exact ⟨x.1, mem_range'_1.mpr hrange, asked_slot.mpr ⟨rfl, hslot⟩⟩

theorem nodup_askedFrom : (askedFrom a namePrefix nameSuffix n i).Nodup := by
  rw [askedFrom_eq]
  refine List.Nodup.filterMap (fun j k x hj hk => ?_) nodup_range'
  exact (asked_slot.mp hj).1.symm.trans (asked_slot.mp hk).1

end ZipArchive

/-! ## Archives that are accepted -/

/-- After a scan that comes to its end, no two records have the same name, a search for any name
ends and finds exactly the names of the records, at the slot of the record, and going through the
archive with any beginning and end of a name comes to the records that have them, each once. -/
theorem zip_name_index (d : Directory) (s : Scan) (h : parseZipArchive d = .ok s) :
    let cd := d.directoryMap
    let size := hashTableSize d.numEntries
    let entries := entriesFrom cd d.numEntries.toNat 0
    (entries.map (nameOf cd)).Nodup ∧
      (∀ name, entryToIndex cd s.hashTable size name ≠ .error .endless) ∧
      (∀ e, addToHash cd s.hashTable size e ≠ .error .endless) ∧
      (∀ name, (∃ ent, entryToIndex cd s.hashTable size name = .ok ent) ↔
        ∃ e ∈ entries, nameOf cd e = name) ∧
      (∀ e ∈ entries, ∃ ent < size, s.hashTable ent = some e ∧
        entryToIndex cd s.hashTable size (nameOf cd e) = .ok ent) ∧
      ∀ (file : List UInt8) (env : Env) (optionalPrefix optionalSuffix : Option (List UInt8)),
        (∀ ent < size, s.hashTable ent ≠ none →
          ∃ data, findEntryAt env ⟨file, d, s.hashTable⟩ ent = .ok data) →
        ∃ names, ZipArchive.Iterates env ⟨file, d, s.hashTable⟩
            (startIteration optionalPrefix optionalSuffix) names ∧
          names.Perm (entries.filter fun e =>
            ZipArchive.Asked (optionalPrefix.getD []) (optionalSuffix.getD []) (nameOf cd e)) := by
  intro cd size entries
  obtain ⟨hindexed, hlen⟩ := Indexed.of_parse h
  refine ⟨hindexed.nodup, fun name => ?_, hindexed.addToHash_ends hlen, fun name => ?_,
    fun e he => ?_, fun file env optionalPrefix optionalSuffix hfind => ?_⟩
  · rcases hindexed.entryToIndex hlen name with ⟨i, -, -, -, -, -, hok⟩ | ⟨-, herror⟩
    · rw [hok]
      exact fun h => nomatch h
    · rw [herror]
      exact fun h => nomatch h
  · rcases hindexed.entryToIndex hlen name with ⟨i, -, e, he, -, hname, hok⟩ | ⟨hnot, herror⟩
    · exact ⟨fun _ => ⟨e, he, hname⟩, fun _ => ⟨i, hok⟩⟩
    · constructor
      · rintro ⟨ent, hok⟩
        rw [herror] at hok
        cases hok
      · exact fun ⟨e, he, hname⟩ => absurd (mem_map.mpr ⟨e, he, hname⟩) hnot
  · rcases hindexed.entryToIndex hlen (nameOf cd e) with ⟨i, hi, x, hx, hslot, hname, hok⟩ | ⟨hnot, -⟩
    · have hsame : x = e := inj_on_of_nodup_map hindexed.nodup hx he hname
      exact ⟨i, hi, hsame ▸ hslot, hok⟩
    · exact absurd (mem_map_of_mem he) hnot
  · let a : ZipArchive := ⟨file, d, s.hashTable⟩
    let slots := askedFrom a (optionalPrefix.getD []) (optionalSuffix.getD []) size 0
    have hiter : ZipArchive.Iterates env a (startIteration optionalPrefix optionalSuffix)
        (slots.map (·.2)) := by
      refine iterates_from (a := a) size rfl (fun j hj e he => ?_) hfind (Nat.zero_le _) rfl
      exact hindexed.inside e (hindexed.slot_mem hj he)
    refine ⟨_, hiter, ?_⟩
    have hslot : ∀ x ∈ slots, x.1 < size ∧ s.hashTable x.1 = some x.2 := by
      intro x hx
      obtain ⟨hrange, hslot, -⟩ := mem_askedFrom.mp hx
      exact ⟨by omega, hslot⟩
    -- two slots with the same entry are the same slot
    have hnodup : (slots.map (·.2)).Nodup := by
      refine nodup_askedFrom.map_on fun x hx y hy heq => Prod.ext ?_ heq
      obtain ⟨hxlt, hx⟩ := hslot x hx
      obtain ⟨hylt, hy⟩ := hslot y hy
      exact hindexed.placed.distinct hxlt hylt hx hy (by rw [heq])
    rw [perm_ext_iff_of_nodup hnodup ((List.Nodup.of_map _ hindexed.nodup).filter _)]
    intro e
    rw [mem_filter, mem_map, hindexed.mem]
    simp only [decide_eq_true_eq]
    constructor
    · rintro ⟨x, hx, rfl⟩
      obtain ⟨hrange, hslot, hasked⟩ := mem_askedFrom.mp hx
      exact ⟨⟨x.1, by omega, hslot⟩, hasked⟩
    · rintro ⟨⟨i, hi, hslot⟩, hasked⟩
      exact ⟨(i, e), mem_askedFrom.mpr ⟨⟨Nat.zero_le _, by omega⟩, hslot, hasked⟩, rfl⟩

/-! ## An archive with two entries -/

def localRecord (name : List UInt8) : List UInt8 :=
  LittleEndian.toBytes 4 LocalFileHeader.kSignature ++ List.replicate 22 0 ++
    LittleEndian.toBytes 2 name.length ++ LittleEndian.toBytes 2 0 ++ name

def centralRecord (localOffset : Nat) (name : List UInt8) : List UInt8 :=
  LittleEndian.toBytes 4 CentralDirectoryRecord.kSignature ++ List.replicate 24 0 ++
    LittleEndian.toBytes 2 name.length ++ List.replicate 12 0 ++
    LittleEndian.toBytes 4 localOffset ++ name

def endRecord (numRecords cdSize cdStart : Nat) : List UInt8 :=
  LittleEndian.toBytes 4 EocdRecord.kSignature ++ List.replicate 6 0 ++
    LittleEndian.toBytes 2 numRecords ++ LittleEndian.toBytes 4 cdSize ++
    LittleEndian.toBytes 4 cdStart ++ LittleEndian.toBytes 2 0

/-- The directory of two empty entries. -/
def twoEntries : Directory where
  directoryOffset := 62
  directoryMap := centralRecord 0 [97] ++ centralRecord 31 [98]
  numEntries := 2

def twoEntriesFile : List UInt8 :=
  localRecord [97] ++ localRecord [98] ++ twoEntries.directoryMap ++ endRecord 2 94 62

/-- Going through the names that begin with the second letter. -/
theorem zip_name_index_two :
    ∃ s, parseZipArchive twoEntries = .ok s ∧
      (∃ ent, entryToIndex twoEntries.directoryMap s.hashTable 4 [98] = .ok ent) ∧
      ZipArchive.Iterates ⟨true, true, true, fun _ => true⟩
        ⟨twoEntriesFile, twoEntries, s.hashTable⟩
        (ZipArchive.startIteration (some [98]) none) [⟨93, 1⟩] := by
  obtain ⟨s, hs, hfind⟩ := Runs.exists_ok_of_any (r := parseZipArchive twoEntries)
    (f := fun s => (List.range 4).all fun ent => s.hashTable ent = none ∨
      (findEntryAt ⟨true, true, true, fun _ => true⟩
        ⟨twoEntriesFile, twoEntries, s.hashTable⟩ ent).toOption.isSome = true) (by decide +kernel)
  obtain ⟨-, -, -, hindex, -, hiter⟩ := zip_name_index twoEntries s hs
  have hfound : ∀ ent < hashTableSize twoEntries.numEntries, s.hashTable ent ≠ none →
      ∃ data, findEntryAt ⟨true, true, true, fun _ => true⟩
        ⟨twoEntriesFile, twoEntries, s.hashTable⟩ ent = .ok data := by
    intro ent hent hsome
    have hsize : hashTableSize twoEntries.numEntries = 4 := by decide +kernel
    have hany := all_eq_true.mp hfind ent (mem_range.mpr hent)
    rcases of_decide_eq_true hany with hnone | hsome'
    · exact absurd hnone hsome
    · cases hdata : findEntryAt ⟨true, true, true, fun _ => true⟩
          ⟨twoEntriesFile, twoEntries, s.hashTable⟩ ent with
      | ok data => exact ⟨data, rfl⟩
      | error e =>
        rw [hdata] at hsome'
        cases hsome'
  obtain ⟨names, hnames, hperm⟩ :=
    hiter twoEntriesFile ⟨true, true, true, fun _ => true⟩ (some [98]) none hfound
  have hlist : names = [⟨93, 1⟩] := perm_singleton.mp (hperm.trans (by decide +kernel))
  refine ⟨s, hs, (hindex [98]).mpr (by decide +kernel), ?_⟩
  rw [← hlist]
  exact hnames

end SystemCore.Libziparchive
