import SystemCore.Lib.Masks
import SystemCore.Libziparchive.ValidNames
import SystemCore.Libziparchive.ZipArchive

/-!
# What the scan of the directory leaves in the index

The table has a power of 2 of slots, and more of them than the archive can have entries. As far
as the scan has come, the table holds the names of the records behind it, each once and where a
search finds it.
-/
namespace SystemCore.Libziparchive

open Lib List CentralDirectoryRecord

/-! ## The size of the table -/

theorem roundUpPower2_toNat (val : UInt32) (hpos : 1 ≤ val.toNat) (hle : val.toNat ≤ 2 ^ 31) :
    (roundUpPower2 val).toNat = 2 ^ (val.toNat - 1).size := by
  have hsub : (val - 1).toNat = val.toNat - 1 := by
    have hone : (1 : UInt32) ≤ val := UInt32.le_iff_toNat_le.mpr hpos
    exact UInt32.toNat_sub_of_le val 1 hone
  have hlt : val.toNat - 1 < 2 ^ 31 := by omega
  have hsize : (val.toNat - 1).size ≤ 31 := Nat.size_le.mpr hlt
  have h1 := (spread_one (val.toNat - 1)).double
  have h2 := h1.double
  have h4 := h2.double
  have h8 := h4.double
  have h16 := h8.double
  have hfull := h16.eq_two_pow_sub_one (Nat.lt_trans hlt (by decide))
  have hpow : 2 ^ (val.toNat - 1).size < 2 ^ 32 :=
    Nat.lt_of_le_of_lt (Nat.pow_le_pow_right (by decide) hsize) (by decide)
  have hone : 1 ≤ 2 ^ (val.toNat - 1).size := Nat.one_le_two_pow
  unfold roundUpPower2
  simp only [UInt32.toNat_add, UInt32.toNat_or, UInt32.toNat_shiftRight, hsub]
  simp only [show (2 : UInt32).toNat % 32 = 2 from rfl, show (4 : UInt32).toNat % 32 = 4 from rfl,
    show (8 : UInt32).toNat % 32 = 8 from rfl, show (16 : UInt32).toNat % 32 = 16 from rfl,
    show (1 : UInt32).toNat = 1 from rfl]
  rw [hfull, Nat.sub_add_cancel hone, Nat.mod_eq_of_lt hpow]

variable (numEntries : UInt16)

/-- The table has a power of 2 of slots, and more than there are entries. -/
theorem hashTableSize_spec :
    (∃ k, hashTableSize numEntries = 2 ^ k) ∧ numEntries.toNat < hashTableSize numEntries := by
  have hlt := numEntries.toNat_lt
  have hval : (UInt32.ofNat (1 + numEntries.toNat * 4 / 3)).toNat = 1 + numEntries.toNat * 4 / 3 :=
    UInt32.toNat_ofNat_of_lt' (by unfold UInt32.size; omega)
  have hround := roundUpPower2_toNat (UInt32.ofNat (1 + numEntries.toNat * 4 / 3))
    (by omega) (by omega)
  rw [hval, Nat.add_sub_cancel_left] at hround
  refine ⟨⟨_, hround⟩, ?_⟩
  have hsize : numEntries.toNat * 4 / 3 < 2 ^ (numEntries.toNat * 4 / 3).size := Nat.lt_size_self _
  unfold hashTableSize
  omega

theorem firstSlot_lt (name : List UInt8) :
    firstSlot (hashTableSize numEntries) name < hashTableSize numEntries := by
  obtain ⟨⟨k, hk⟩, -⟩ := hashTableSize_spec numEntries
  unfold firstSlot
  rw [hk, Nat.and_two_pow_sub_one_eq_mod]
  exact Nat.mod_lt _ (Nat.two_pow_pos k)

theorem nextSlot_eq (ent : Nat) :
    nextSlot (hashTableSize numEntries) ent = (ent + 1) % hashTableSize numEntries := by
  obtain ⟨⟨k, hk⟩, -⟩ := hashTableSize_spec numEntries
  unfold nextSlot
  rw [hk, Nat.and_two_pow_sub_one_eq_mod]

/-! ## Names in the table -/

def nameOf (cd : List UInt8) (entry : ZipEntryName) : List UInt8 :=
  (cd.drop entry.name).take entry.nameLength

def Inside (cd : List UInt8) (entry : ZipEntryName) : Prop :=
  entry.name + entry.nameLength ≤ cd.length

variable {cd : List UInt8} {d : Directory} {entry : ZipEntryName} {s : Scan}

theorem Inside.length_nameOf (h : Inside cd entry) :
    (nameOf cd entry).length = entry.nameLength := by
  unfold Inside at h
  rw [nameOf, length_take, length_drop]
  omega

theorem bytesAt_of_le {ptr len : Nat} (h : ptr + len ≤ cd.length) :
    bytesAt cd ptr len = .ok ((cd.drop ptr).take len) := by
  unfold bytesAt
  by_cases hzero : len = 0
  · rw [if_pos hzero, hzero]
    rfl
  · rw [if_neg hzero, if_pos h]

theorem sameName_of_inside (h : Inside cd entry) (name : List UInt8) :
    sameName cd name entry = .ok (decide (nameOf cd entry = name)) := by
  unfold sameName
  by_cases hlen : entry.nameLength = name.length
  · rw [if_pos hlen, bytesAt_of_le h]
    rfl
  · have hne : nameOf cd entry ≠ name := by
      intro heq
      have := h.length_nameOf
      rw [heq] at this
      exact hlen this.symm
    rw [if_neg hlen, decide_eq_false hne]

/-- The names of the records that were scanned are in the table, and nothing else is. -/
structure Indexed (d : Directory) (s : Scan) (entries : List ZipEntryName) : Prop where
  ptr_le : s.ptr ≤ d.directoryMap.length
  inside : ∀ e ∈ entries, Inside d.directoryMap e
  nodup : (entries.map (nameOf d.directoryMap)).Nodup
  mem : ∀ e, e ∈ entries ↔ ∃ i < hashTableSize d.numEntries, s.hashTable i = some e
  placed : LinearProbe.Placed (hashTableSize d.numEntries)
    (firstSlot (hashTableSize d.numEntries)) (nameOf d.directoryMap) s.hashTable

theorem indexed_start (d : Directory) : Indexed d Scan.start [] := by
  refine ⟨Nat.zero_le _, fun e he => absurd he not_mem_nil, nodup_nil, fun e => ?_,
    LinearProbe.placed_empty _ _ _⟩
  constructor
  · exact fun he => absurd he not_mem_nil
  · rintro ⟨i, -, hi⟩
    cases hi

namespace Indexed

variable {d : Directory} {s : Scan} {entries : List ZipEntryName} (h : Indexed d s entries)

include h

theorem slot_mem {i : Nat} {e : ZipEntryName} (hi : i < hashTableSize d.numEntries)
    (he : s.hashTable i = some e) : e ∈ entries :=
  (h.mem e).mpr ⟨i, hi, he⟩

theorem absent {name : List UInt8} (hname : name ∉ entries.map (nameOf d.directoryMap)) :
    ∀ i < hashTableSize d.numEntries, ∀ e, s.hashTable i = some e → nameOf d.directoryMap e ≠ name :=
  fun _ hi e he heq => hname (mem_map.mpr ⟨e, h.slot_mem hi he, heq⟩)

variable (hlen : entries.length < hashTableSize d.numEntries)

include hlen

/-- With fewer entries than slots, one slot is empty. -/
theorem exists_empty : ∃ i < hashTableSize d.numEntries, s.hashTable i = none := by
  by_contra hfull
  have hsome : ∀ i < hashTableSize d.numEntries, ∃ e, s.hashTable i = some e := by
    intro i hi
    exact Option.ne_none_iff_exists'.mp fun hnone => hfull ⟨i, hi, hnone⟩
  -- the names in the slots are distinct and all among those of the entries
  let names := (List.range (hashTableSize d.numEntries)).map fun i =>
    (s.hashTable i).map (nameOf d.directoryMap)
  have hnames : names.Nodup := by
    refine nodup_range.map_on fun i hi j hj heq => ?_
    obtain ⟨e, he⟩ := hsome i (mem_range.mp hi)
    obtain ⟨e', he'⟩ := hsome j (mem_range.mp hj)
    rw [he, he', Option.map_some, Option.map_some] at heq
    exact h.placed.distinct (mem_range.mp hi) (mem_range.mp hj) he he'
      (Option.some.inj heq)
  have hsub : names ⊆ entries.map fun e => some (nameOf d.directoryMap e) := by
    intro x hx
    obtain ⟨i, hi, rfl⟩ := mem_map.mp hx
    obtain ⟨e, he⟩ := hsome i (mem_range.mp hi)
    exact mem_map.mpr ⟨e, h.slot_mem (mem_range.mp hi) he, by rw [he]; rfl⟩
  have hle := (hnames.subperm hsub).length_le
  simp only [names, length_map, length_range] at hle
  omega

/-- The search for a name ends, at the entry with this name or at an empty slot. -/
theorem probeName (name : List UInt8) :
    (∃ i < hashTableSize d.numEntries, ∃ e ∈ entries, s.hashTable i = some e ∧
        nameOf d.directoryMap e = name ∧
        Libziparchive.probeName d.directoryMap s.hashTable (hashTableSize d.numEntries) name =
          .ok (i, true)) ∨
      (name ∉ entries.map (nameOf d.directoryMap)) ∧
        ∃ k < hashTableSize d.numEntries,
          Libziparchive.probeName d.directoryMap s.hashTable (hashTableSize d.numEntries) name =
            .ok (ProbeChain.place (firstSlot (hashTableSize d.numEntries) name) 1
              (hashTableSize d.numEntries) k, false) ∧
          s.hashTable (ProbeChain.place (firstSlot (hashTableSize d.numEntries) name) 1
              (hashTableSize d.numEntries) k) = none ∧
          ∀ j < k, s.hashTable (ProbeChain.place (firstSlot (hashTableSize d.numEntries) name) 1
              (hashTableSize d.numEntries) j) ≠ none := by
  have hnext : ∀ i < hashTableSize d.numEntries,
      nextSlot (hashTableSize d.numEntries) i = (i + 1) % hashTableSize d.numEntries :=
    fun i _ => nextSlot_eq d.numEntries i
  have htest : ∀ i < hashTableSize d.numEntries, ∀ e, s.hashTable i = some e →
      sameName d.directoryMap name e = .ok (decide (nameOf d.directoryMap e = name)) :=
    fun i hi e he => sameName_of_inside (h.inside e (h.slot_mem hi he)) name
  have hstart := firstSlot_lt d.numEntries name
  by_cases hmem : name ∈ entries.map (nameOf d.directoryMap)
  · obtain ⟨e, he, hname⟩ := mem_map.mp hmem
    obtain ⟨i, hi, hslot⟩ := (h.mem e).mp he
    exact .inl ⟨i, hi, e, he, hslot, hname,
      h.placed.probe_present hnext htest hstart hi hslot hname⟩
  · obtain ⟨k, hk, hprobe, hnone, hpath⟩ :=
      LinearProbe.probe_absent hnext htest hstart (h.exists_empty hlen) (h.absent hmem)
    exact .inr ⟨hmem, k, hk, hprobe, hnone, hpath⟩

/-- A record's name is added, or there is an entry with this name. -/
theorem addToHash {e : ZipEntryName} (he : Inside d.directoryMap e) :
    Libziparchive.addToHash d.directoryMap s.hashTable (hashTableSize d.numEntries) e =
        .error (.returned kDuplicateEntry) ∨
      ∃ table,
        Libziparchive.addToHash d.directoryMap s.hashTable (hashTableSize d.numEntries) e =
          .ok table ∧
        ∀ ptr ≤ d.directoryMap.length, Indexed d ⟨ptr, table⟩ (entries ++ [e]) := by
  have hbytes : bytesAt d.directoryMap e.name e.nameLength = .ok (nameOf d.directoryMap e) :=
    bytesAt_of_le he
  unfold Libziparchive.addToHash
  rw [hbytes]
  rcases h.probeName hlen (nameOf d.directoryMap e) with
    ⟨i, -, -, -, -, -, hprobe⟩ | ⟨hnew, k, hk, hprobe, hnone, hpath⟩
  · exact .inl (by simp only [hprobe])
  simp only [hprobe]
  have hslot := ProbeChain.place_lt (s := firstSlot (hashTableSize d.numEntries)
    (nameOf d.directoryMap e)) (d := 1) (Nat.lt_of_le_of_lt (Nat.zero_le _) hk) k
  refine .inr ⟨_, rfl, fun ptr hptr => ⟨hptr, fun x hx => ?_, ?_, fun x => ?_,
    h.placed.insert hk hpath (h.absent hnew)⟩⟩
  · rcases mem_append.mp hx with hx | hx
    · exact h.inside x hx
    · rw [mem_singleton.mp hx]
      exact he
  · rw [map_append, map_singleton, nodup_append']
    refine ⟨h.nodup, nodup_singleton _, fun x hx hx' => ?_⟩
    rw [mem_singleton.mp hx'] at hx
    exact hnew hx
  · dsimp only
    rw [mem_append, mem_singleton, h.mem]
    constructor
    · rintro (⟨i, hi, hx⟩ | rfl)
      · refine ⟨i, hi, ?_⟩
        rw [Function.update_of_ne]
        · exact hx
        · rintro rfl
          rw [hnone] at hx
          cases hx
      · exact ⟨_, hslot, Function.update_self ..⟩
    · rintro ⟨i, hi, hx⟩
      by_cases heq : i = ProbeChain.place (firstSlot (hashTableSize d.numEntries)
          (nameOf d.directoryMap e)) 1 (hashTableSize d.numEntries) k
      · rw [heq, Function.update_self] at hx
        exact .inr (Option.some.inj hx).symm
      · rw [Function.update_of_ne heq] at hx
        exact .inl ⟨i, hi, hx⟩

end Indexed

/-! ## One record -/

def recordAt (cd : List UInt8) (ptr : Nat) : CentralDirectoryRecord :=
  CentralDirectoryRecord.read ((cd.drop ptr).take CentralDirectoryRecord.size)

def entryAt (cd : List UInt8) (ptr : Nat) : ZipEntryName :=
  ⟨ptr + CentralDirectoryRecord.size, (recordAt cd ptr).fileNameLength⟩

def recordEnd (cd : List UInt8) (ptr : Nat) : Nat :=
  ptr + (CentralDirectoryRecord.size + (recordAt cd ptr).fileNameLength +
    (recordAt cd ptr).extraFieldLength + (recordAt cd ptr).commentLength)

/-- The scan comes to the name of the record at this place. -/
def ReachesName (d : Directory) (ptr : Nat) : Prop :=
  ptr + CentralDirectoryRecord.size ≤ d.directoryMap.length ∧
    (recordAt d.directoryMap ptr).recordSignature = CentralDirectoryRecord.kSignature ∧
    (recordAt d.directoryMap ptr).localFileHeaderOffset < d.directoryOffset

/-- If the scan comes to the name, the name ends inside the directory, or the part of it that is
there is not the beginning of a valid name. -/
def NameInDirectory (d : Directory) (ptr : Nat) : Prop :=
  ReachesName d ptr →
    Inside d.directoryMap (entryAt d.directoryMap ptr) ∨
      ∀ rest, ¬ ValidName (d.directoryMap.drop (ptr + CentralDirectoryRecord.size) ++ rest)

/-- What becomes of one record. -/
inductive Scanned (d : Directory) (s : Scan) (entries : List ZipEntryName) :
    Except Stop Scan → Prop where
  | refused (result : Int) (h : NameInDirectory d s.ptr) :
      Scanned d s entries (.error (.returned result))
  | outOfRange (h : ¬ NameInDirectory d s.ptr) : Scanned d s entries (.error .outOfRange)
  | added {s' : Scan} (h : NameInDirectory d s.ptr) (hreach : ReachesName d s.ptr)
      (hptr : s'.ptr = recordEnd d.directoryMap s.ptr)
      (hindexed : Indexed d s' (entries ++ [entryAt d.directoryMap s.ptr])) :
      Scanned d s entries (.ok s')

theorem Indexed.parseRecord {entries : List ZipEntryName} (h : Indexed d s entries)
    (hlen : entries.length < hashTableSize d.numEntries) :
    Scanned d s entries (parseRecord d s) := by
  unfold Libziparchive.parseRecord
  by_cases hhead : s.ptr + size ≤ d.directoryMap.length
  case neg =>
    rw [if_pos (by omega)]
    exact .refused _ fun hreach => absurd hreach.1 hhead
  have hrecord : read
      ((d.directoryMap.drop s.ptr).take size) =
        recordAt d.directoryMap s.ptr := rfl
  rw [if_neg (by omega), bytesAt_of_le hhead]
  simp only [hrecord]
  by_cases hsig : (recordAt d.directoryMap s.ptr).recordSignature = kSignature
  case neg =>
    rw [if_pos hsig]
    exact .refused _ fun hreach => absurd hreach.2.1 hsig
  rw [if_neg (not_not_intro hsig)]
  by_cases hoffset : (recordAt d.directoryMap s.ptr).localFileHeaderOffset < d.directoryOffset
  case neg =>
    rw [if_pos (Nat.le_of_not_lt hoffset)]
    exact .refused _ fun hreach => absurd hreach.2.2 hoffset
  have hreach : ReachesName d s.ptr := ⟨hhead, hsig, hoffset⟩
  rw [if_neg (Nat.not_le_of_lt hoffset)]
  have hfits : Inside d.directoryMap (entryAt d.directoryMap s.ptr) ↔
      (recordAt d.directoryMap s.ptr).fileNameLength ≤
        (d.directoryMap.drop (s.ptr + size)).length := by
    unfold Inside entryAt
    rw [length_drop]
    dsimp only
    omega
  by_cases hinside : Inside d.directoryMap (entryAt d.directoryMap s.ptr)
  case neg =>
    rcases isValidEntryName_cut (Nat.lt_of_not_le (mt hfits.mpr hinside)) with ⟨hvalid, hrest⟩ | ⟨hvalid, rest, hrest⟩
    · have hname : NameInDirectory d s.ptr := fun _ => .inr hrest
      simp only [hvalid]
      exact .refused _ hname
    · have hname : ¬ NameInDirectory d s.ptr := by
        intro hname
        rcases hname hreach with hin | hall
        · exact hinside hin
        · exact hall rest hrest
      simp only [hvalid]
      exact .outOfRange hname
  have hname : NameInDirectory d s.ptr := fun _ => .inl hinside
  have hvalid := isValidEntryName_inside (hfits.mp hinside)
  simp only [hvalid]
  by_cases hok : ValidName ((d.directoryMap.drop (s.ptr + size)).take
      (recordAt d.directoryMap s.ptr).fileNameLength)
  case neg =>
    simp only [decide_eq_false hok]
    exact .refused _ hname
  simp only [decide_eq_true hok]
  rcases h.addToHash hlen hinside with hadd | ⟨table, hadd, hindexed⟩
  · rw [entryAt] at hadd
    simp only [hadd]
    exact .refused _ hname
  · rw [entryAt] at hadd
    simp only [hadd]
    show Scanned d s entries (if recordEnd d.directoryMap s.ptr > _ then _ else _)
    by_cases hend : recordEnd d.directoryMap s.ptr ≤ d.directoryMap.length
    · rw [if_neg (Nat.not_lt_of_le hend)]
      exact .added hname hreach rfl (hindexed _ hend)
    · rw [if_pos (Nat.lt_of_not_le hend)]
      exact .refused _ hname

/-! ## All records -/

def entriesFrom (cd : List UInt8) : Nat → Nat → List ZipEntryName
  | 0, _ => []
  | n + 1, ptr => entryAt cd ptr :: entriesFrom cd n (recordEnd cd ptr)

theorem length_entriesFrom (cd : List UInt8) (n ptr : Nat) : (entriesFrom cd n ptr).length = n := by
  induction n generalizing ptr with
  | zero => rfl
  | succ n ih => rw [entriesFrom, length_cons, ih]

/-- The table after a scan that comes to its end. -/
theorem Indexed.run {k : Nat} :
    ∀ {s s' : Scan} {entries : List ZipEntryName}, Indexed d s entries →
      entries.length + k ≤ d.numEntries.toNat →
      Runs.run (fun s (_ : Unit) => Libziparchive.parseRecord d s) s (List.replicate k ()) = .ok s' →
      Indexed d s' (entries ++ entriesFrom d.directoryMap k s.ptr) := by
  have hsize := (hashTableSize_spec d.numEntries).2
  induction k with
  | zero =>
    intro s s' entries h _ hrun
    cases hrun
    rwa [entriesFrom, append_nil]
  | succ k ih =>
    intro s s' entries h hlen hrun
    obtain ⟨s₁, hstep, hrest⟩ := Runs.run_cons_inv hrun
    have hscanned := h.parseRecord (by omega)
    rw [hstep] at hscanned
    cases hscanned with
    | added _ _ hptr hindexed =>
      have hall := ih hindexed (by rw [length_append, length_singleton]; omega) hrest
      rwa [hptr, append_assoc, singleton_append] at hall

theorem Indexed.of_parse (h : parseZipArchive d = .ok s) :
    Indexed d s (entriesFrom d.directoryMap d.numEntries.toNat 0) ∧
      (entriesFrom d.directoryMap d.numEntries.toNat 0).length < hashTableSize d.numEntries := by
  have hrun := (indexed_start d).run (k := d.numEntries.toNat) (by simp) h
  rw [nil_append] at hrun
  rw [length_entriesFrom]
  exact ⟨hrun, (hashTableSize_spec d.numEntries).2⟩

end SystemCore.Libziparchive
