import SystemCore.Lib.Outcome
import SystemCore.Libziparchive.NameLookup

/-!
# Where the parts of an accepted entry are

For a file that was opened and an entry that was found, the checks along the way put the local
header, the name behind it and the data before the central directory, and the directory before
the end record. All sums are of numbers of at most 32 bits, so none of them wraps around.
-/
namespace SystemCore.Libziparchive

open Lib

/-! ## Reading numbers -/

theorem off64Add_of_lt {a b : Nat} (h : a + b < 2 ^ 64) : off64Add a b = a + b :=
  Nat.mod_eq_of_lt h

/-- A field of a record, when only the bytes of the record are read. -/
theorem field_take {at_ w size : Nat} (h : at_ + w ≤ size) (bytes : List UInt8) :
    LittleEndian.field at_ w (bytes.take size) = LittleEndian.field at_ w bytes := by
  rw [LittleEndian.field, LittleEndian.field, List.drop_take, List.take_take,
    Nat.min_eq_left (by omega)]

theorem central_read_take (bytes : List UInt8) :
    CentralDirectoryRecord.read (bytes.take CentralDirectoryRecord.size) =
      CentralDirectoryRecord.read bytes := by
  unfold CentralDirectoryRecord.read CentralDirectoryRecord.size
  repeat rw [field_take (by decide)]

theorem local_read_take (bytes : List UInt8) :
    LocalFileHeader.read (bytes.take LocalFileHeader.size) = LocalFileHeader.read bytes := by
  unfold LocalFileHeader.read LocalFileHeader.size
  repeat rw [field_take (by decide)]

/-! ## The end record -/

theorem findEocd_some {scanBuffer : List UInt8} {n i : Nat} (h : findEocd scanBuffer n = some i) :
    i ≤ n ∧ isEocd scanBuffer i := by
  induction n with
  | zero =>
    unfold findEocd at h
    split at h
    · cases h
      exact ⟨Nat.le_refl _, ‹_›⟩
    · cases h
  | succ n ih =>
    unfold findEocd at h
    split at h
    · cases h
      exact ⟨Nat.le_refl _, ‹_›⟩
    · obtain ⟨hle, hi⟩ := ih h
      exact ⟨Nat.le_succ_of_le hle, hi⟩

/-- What the end record of an accepted file says, at its place in the file. -/
structure EndRecordAt (file : List UInt8) (eocdOffset : Nat) (d : Directory) : Prop where
  signature : LittleEndian.field eocdOffset 4 file = EocdRecord.kSignature
  start : d.directoryOffset = (EocdRecord.read (file.drop eocdOffset)).cdStartOffset
  map : d.directoryMap = (file.drop d.directoryOffset).take
    (EocdRecord.read (file.drop eocdOffset)).cdSize
  directory_le : d.directoryOffset + (EocdRecord.read (file.drop eocdOffset)).cdSize ≤ eocdOffset
  file_length : eocdOffset + EocdRecord.size +
    (EocdRecord.read (file.drop eocdOffset)).commentLength = file.length

variable {env : Env} {file : List UInt8} {a : ZipArchive} {entry : ZipEntry}

theorem mapCentralDirectory_ok {d : Directory} (h : mapCentralDirectory env file = .ok d) :
    file.length ≤ 0xffffffff ∧ ∃ eocdOffset, EndRecordAt file eocdOffset d := by
  obtain ⟨-, h⟩ := ok_of_check h
  obtain ⟨hlong, h⟩ := ok_of_check h
  obtain ⟨hshort, h⟩ := ok_of_check h
  have hlong : file.length ≤ 0xffffffff := Nat.le_of_not_lt hlong
  refine ⟨hlong, ?_⟩
  obtain ⟨-, h⟩ := ok_of_check h
  obtain ⟨-, h⟩ := ok_of_check h
  -- the buffer is the end of the file
  have hbuffer : (file.drop (file.length - min kMaxEOCDSearch file.length)).take
      (min kMaxEOCDSearch file.length) =
        file.drop (file.length - min kMaxEOCDSearch file.length) := by
    refine List.take_of_length_le ?_
    rw [List.length_drop]
    omega
  simp only [hbuffer] at h
  generalize hstart : file.length - min kMaxEOCDSearch file.length = searchStart at h
  split at h
  · cases h
  case h_2 i hi =>
    obtain ⟨hle, -, hsig⟩ := findEocd_some hi
    have hinside : searchStart + i + EocdRecord.size ≤ file.length := by
      unfold kMaxEOCDSearch kMaxCommentLen at *
      omega
    have hrecord : EocdRecord.size = 22 := rfl
    rw [List.drop_drop] at h
    generalize heocd : EocdRecord.read (file.drop (searchStart + i)) = eocd at h
    -- the numbers in the end record are small, so that their sums do not wrap around
    have hcomment : eocd.commentLength < 256 ^ 2 := by rw [← heocd]; exact field_lt _ _ _
    have hsize : eocd.cdSize < 256 ^ 4 := by rw [← heocd]; exact field_lt _ _ _
    have hcd : eocd.cdStartOffset < 256 ^ 4 := by rw [← heocd]; exact field_lt _ _ _
    simp (disch := omega) only [off64Add_of_lt] at h
    obtain ⟨hlength, h⟩ := ok_of_check h
    obtain ⟨hplace, h⟩ := ok_of_check h
    obtain ⟨-, h⟩ := ok_of_check h
    obtain ⟨-, h⟩ := ok_of_check h
    cases h
    subst heocd
    refine ⟨searchStart + i, ?_, rfl, rfl, Nat.le_of_not_lt hplace, not_not.mp hlength⟩
    rw [← hsig, LittleEndian.field, LittleEndian.field, List.drop_drop]

/-! ## The entry -/

/-- The record of an entry in the mapped directory and its local header in the file, with all
that `FindEntry` has made sure of. -/
structure EntryAt (a : ZipArchive) (name : ZipEntryName) (entry : ZipEntry)
    (cdr : CentralDirectoryRecord) (lfh : LocalFileHeader) : Prop where
  record : CentralDirectoryRecord.size ≤ name.name ∧
    cdr = recordAt a.directory.directoryMap (name.name - CentralDirectoryRecord.size)
  header : lfh = LocalFileHeader.read (a.file.drop cdr.localFileHeaderOffset)
  signature : lfh.lfhSignature = LocalFileHeader.kSignature
  name_length : lfh.fileNameLength = name.nameLength
  name_eq : nameOf a.directory.directoryMap name =
    (a.file.drop (cdr.localFileHeaderOffset + LocalFileHeader.size)).take name.nameLength
  name_le : cdr.localFileHeaderOffset + LocalFileHeader.size + name.nameLength ≤
    a.directory.directoryOffset
  offset : entry.offset = cdr.localFileHeaderOffset + LocalFileHeader.size + lfh.fileNameLength +
    lfh.extraFieldLength
  fields : entry.method = cdr.compressionMethod ∧ entry.compressedLength = cdr.compressedSize ∧
    entry.uncompressedLength = cdr.uncompressedSize ∧ entry.crc32 = cdr.crc32
  data_le : entry.offset + entry.compressedLength ≤ a.directory.directoryOffset
  stored_le : entry.method = kCompressStored →
    entry.offset + entry.uncompressedLength ≤ a.directory.directoryOffset
  agree : entry.hasDataDescriptor = false →
    lfh.compressedSize = cdr.compressedSize ∧ lfh.uncompressedSize = cdr.uncompressedSize ∧
      lfh.crc32 = cdr.crc32
  descriptor : entry.hasDataDescriptor = decide (lfh.gpbFlags &&& kGPBDDFlagMask ≠ 0)

theorem readAtOffset_some {len off : Nat} {bytes : List UInt8}
    (h : readAtOffset env file len off = some bytes) : bytes = (file.drop off).take len := by
  unfold readAtOffset at h
  dsimp only at h
  split at h
  · exact (Option.some.inj h).symm
  · cases h

theorem findEntryAt_ok {ent : Nat} {name : ZipEntryName} (hslot : a.hashTable ent = some name)
    (hinside : Inside a.directory.directoryMap name) (h : a.findEntryAt env ent = .ok entry) :
    ∃ cdr lfh, EntryAt a name entry cdr lfh := by
  unfold ZipArchive.findEntryAt at h
  rw [hslot] at h
  obtain ⟨hptr, h⟩ := ok_of_check h
  have hsize : CentralDirectoryRecord.size ≤ name.name := by omega
  have hplace : ((name.name : Int) - CentralDirectoryRecord.size).toNat =
      name.name - CentralDirectoryRecord.size := by omega
  have hrecord : name.name - CentralDirectoryRecord.size + CentralDirectoryRecord.size ≤
      a.directory.directoryMap.length := by
    unfold Inside at hinside
    omega
  have hread : CentralDirectoryRecord.read ((a.directory.directoryMap.drop
      (name.name - CentralDirectoryRecord.size)).take CentralDirectoryRecord.size) =
        recordAt a.directory.directoryMap (name.name - CentralDirectoryRecord.size) := rfl
  rw [hplace, bytesAt_of_le hrecord] at h
  simp only [hread] at h
  generalize hcdr : recordAt a.directory.directoryMap
    (name.name - CentralDirectoryRecord.size) = cdr at h
  -- the numbers in the two headers are small, so that their sums do not wrap around
  have hlocal : cdr.localFileHeaderOffset < 256 ^ 4 := by rw [← hcdr]; exact field_lt _ _ _
  have hcomp : cdr.compressedSize < 256 ^ 4 := by rw [← hcdr]; exact field_lt _ _ _
  have huncomp : cdr.uncompressedSize < 256 ^ 4 := by rw [← hcdr]; exact field_lt _ _ _
  obtain ⟨-, h⟩ := ok_of_check h
  split at h
  · cases h
  case h_2 lfhBuf hbuf =>
    rw [readAtOffset_some hbuf, local_read_take] at h
    generalize hlfh : LocalFileHeader.read (a.file.drop cdr.localFileHeaderOffset) = lfh at h
    have hnlen : lfh.fileNameLength < 256 ^ 2 := by rw [← hlfh]; exact field_lt _ _ _
    have hxlen : lfh.extraFieldLength < 256 ^ 2 := by rw [← hlfh]; exact field_lt _ _ _
    have hheader : LocalFileHeader.size = 30 := rfl
    simp (disch := omega) only [off64Add_of_lt] at h
    obtain ⟨hsig, h⟩ := ok_of_check h
    obtain ⟨hagree, h⟩ := ok_of_check h
    obtain ⟨hlen, h⟩ := ok_of_check h
    obtain ⟨hnamele, h⟩ := ok_of_check h
    split at h
    · cases h
    case h_2 nameBuf hnameBuf =>
      rw [readAtOffset_some hnameBuf, bytesAt_of_le hinside] at h
      obtain ⟨hsame, h⟩ := ok_of_check h
      obtain ⟨-, h⟩ := ok_of_check h
      obtain ⟨hdatale, h⟩ := ok_of_check h
      obtain ⟨hstored, h⟩ := ok_of_check h
      cases h
      have hlen := not_not.mp hlen
      refine ⟨cdr, lfh, ⟨hsize, hcdr.symm⟩, hlfh.symm, not_not.mp hsig, hlen, not_not.mp hsame,
        ?_, rfl, ⟨rfl, rfl, rfl, rfl⟩, Nat.le_of_not_lt hdatale, fun hmethod => ?_,
        fun hnone => ?_, rfl⟩
      · rw [← hlen]
        exact Nat.le_of_not_lt hnamele
      · exact Nat.le_of_not_lt fun hgt => hstored ⟨hmethod, hgt⟩
      · have hboth : cdr.compressedSize = lfh.compressedSize ∧
            cdr.uncompressedSize = lfh.uncompressedSize ∧ cdr.crc32 = lfh.crc32 := by
          by_contra hne
          refine hagree ⟨hnone, ?_⟩
          tauto
        exact ⟨hboth.1.symm, hboth.2.1.symm, hboth.2.2.symm⟩

/-! ## Files that are opened -/

theorem mem_entriesFrom {cd : List UInt8} {n ptr : Nat} {e : ZipEntryName}
    (h : e ∈ entriesFrom cd n ptr) : ∃ ptr', e = entryAt cd ptr' := by
  induction n generalizing ptr with
  | zero => cases h
  | succ n ih =>
    rcases List.mem_cons.mp h with rfl | h
    · exact ⟨ptr, rfl⟩
    · exact ih h

theorem openArchiveInternal_ok (h : openArchiveInternal env file = .ok a) :
    mapCentralDirectory env file = .ok a.directory ∧ a.file = file ∧
      ∃ s, parseZipArchive a.directory = .ok s ∧ a.hashTable = s.hashTable := by
  unfold openArchiveInternal at h
  split at h
  · cases h
  case h_2 d hd =>
    split at h
    · cases h
    case h_2 s hs =>
      cases h
      exact ⟨hd, rfl, s, hs, rfl⟩

/-- The slot that a name leads to, and the record there. -/
theorem findEntry_ok {env' : Env} {name : List UInt8} (hopen : openArchiveInternal env file = .ok a)
    (hfind : a.findEntry env' name = .ok entry) :
    ∃ ptr ent, Inside a.directory.directoryMap (entryAt a.directory.directoryMap ptr) ∧
      nameOf a.directory.directoryMap (entryAt a.directory.directoryMap ptr) = name ∧
      a.hashTable ent = some (entryAt a.directory.directoryMap ptr) ∧
      a.findEntryAt env' ent = .ok entry := by
  obtain ⟨-, -, s, hs, htable⟩ := openArchiveInternal_ok hopen
  obtain ⟨hindexed, hlen⟩ := Indexed.of_parse hs
  obtain ⟨-, hfind⟩ := ok_of_check hfind
  rw [htable, ZipArchive.hashTableSize] at hfind
  rcases hindexed.entryToIndex hlen name with ⟨i, -, e, he, hslot, hname, hok⟩ | ⟨-, herror⟩
  · simp only [hok] at hfind
    obtain ⟨ptr, rfl⟩ := mem_entriesFrom he
    exact ⟨ptr, i, hindexed.inside _ he, hname, htable ▸ hslot, hfind⟩
  · simp only [herror] at hfind
    cases hfind

/-- For a file that was opened and a name that was found: the central directory lies before the
end record, which with its comment ends the file. In the directory is a record with this name.
The local header that it points to, the same name behind the header and the data lie before the
directory, and so would stored data of the uncompressed length. Without a data descriptor the
sizes and the checksum are the same in both headers. -/
theorem accepted_entry_placed {env env' : Env} {file name : List UInt8} {a : ZipArchive}
    {entry : ZipEntry} (hopen : openArchiveInternal env file = .ok a)
    (hfind : a.findEntry env' name = .ok entry) :
    ∃ eocdOffset ptr,
      let eocd := EocdRecord.read (file.drop eocdOffset)
      let cdStart := a.directory.directoryOffset
      let cdr := CentralDirectoryRecord.read (file.drop (cdStart + ptr))
      let lfh := LocalFileHeader.read (file.drop cdr.localFileHeaderOffset)
      (LittleEndian.field eocdOffset 4 file = EocdRecord.kSignature ∧
        cdStart = eocd.cdStartOffset ∧ cdStart + eocd.cdSize ≤ eocdOffset ∧
        eocdOffset + EocdRecord.size + eocd.commentLength = file.length) ∧
      (ptr + CentralDirectoryRecord.size + name.length ≤ eocd.cdSize ∧
        cdr.fileNameLength = name.length ∧
        (file.drop (cdStart + ptr + CentralDirectoryRecord.size)).take name.length = name) ∧
      (lfh.lfhSignature = LocalFileHeader.kSignature ∧ lfh.fileNameLength = name.length ∧
        cdr.localFileHeaderOffset + LocalFileHeader.size + name.length ≤ cdStart ∧
        (file.drop (cdr.localFileHeaderOffset + LocalFileHeader.size)).take name.length = name) ∧
      (entry.offset = cdr.localFileHeaderOffset + LocalFileHeader.size + lfh.fileNameLength +
          lfh.extraFieldLength ∧
        entry.compressedLength = cdr.compressedSize ∧
        entry.uncompressedLength = cdr.uncompressedSize ∧ entry.crc32 = cdr.crc32 ∧
        entry.method = cdr.compressionMethod) ∧
      entry.offset + entry.compressedLength ≤ cdStart ∧
      (entry.method = kCompressStored → entry.offset + entry.uncompressedLength ≤ cdStart) ∧
      (entry.hasDataDescriptor = decide (lfh.gpbFlags &&& kGPBDDFlagMask ≠ 0) ∧
        (entry.hasDataDescriptor = false →
          lfh.compressedSize = cdr.compressedSize ∧ lfh.uncompressedSize = cdr.uncompressedSize ∧
            lfh.crc32 = cdr.crc32)) := by
  obtain ⟨hdirectory, hfile, -⟩ := openArchiveInternal_ok hopen
  obtain ⟨-, eocdOffset, hend⟩ := mapCentralDirectory_ok hdirectory
  obtain ⟨ptr, ent, hinside, hname, hslot, hat⟩ := findEntry_ok hopen hfind
  obtain ⟨cdr, lfh, hentry⟩ := findEntryAt_ok hslot hinside hat
  have hlen : name.length = (entryAt a.directory.directoryMap ptr).nameLength := by
    rw [← hname, hinside.length_nameOf]
  -- the directory in memory is a part of the file
  have hcdlen : a.directory.directoryMap.length =
      (EocdRecord.read (file.drop eocdOffset)).cdSize := by
    have hle := hend.directory_le
    have hlength := hend.file_length
    rw [hend.map, List.length_take, List.length_drop]
    omega
  have hdrop : ∀ i n, i + n ≤ a.directory.directoryMap.length →
      (a.directory.directoryMap.drop i).take n =
        (file.drop (a.directory.directoryOffset + i)).take n := by
    intro i n hin
    rw [hend.map, List.drop_take, List.take_take, List.drop_drop, Nat.min_eq_left (by omega)]
  have hrecord : ptr + CentralDirectoryRecord.size + name.length ≤
      a.directory.directoryMap.length := by
    rw [hlen]
    exact hinside
  have hcdr : cdr = CentralDirectoryRecord.read (file.drop (a.directory.directoryOffset + ptr)) := by
    rw [hentry.record.2, ← central_read_take, ← hdrop ptr _ (by omega)]
    have hptr : (entryAt a.directory.directoryMap ptr).name - CentralDirectoryRecord.size = ptr :=
      Nat.add_sub_cancel _ _
    rfl
  have hlfh : lfh = LocalFileHeader.read (file.drop cdr.localFileHeaderOffset) := by
    rw [hentry.header, hfile]
  have hcdname : cdr.fileNameLength = name.length := by
    rw [hlen, hcdr, ← central_read_take, ← hdrop ptr _ (by omega)]
    rfl
  refine ⟨eocdOffset, ptr, ?_⟩
  simp only [← hcdr, ← hlfh]
  refine ⟨⟨hend.signature, hend.start, hend.directory_le, hend.file_length⟩,
    ⟨hcdlen ▸ hrecord, hcdname, ?_⟩,
    ⟨hentry.signature, hentry.name_length.trans hlen.symm, ?_, ?_⟩,
    ⟨hentry.offset, hentry.fields.2.1, hentry.fields.2.2.1, hentry.fields.2.2.2, hentry.fields.1⟩,
    hentry.data_le, hentry.stored_le, hentry.descriptor, hentry.agree⟩
  · rw [Nat.add_assoc, ← hdrop _ _ (by omega), hlen]
    exact hname
  · rw [hlen]
    exact hentry.name_le
  · rw [hlen, ← hfile, ← hentry.name_eq]
    exact hname

/-- The second of the two empty entries has its data at the start of the directory. -/
theorem accepted_entry_placed_two :
    ∃ a entry, openArchiveInternal ⟨true, true, true, fun _ => true⟩ twoEntriesFile = .ok a ∧
      a.findEntry ⟨true, true, true, fun _ => true⟩ [98] = .ok entry ∧
      entry.offset + entry.compressedLength ≤ a.directory.directoryOffset := by
  obtain ⟨a, ha, hsome⟩ := Runs.exists_ok_of_any
    (r := openArchiveInternal ⟨true, true, true, fun _ => true⟩ twoEntriesFile)
    (f := fun a => (a.findEntry ⟨true, true, true, fun _ => true⟩ [98]).toOption.isSome)
    (by decide +kernel)
  cases hfind : a.findEntry ⟨true, true, true, fun _ => true⟩ [98] with
  | error e =>
    rw [hfind] at hsome
    cases hsome
  | ok entry =>
    obtain ⟨eocdOffset, ptr, -, -, -, -, hdata, -⟩ := accepted_entry_placed ha hfind
    exact ⟨a, entry, ha, hfind, hdata⟩

end SystemCore.Libziparchive
