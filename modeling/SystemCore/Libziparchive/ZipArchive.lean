import SystemCore.Lib.Runs
import SystemCore.Libziparchive.NameIndex

/-!
# Opening an archive and finding entries

The end record is searched for from the end of the file. It says where the central directory is,
which is mapped and scanned once. What is asked for later is compared with the local header in
the file. Whether the system calls work is a parameter.
-/
namespace SystemCore.Libziparchive

open Lib

/-- Which system calls work. -/
structure Env where
  lseek : Bool
  read : Bool
  map : Bool
  /-- Reading at an offset. -/
  pread : Nat → Bool

def off64Add (a b : Nat) : Nat := (a + b) % 2 ^ 64

/-! ## The central directory -/

structure Directory where
  directoryOffset : Nat
  directoryMap : List UInt8
  numEntries : UInt16
  deriving DecidableEq, Repr

def isEocd (scanBuffer : List UInt8) (i : Nat) : Prop :=
  scanBuffer[i]? = some 0x50 ∧ LittleEndian.field i 4 scanBuffer = EocdRecord.kSignature

instance (scanBuffer : List UInt8) (i : Nat) : Decidable (isEocd scanBuffer i) :=
  inferInstanceAs (Decidable (_ ∧ _))

/-- The search backwards. -/
def findEocd (scanBuffer : List UInt8) : Nat → Option Nat
  | 0 => if isEocd scanBuffer 0 then some 0 else none
  | i + 1 => if isEocd scanBuffer (i + 1) then some (i + 1) else findEocd scanBuffer i

def mapCentralDirectory0 (env : Env) (file : List UInt8) (readAmount : Nat) :
    Except Stop Directory :=
  let searchStart := file.length - readAmount
  if env.lseek = false then .error (.returned kIoError)
  else if env.read = false then .error (.returned kIoError)
  else
    let scanBuffer := (file.drop searchStart).take readAmount
    match findEocd scanBuffer (readAmount - EocdRecord.size) with
    | none => .error (.returned kInvalidFile)
    | some i =>
      let eocdOffset := off64Add searchStart i
      let eocd := EocdRecord.read (scanBuffer.drop i)
      let calculatedLength := off64Add (off64Add eocdOffset EocdRecord.size) eocd.commentLength
      if calculatedLength ≠ file.length then .error (.returned kInvalidFile)
      else if off64Add eocd.cdStartOffset eocd.cdSize > eocdOffset then
        .error (.returned kInvalidOffset)
      else if eocd.numRecords = 0 then .error (.returned kEmptyArchive)
      else if env.map = false then .error (.returned kMmapFailed)
      else
        .ok
          { directoryOffset := eocd.cdStartOffset
            directoryMap := (file.drop eocd.cdStartOffset).take eocd.cdSize
            numEntries := UInt16.ofNat eocd.numRecords }

def mapCentralDirectory (env : Env) (file : List UInt8) : Except Stop Directory :=
  if env.lseek = false then .error (.returned kInvalidFile)
  else if file.length > 0xffffffff then .error (.returned kInvalidFile)
  else if file.length < EocdRecord.size then .error (.returned kInvalidFile)
  else mapCentralDirectory0 env file (min kMaxEOCDSearch file.length)

/-! ## Scanning the directory -/

structure Scan where
  ptr : Nat
  hashTable : HashTable

def hashTableSize (numEntries : UInt16) : Nat :=
  (roundUpPower2 (UInt32.ofNat (1 + numEntries.toNat * 4 / 3))).toNat

/-- One record. The name is checked and added before its end is compared with the end of the
directory. -/
def parseRecord (d : Directory) (s : Scan) : Except Stop Scan :=
  let cd := d.directoryMap
  if (s.ptr : Int) > cd.length - CentralDirectoryRecord.size then .error (.returned (-1))
  else
    match bytesAt cd s.ptr CentralDirectoryRecord.size with
    | .error e => .error e
    | .ok bytes =>
      let cdr := CentralDirectoryRecord.read bytes
      if cdr.recordSignature ≠ CentralDirectoryRecord.kSignature then .error (.returned (-1))
      else if cdr.localFileHeaderOffset ≥ d.directoryOffset then .error (.returned (-1))
      else
        let fileName := s.ptr + CentralDirectoryRecord.size
        match isValidEntryName (byteAt cd fileName) cdr.fileNameLength with
        | .error e => .error e
        | .ok false => .error (.returned (-1))
        | .ok true =>
          match addToHash cd s.hashTable (hashTableSize d.numEntries)
              ⟨fileName, cdr.fileNameLength⟩ with
          | .error e => .error e
          | .ok hashTable =>
            let ptr := s.ptr + (CentralDirectoryRecord.size + cdr.fileNameLength +
              cdr.extraFieldLength + cdr.commentLength)
            if ptr > cd.length then .error (.returned (-1)) else .ok ⟨ptr, hashTable⟩

def Scan.start : Scan := ⟨0, fun _ => none⟩

/-- The loop over the records, with nothing but their number. -/
def parseZipArchive (d : Directory) : Except Stop Scan :=
  Runs.run (fun s (_ : Unit) => parseRecord d s) Scan.start (List.replicate d.numEntries.toNat ())

/-! ## Archives -/

structure ZipArchive where
  /-- What is read from the descriptor. -/
  file : List UInt8
  directory : Directory
  hashTable : HashTable

def ZipArchive.hashTableSize (a : ZipArchive) : Nat :=
  Libziparchive.hashTableSize a.directory.numEntries

def openArchiveInternal (env : Env) (file : List UInt8) : Except Stop ZipArchive :=
  match mapCentralDirectory env file with
  | .error e => .error e
  | .ok directory =>
    match parseZipArchive directory with
    | .error e => .error e
    | .ok scan => .ok ⟨file, directory, scan.hashTable⟩

structure ZipEntry where
  method : Nat
  modTime : Nat
  hasDataDescriptor : Bool
  crc32 : Nat
  compressedLength : Nat
  uncompressedLength : Nat
  offset : Nat
  deriving DecidableEq, Repr

/-- All the bytes or nothing. -/
def readAtOffset (env : Env) (file : List UInt8) (len off : Nat) : Option (List UInt8) :=
  let bytes := (file.drop off).take len
  if env.pread off = true ∧ bytes.length = len then some bytes else none

namespace ZipArchive

/-- `FindEntry` for a slot of the hash table. -/
def findEntryAt (env : Env) (a : ZipArchive) (ent : Nat) : Except Stop ZipEntry :=
  match a.hashTable ent with
  | none => .error (.returned kInvalidOffset)
  | some name =>
    let nameLen := name.nameLength
    let cd := a.directory.directoryMap
    let ptr : Int := name.name - CentralDirectoryRecord.size
    if ptr < 0 ∨ ptr > cd.length then .error (.returned kInvalidOffset)
    else
      match bytesAt cd ptr.toNat CentralDirectoryRecord.size with
      | .error e => .error e
      | .ok bytes =>
        let cdr := CentralDirectoryRecord.read bytes
        let cdOffset := a.directory.directoryOffset
        let localHeaderOffset := cdr.localFileHeaderOffset
        if off64Add localHeaderOffset LocalFileHeader.size ≥ cdOffset then
          .error (.returned kInvalidOffset)
        else
          match readAtOffset env a.file LocalFileHeader.size localHeaderOffset with
          | none => .error (.returned kIoError)
          | some lfhBuf =>
            let lfh := LocalFileHeader.read lfhBuf
            if lfh.lfhSignature ≠ LocalFileHeader.kSignature then .error (.returned kInvalidOffset)
            else
              let hasDataDescriptor := decide (lfh.gpbFlags &&& kGPBDDFlagMask ≠ 0)
              if hasDataDescriptor = false ∧
                  (cdr.compressedSize ≠ lfh.compressedSize ∨
                    cdr.uncompressedSize ≠ lfh.uncompressedSize ∨ cdr.crc32 ≠ lfh.crc32) then
                .error (.returned kInconsistentInformation)
              else if lfh.fileNameLength ≠ nameLen then .error (.returned kInconsistentInformation)
              else
                let nameOffset := off64Add localHeaderOffset LocalFileHeader.size
                if off64Add nameOffset lfh.fileNameLength > cdOffset then
                  .error (.returned kInvalidOffset)
                else
                  match readAtOffset env a.file nameLen nameOffset with
                  | none => .error (.returned kIoError)
                  | some nameBuf =>
                    match bytesAt cd name.name nameLen with
                    | .error e => .error e
                    | .ok cdName =>
                      if cdName ≠ nameBuf then .error (.returned kInconsistentInformation)
                      else
                        let dataOffset := off64Add (off64Add (off64Add localHeaderOffset
                          LocalFileHeader.size) lfh.fileNameLength) lfh.extraFieldLength
                        if dataOffset > cdOffset then .error (.returned kInvalidOffset)
                        else if off64Add dataOffset cdr.compressedSize > cdOffset then
                          .error (.returned kInvalidOffset)
                        else if cdr.compressionMethod = kCompressStored ∧
                            off64Add dataOffset cdr.uncompressedSize > cdOffset then
                          .error (.returned kInvalidOffset)
                        else
                          .ok
                            { method := cdr.compressionMethod
                              modTime := cdr.lastModDate <<< 16 ||| cdr.lastModTime
                              hasDataDescriptor := hasDataDescriptor
                              crc32 := cdr.crc32
                              compressedLength := cdr.compressedSize
                              uncompressedLength := cdr.uncompressedSize
                              offset := dataOffset }

def findEntry (env : Env) (a : ZipArchive) (entryName : List UInt8) : Except Stop ZipEntry :=
  if entryName.length = 0 then .error (.returned kInvalidEntryName)
  else
    match entryToIndex a.directory.directoryMap a.hashTable a.hashTableSize entryName with
    | .error e => .error e
    | .ok ent => a.findEntryAt env ent

/-! ## Iteration -/

/-- A name that is not given and an empty one are the same. -/
structure IterationHandle where
  position : Nat
  namePrefix : List UInt8
  nameSuffix : List UInt8
  deriving DecidableEq, Repr

def startIteration (optionalPrefix optionalSuffix : Option (List UInt8)) : IterationHandle :=
  ⟨0, optionalPrefix.getD [], optionalSuffix.getD []⟩

/-- Whether a part of a name, `skip` bytes from its start, is as given. -/
def partMatches (cd part : List UInt8) (name : ZipEntryName) (skip : Nat) : Except Stop Bool :=
  if part.length = 0 then .ok true
  else if name.nameLength ≥ part.length then
    match bytesAt cd (name.name + skip) part.length with
    | .error e => .error e
    | .ok bytes => .ok (decide (part = bytes))
  else .ok false

/-- The condition in the loop of `Next`. -/
def nameMatches (cd : List UInt8) (handle : IterationHandle) (name : ZipEntryName) :
    Except Stop Bool :=
  match partMatches cd handle.namePrefix name 0 with
  | .error e => .error e
  | .ok false => .ok false
  | .ok true =>
    partMatches cd handle.nameSuffix name (name.nameLength - handle.nameSuffix.length)

/-- The first slot from `i` on whose name matches, among as many as there are left. -/
def nextMatch (a : ZipArchive) (handle : IterationHandle) :
    Nat → Nat → Except Stop (Option (Nat × ZipEntryName))
  | 0, _ => .ok none
  | n + 1, i =>
    match a.hashTable i with
    | none => nextMatch a handle n (i + 1)
    | some name =>
      match nameMatches a.directory.directoryMap handle name with
      | .error e => .error e
      | .ok true => .ok (some (i, name))
      | .ok false => nextMatch a handle n (i + 1)

/-- The handle after the call, and what the call returns. -/
def next (env : Env) (a : ZipArchive) (handle : IterationHandle) :
    IterationHandle × Except Stop (ZipEntry × ZipEntryName) :=
  match nextMatch a handle (a.hashTableSize - handle.position) handle.position with
  | .error e => (handle, .error e)
  | .ok none => ({ handle with position := 0 }, .error (.returned kIterationEnd))
  | .ok (some (i, name)) =>
    ({ handle with position := i + 1 },
      match a.findEntryAt env i with
      | .error e => .error e
      | .ok data => .ok (data, name))

end ZipArchive

end SystemCore.Libziparchive
