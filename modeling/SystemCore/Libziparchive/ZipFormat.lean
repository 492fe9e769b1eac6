import SystemCore.Lib.LittleEndian

/-!
# The records of a zip file

The three kinds of records that are read, with the fields that the archive code uses, at their
places in the bytes. And the values that the functions return.
-/
namespace SystemCore.Libziparchive

open Lib

/-! ## Records -/

def EocdRecord.size : Nat := 22

def EocdRecord.kSignature : Nat := 0x06054b50

structure EocdRecord where
  numRecords : Nat
  cdSize : Nat
  cdStartOffset : Nat
  commentLength : Nat
  deriving DecidableEq, Repr

def EocdRecord.read (bytes : List UInt8) : EocdRecord where
  numRecords := LittleEndian.field 10 2 bytes
  cdSize := LittleEndian.field 12 4 bytes
  cdStartOffset := LittleEndian.field 16 4 bytes
  commentLength := LittleEndian.field 20 2 bytes

def CentralDirectoryRecord.size : Nat := 46

def CentralDirectoryRecord.kSignature : Nat := 0x02014b50

structure CentralDirectoryRecord where
  recordSignature : Nat
  compressionMethod : Nat
  lastModTime : Nat
  lastModDate : Nat
  crc32 : Nat
  compressedSize : Nat
  uncompressedSize : Nat
  fileNameLength : Nat
  extraFieldLength : Nat
  commentLength : Nat
  localFileHeaderOffset : Nat
  deriving DecidableEq, Repr

def CentralDirectoryRecord.read (bytes : List UInt8) : CentralDirectoryRecord where
  recordSignature := LittleEndian.field 0 4 bytes
  compressionMethod := LittleEndian.field 10 2 bytes
  lastModTime := LittleEndian.field 12 2 bytes
  lastModDate := LittleEndian.field 14 2 bytes
  crc32 := LittleEndian.field 16 4 bytes
  compressedSize := LittleEndian.field 20 4 bytes
  uncompressedSize := LittleEndian.field 24 4 bytes
  fileNameLength := LittleEndian.field 28 2 bytes
  extraFieldLength := LittleEndian.field 30 2 bytes
  commentLength := LittleEndian.field 32 2 bytes
  localFileHeaderOffset := LittleEndian.field 42 4 bytes

def LocalFileHeader.size : Nat := 30

def LocalFileHeader.kSignature : Nat := 0x04034b50

structure LocalFileHeader where
  lfhSignature : Nat
  gpbFlags : Nat
  crc32 : Nat
  compressedSize : Nat
  uncompressedSize : Nat
  fileNameLength : Nat
  extraFieldLength : Nat
  deriving DecidableEq, Repr

def LocalFileHeader.read (bytes : List UInt8) : LocalFileHeader where
  lfhSignature := LittleEndian.field 0 4 bytes
  gpbFlags := LittleEndian.field 6 2 bytes
  crc32 := LittleEndian.field 14 4 bytes
  compressedSize := LittleEndian.field 18 4 bytes
  uncompressedSize := LittleEndian.field 22 4 bytes
  fileNameLength := LittleEndian.field 26 2 bytes
  extraFieldLength := LittleEndian.field 28 2 bytes

def kGPBDDFlagMask : Nat := 0x0008

def kMaxCommentLen : Nat := 65535

def kMaxEOCDSearch : Nat := kMaxCommentLen + EocdRecord.size

def kCompressStored : Nat := 0

theorem field_lt (at_ w : Nat) (bytes : List UInt8) : LittleEndian.field at_ w bytes < 256 ^ w := by
  refine Nat.lt_of_lt_of_le (LittleEndian.ofBytes_lt _) (Nat.pow_le_pow_right (by decide) ?_)
  rw [List.length_take]
  exact Nat.min_le_left _ _

/-! ## Results -/

def kIterationEnd : Int := -1

def kInvalidFile : Int := -3

def kDuplicateEntry : Int := -5

def kEmptyArchive : Int := -6

def kEntryNotFound : Int := -7

def kInvalidOffset : Int := -8

def kInconsistentInformation : Int := -9

def kInvalidEntryName : Int := -10

def kIoError : Int := -11

def kMmapFailed : Int := -12

/-- How a function ends without success. -/
inductive Stop where
  /-- It returns this value, which is not 0. -/
  | returned (result : Int)
  /-- It reads a byte that is not in the mapped directory. -/
  | outOfRange
  | endless
  deriving DecidableEq, Repr

end SystemCore.Libziparchive
