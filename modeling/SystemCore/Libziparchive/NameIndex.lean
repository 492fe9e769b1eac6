import SystemCore.Lib.LinearProbe
import SystemCore.Libziparchive.ZipFormat

/-!
# The index of names

`IsValidEntryName` reads one byte after the other and stops at the first that cannot stand where
it stands. What it reads is a parameter, since the name may go beyond the end of what is mapped.

The index is a hash table from the names of entries to the places of the names in the mapped central
directory. It has more slots than there are entries.
-/
namespace SystemCore.Libziparchive

open Lib

/-! ## Names -/

def isContinuation (byte : UInt8) : Bool := byte &&& 0xc0 = 0x80

/-- The inner loop: for each leading one behind the first a byte must follow. The place of the
last byte of the sequence, or none if the name is not valid. -/
def continuationBytes (entryName : Nat → Except Stop UInt8) (length : Nat) :
    Nat → UInt8 → Nat → Except Stop (Option Nat)
  | 0, _, i => .ok (some i)
  | fuel + 1, first, i =>
    if first &&& 0x80 = 0 then .ok (some i)
    else if i + 1 = length then .ok none
    else
      match entryName (i + 1) with
      | .error e => .error e
      | .ok byte =>
        if isContinuation byte = false then .ok none
        else continuationBytes entryName length fuel (first <<< 1) (i + 1)

/-- The outer loop from place `i` on. -/
def validFrom (entryName : Nat → Except Stop UInt8) (length : Nat) : Nat → Nat → Except Stop Bool
  | 0, _ => .ok true
  | fuel + 1, i =>
    if i < length then
      match entryName i with
      | .error e => .error e
      | .ok byte =>
        if byte = 0 then .ok false
        else if byte &&& 0x80 = 0 then validFrom entryName length fuel (i + 1)
        else if byte &&& 0xc0 = 0x80 ∨ byte &&& 0xfe = 0xfe then .ok false
        else
          match continuationBytes entryName length 8 (byte <<< 1) i with
          | .error e => .error e
          | .ok none => .ok false
          | .ok (some i) => validFrom entryName length fuel (i + 1)
    else .ok true

def isValidEntryName (entryName : Nat → Except Stop UInt8) (length : Nat) : Except Stop Bool :=
  validFrom entryName length length 0

/-! ## The index -/

def byteAt (cd : List UInt8) (ptr : Nat) (i : Nat) : Except Stop UInt8 :=
  match cd[ptr + i]? with
  | none => .error .outOfRange
  | some byte => .ok byte

def bytesAt (cd : List UInt8) (ptr len : Nat) : Except Stop (List UInt8) :=
  if len = 0 then .ok []
  else if ptr + len ≤ cd.length then .ok ((cd.drop ptr).take len)
  else .error .outOfRange

/-- The place of a name in the mapped directory. -/
structure ZipEntryName where
  name : Nat
  nameLength : Nat
  deriving DecidableEq, Repr

abbrev HashTable := Nat → Option ZipEntryName

def roundUpPower2 (val : UInt32) : UInt32 :=
  let val := val - 1
  let val := val ||| val >>> 1
  let val := val ||| val >>> 2
  let val := val ||| val >>> 4
  let val := val ||| val >>> 8
  let val := val ||| val >>> 16
  val + 1

def computeHash (name : List UInt8) : UInt32 :=
  name.foldl (fun hash byte => hash * 31 + byte.toUInt32) 0

def firstSlot (hashTableSize : Nat) (name : List UInt8) : Nat :=
  (computeHash name).toNat &&& (hashTableSize - 1)

def nextSlot (hashTableSize ent : Nat) : Nat := (ent + 1) &&& (hashTableSize - 1)

def sameName (cd name : List UInt8) (entry : ZipEntryName) : Except Stop Bool :=
  if entry.nameLength = name.length then
    match bytesAt cd entry.name entry.nameLength with
    | .error e => .error e
    | .ok bytes => .ok (decide (bytes = name))
  else .ok false

/-- The loop of the two functions below. -/
def probeName (cd : List UInt8) (hashTable : HashTable) (hashTableSize : Nat) (name : List UInt8) :
    Except Stop (Nat × Bool) :=
  LinearProbe.probe hashTable (nextSlot hashTableSize) (sameName cd name) .endless hashTableSize
    (firstSlot hashTableSize name)

def entryToIndex (cd : List UInt8) (hashTable : HashTable) (hashTableSize : Nat)
    (name : List UInt8) : Except Stop Nat :=
  match probeName cd hashTable hashTableSize name with
  | .error e => .error e
  | .ok (ent, true) => .ok ent
  | .ok (_, false) => .error (.returned kEntryNotFound)

def addToHash (cd : List UInt8) (hashTable : HashTable) (hashTableSize : Nat)
    (entry : ZipEntryName) : Except Stop HashTable :=
  match bytesAt cd entry.name entry.nameLength with
  | .error e => .error e
  | .ok name =>
    match probeName cd hashTable hashTableSize name with
    | .error e => .error e
    | .ok (_, true) => .error (.returned kDuplicateEntry)
    | .ok (ent, false) => .ok (Function.update hashTable ent (some entry))

end SystemCore.Libziparchive
