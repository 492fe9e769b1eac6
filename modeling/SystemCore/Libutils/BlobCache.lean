import SystemCore.Lib.BinarySearch
import SystemCore.Lib.LittleEndian

/-!
# The blob cache

Sizes are `size_t` and wrap. A pointer that a caller passes is the list of bytes that can be
read behind it; reading further is a fault. The blobs of a cache share the address space: a
`malloc` beyond it returns null, and the copy into it is a fault. `nrand48` is the random
number generator of the C library.
-/
namespace SystemCore.Libutils.BlobCache

open Lib Lib.LittleEndian

inductive Fault where
  | nullDeref
  | outOfBounds
  | divByZero
  | hang
  deriving DecidableEq, Repr

def OK : Int := 0
def BAD_VALUE : Int := -22

def PTRDIFF_MAX : Nat := 2 ^ 63 - 1

/-- A `size_t`. -/
def wrap (n : Nat) : Nat := n % 2 ^ 64

def wrapSub (m n : Nat) : Nat := wrap (m + (2 ^ 64 - wrap n))

/-! ## Blobs and their order -/

structure Blob where
  data : List UInt8
  size : Nat
  deriving DecidableEq, Repr

/-- On two blocks of one length. -/
def memcmp : List UInt8 → List UInt8 → Int
  | a :: as, b :: bs => if a = b then memcmp as bs else (a.toNat : Int) - b.toNat
  | _, _ => 0

/-- `Blob::operator<`. -/
def Blob.less (lhs rhs : Blob) : Except Fault Bool :=
  if lhs.size = rhs.size then
    if lhs.data.length < lhs.size ∨ rhs.data.length < rhs.size then .error .outOfBounds
    else .ok (memcmp (lhs.data.take lhs.size) (rhs.data.take rhs.size) < 0)
  else .ok (lhs.size < rhs.size)

/-- `compare_type`. -/
def Blob.compare (lhs rhs : Blob) : Except Fault Int := do
  let gt ← rhs.less lhs
  let lt ← lhs.less rhs
  .ok ((if gt then 1 else 0) - (if lt then 1 else 0))

def owned (data : List UInt8) : Blob := ⟨data, data.length⟩

/-- Both blobs of an entry own their bytes. -/
structure CacheEntry where
  key : List UInt8
  value : List UInt8
  deriving DecidableEq, Repr

def CacheEntry.size (e : CacheEntry) : Nat := e.key.length + e.value.length

def sizeofBlob : Nat := 40

def CacheEntry.footprint (e : CacheEntry) : Nat := e.size + 2 * sizeofBlob

def live (entries : List CacheEntry) : Nat := (entries.map CacheEntry.footprint).sum

/-- `Blob(data, size, true)`. -/
def copyBlob (used : Nat) (b : Blob) : Except Fault (List UInt8) :=
  if PTRDIFF_MAX < used + b.size + sizeofBlob then .error .nullDeref
  else if b.data.length < b.size then .error .outOfBounds
  else .ok (b.data.take b.size)

/-! ## `SortedVector<CacheEntry>` -/

def compareEntry (entries : List CacheEntry) (key : Blob) (mid : Int) : Except Fault Int :=
  match entries[mid.toNat]? with
  | none => .error .outOfBounds
  | some e => (owned e.key).compare key

/-- `_indexOrderOf`: whether there is an entry with this key, and where or where it goes. -/
def indexOrderOf (entries : List CacheEntry) (key : Blob) : Except Fault (Bool × Int) :=
  bisect (compareEntry entries key) 0 (entries.length - 1)

def addEntry (entries : List CacheEntry) (e : CacheEntry) : Except Fault (List CacheEntry) := do
  let (found, order) ← indexOrderOf entries (owned e.key)
  if found then .ok (entries.set order.toNat e)
  else .ok (entries.take order.toNat ++ [e] ++ entries.drop order.toNat)

/-! ## The cache -/

structure Limits where
  maxKeySize : Nat
  maxValueSize : Nat
  maxTotalSize : Nat
  deriving DecidableEq, Repr

structure Cache (ρ : Type) where
  limits : Limits
  totalSize : Nat
  entries : List CacheEntry
  randState : ρ
  deriving DecidableEq, Repr

/-- The constructor. -/
def Cache.fresh {ρ : Type} (limits : Limits) (randState : ρ) : Cache ρ := ⟨limits, 0, [], randState⟩

variable {ρ : Type} (nrand48 : ρ → Nat × ρ)

def isCleanable (c : Cache ρ) : Bool := c.limits.maxTotalSize / 2 < c.totalSize

def cleanLoop : Nat → Cache ρ → Except Fault (Cache ρ)
  | 0, _ => .error .hang
  | fuel + 1, c =>
    if isCleanable c then
      if c.entries.length = 0 then .error .divByZero
      else
        let (r, randState) := nrand48 c.randState
        let i := r % c.entries.length
        match c.entries[i]? with
        | none => .error .outOfBounds
        | some entry =>
          cleanLoop fuel
            { c with
              totalSize := wrapSub c.totalSize entry.size
              entries := c.entries.eraseIdx i
              randState := randState }
    else .ok c

/-- Every round but the last removes an entry. -/
def clean (c : Cache ρ) : Except Fault (Cache ρ) := cleanLoop nrand48 (c.entries.length + 1) c

/-- A new entry or value does not fit: whether to try again, after `clean`. -/
def makeRoom (c : Cache ρ) : Except Fault (Bool × Cache ρ) :=
  if isCleanable c then do
    let c ← clean nrand48 c
    .ok (true, c)
  else .ok (false, c)

/-- `set` creates an entry. -/
def createEntry (c : Cache ρ) (key value : Blob) : Except Fault (Bool × Cache ρ) := do
  let keyBlob ← copyBlob (live c.entries) key
  let valueBlob ← copyBlob (live c.entries + key.size + sizeofBlob) value
  let newTotalSize := wrap (c.totalSize + key.size + value.size)
  if c.limits.maxTotalSize < newTotalSize then makeRoom nrand48 c
  else do
    let entries ← addEntry c.entries ⟨keyBlob, valueBlob⟩
    .ok (false, { c with entries := entries, totalSize := newTotalSize })

/-- `set` updates entry `index`. -/
def updateEntry (c : Cache ρ) (index : Nat) (value : Blob) : Except Fault (Bool × Cache ρ) := do
  let valueBlob ← copyBlob (live c.entries) value
  match c.entries[index]? with
  | none => .error .outOfBounds
  | some entry =>
    let newTotalSize := wrapSub (c.totalSize + value.size) entry.value.length
    if c.limits.maxTotalSize < newTotalSize then makeRoom nrand48 c
    else
      .ok (false,
        { c with
          entries := c.entries.set index { entry with value := valueBlob }
          totalSize := newTotalSize })

/-- One round of the loop of `set`, and whether there is another. -/
def setRound (c : Cache ρ) (key value : Blob) : Except Fault (Bool × Cache ρ) := do
  let (found, index) ← indexOrderOf c.entries key
  if found then updateEntry nrand48 c index.toNat value else createEntry nrand48 c key value

def setLoop : Nat → Cache ρ → Blob → Blob → Except Fault (Cache ρ)
  | 0, _, _, _ => .error .hang
  | fuel + 1, c, key, value => do
    let (again, c) ← setRound nrand48 c key value
    if again then setLoop fuel c key value else .ok c

/-- A cache that has been cleaned is not cleanable, so that there are two rounds at most. -/
def set (c : Cache ρ) (key value : Blob) : Except Fault (Cache ρ) :=
  if c.limits.maxKeySize < key.size then .ok c
  else if c.limits.maxValueSize < value.size then .ok c
  else if c.limits.maxTotalSize < wrap (key.size + value.size) then .ok c
  else if key.size = 0 then .ok c
  else if value.size = 0 then .ok c
  else setLoop nrand48 2 c key value

/-- `get`: the size of the value, and the bytes that are copied to the caller. -/
def get (c : Cache ρ) (key : Blob) (valueSize : Nat) : Except Fault (Nat × List UInt8) :=
  if c.limits.maxKeySize < key.size then .ok (0, [])
  else do
    let (found, index) ← indexOrderOf c.entries key
    if found then
      match c.entries[index.toNat]? with
      | none => .error .outOfBounds
      | some entry =>
        .ok (entry.value.length, if entry.value.length ≤ valueSize then entry.value else [])
    else .ok (0, [])

/-! ## The flattened form -/

def blobCacheMagic : Nat := 0x5f426224
def blobCacheVersion : Nat := 3
def blobCacheDeviceVersion : Nat := 1

def PROPERTY_VALUE_MAX : Nat := 92

/-- `sizeof(Header)`; the build id begins at byte 28 of it. -/
def sizeofHeader : Nat := 32
def sizeofEntryHeader : Nat := 16

def align4 (size : Nat) : Nat := wrap (size + 3) / 4 * 4

/-- What `property_get` finds for `ro.build.id`. -/
structure BuildId where
  bytes : List UInt8
  short : bytes.length < PROPERTY_VALUE_MAX
  no_nul : 0 ∉ bytes

def entrySize (keySize valueSize : Nat) : Nat := wrap (sizeofEntryHeader + keySize + valueSize)

def getFlattenedSize (entries : List CacheEntry) : Nat :=
  entries.foldl (fun size e => wrap (size + align4 (entrySize e.key.length e.value.length)))
    (align4 (sizeofHeader + PROPERTY_VALUE_MAX))

def poke (buffer : List UInt8) (offset : Nat) (bytes : List UInt8) : Except Fault (List UInt8) :=
  if buffer.length < offset + bytes.length then .error .outOfBounds
  else .ok (buffer.take offset ++ bytes ++ buffer.drop (offset + bytes.length))

/-- A number of `w` bytes is read from a buffer. -/
def peek (buffer : List UInt8) (offset w : Nat) : Except Fault Nat :=
  if buffer.length < offset + w then .error .outOfBounds else .ok (field offset w buffer)

/-- An entry at `byteOffset`: its header, the key, the value and the padding. -/
def flattenEntry (e : CacheEntry) (byteOffset : Nat) (buffer : List UInt8) :
    Except Fault (List UInt8) := do
  let keySize := e.key.length
  let valueSize := e.value.length
  let size := entrySize keySize valueSize
  let buffer ← poke buffer byteOffset (toBytes 8 keySize)
  let buffer ← poke buffer (byteOffset + 8) (toBytes 8 valueSize)
  let buffer ← poke buffer (byteOffset + 16) e.key
  let buffer ← poke buffer (byteOffset + 16 + keySize) e.value
  poke buffer (byteOffset + 16 + keySize + valueSize) (List.replicate (align4 size - size) 0)

def flattenEntries (size : Nat) :
    List CacheEntry → Nat → List UInt8 → Except Fault (Int × List UInt8)
  | [], _, buffer => .ok (OK, buffer)
  | e :: es, byteOffset, buffer =>
    let totalSize := align4 (entrySize e.key.length e.value.length)
    if size < wrap (byteOffset + totalSize) then .ok (BAD_VALUE, buffer)
    else do
      let buffer ← flattenEntry e byteOffset buffer
      flattenEntries size es (wrap (byteOffset + totalSize)) buffer

def flattenHeader (buildId : BuildId) (numEntries : Nat) (buffer : List UInt8) :
    Except Fault (List UInt8) := do
  let buffer ← poke buffer 0 (toBytes 4 blobCacheMagic)
  let buffer ← poke buffer 4 (toBytes 4 blobCacheVersion)
  let buffer ← poke buffer 8 (toBytes 4 blobCacheDeviceVersion)
  let buffer ← poke buffer 16 (toBytes 8 numEntries)
  let buffer ← poke buffer 24 (toBytes 4 buildId.bytes.length)
  poke buffer 28 buildId.bytes

/-- `flatten` into a buffer that the caller says has `size` bytes. -/
def flatten (buildId : BuildId) (entries : List CacheEntry) (buffer : List UInt8) (size : Nat) :
    Except Fault (Int × List UInt8) :=
  if size < sizeofHeader then .ok (BAD_VALUE, buffer)
  else do
    let buffer ← flattenHeader buildId entries.length buffer
    flattenEntries size entries (align4 (sizeofHeader + buildId.bytes.length)) buffer

/-- Whether `strncmp` finds no difference before it has read all of the build id. -/
def sameBuildId : List UInt8 → List UInt8 → Except Fault Bool
  | [], _ => .ok true
  | _ :: _, [] => .error .outOfBounds
  | a :: as, b :: bs => if a = b then sameBuildId as bs else .ok false

/-- Whether the versions in the header are those of this program. -/
def sameVersion (buildId : BuildId) (buffer : List UInt8) : Except Fault Bool := do
  let version ← peek buffer 4 4
  let device ← peek buffer 8 4
  let length ← peek buffer 24 4
  if version ≠ blobCacheVersion ∨ device ≠ blobCacheDeviceVersion ∨
      buildId.bytes.length ≠ length then .ok false
  else sameBuildId buildId.bytes (buffer.drop 28)

def cleared (c : Cache ρ) : Cache ρ := { c with entries := [] }

def unflattenEntries (buffer : List UInt8) (size : Nat) :
    Nat → Nat → Cache ρ → Except Fault (Int × Cache ρ)
  | 0, _, c => .ok (OK, c)
  | n + 1, byteOffset, c =>
    if size < wrap (byteOffset + sizeofEntryHeader) then .ok (BAD_VALUE, cleared c)
    else do
      let keySize ← peek buffer byteOffset 8
      let valueSize ← peek buffer (byteOffset + 8) 8
      let totalSize := align4 (entrySize keySize valueSize)
      if size < wrap (byteOffset + totalSize) then .ok (BAD_VALUE, cleared c)
      else do
        let data := buffer.drop (byteOffset + 16)
        let c ← set nrand48 c ⟨data, keySize⟩ ⟨data.drop keySize, valueSize⟩
        unflattenEntries buffer size n (wrap (byteOffset + totalSize)) c

/-- `unflatten` from a buffer that the caller says has `size` bytes. `mTotalSize` stays as it
is while the entries are cleared. -/
def unflatten (buildId : BuildId) (c : Cache ρ) (buffer : List UInt8) (size : Nat) :
    Except Fault (Int × Cache ρ) :=
  if size < sizeofHeader then .ok (BAD_VALUE, cleared c)
  else do
    let magic ← peek buffer 0 4
    if magic ≠ blobCacheMagic then .ok (BAD_VALUE, cleared c)
    else do
      let same ← sameVersion buildId buffer
      if same then do
        let numEntries ← peek buffer 16 8
        unflattenEntries nrand48 buffer size numEntries
          (align4 (sizeofHeader + buildId.bytes.length)) (cleared c)
      else .ok (OK, cleared c)

/-! ## Programs -/

inductive Call where
  | set (key : List UInt8) (keySize : UInt64) (value : List UInt8) (valueSize : UInt64)
  | get (key : List UInt8) (keySize valueSize : UInt64)
  | flatten (buffer : List UInt8) (size : UInt64)
  | unflatten (buffer : List UInt8) (size : UInt64)
  deriving DecidableEq, Repr

def exec (buildId : BuildId) (c : Cache ρ) : Call → Except Fault (Cache ρ)
  | .set key keySize value valueSize =>
    set nrand48 c ⟨key, keySize.toNat⟩ ⟨value, valueSize.toNat⟩
  | .get key keySize valueSize => do
    let _ ← get c ⟨key, keySize.toNat⟩ valueSize.toNat
    .ok c
  | .flatten buffer size => do
    let _ ← flatten buildId c.entries buffer size.toNat
    .ok c
  | .unflatten buffer size => do
    let (_, c) ← unflatten nrand48 buildId c buffer size.toNat
    .ok c

end SystemCore.Libutils.BlobCache
