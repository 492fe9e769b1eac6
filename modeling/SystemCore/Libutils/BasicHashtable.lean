import Mathlib.Data.List.Basic

/-!
# The hash table of BasicHashtable.cpp

A bucket keeps the three parts of its cookie: the COLLISION flag, the PRESENT flag as
the presence of an entry, and the 30 bits of the hash. The table owns its buckets alone,
so `edit` has nothing to copy. A probe loop that has made `mBucketCount` steps is back
where it started and never ends; it is a `hang`. The choice of the sizes,
`determineCapacity`, is a parameter of the other functions.
-/
namespace SystemCore.Libutils.BasicHashtable

/-- How a call ends that does not return. An `abort` is a failed `LOG_ALWAYS_FATAL_IF`, and a
`conversion` that of a float which the integer type does not reach. -/
inductive Fault where
  | nullDeref
  | useAfterFree
  | outOfBounds
  | hang
  | conversion
  | abort
  deriving DecidableEq, Repr

structure Bucket (E : Type*) where
  collision : Bool
  hash : UInt32
  entry : Option E
  deriving DecidableEq, Repr

variable {E K F : Type*}

def Bucket.zero : Bucket E := ⟨false, 0, none⟩

def Bucket.present (b : Bucket E) : Bool := b.entry.isSome

def hashMask : UInt32 := 0x3fffffff

def trimHash (hash : UInt32) : UInt32 := (hash &&& hashMask) ^^^ (hash >>> 30)

def chainStart (hash : UInt32) (count : Nat) : Nat := hash.toNat % count

def chainIncrement (hash : UInt32) (count : Nat) : Nat :=
  ((hash >>> 7) ||| (hash <<< 25)).toNat % (count - 1) + 1

def chainSeek (index increment count : Nat) : Nat := (index + increment) % count

def bucketAt (buckets : List (Bucket E)) (index : Nat) : Bucket E := buckets.getD index .zero

/-- `bucket->cookie |= Bucket::COLLISION`. -/
def mark (buckets : List (Bucket E)) (index : Nat) : List (Bucket E) :=
  buckets.set index { bucketAt buckets index with collision := true }

/-- `bucket.cookie &= ~Bucket::PRESENT` and `destroyBucketEntry`. -/
def dropEntry (buckets : List (Bucket E)) (index : Nat) : List (Bucket E) :=
  buckets.set index { bucketAt buckets index with entry := none }

def allocateBuckets (count : Nat) : List (Bucket E) := List.replicate count .zero

/-- The `do` loop of `add` and `rehash` over the present buckets of a chain. -/
def skipPresent (count inc : Nat) :
    Nat → Nat → List (Bucket E) → Except Fault (Nat × List (Bucket E))
  | 0, _, _ => .error .hang
  | fuel + 1, index, buckets =>
    let buckets := mark buckets index
    let index := chainSeek index inc count
    if (bucketAt buckets index).present then skipPresent count inc fuel index buckets
    else .ok (index, buckets)

/-- The search of `add` and `rehash` for a bucket without an entry. -/
def freeBucket (count : Nat) (hash : UInt32) (buckets : List (Bucket E)) :
    Except Fault (Nat × List (Bucket E)) :=
  let index := chainStart hash count
  if (bucketAt buckets index).present then
    skipPresent count (chainIncrement hash count) count index buckets
  else .ok (index, buckets)

/-- The fields of `BasicHashtableImpl`. -/
structure Table (E F : Type*) where
  capacity : Nat
  loadFactor : F
  size : Nat
  filledBuckets : Nat
  bucketCount : Nat
  buckets : Option (List (Bucket E))
  deriving DecidableEq, Repr

def Table.hasMoreRoom (t : Table E F) : Bool := t.filledBuckets < t.capacity

def nextLoop (buckets : List (Bucket E)) (count index : Nat) : Option Nat :=
  if h : index < count then
    if (bucketAt buckets index).present then some index
    else nextLoop buckets count (index + 1)
  else none
  termination_by count - index

/-- `next`, where no index stands for -1. -/
def Table.next (t : Table E F) (index : Option Nat) : Except Fault (Option Nat) :=
  if t.size = 0 then .ok none
  else
    match t.buckets with
    | none => .error .nullDeref
    | some buckets =>
      match index with
      | none => .ok (nextLoop buckets t.bucketCount 0)
      | some i => .ok (nextLoop buckets t.bucketCount (i + 1))

section Find

variable [DecidableEq K] (key : E → K)

/-- The bucket holds an entry with key `k`. -/
def Bucket.holds (b : Bucket E) (k : K) : Bool :=
  match b.entry with
  | some e => key e == k
  | none => false

/-- The loop of `find`; nothing when it still goes on. -/
def findLoop (buckets : List (Bucket E)) (count inc : Nat) (hash : UInt32) (k : K) :
    Nat → Nat → Option (Option Nat)
  | 0, _ => none
  | fuel + 1, index =>
    let index := chainSeek index inc count
    let bucket := bucketAt buckets index
    if bucket.present ∧ bucket.hash = hash ∧ bucket.holds key k then some (some index)
    else if ¬ bucket.collision then some none
    else findLoop buckets count inc hash k fuel index

/-- The loop of `find` from a given bucket on. -/
def findOn (buckets : List (Bucket E)) (count : Nat) (hash : UInt32) (k : K) (index : Nat) :
    Except Fault (Option Nat) :=
  match findLoop key buckets count (chainIncrement hash count) hash k count index with
  | none => .error .hang
  | some r => .ok r

/-- `find`, where no index stands for -1. -/
def Table.find (t : Table E F) (index : Option Nat) (hash : UInt32) (k : K) :
    Except Fault (Option Nat) :=
  if t.size = 0 then .ok none
  else
    match t.buckets with
    | none => .error .nullDeref
    | some buckets =>
      let hash := trimHash hash
      match index with
      | some i => findOn key buckets t.bucketCount hash k i
      | none =>
        let i := chainStart hash t.bucketCount
        let bucket := bucketAt buckets i
        if bucket.present then
          if bucket.holds key k then .ok (some i)
          else findOn key buckets t.bucketCount hash k i
        else if ¬ bucket.collision then .ok none
        else findOn key buckets t.bucketCount hash k i

end Find

/-- The loop of `rehash` over the old buckets. -/
def moveEntries (count : Nat) :
    List (Bucket E) → List (Bucket E) → Except Fault (List (Bucket E))
  | [], toBuckets => .ok toBuckets
  | b :: fromBuckets, toBuckets =>
    match b.entry with
    | none => moveEntries count fromBuckets toBuckets
    | some e =>
      match freeBucket count b.hash toBuckets with
      | .error err => .error err
      | .ok (index, toBuckets) =>
        moveEntries count fromBuckets (toBuckets.set index ⟨false, b.hash, some e⟩)

section Sizing

variable (determineCapacity : Nat → F → Except Fault (Nat × Nat))

/-- The constructor. -/
def newTable (minimumInitialCapacity : Nat) (loadFactor : F) : Except Fault (Table E F) :=
  match determineCapacity minimumInitialCapacity loadFactor with
  | .error e => .error e
  | .ok (bucketCount, capacity) => .ok ⟨capacity, loadFactor, 0, 0, bucketCount, none⟩

/-- The buckets after `rehash`. A table without entries is left without buckets. -/
def rehashBuckets (t : Table E F) (newBucketCount : Nat) (buckets : List (Bucket E)) :
    Except Fault (Option (List (Bucket E))) :=
  if t.size = 0 then .ok none
  else
    match moveEntries newBucketCount buckets (allocateBuckets newBucketCount) with
    | .error e => .error e
    | .ok newBuckets => .ok (some newBuckets)

def Table.rehash (t : Table E F) (minimumCapacity : Nat) (loadFactor : F) :
    Except Fault (Table E F) :=
  match determineCapacity (max minimumCapacity t.size) loadFactor with
  | .error e => .error e
  | .ok (newBucketCount, newCapacity) =>
    if newBucketCount ≠ t.bucketCount ∨ newCapacity ≠ t.capacity then
      match t.buckets with
      | none => .ok { t with
          bucketCount := newBucketCount, capacity := newCapacity, loadFactor := loadFactor }
      | some buckets =>
        match rehashBuckets t newBucketCount buckets with
        | .error e => .error e
        | .ok newBuckets =>
          .ok ⟨newCapacity, loadFactor, t.size, t.size, newBucketCount, newBuckets⟩
    else .ok { t with loadFactor := loadFactor }

/-- The loop of `add`, with the index of the new entry. -/
def addLoop (hash : UInt32) (e : E) : Nat → Table E F → Except Fault (Nat × Table E F)
  | 0, _ => .error .hang
  | fuel + 1, t =>
    match t.buckets with
    | none => .error .nullDeref
    | some buckets =>
      match freeBucket t.bucketCount hash buckets with
      | .error err => .error err
      | .ok (index, buckets) =>
        let collision := (bucketAt buckets index).collision
        if ¬ collision ∧ t.capacity ≤ t.filledBuckets then
          match Table.rehash determineCapacity { t with buckets := some buckets }
              (t.capacity * 2) t.loadFactor with
          | .error err => .error err
          | .ok t => addLoop hash e fuel t
        else
          .ok (index, { t with
            size := t.size + 1
            filledBuckets := if collision then t.filledBuckets else t.filledBuckets + 1
            buckets := some (buckets.set index ⟨collision, hash, some e⟩) })

/-- `add`. Every turn of its loop but the last needs a larger table, and there are 29 sizes
to choose from. -/
def Table.add (t : Table E F) (hash : UInt32) (e : E) : Except Fault (Nat × Table E F) :=
  addLoop determineCapacity (trimHash hash) e 30
    { t with buckets := some (t.buckets.getD (allocateBuckets t.bucketCount)) }

end Sizing

def Table.removeAt (t : Table E F) (index : Nat) : Except Fault (Table E F) :=
  match t.buckets with
  | none => .error .nullDeref
  | some buckets =>
    .ok { t with
      size := t.size - 1
      filledBuckets := if (bucketAt buckets index).collision then t.filledBuckets
        else t.filledBuckets - 1
      buckets := some (dropEntry buckets index) }

def Table.clear (t : Table E F) : Table E F :=
  match t.buckets with
  | none => t
  | some buckets =>
    if t.filledBuckets = 0 then { t with size := 0 }
    else { t with
      size := 0, filledBuckets := 0
      buckets := some (buckets.map fun _ => .zero) }

inductive Op (E F : Type*) where
  | add (hash : UInt32) (entry : E)
  | removeAt (index : Nat)
  | rehash (minimumCapacity : Nat) (loadFactor : F)
  | clear
  deriving DecidableEq, Repr

def exec (determineCapacity : Nat → F → Except Fault (Nat × Nat)) (t : Table E F) :
    Op E F → Except Fault (Table E F)
  | .add hash e =>
    match t.add determineCapacity hash e with
    | .error err => .error err
    | .ok (_, t) => .ok t
  | .removeAt index => t.removeAt index
  | .rehash m lf => t.rehash determineCapacity m lf
  | .clear => .ok t.clear

end SystemCore.Libutils.BasicHashtable
