import SystemCore.Libutils.HashSizes

/-!
# The cache of LruCache.h

The entries live in the buckets of a hash table and are linked from the oldest to the
youngest. A pointer to an entry is the index of its bucket; to go through a pointer to a
bucket without an entry is a `useAfterFree`. There is no listener. `put` and `rehash` call
each other, and every such call is for a larger table.
-/
namespace SystemCore.Libutils.LruCache

open BasicHashtable

structure Entry (K V : Type) where
  key : K
  value : V
  parent : Option Nat
  child : Option Nat
  deriving DecidableEq, Repr

/-- The fields of `LruCache`. -/
structure Cache (K V : Type) where
  table : Table (Entry K V) Binary32
  oldest : Option Nat
  youngest : Option Nat
  maxCapacity : UInt32
  deriving DecidableEq

variable {E K V F : Type}

def entryAt (t : Table E F) (index : Nat) : Except Fault E :=
  match t.buckets with
  | none => .error .nullDeref
  | some buckets =>
    match (bucketAt buckets index).entry with
    | none => .error .useAfterFree
    | some e => .ok e

/-- A write to an entry that `editEntryAt` gave, or that a pointer leads to. -/
def editEntryAt (t : Table E F) (index : Nat) (f : E → E) : Except Fault (Table E F) :=
  match t.buckets with
  | none => .error .nullDeref
  | some buckets =>
    match (bucketAt buckets index).entry with
    | none => .error .useAfterFree
    | some e => .ok { t with
        buckets := some (buckets.set index { bucketAt buckets index with entry := some (f e) }) }

def Cache.setParent (c : Cache K V) (index : Nat) (p : Option Nat) : Except Fault (Cache K V) :=
  match editEntryAt c.table index fun e => { e with parent := p } with
  | .error err => .error err
  | .ok t => .ok { c with table := t }

def Cache.setChild (c : Cache K V) (index : Nat) (p : Option Nat) : Except Fault (Cache K V) :=
  match editEntryAt c.table index fun e => { e with child := p } with
  | .error err => .error err
  | .ok t => .ok { c with table := t }

def kUnlimitedCapacity : UInt32 := 0

def Cache.size (c : Cache K V) : Nat := c.table.size

def Cache.attachToCache (c : Cache K V) (index : Nat) : Except Fault (Cache K V) :=
  match c.youngest with
  | none => .ok { c with youngest := some index, oldest := some index }
  | some y => do
    let c ← c.setParent index (some y)
    let c ← c.setChild y (some index)
    return { c with youngest := some index }

/-- The first half of `detachFromCache`. -/
def Cache.unlinkParent (c : Cache K V) (index : Nat) : Except Fault (Cache K V) := do
  let entry ← entryAt c.table index
  match entry.parent with
  | some p => c.setChild p entry.child
  | none => return { c with oldest := entry.child }

/-- The second half of `detachFromCache`. -/
def Cache.unlinkChild (c : Cache K V) (index : Nat) : Except Fault (Cache K V) := do
  let entry ← entryAt c.table index
  match entry.child with
  | some ch => c.setParent ch entry.parent
  | none => return { c with youngest := entry.parent }

def Cache.detachFromCache (c : Cache K V) (index : Nat) : Except Fault (Cache K V) := do
  let c ← c.unlinkParent index
  let c ← c.unlinkChild index
  let c ← c.setParent index none
  c.setChild index none

section Keys

variable [DecidableEq K] (hashType : K → UInt32)

/-- `mTable->find(-1, hash, key)`. -/
def Cache.find (c : Cache K V) (key : K) : Except Fault (Option Nat) :=
  c.table.find Entry.key none (hashType key) key

/-- `get`, with nothing for `mNullValue`. -/
def Cache.get (c : Cache K V) (key : K) : Except Fault (Option V × Cache K V) := do
  match ← c.find hashType key with
  | none => return (none, c)
  | some index =>
    let c ← c.detachFromCache index
    let c ← c.attachToCache index
    let entry ← entryAt c.table index
    return (some entry.value, c)

def Cache.remove (c : Cache K V) (key : K) : Except Fault (Bool × Cache K V) := do
  match ← c.find hashType key with
  | none => return (false, c)
  | some index =>
    let c ← c.detachFromCache index
    let table ← c.table.removeAt index
    return (true, { c with table := table })

def Cache.removeOldest (c : Cache K V) : Except Fault (Bool × Cache K V) :=
  match c.oldest with
  | none => .ok (false, c)
  | some index => do
    let entry ← entryAt c.table index
    c.remove hashType entry.key

def Cache.clear (c : Cache K V) : Cache K V :=
  { c with youngest := none, oldest := none, table := c.table.clear }

/-- The eviction at the start of `put`. -/
def Cache.evict (c : Cache K V) : Except Fault (Cache K V) :=
  if c.maxCapacity ≠ kUnlimitedCapacity ∧ c.maxCapacity.toNat ≤ c.size then
    match c.removeOldest hashType with
    | .error err => .error err
    | .ok (_, c) => .ok c
  else .ok c

/-- The end of `put`, for a table with room. -/
def Cache.insert (c : Cache K V) (key : K) (value : V) : Except Fault (Bool × Cache K V) := do
  let (index, table) ← c.table.add determineCapacity (hashType key) ⟨key, value, none, none⟩
  let c ← { c with table := table }.attachToCache index
  return (true, c)

/-- The call of `rehash` in `put`. -/
def Cache.makeRoom (rehash : Cache K V → Nat → Except Fault (Cache K V)) (c : Cache K V) :
    Except Fault (Cache K V) :=
  if c.table.hasMoreRoom then .ok c else rehash c (c.table.capacity * 2)

/-- `put`, with the `rehash` it calls. -/
def Cache.putWith (rehash : Cache K V → Nat → Except Fault (Cache K V)) (c : Cache K V) (key : K)
    (value : V) : Except Fault (Bool × Cache K V) := do
  let c ← c.evict hashType
  match ← c.find hashType key with
  | some _ => return (false, c)
  | none =>
    let c ← c.makeRoom rehash
    c.insert hashType key value

/-- The loop of `rehash` over the entries of the old table. -/
def putAll (put : Cache K V → K → V → Except Fault (Bool × Cache K V))
    (oldTable : Table (Entry K V) Binary32) :
    Nat → Option Nat → Cache K V → Except Fault (Cache K V)
  | _, none, c => .ok c
  | 0, some _, _ => .error .hang
  | fuel + 1, some index, c => do
    let entry ← entryAt oldTable index
    let (_, c) ← put c entry.key entry.value
    putAll put oldTable fuel entry.child c

/-- `rehash`, with the `put` it calls. -/
def Cache.rehashWith (put : Cache K V → K → V → Except Fault (Bool × Cache K V)) (c : Cache K V)
    (newCapacity : Nat) : Except Fault (Cache K V) := do
  let table ← newTable determineCapacity newCapacity threeQuarters
  putAll put c.table c.table.bucketCount c.oldest
    { c with oldest := none, youngest := none, table := table }

/-- `put` with a bound on how deep `put` and `rehash` call each other. -/
def Cache.putDeep : Nat → Cache K V → K → V → Except Fault (Bool × Cache K V)
  | 0, _, _, _ => .error .hang
  | depth + 1, c, key, value =>
    c.putWith hashType (Cache.rehashWith (Cache.putDeep depth)) key value

/-- `put`. There are 29 sizes for the table. -/
def Cache.put (c : Cache K V) (key : K) (value : V) : Except Fault (Bool × Cache K V) :=
  Cache.putDeep hashType 30 c key value

/-- The constructor. -/
def newCache (maxCapacity : UInt32) : Except Fault (Cache K V) := do
  let table ← newTable determineCapacity 0 threeQuarters
  return ⟨table, none, none, maxCapacity⟩

inductive Op (K V : Type) where
  | get (key : K)
  | put (key : K) (value : V)
  | remove (key : K)
  | removeOldest
  | clear
  deriving DecidableEq, Repr

inductive Result (V : Type) where
  | value (v : Option V)
  | done (b : Bool)
  | unit
  deriving DecidableEq, Repr

/-- Make a call, after which its result is the last one. -/
def exec (s : List (Result V) × Cache K V) (op : Op K V) :
    Except Fault (List (Result V) × Cache K V) := do
  let (rs, c) := s
  match op with
  | .get key => let (v, c) ← c.get hashType key; return (rs ++ [.value v], c)
  | .put key value => let (b, c) ← c.put hashType key value; return (rs ++ [.done b], c)
  | .remove key => let (b, c) ← c.remove hashType key; return (rs ++ [.done b], c)
  | .removeOldest => let (b, c) ← c.removeOldest hashType; return (rs ++ [.done b], c)
  | .clear => return (rs ++ [.unit], c.clear)

end Keys

end SystemCore.Libutils.LruCache
