import SystemCore.Logd.LogStatistics

/-!
# The log buffer

`LogBuffer` holds the elements of all log ids in one list, with the statistics, the prune
lists, for each log id and uid a watermark from which the next search for chatty elements
goes on, and the readers. `log` puts an element in, `prune` takes elements out.

Iterators and pointers are addresses. The loops of `prune` walk over the list with an
iterator: here `mLogElements` is then the part in front of the iterator, and the rest is an
argument of the loop. What is left to chance is in `Env`: the order in which an
`unordered_map` is walked, and what a read of a freed element gives.
-/
namespace SystemCore.Logd

/-- How a call can go wrong: an iterator or a pointer to an element that is gone, or a loop
that does not end. -/
inductive Fault where
  | useAfterFree
  | hang
  deriving DecidableEq, Repr

variable {μ : Type}

structure Env (μ : Type) where
  iterate : UidTable → UidTable
  freedUid : LogBufferElement μ → UInt32
  freedMsgLen : LogBufferElement μ → UInt16

/-! ## Black and white lists -/

structure Prune where
  mUid : UInt32
  mPid : Int32
  deriving DecidableEq, Repr

namespace Prune

/-- `(uid_t) -1` -/
def uidAll : UInt32 := 0xffffffff

/-- `(pid_t) -1` -/
def pidAll : Int32 := -1

def cmp (p : Prune) (e : LogBufferElement μ) : Int32 :=
  if p.mUid = uidAll ∨ p.mUid = e.mUid then
    if p.mPid = pidAll then 0 else e.mPid - p.mPid
  else (e.mUid - p.mUid).toInt32

end Prune

structure PruneList where
  mNaughty : List Prune
  mNice : List Prune
  mWorstUidEnabled : Bool
  deriving DecidableEq, Repr

namespace PruneList

def naughty (l : PruneList) (e : LogBufferElement μ) : Bool := l.mNaughty.any fun p => p.cmp e = 0

def hasNaughty (l : PruneList) : Bool := !l.mNaughty.isEmpty

def nice (l : PruneList) (e : LogBufferElement μ) : Bool := l.mNice.any fun p => p.cmp e = 0

def hasNice (l : PruneList) : Bool := !l.mNice.isEmpty

end PruneList

/-! ## Readers -/

structure LogTimeEntry where
  mRefCount : Nat
  mRelease : Bool
  mLogMask : UInt32
  skipAhead : LogId → UInt32
  mStart : Nat
  mNonBlock : Bool
  mEnd : Nat

namespace LogTimeEntry

def owned (t : LogTimeEntry) : Bool := t.mRefCount ≠ 0

def isWatching (id : LogId) (t : LogTimeEntry) : Bool := t.mLogMask.toNat.testBit id.toNat

/-- `release_Locked` of an entry that is owned. -/
def release (t : LogTimeEntry) : LogTimeEntry := { t with mRelease := true }

def triggerSkip (id : LogId) (skip : UInt32) (t : LogTimeEntry) : LogTimeEntry :=
  { t with skipAhead := Function.update t.skipAhead id skip }

/-- The loop of `prune` that looks for the reader to wait for. -/
def oldestLoop (id : LogId) : List LogTimeEntry → Nat → Option (Nat × LogTimeEntry) →
    Option (Nat × LogTimeEntry)
  | [], _, oldest => oldest
  | entry :: times, i, oldest =>
    if entry.owned = true ∧ entry.isWatching id = true ∧
        ∀ o ∈ oldest, entry.mStart < o.2.mStart then
      oldestLoop id times (i + 1) (some (i, entry))
    else oldestLoop id times (i + 1) oldest

end LogTimeEntry

/-! ## The buffer -/

structure LogBuffer (μ : Type) where
  mLogElements : List (LogBufferElement μ)
  stats : LogStatistics
  mPrune : PruneList
  mLastWorstUid : LogId → UInt32 → Option Nat
  mMaxSize : LogId → Nat
  mTimes : List LogTimeEntry
  /-- The counter that sequence numbers are drawn from. -/
  sequence : Nat
  /-- No object has this address or one above it yet. -/
  nextAddr : Nat

namespace LogBuffer

def init (mMaxSize : LogId → Nat) : LogBuffer μ where
  mLogElements := []
  stats := LogStatistics.init
  mPrune := ⟨[], [], true⟩
  mLastWorstUid := fun _ _ => none
  mMaxSize := mMaxSize
  mTimes := []
  sequence := 0
  nextAddr := 0

/-- The reader with the least `mStart` of those that are owned and watch `id`, with its
place. -/
def oldest (id : LogId) (b : LogBuffer μ) : Option (Nat × LogTimeEntry) :=
  LogTimeEntry.oldestLoop id b.mTimes 0 none

/-- The iterator passes the element. -/
def keep (e : LogBufferElement μ) (b : LogBuffer μ) : LogBuffer μ :=
  { b with mLogElements := b.mLogElements ++ [e] }

/-- The list as a whole again, `todo` being the part from the iterator on. -/
def behind (todo : List (LogBufferElement μ)) (b : LogBuffer μ) : LogBuffer μ :=
  { b with mLogElements := b.mLogElements ++ todo }

def setMark (id : LogId) (uid : UInt32) (mark : Option Nat) (b : LogBuffer μ) : LogBuffer μ :=
  { b with mLastWorstUid :=
      Function.update b.mLastWorstUid id (Function.update (b.mLastWorstUid id) uid mark) }

/-- `erase` of the element at the iterator, which is in neither part of the list any more. -/
def erase (e : LogBufferElement μ) (engageStats : Bool) (b : LogBuffer μ) : LogBuffer μ :=
  let id := e.mLogId
  let b := if b.mLastWorstUid id e.mUid = some e.addr then b.setMark id e.mUid none else b
  { b with stats := if engageStats then b.stats.subtract e else b.stats.erase e }

/-! ## Pruning for one uid -/

/-- `pruneRows--` -/
def decRows (pruneRows : Nat) : Nat := if pruneRows = 0 then 2 ^ 64 - 1 else pruneRows - 1

/-- Whether a reader holds the element: `oldest && (oldest->mStart <= e->getSequence())`. -/
def locked (oldest : Option (Nat × LogTimeEntry)) (e : LogBufferElement μ) : Prop :=
  ∃ o ∈ oldest, o.2.mStart ≤ e.mSequence

instance (oldest : Option (Nat × LogTimeEntry)) (e : LogBufferElement μ) :
    Decidable (locked oldest e) :=
  match oldest with
  | none => isFalse fun ⟨_, h, _⟩ => by cases h
  | some o => if h : o.2.mStart ≤ e.mSequence then isTrue ⟨o, rfl, h⟩
      else isFalse fun ⟨_, ho, h'⟩ => h (by cases ho; exact h')

def pruneUidLoop (oldest : Option (Nat × LogTimeEntry)) (id : LogId) (callerUid : UInt32) :
    Nat → LogBuffer μ → List (LogBufferElement μ) → LogBuffer μ
  | _, b, [] => b
  | pruneRows, b, e :: todo =>
    if locked oldest e then b.behind (e :: todo)
    else if e.mLogId ≠ id then pruneUidLoop oldest id callerUid pruneRows (b.keep e) todo
    else if e.mUid = callerUid then
      if decRows pruneRows = 0 then (b.erase e true).behind todo
      else pruneUidLoop oldest id callerUid (decRows pruneRows) (b.erase e true) todo
    else pruneUidLoop oldest id callerUid pruneRows (b.keep e) todo

end LogBuffer

/-! ## Pruning of the worst offender -/

/-- What a batch is told when it starts. `lastTime` is the time of the last element of the
list: the loop ends when it has erased that one. -/
structure Batch (μ : Type) where
  env : Env μ
  oldest : Option (Nat × LogTimeEntry)
  id : LogId
  hasBlacklist : Bool
  gc : Bool
  worst : UInt32
  secondWorstSizes : Nat
  lastTime : LogTime

/-- The variables of the loop of a batch. -/
structure Pass (μ : Type) where
  b : LogBuffer μ
  pruneRows : Nat
  worstSizes : Nat
  kick : Bool
  leading : Bool
  /-- `LogBufferElementLast` -/
  last : List (ElementKey × Nat)

namespace Pass

def keep (e : LogBufferElement μ) (p : Pass μ) : Pass μ := { p with b := p.b.keep e }

def erase (e : LogBufferElement μ) (engageStats : Bool) (p : Pass μ) : Pass μ :=
  { p with b := p.b.erase e engageStats }

/-- The element at an address. A pointer in `last` is to an element that the pass has kept. -/
def element (addr : Nat) (p : Pass μ) : Option (LogBufferElement μ) :=
  p.b.mLogElements.find? fun l => l.addr = addr

def setDroppedAt (addr : Nat) (value : UInt16) :
    List (LogBufferElement μ) → List (LogBufferElement μ)
  | [] => []
  | l :: rest =>
    if l.addr = addr then l.setDropped value :: rest else l :: setDroppedAt addr value rest

/-- `last.merge(e, dropped)` -/
def merge (e : LogBufferElement μ) (dropped : UInt16) (p : Pass μ) :
    Except Fault (Bool × Pass μ) :=
  match p.last.lookup e.key with
  | none => .ok (false, p)
  | some addr =>
    match p.element addr with
    | none => .error .useAfterFree
    | some l =>
      if dropped.toNat + l.getDropped.toNat > 65535 then
        .ok (false, { p with last := p.last.filter fun x => x.1 ≠ e.key })
      else
        .ok (true, { p with b := { p.b with
          mLogElements := setDroppedAt addr (dropped + l.getDropped) p.b.mLogElements } })

/-- `last.add(e)` -/
def add (e : LogBufferElement μ) (p : Pass μ) : Pass μ :=
  { p with last := (e.key, e.addr) :: p.last.filter fun x => x.1 ≠ e.key }

/-- Whether `last.clear(e)` lets go of an element. -/
def expired (e l : LogBufferElement μ) : Bool :=
  l.getDropped ≥ EXPIRE_THRESHOLD ∧ e.mRealTime.nsec - expireRatelimit > l.mRealTime.nsec

/-- `last.clear(e)` -/
def clear (e : LogBufferElement μ) (p : Pass μ) : Except Fault (Pass μ) :=
  if ∀ x ∈ p.last, (p.element x.2).isSome = true then
    .ok { p with last := p.last.filter fun x => !(p.element x.2).any (expired e) }
  else .error .useAfterFree

/-- `mLastWorstUid[id][uid] = it` -/
def setMark (id : LogId) (uid : UInt32) (e : LogBufferElement μ) (p : Pass μ) : Pass μ :=
  { p with b := p.b.setMark id uid (some e.addr) }

end Pass

namespace Batch

open Pass

/-- The element is on the black list. It is read again after it was erased. -/
def turnNaughty (c : Batch μ) (p : Pass μ) (e : LogBufferElement μ) :
    Except Fault (Bool × Pass μ) :=
  match p.clear e with
  | .error f => .error f
  | .ok p =>
    let p := p.erase e true
    if e.getDropped ≠ 0 then .ok (true, p)
    else
      let p := { p with pruneRows := LogBuffer.decRows p.pruneRows }
      if p.pruneRows = 0 then .ok (false, p)
      else if c.env.freedUid e = c.worst then
        let p := { p with kick := true }
        if p.worstSizes < c.secondWorstSizes then .ok (false, p)
        else .ok (true, { p with worstSizes := subSize p.worstSizes (c.env.freedMsgLen e).toNat })
      else .ok (true, p)

/-- The element is a count of dropped messages that could not be merged. -/
def turnDropped (c : Batch μ) (p : Pass μ) (e : LogBufferElement μ) : Pass μ :=
  let p := p.add e
  let p :=
    if c.gc = false ∧ e.mUid = c.worst ∨ p.b.mLastWorstUid c.id e.mUid = none then
      p.setMark c.id e.mUid e
    else p
  p.keep e

/-- The element of the worst offender is dropped: erased when no element of another uid comes
before it, and else counted in an element before it or in itself. -/
def dropWorst (c : Batch μ) (p : Pass μ) (e : LogBufferElement μ) : Except Fault (Pass μ) :=
  if p.leading then .ok (p.erase e true)
  else
    let p := { p with b := { p.b with stats := p.b.stats.drop e } }
    let e := e.setDropped 1
    match p.merge e 1 with
    | .error f => .error f
    | .ok (true, p) => .ok (p.erase e false)
    | .ok (false, p) =>
      let p := p.add e
      let p :=
        if c.gc = false ∨ p.b.mLastWorstUid c.id c.worst = none then p.setMark c.id c.worst e
        else p
      .ok (p.keep e)

def turnWorst (c : Batch μ) (p : Pass μ) (e : LogBufferElement μ) :
    Except Fault (Bool × Pass μ) :=
  let p := { p with pruneRows := LogBuffer.decRows p.pruneRows }
  if p.pruneRows = 0 then .ok (false, p.keep e)
  else
    let len := e.getMsgLen
    match c.dropWorst { p with kick := true } e with
    | .error f => .error f
    | .ok p =>
      if p.worstSizes < c.secondWorstSizes then .ok (false, p)
      else .ok (true, { p with worstSizes := subSize p.worstSizes len.toNat })

/-- The element is not a count that was merged or erased. -/
def turnUnmerged (c : Batch μ) (p : Pass μ) (e : LogBufferElement μ) :
    Except Fault (Bool × Pass μ) :=
  if c.hasBlacklist = true ∧ p.b.mPrune.naughty e = true then c.turnNaughty p e
  else if e.mRealTime.lt (c.lastTime.sub tooOld) ∨ c.lastTime.lt e.mRealTime then
    .ok (false, p.keep e)
  else if e.getDropped ≠ 0 then .ok (true, c.turnDropped p e)
  else if e.mUid ≠ c.worst then
    match { p with leading := false }.clear e with
    | .error f => .error f
    | .ok p => .ok (true, p.keep e)
  else c.turnWorst p e

/-- One turn of the loop of a batch, with whether the loop goes on. -/
def turn (c : Batch μ) (p : Pass μ) (e : LogBufferElement μ) : Except Fault (Bool × Pass μ) :=
  if LogBuffer.locked c.oldest e then .ok (false, p.keep e)
  else if e.mLogId ≠ c.id then .ok (true, p.keep e)
  else if p.leading = true ∧ e.getDropped ≠ 0 then .ok (true, p.erase e true)
  else if e.getDropped = 0 then c.turnUnmerged p e
  else
    match p.merge e e.getDropped with
    | .error f => .error f
    | .ok (true, p) => .ok (true, p.erase e false)
    | .ok (false, p) => c.turnUnmerged p e

def loop (c : Batch μ) : Pass μ → List (LogBufferElement μ) → Except Fault (Pass μ)
  | p, [] => .ok p
  | p, e :: todo =>
    match c.turn p e with
    | .error f => .error f
    | .ok (true, p) => c.loop p todo
    | .ok (false, p) => .ok { p with b := p.b.behind todo }

end Batch

namespace LogBuffer

/-- The worst offender and the sizes to compare with: `worst`, `worst_sizes` and
`second_worst_sizes`. -/
def findWorst (env : Env μ) (id : LogId) (b : LogBuffer μ) : UInt32 × Nat × Nat :=
  if worstUidEnabledForLogid id = true ∧ b.mPrune.mWorstUidEnabled = true then
    match UidTable.sort 2 (env.iterate (b.stats.uidTable id)) with
    | (uid, x) :: (_, y) :: _ =>
      let threshold := b.mMaxSize id / 8
      if x.size > threshold ∧ x.size > 10 * x.dropped % 2 ^ 64 then
        (uid, x.size, if y.size < threshold then threshold else y.size)
      else (Prune.uidAll, x.size, 0)
    | _ => (Prune.uidAll, 0, 0)
  else (Prune.uidAll, 0, 0)

/-- The parts of the list in front of the element at an address and from it on. -/
def splitAt (addr : Nat) : List (LogBufferElement μ) →
    Option (List (LogBufferElement μ) × List (LogBufferElement μ))
  | [] => none
  | e :: rest =>
    if e.addr = addr then some ([], e :: rest)
    else (splitAt addr rest).map fun (front, todo) => (e :: front, todo)

/-- Where a batch starts: the part of the list in front of the iterator, the part from it
on, and `leading`. -/
def batchStart (id : LogId) (gc : Bool) (worst : UInt32) (b : LogBuffer μ) :
    Except Fault (List (LogBufferElement μ) × List (LogBufferElement μ) × Bool) :=
  if gc = false ∧ worst ≠ Prune.uidAll then
    match b.mLastWorstUid id worst with
    | none => .ok ([], b.mLogElements, true)
    | some mark =>
      match splitAt mark b.mLogElements with
      | none => .error .useAfterFree
      | some (front, todo) => .ok (front, todo, false)
  else .ok ([], b.mLogElements, true)

/-- One batch: the loop variables at its end. -/
def batch (env : Env μ) (oldest : Option (Nat × LogTimeEntry)) (id : LogId) (pruneRows : Nat)
    (worst : UInt32 × Nat × Nat) (b : LogBuffer μ) : Except Fault (Pass μ) :=
  let gc : Bool := pruneRows ≤ 1
  match b.batchStart id gc worst.1 with
  | .error f => .error f
  | .ok (front, todo, leading) =>
    let c : Batch μ :=
      { env, oldest, id, gc
        hasBlacklist := b.mPrune.hasNaughty
        worst := worst.1
        secondWorstSizes := worst.2.2
        lastTime := (b.mLogElements.getLast?.map (·.mRealTime)).getD LogTime.EPOCH }
    c.loop
      { b := { b with mLogElements := front }
        pruneRows, leading
        worstSizes := worst.2.1
        kick := false
        last := [] } todo

/-- The batches, until nothing is left to prune or there is no worst offender left. -/
def worstLoop (env : Env μ) (oldest : Option (Nat × LogTimeEntry)) (id : LogId) :
    Nat → Nat → LogBuffer μ → Except Fault (LogBuffer μ × Nat)
  | 0, _, _ => .error .hang
  | fuel + 1, pruneRows, b =>
    if pruneRows = 0 then .ok (b, pruneRows)
    else
      let worst := b.findWorst env id
      if worst.1 = Prune.uidAll ∧ b.mPrune.hasNaughty = false then .ok (b, pruneRows)
      else
        match b.batch env oldest id pruneRows worst with
        | .error f => .error f
        | .ok p =>
          if p.kick = false ∨ b.mPrune.mWorstUidEnabled = false then .ok (p.b, p.pruneRows)
          else worstLoop env oldest id fuel p.pruneRows p.b

/-! ## Straight expiration -/

/-- A reader holds up the pruning: it is told to skip, or to end when the buffer is more than
full. -/
def holdUp (oldest : Option (Nat × LogTimeEntry)) (id : LogId) (pruneRows : Nat)
    (b : LogBuffer μ) : LogBuffer μ :=
  match oldest with
  | none => b
  | some (i, _) =>
    if b.stats.sizes id > 2 * b.mMaxSize id then
      { b with mTimes := b.mTimes.modify i LogTimeEntry.release }
    else
      { b with mTimes := b.mTimes.modify i (LogTimeEntry.triggerSkip id (UInt32.ofNat pruneRows)) }

/-- The loop that spares the white list, with what it leaves to prune and whether it came upon
a white-listed element. -/
def expireLoop (oldest : Option (Nat × LogTimeEntry)) (id : LogId) :
    Nat → Bool → LogBuffer μ → List (LogBufferElement μ) → LogBuffer μ × Nat × Bool
  | pruneRows, whitelist, b, [] => (b, pruneRows, whitelist)
  | pruneRows, whitelist, b, e :: todo =>
    if pruneRows = 0 then (b.behind (e :: todo), pruneRows, whitelist)
    else if e.mLogId ≠ id then expireLoop oldest id pruneRows whitelist (b.keep e) todo
    else if locked oldest e then
      if whitelist then (b.behind (e :: todo), pruneRows, whitelist)
      else ((b.behind (e :: todo)).holdUp oldest id pruneRows, pruneRows, whitelist)
    else if b.mPrune.hasNice = true ∧ e.getDropped = 0 ∧ b.mPrune.nice e = true then
      expireLoop oldest id pruneRows true (b.keep e) todo
    else expireLoop oldest id (pruneRows - 1) whitelist (b.erase e true) todo

/-- The loop that does not spare the white list. -/
def expireAllLoop (oldest : Option (Nat × LogTimeEntry)) (id : LogId) :
    Nat → LogBuffer μ → List (LogBufferElement μ) → LogBuffer μ
  | _, b, [] => b
  | pruneRows, b, e :: todo =>
    if pruneRows = 0 then b.behind (e :: todo)
    else if e.mLogId ≠ id then expireAllLoop oldest id pruneRows (b.keep e) todo
    else if locked oldest e then (b.behind (e :: todo)).holdUp oldest id pruneRows
    else expireAllLoop oldest id (pruneRows - 1) (b.erase e true) todo

/-! ## The calls -/

def AID_ROOT : UInt32 := 0

def atBegin (b : LogBuffer μ) : LogBuffer μ := { b with mLogElements := [] }

def expire (oldest : Option (Nat × LogTimeEntry)) (id : LogId) (pruneRows : Nat)
    (b : LogBuffer μ) : LogBuffer μ :=
  let (b, pruneRows, whitelist) := expireLoop oldest id pruneRows false b.atBegin b.mLogElements
  if whitelist = true ∧ pruneRows > 0 then
    expireAllLoop oldest id pruneRows b.atBegin b.mLogElements
  else b

def prune (env : Env μ) (id : LogId) (pruneRows : Nat) (callerUid : UInt32) (b : LogBuffer μ) :
    Except Fault (LogBuffer μ) :=
  let oldest := b.oldest id
  if callerUid ≠ AID_ROOT then
    .ok (pruneUidLoop oldest id callerUid pruneRows b.atBegin b.mLogElements)
  else
    match b.worstLoop env oldest id (pruneRows + 1) pruneRows with
    | .error f => .error f
    | .ok (b, pruneRows) => .ok (b.expire oldest id pruneRows)

def ULONG_MAX : Nat := 2 ^ 64 - 1

def clear (env : Env μ) (id : LogId) (uid : UInt32) (b : LogBuffer μ) :
    Except Fault (LogBuffer μ) :=
  b.prune env id ULONG_MAX uid

def maybePrune (env : Env μ) (id : LogId) (b : LogBuffer μ) : Except Fault (LogBuffer μ) :=
  let sizes := b.stats.sizes id
  let maxSize := b.mMaxSize id
  if sizes > maxSize then
    let sizeOver := sizes - maxSize * 9 / 10
    let elements := b.stats.elements id
    let minElements := elements / 10
    let pruneRows := elements * sizeOver / sizes
    let pruneRows := if pruneRows ≤ minElements then minElements else pruneRows
    let pruneRows := if pruneRows > 256 then 256 else pruneRows
    b.prune env id pruneRows AID_ROOT
  else .ok b

/-- The list in two parts: up to the last element that is not later than `realtime`, and the
later ones at the end. -/
def insertPoint (realtime : LogTime) :
    List (LogBufferElement μ) → List (LogBufferElement μ) × List (LogBufferElement μ)
  | [] => ([], [])
  | e :: rest =>
    let (before, later) := insertPoint realtime rest
    if before.isEmpty = true ∧ ¬ e.mRealTime.le realtime then ([], e :: later)
    else (e :: before, later)

/-- The loop of `log` over the readers: `end_always`, and `end` once it is set. -/
def readersEnd : List LogTimeEntry → Option Nat → Bool × Option Nat
  | [], end_ => (false, end_)
  | entry :: times, end_ =>
    if entry.owned then
      if entry.mNonBlock = false then (true, end_)
      else if ∀ x ∈ end_, x ≤ entry.mEnd then readersEnd times (some entry.mEnd)
      else readersEnd times end_
    else readersEnd times end_

/-- Insertion in the order of time, unless a reader is beyond that place. -/
def insert (elem : LogBufferElement μ) (b : LogBuffer μ) : LogBuffer μ :=
  match insertPoint elem.mRealTime b.mLogElements with
  | (_, []) => { b with mLogElements := b.mLogElements ++ [elem] }
  | (before, last :: later) =>
    let (endAlways, end_) := readersEnd b.mTimes none
    if endAlways = true ∨ ∃ x ∈ end_, x ≥ last.mSequence then
      { b with mLogElements := b.mLogElements ++ [elem] }
    else { b with mLogElements := before ++ elem :: last :: later }

/-- What a caller of `log` passes. -/
structure LogCall (μ : Type) where
  realtime : LogTime
  uid : UInt32
  pid : Int32
  tid : Int32
  msg : μ
  len : UInt16

/-- The constructor of an element, which draws its sequence number. -/
def construct (id : LogId) (call : LogCall μ) (b : LogBuffer μ) :
    LogBufferElement μ × LogBuffer μ :=
  ({ addr := b.nextAddr
     mLogId := id
     mUid := call.uid
     mPid := call.pid
     mTid := call.tid
     mMsg := some call.msg
     mLenOrDropped := call.len
     mSequence := b.sequence
     mRealTime := call.realtime },
   { b with sequence := (b.sequence + 1) % 2 ^ 64, nextAddr := b.nextAddr + 1 })

def EINVAL : Int := 22

def EACCES : Int := 13

/-- `log` from where it takes the lock. -/
def logLocked (env : Env μ) (loggable : Bool) (elem : LogBufferElement μ) (b : LogBuffer μ) :
    Except Fault (LogBuffer μ) :=
  if loggable then
    let b := b.insert elem
    { b with stats := b.stats.add elem }.maybePrune env elem.mLogId
  else .ok { b with stats := (b.stats.add elem).subtract elem }

/-- `log`, where `loggable` is what `__android_log_is_loggable` returns: the value returned
and the buffer. -/
def log (env : Env μ) (logId : Int) (loggable : Bool) (call : LogCall μ) (b : LogBuffer μ) :
    Except Fault (Int × LogBuffer μ) :=
  match LogId.ofInt logId with
  | none => .ok (-EINVAL, b)
  | some id =>
    let (elem, b) := b.construct id call
    match b.logLocked env loggable elem with
    | .error f => .error f
    | .ok b => .ok (if loggable then call.len.toNat else -EACCES, b)

end LogBuffer

/-! ## Runs -/

/-- The calls that change the buffer. The lists, the sizes and the readers change from outside
in any way. -/
inductive Request (μ : Type) where
  | log (env : Env μ) (logId : Int) (loggable : Bool) (call : LogBuffer.LogCall μ)
  | prune (env : Env μ) (id : LogId) (pruneRows : Nat) (callerUid : UInt32)
  | maybePrune (env : Env μ) (id : LogId)
  | clear (env : Env μ) (id : LogId) (uid : UInt32)
  | setSize (mMaxSize : LogId → Nat)
  | setPrune (mPrune : PruneList)
  | setReaders (mTimes : List LogTimeEntry)

def LogBuffer.step (b : LogBuffer μ) : Request μ → Except Fault (LogBuffer μ)
  | .log env logId loggable call => (b.log env logId loggable call).map Prod.snd
  | .prune env id pruneRows callerUid => b.prune env id pruneRows callerUid
  | .maybePrune env id => b.maybePrune env id
  | .clear env id uid => b.clear env id uid
  | .setSize mMaxSize => .ok { b with mMaxSize }
  | .setPrune mPrune => .ok { b with mPrune }
  | .setReaders mTimes => .ok { b with mTimes }

end SystemCore.Logd
