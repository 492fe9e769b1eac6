import SystemCore.Lib.Chain
import SystemCore.Lib.Ring

/-!
# The processes that the low memory killer knows

Every process is in two structures that run through the process records: in a chain of the hash
table by its pid, and in the list of the slot of its `oomadj`, where the one that was put in
first is the next to be killed. Addresses of records are numbers, and `malloc` gives a new one.
-/
namespace SystemCore.Lmkd

open Lib

def OOM_DISABLE : Int := -17

def OOM_ADJUST_MIN : Int := -16

def OOM_ADJUST_MAX : Int := 15

def PIDHASH_SZ : Nat := 1024

/-- The shift keeps the sign. -/
def pidHashfn (x : BitVec 32) : Nat := ((x.sshiftRight 8 ^^^ x) &&& 1023#32).toNat

theorem pidHashfn_lt (x : BitVec 32) : pidHashfn x < PIDHASH_SZ := by
  unfold pidHashfn PIDHASH_SZ
  exact Nat.lt_of_le_of_lt Nat.and_le_right (by decide)

def adjToSlot (adj : Int) : Int := adj + -OOM_ADJUST_MIN

/-- The entries of `procadjslot_list`. -/
abbrev Slot := Fin 32

/-- What the code must not do, or would not come back from. -/
inductive Fault where
  /-- An index outside `procadjslot_list`. -/
  | slotIndex (index : Int)
  /-- The head of a list taken for the record of a process. -/
  | notAProc
  | endless
  deriving DecidableEq, Repr

abbrev ProcId := Nat

/-- The address of an `adjslot_list`: an entry of the array, or at the start of a record. -/
inductive Asl where
  | slot (i : Slot)
  | proc (p : ProcId)
  deriving DecidableEq, Repr

structure Proc where
  pid : BitVec 32
  uid : BitVec 32
  oomadj : Int
  deriving DecidableEq, Repr

structure Table where
  proc : ProcId → Proc
  pidhashNext : ProcId → Option ProcId
  pidhash : Nat → Option ProcId
  asl : Ring.Links Asl
  /-- The next new address. -/
  fresh : ProcId
  /-- The pids that `kill_one_process` was called on so far, which no code reads. -/
  killCalls : List (BitVec 32)

namespace Table

/-- Each slot is a list of its own, with nothing in it. -/
def init : Table where
  proc := fun _ => ⟨0, 0, 0⟩
  pidhashNext := fun _ => none
  pidhash := fun _ => none
  asl := ⟨id, id⟩
  fresh := 0
  killCalls := []

def procadjslot (index : Int) : Except Fault Asl :=
  if h : 0 ≤ index ∧ index ≤ adjToSlot OOM_ADJUST_MAX then
    .ok (.slot ⟨index.toNat, by have := h.2; simp only [adjToSlot, OOM_ADJUST_MAX, OOM_ADJUST_MIN] at this; omega⟩)
  else .error (.slotIndex index)

def pidLookup (pid : BitVec 32) (t : Table) : Except Fault (Option ProcId) :=
  match Chain.find t.pidhashNext (fun p => (t.proc p).pid = pid) t.fresh
      (t.pidhash (pidHashfn pid)) with
  | none => .error .endless
  | some procp => .ok procp

def adjslotTail (head : Asl) (t : Table) : Option Asl :=
  let asl := t.asl.prev head
  if asl = head then none else some asl

def procSlot (procp : ProcId) (t : Table) : Except Fault Table :=
  match procadjslot (adjToSlot (t.proc procp).oomadj) with
  | .error e => .error e
  | .ok head => .ok { t with asl := t.asl.insertAfter head (.proc procp) }

def procUnslot (procp : ProcId) (t : Table) : Table :=
  { t with asl := t.asl.unlink (.proc procp) }

def procInsert (procp : ProcId) (t : Table) : Except Fault Table :=
  let hval := pidHashfn (t.proc procp).pid
  procSlot procp
    { t with
      pidhashNext := Function.update t.pidhashNext procp (t.pidhash hval)
      pidhash := Function.update t.pidhash hval (some procp) }

/-- The result is -1 when there is no such process. -/
def pidRemove (pid : BitVec 32) (t : Table) : Except Fault (Int × Table) :=
  let hval := pidHashfn pid
  match Chain.findWithPrev t.pidhashNext (fun p => (t.proc p).pid = pid) t.fresh none
      (t.pidhash hval) with
  | none => .error .endless
  | some (_, none) => .ok (-1, t)
  | some (none, some procp) =>
    .ok (0, procUnslot procp
      { t with pidhash := Function.update t.pidhash hval (t.pidhashNext procp) })
  | some (some prevp, some procp) =>
    .ok (0, procUnslot procp
      { t with pidhashNext := Function.update t.pidhashNext prevp (t.pidhashNext procp) })

def callKill (pid : BitVec 32) (t : Table) : Table :=
  { t with killCalls := t.killCalls ++ [pid] }

/-- The next process to kill in the slot. -/
def procAdjLru (oomadj : Int) (t : Table) : Except Fault (Option ProcId) :=
  match procadjslot (adjToSlot oomadj) with
  | .error e => .error e
  | .ok head =>
    match t.adjslotTail head with
    | none => .ok none
    | some (.proc procp) => .ok (some procp)
    | some (.slot _) => .error .notAProc

/-! ## What can be seen of the two structures -/

def hashPids (t : Table) : List (BitVec 32) :=
  (List.range PIDHASH_SZ).flatMap fun h =>
    (Chain.walk t.pidhashNext t.fresh (t.pidhash h)).map fun p => (t.proc p).pid

/-- The pids in a slot, the last one put in first. -/
def slotPids (i : Slot) (t : Table) : List (BitVec 32) :=
  (Ring.walk t.asl (.slot i) (t.fresh + 1) (t.asl.next (.slot i))).filterMap fun
    | .proc p => some (t.proc p).pid
    | .slot _ => none

end Table

end SystemCore.Lmkd
