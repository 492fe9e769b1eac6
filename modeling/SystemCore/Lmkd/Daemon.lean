import SystemCore.Lmkd.Processes
import SystemCore.Lib.Runs

/-!
# The commands and the memory pressure events

The daemon takes packets from the activity manager and events from the kernel. What the kernel
says about memory and about each process comes with the event: a process that the killer has
looked at is not in the table any more, so it looks at each process once.
-/
namespace SystemCore.Lmkd

open Lib

def MAX_TARGETS : Nat := 6

def CTRL_PACKET_MAX : Nat := 4 * (MAX_TARGETS * 2 + 1)

def KILL_TIMEOUT : Int := 2

def LMK_TARGET : Int := 0

def LMK_PROCPRIO : Int := 1

def LMK_PROCREMOVE : Int := 2

structure Daemon where
  table : Table
  useInkernelInterface : Bool
  lowmemAdj : Nat → Int
  lowmemMinfree : Nat → Int
  lowmemTargetsSize : Nat
  killLasttime : Int

/-- The daemon after `init`, with the in-kernel killer or without. -/
def Daemon.init (useInkernelInterface : Bool) : Daemon where
  table := Table.init
  useInkernelInterface := useInkernelInterface
  lowmemAdj := fun _ => 0
  lowmemMinfree := fun _ => 0
  lowmemTargetsSize := 0
  killLasttime := 0

namespace Daemon

/-! ## Commands -/

def cmdProcprio (mallocOk : Bool) (pid uid : BitVec 32) (oomadj : Int) (d : Daemon) :
    Except Fault Daemon :=
  if oomadj < OOM_DISABLE ∨ oomadj > OOM_ADJUST_MAX then .ok d
  else if d.useInkernelInterface = true then .ok d
  else
    match d.table.pidLookup pid with
    | .error e => .error e
    | .ok none =>
      if mallocOk = false then .ok d
      else
        let procp := d.table.fresh
        let t := { d.table with
          proc := Function.update d.table.proc procp ⟨pid, uid, oomadj⟩
          fresh := procp + 1 }
        match t.procInsert procp with
        | .error e => .error e
        | .ok t => .ok { d with table := t }
    | .ok (some procp) =>
      let t := d.table.procUnslot procp
      let t := { t with
        proc := Function.update t.proc procp { t.proc procp with oomadj := oomadj } }
      match t.procSlot procp with
      | .error e => .error e
      | .ok t => .ok { d with table := t }

def cmdProcremove (pid : BitVec 32) (d : Daemon) : Except Fault Daemon :=
  if d.useInkernelInterface = true then .ok d
  else
    match d.table.pidRemove pid with
    | .error e => .error e
    | .ok (_, t) => .ok { d with table := t, killLasttime := 0 }

/-- The parameters are pairs. What is behind the new targets stays in the arrays. -/
def cmdTarget (ntargets : Nat) (params : Nat → BitVec 32) (d : Daemon) : Daemon :=
  if ntargets > MAX_TARGETS then d
  else
    { d with
      lowmemMinfree := fun i => if i < ntargets then (params (2 * i)).toInt else d.lowmemMinfree i
      lowmemAdj := fun i => if i < ntargets then (params (2 * i + 1)).toInt else d.lowmemAdj i
      lowmemTargetsSize := ntargets }

def word (ibuf : List UInt8) (i : Nat) : BitVec 32 :=
  (ibuf.getD (4 * i) 0).toBitVec ++ (ibuf.getD (4 * i + 1) 0).toBitVec ++
    (ibuf.getD (4 * i + 2) 0).toBitVec ++ (ibuf.getD (4 * i + 3) 0).toBitVec

/-- An empty packet stands for a read that failed. -/
def ctrlCommandHandler (mallocOk : Bool) (packet : List UInt8) (d : Daemon) :
    Except Fault Daemon :=
  let ibuf := packet.take CTRL_PACKET_MAX
  if ibuf.length = 0 then .ok d
  else
    let nargs : Int := (ibuf.length / 4 : Nat) - 1
    if nargs < 0 then .ok d
    else
      let cmd := (word ibuf 0).toInt
      if cmd = LMK_TARGET then
        if nargs % 2 = 1 ∨ nargs / 2 > MAX_TARGETS then .ok d
        else .ok (d.cmdTarget (nargs / 2).toNat fun i => word ibuf (i + 1))
      else if cmd = LMK_PROCPRIO then
        if nargs ≠ 3 then .ok d
        else d.cmdProcprio mallocOk (word ibuf 1) (word ibuf 2) (word ibuf 3).toInt
      else if cmd = LMK_PROCREMOVE then
        if nargs ≠ 1 then .ok d else d.cmdProcremove (word ibuf 1)
      else .ok d

/-! ## Memory pressure -/

/-- What the kernel says about a process: whether it has a name, its size, and the result of
`kill`. -/
structure ProcView where
  hasName : Bool
  tasksize : Int
  kill : Int
  deriving DecidableEq, Repr

/-- The size of the process that was killed, or -1. The record goes in any case. -/
def killOneProcess (view : BitVec 32 → ProcView) (procp : ProcId) (t : Table) :
    Except Fault (Int × Table) :=
  let pid := (t.proc procp).pid
  match (t.callKill pid).pidRemove pid with
  | .error e => .error e
  | .ok (_, t) =>
    if (view pid).hasName = false then .ok (-1, t)
    else if (view pid).tasksize ≤ 0 then .ok (-1, t)
    else if (view pid).kill ≠ 0 then .ok (-1, t)
    else .ok ((view pid).tasksize, t)

/-- Kill one process of the slot, with its pid beside its size. The ones that cannot be killed go
on the way. -/
def killInSlot (view : BitVec 32 → ProcView) (oomadj : Int) :
    Nat → Table → Except Fault (Option (BitVec 32 × Int) × Table)
  | fuel, t =>
    match t.procAdjLru oomadj with
    | .error e => .error e
    | .ok none => .ok (none, t)
    | .ok (some procp) =>
      match fuel with
      | 0 => .error .endless
      | fuel + 1 =>
        match killOneProcess view procp t with
        | .error e => .error e
        | .ok (killedSize, t') =>
          if killedSize < 0 then killInSlot view oomadj fuel t'
          else .ok (some ((t.proc procp).pid, killedSize), t')

/-- The slots from `i` down, as many as there are left. -/
def killFrom (view : BitVec 32 → ProcView) :
    Nat → Int → Table → Except Fault (Option (BitVec 32 × Int) × Table)
  | 0, _, t => .ok (none, t)
  | n + 1, i, t =>
    match killInSlot view i t.fresh t with
    | .error e => .error e
    | .ok (some killed, t) => .ok (some killed, t)
    | .ok (none, t) => killFrom view n (i - 1) t

def Below (otherFree otherFile : Int) (i : Nat) (d : Daemon) : Prop :=
  otherFree < d.lowmemMinfree i ∧ otherFile < d.lowmemMinfree i

instance (otherFree otherFile : Int) (i : Nat) (d : Daemon) :
    Decidable (Below otherFree otherFile i d) :=
  inferInstanceAs (Decidable (_ ∧ _))

/-- The adj of the first limit that memory is under. -/
def minScoreAdj (otherFree otherFile : Int) (d : Daemon) : Int :=
  match (List.range d.lowmemTargetsSize).find? fun i => Below otherFree otherFile i d with
  | none => OOM_ADJUST_MAX + 1
  | some i => d.lowmemAdj i

/-- The process that was killed. The source returns only its size, which is `killedSize`. -/
def findAndKillProcess (view : BitVec 32 → ProcView) (otherFree otherFile : Int) (d : Daemon) :
    Except Fault (Option (BitVec 32 × Int) × Daemon) :=
  let min := d.minScoreAdj otherFree otherFile
  if min = OOM_ADJUST_MAX + 1 then .ok (none, d)
  else
    match killFrom view (OOM_ADJUST_MAX - min + 1).toNat OOM_ADJUST_MAX d.table with
    | .error e => .error e
    | .ok (killed, t) => .ok (killed, { d with table := t })

/-- The size of what was killed, 0 for nothing. -/
def killedSize : Option (BitVec 32 × Int) → Int
  | none => 0
  | some (_, size) => size

structure SysMemInfo where
  nrFreePages : Int
  nrFilePages : Int
  nrShmem : Int
  totalreservePages : Int
  deriving DecidableEq, Repr

/-- A memory pressure event: the time, how often `/proc/zoneinfo` cannot be read, and what it
says then. -/
structure Pressure where
  time : Int
  zoneinfoFailures : Nat
  mi : SysMemInfo
  view : BitVec 32 → ProcView

def Pressure.otherFree (e : Pressure) : Int := e.mi.nrFreePages - e.mi.totalreservePages

def Pressure.otherFile (e : Pressure) : Int := e.mi.nrFilePages - e.mi.nrShmem

/-- Kill something each time that `/proc/zoneinfo` cannot be read. -/
def killUnread (view : BitVec 32 → ProcView) : Nat → Daemon → Except Fault Daemon
  | 0, d => .ok d
  | n + 1, d =>
    match d.findAndKillProcess view 0 0 with
    | .error e => .error e
    | .ok (_, d) => killUnread view n d

/-- Kill until nothing is killed, with the size of what was killed added to the memory. -/
def killLoop (view : BitVec 32 → ProcView) : Nat → Int → Int → Daemon → Except Fault Daemon
  | 0, _, _, _ => .error .endless
  | fuel + 1, otherFree, otherFile, d =>
    match d.findAndKillProcess view otherFree otherFile with
    | .error e => .error e
    | .ok (killed, d) =>
      let size := killedSize killed
      if size > 0 then killLoop view fuel (otherFree + size) (otherFile + size) d
      else .ok d

def mpEvent (e : Pressure) (d : Daemon) : Except Fault Daemon :=
  if e.time - d.killLasttime < KILL_TIMEOUT then .ok d
  else
    match d.killUnread e.view e.zoneinfoFailures with
    | .error f => .error f
    | .ok d => d.killLoop e.view (d.table.fresh + 1) e.otherFree e.otherFile

/-! ## Events -/

inductive Event where
  | packet (packet : List UInt8) (mallocOk : Bool)
  | pressure (e : Pressure)

def step (d : Daemon) : Event → Except Fault Daemon
  | .packet packet mallocOk => d.ctrlCommandHandler mallocOk packet
  | .pressure e => d.mpEvent e

end Daemon

end SystemCore.Lmkd
