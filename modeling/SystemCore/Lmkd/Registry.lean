import SystemCore.Lmkd.Recency

/-!
# Runs of the low memory killer

Over the list of the settings is the registry, which says what oomadj each pid has and nothing
about their order. A packet changes one process of it, and memory pressure takes away the
processes that `kill_one_process` was called on.

An index into the slots comes from a packet, either as the oomadj of a process or as the limit
down to which the killer goes. The first may be one below the smallest slot, and the second may
be anything.
-/
namespace SystemCore.Lmkd

open Lib Lib.Runs Lib.RankedPick Daemon List Function

/-! ## The registry -/

/-- The oomadj of each process that is registered. -/
abbrev Registry := BitVec 32 → Option Int

/-- The processes of the list are those that are registered. -/
def Registers (l : Recency) (m : Registry) : Prop :=
  ∀ pid adj, m pid = some adj ↔ (pid, adj) ∈ l

variable {order : List ProcId} {m : Registry} {oomadj otherFree otherFile : Int} {d : Daemon}
  {ibuf : List UInt8} {l : Recency} {t : Table} {buckets : Nat → List ProcId}

theorem Registers.isSome_iff (h : Registers l m) (pid : BitVec 32) :
    (m pid).isSome = true ↔ ∃ e ∈ l, e.1 = pid := by
  rw [Option.isSome_iff_exists]
  simp only [h pid]
  constructor
  · rintro ⟨adj, hadj⟩
    exact ⟨_, hadj, rfl⟩
  · rintro ⟨⟨_, adj⟩, hadj, rfl⟩
    exact ⟨adj, hadj⟩

/-- The registry with one process more, or with another oomadj for one. -/
theorem Registers.set (h : Registers l m) (pid : BitVec 32) (adj : Int) :
    Registers ((pid, adj) :: l.filter (·.1 ≠ pid)) (Function.update m pid (some adj)) := by
  intro k a
  rw [mem_cons, mem_filter, decide_eq_true_eq, Prod.mk.injEq]
  by_cases hk : k = pid
  · rw [hk, update_self]
    simp [eq_comm]
  · rw [update_of_ne hk, h]
    simp [hk]

/-- The registry without some processes. -/
def Registry.without (pids : List (BitVec 32)) (m : Registry) : Registry :=
  fun pid => if pid ∈ pids then none else m pid

theorem Registers.without (h : Registers l m) (pids : List (BitVec 32)) :
    Registers (l.filter fun e => !pids.contains e.1) (m.without pids) := by
  intro k a
  unfold Registry.without
  rw [mem_filter, ← h k a]
  by_cases hk : k ∈ pids
  · simp [hk]
  · simp [hk]

/-- A process gets an oomadj in the range, unless there is no memory for a new one. -/
def Registry.procprio (mallocOk : Bool) (pid : BitVec 32) (adj : Int) (m : Registry) : Registry :=
  if (OOM_ADJUST_MIN ≤ adj ∧ adj ≤ OOM_ADJUST_MAX) ∧ ((m pid).isSome = true ∨ mallocOk = true) then
    Function.update m pid (some adj)
  else m

/-- What a packet should do to the registry. -/
def Registry.packet (mallocOk : Bool) (packet : List UInt8) (m : Registry) : Registry :=
  let ibuf := packet.take CTRL_PACKET_MAX
  let cmd := (Daemon.word ibuf 0).toInt
  if ibuf.length / 4 = 4 ∧ cmd = LMK_PROCPRIO then
    m.procprio mallocOk (Daemon.word ibuf 1) (Daemon.word ibuf 3).toInt
  else if ibuf.length / 4 = 2 ∧ cmd = LMK_PROCREMOVE then
    m.without [Daemon.word ibuf 1]
  else m

/-- A packet does what it should, and memory pressure takes away the processes that
`kill_one_process` is called on. -/
def Registry.step (calls : List (BitVec 32)) (m : Registry) : Daemon.Event → Registry
  | .packet packet mallocOk => m.packet mallocOk packet
  | .pressure _ => m.without calls

/-- The registry beside the daemon, with the calls that the daemon makes for the event. -/
def stepRegistered (s : Daemon × Registry) (e : Daemon.Event) :
    Except Fault (Daemon × Registry) :=
  match s.1.step e with
  | .error f => .error f
  | .ok d => .ok (d, s.2.step (d.table.killCalls.drop s.1.table.killCalls.length) e)

/-! ## Commands -/

/-- The daemon's table is in order and has what is registered. -/
def Holds (d : Daemon) (m : Registry) : Prop :=
  d.useInkernelInterface = false ∧ ∃ l, Recalls d.table l ∧ Registers l m

theorem holds_init : Holds (Daemon.init false) fun _ => none :=
  ⟨rfl, [], recalls_init, by simp [Registers]⟩

theorem cmdProcprio_holds (h : Holds d m) (mallocOk : Bool) (pid uid : BitVec 32)
    (hadj : oomadj ≠ OOM_DISABLE) :
    ∃ d', d.cmdProcprio mallocOk pid uid oomadj = .ok d' ∧
      Holds d' (m.procprio mallocOk pid oomadj) := by
  obtain ⟨hkernel, l, hl, hm⟩ := h
  by_cases hrange : OOM_ADJUST_MIN ≤ oomadj ∧ oomadj ≤ OOM_ADJUST_MAX
  · obtain ⟨t', hd, hl'⟩ := cmdProcprio_recalls hrange hkernel hl mallocOk pid uid
    refine ⟨_, hd, hkernel, _, hl', ?_⟩
    unfold Recency.procprio Registry.procprio
    by_cases hyes : (m pid).isSome = true ∨ mallocOk = true
    · rw [if_pos (by rwa [← hm.isSome_iff]), if_pos ⟨hrange, hyes⟩]
      exact hm.set pid oomadj
    · rw [if_neg (by rwa [← hm.isSome_iff]), if_neg fun hc => hyes hc.2]
      exact hm
  · have hbad : oomadj < OOM_DISABLE ∨ oomadj > OOM_ADJUST_MAX := by
      unfold OOM_DISABLE OOM_ADJUST_MIN at *
      omega
    have hreg : m.procprio mallocOk pid oomadj = m := if_neg fun hc => hrange hc.1
    rw [hreg]
    exact ⟨d, if_pos hbad, hkernel, l, hl, hm⟩

theorem cmdProcremove_holds (h : Holds d m) (pid : BitVec 32) :
    ∃ d', d.cmdProcremove pid = .ok d' ∧ Holds d' (m.without [pid]) := by
  obtain ⟨hkernel, l, hl, hm⟩ := h
  obtain ⟨t', hd, hl'⟩ := cmdProcremove_recalls hkernel hl pid
  have hsame : l.procremove pid = l.filter fun e => !([pid].contains e.1) :=
    filter_congr fun e _ => by simp
  refine ⟨_, hd, hkernel, _, hl', ?_⟩
  rw [hsame]
  exact hm.without [pid]

/-! ## The killer -/

variable (view : BitVec 32 → Daemon.ProcView)

/-- The limits that memory is under are in the range of the slots. -/
def LimitsOk (otherFree otherFile : Int) (d : Daemon) : Prop :=
  ∀ i < d.lowmemTargetsSize, Daemon.Below otherFree otherFile i d → OOM_ADJUST_MIN ≤ d.lowmemAdj i

instance (otherFree otherFile : Int) (d : Daemon) : Decidable (LimitsOk otherFree otherFile d) :=
  inferInstanceAs (Decidable (∀ i < d.lowmemTargetsSize, _ → _))

theorem LimitsOk.minScoreAdj (h : LimitsOk otherFree otherFile d) :
    OOM_ADJUST_MIN ≤ d.minScoreAdj otherFree otherFile := by
  unfold Daemon.minScoreAdj
  split
  · decide
  case h_2 i hfind =>
    have hmem := mem_range.mp (mem_of_find?_eq_some hfind)
    have hbelow : Daemon.Below otherFree otherFile i d := by simpa using List.find?_some hfind
    exact h i hmem hbelow

/-- With more memory the daemon is under fewer limits. -/
theorem LimitsOk.mono {k : Int} (h : LimitsOk otherFree otherFile d) (hk : k > 0) :
    LimitsOk (otherFree + k) (otherFile + k) d := by
  intro i hi hbelow
  refine h i hi ?_
  unfold Daemon.Below at *
  omega

theorem findAndKillProcess_killed (h : Layout d.table order)
    (hlimits : LimitsOk otherFree otherFile d) :
    ∃ r t' pids, d.findAndKillProcess view otherFree otherFile = .ok (r, { d with table := t' }) ∧
      Killed d.table order t' pids ∧
      (r.isSome = true → (d.table.without pids order).length < order.length) := by
  obtain ⟨r, t', pids, hkill, hpick, hkilled, hgone⟩ :=
    findAndKillProcess_pick view h hlimits.minScoreAdj
  refine ⟨_, t', pids, hkill, hkilled, fun hsome => ?_⟩
  rw [Option.isSome_map] at hsome
  obtain ⟨p, hp⟩ := Option.isSome_iff_exists.mp hsome
  obtain ⟨-, -, -, newer, older, hsplit, -⟩ := pickDown_some (hpick.symm.trans hp)
  exact length_filter_lt_length_iff_exists.mpr
    ⟨p, by rw [hsplit]; exact mem_append_right _ mem_cons_self, by simpa using hgone p hp⟩

theorem killUnread_killed {n : Nat} (h : Layout d.table order) (hlimits : 0 < n → LimitsOk 0 0 d) :
    ∃ t' pids, d.killUnread view n = .ok { d with table := t' } ∧
      Killed d.table order t' pids := by
  induction n generalizing d order with
  | zero => exact ⟨d.table, [], rfl, .refl h⟩
  | succ n ih =>
    obtain ⟨r, t₁, pids, hkill, hkilled, -⟩ :=
      findAndKillProcess_killed view h (hlimits (Nat.succ_pos n))
    obtain ⟨t', pids', hrest, hkilled'⟩ := ih (d := { d with table := t₁ }) hkilled.layout
      fun _ => hlimits (Nat.succ_pos n)
    refine ⟨t', _, ?_, hkilled.trans hkilled'⟩
    unfold killUnread
    rw [hkill]
    exact hrest

theorem isSome_of_killedSize_pos {r : Option (BitVec 32 × Int)} (h : killedSize r > 0) :
    r.isSome = true := by
  cases r with
  | none => cases h
  | some _ => rfl

theorem killLoop_killed {fuel : Nat} (h : Layout d.table order) (hfuel : order.length < fuel)
    (hlimits : LimitsOk otherFree otherFile d) :
    ∃ t' pids, d.killLoop view fuel otherFree otherFile = .ok { d with table := t' } ∧
      Killed d.table order t' pids := by
  induction fuel generalizing otherFree otherFile d order with
  | zero => exact absurd hfuel (Nat.not_lt_zero _)
  | succ fuel ih =>
    obtain ⟨r, t₁, pids, hkill, hkilled, hless⟩ := findAndKillProcess_killed view h hlimits
    unfold killLoop
    simp only [hkill]
    by_cases hk : killedSize r > 0
    · have hfuel₁ : (d.table.without pids order).length < fuel := by
        have := hless (isSome_of_killedSize_pos hk)
        omega
      obtain ⟨t', pids', hrest, hkilled'⟩ :=
        ih (d := { d with table := t₁ }) hkilled.layout hfuel₁ (hlimits.mono hk)
      exact ⟨t', _, by rw [if_pos hk]; exact hrest, hkilled.trans hkilled'⟩
    · exact ⟨t₁, pids, by rw [if_neg hk], hkilled⟩

theorem mpEvent_holds (h : Holds d m) (e : Daemon.Pressure)
    (hlimits : e.time - d.killLasttime < KILL_TIMEOUT ∨
      LimitsOk e.otherFree e.otherFile d ∧ (0 < e.zoneinfoFailures → LimitsOk 0 0 d)) :
    ∃ d' calls, d.mpEvent e = .ok d' ∧ d'.table.killCalls = d.table.killCalls ++ calls ∧
      Holds d' (m.without calls) := by
  obtain ⟨hkernel, _, ⟨order, hlayout, rfl⟩, hm⟩ := h
  unfold mpEvent
  by_cases htime : e.time - d.killLasttime < KILL_TIMEOUT
  · rw [if_pos htime]
    exact ⟨d, [], rfl, (append_nil _).symm, hkernel, _, (Killed.refl hlayout).recalls,
      hm.without []⟩
  · obtain ⟨hlater, hunread⟩ := hlimits.resolve_left htime
    obtain ⟨t₁, pids, hfirst, hkilled⟩ := killUnread_killed e.view hlayout hunread
    obtain ⟨t', pids', hloop, hkilled'⟩ := killLoop_killed e.view (d := { d with table := t₁ })
      hkilled.layout (Nat.lt_succ_of_le hkilled.layout.length_le) hlater
    have hboth := hkilled.trans hkilled'
    refine ⟨{ d with table := t' }, _, ?_, hboth.calls, hkernel, _, hboth.recalls, hm.without _⟩
    simp only [if_neg htime, hfirst]
    exact hloop

/-! ## Whole runs -/

/-- What keeps an event inside the slots: the oomadj in a packet is not `OOM_DISABLE`, and the
killer is not sent below the smallest oomadj. -/
def InRange (d : Daemon) : Daemon.Event → Prop
  | .packet packet _ =>
    let ibuf := packet.take CTRL_PACKET_MAX
    ibuf.length / 4 = 4 → (Daemon.word ibuf 0).toInt = LMK_PROCPRIO →
      (Daemon.word ibuf 3).toInt ≠ OOM_DISABLE
  | .pressure e =>
    e.time - d.killLasttime < KILL_TIMEOUT ∨
      LimitsOk e.otherFree e.otherFile d ∧ (0 < e.zoneinfoFailures → LimitsOk 0 0 d)

instance (d : Daemon) : ∀ e, Decidable (InRange d e)
  | .packet .. => inferInstanceAs (Decidable (_ → _ → _))
  | .pressure .. => inferInstanceAs (Decidable (_ ∨ _))

theorem ctrlCommandHandler_procprio (d : Daemon) (mallocOk : Bool) {packet : List UInt8}
    (hbuf : packet.take CTRL_PACKET_MAX = ibuf) (hlen : ibuf.length / 4 = 4)
    (hcmd : (Daemon.word ibuf 0).toInt = LMK_PROCPRIO) :
    d.ctrlCommandHandler mallocOk packet =
      d.cmdProcprio mallocOk (Daemon.word ibuf 1) (Daemon.word ibuf 2) (Daemon.word ibuf 3).toInt := by
  have htarget : ¬ LMK_PROCPRIO = LMK_TARGET := by decide
  unfold ctrlCommandHandler
  simp only [hbuf, hcmd]
  rw [if_neg (by omega), if_neg (by omega), if_neg htarget, if_pos trivial, if_neg (by omega)]

theorem ctrlCommandHandler_procremove (d : Daemon) (mallocOk : Bool) {packet : List UInt8}
    (hbuf : packet.take CTRL_PACKET_MAX = ibuf) (hlen : ibuf.length / 4 = 2)
    (hcmd : (Daemon.word ibuf 0).toInt = LMK_PROCREMOVE) :
    d.ctrlCommandHandler mallocOk packet = d.cmdProcremove (Daemon.word ibuf 1) := by
  have htarget : ¬ LMK_PROCREMOVE = LMK_TARGET := by decide
  have hprio : ¬ LMK_PROCREMOVE = LMK_PROCPRIO := by decide
  unfold ctrlCommandHandler
  simp only [hbuf, hcmd]
  rw [if_neg (by omega), if_neg (by omega), if_neg htarget, if_neg hprio, if_pos trivial,
    if_neg (by omega)]

/-- Any other packet leaves the processes as they are. -/
theorem ctrlCommandHandler_other (d : Daemon) (mallocOk : Bool) {packet : List UInt8}
    (hbuf : packet.take CTRL_PACKET_MAX = ibuf)
    (hprio : ¬ (ibuf.length / 4 = 4 ∧ (Daemon.word ibuf 0).toInt = LMK_PROCPRIO))
    (hremove : ¬ (ibuf.length / 4 = 2 ∧ (Daemon.word ibuf 0).toInt = LMK_PROCREMOVE)) :
    ∃ d', d.ctrlCommandHandler mallocOk packet = .ok d' ∧ d'.table = d.table ∧
      d'.useInkernelInterface = d.useInkernelInterface := by
  unfold ctrlCommandHandler
  simp only [hbuf]
  split
  · exact ⟨d, rfl, rfl, rfl⟩
  split
  · exact ⟨d, rfl, rfl, rfl⟩
  split
  · split
    · exact ⟨d, rfl, rfl, rfl⟩
    · refine ⟨_, rfl, ?_⟩
      unfold cmdTarget
      split
      · exact ⟨rfl, rfl⟩
      · exact ⟨rfl, rfl⟩
  split
  case isTrue hcmd =>
    rw [if_pos (by omega)]
    exact ⟨d, rfl, rfl, rfl⟩
  split
  case isTrue hcmd =>
    rw [if_pos (by omega)]
    exact ⟨d, rfl, rfl, rfl⟩
  · exact ⟨d, rfl, rfl, rfl⟩

theorem ctrlCommandHandler_holds (h : Holds d m) (mallocOk : Bool) (packet : List UInt8)
    (hrange : InRange d (.packet packet mallocOk)) :
    ∃ d', d.ctrlCommandHandler mallocOk packet = .ok d' ∧ Holds d' (m.packet mallocOk packet) := by
  obtain ⟨ibuf, hbuf⟩ : ∃ ibuf, packet.take CTRL_PACKET_MAX = ibuf := ⟨_, rfl⟩
  unfold InRange at hrange
  unfold Registry.packet
  simp only [hbuf] at hrange ⊢
  by_cases hprio : ibuf.length / 4 = 4 ∧ (word ibuf 0).toInt = LMK_PROCPRIO
  · rw [if_pos hprio, ctrlCommandHandler_procprio d mallocOk hbuf hprio.1 hprio.2]
    exact cmdProcprio_holds h mallocOk _ _ (hrange hprio.1 hprio.2)
  rw [if_neg hprio]
  by_cases hremove : ibuf.length / 4 = 2 ∧ (word ibuf 0).toInt = LMK_PROCREMOVE
  · rw [if_pos hremove, ctrlCommandHandler_procremove d mallocOk hbuf hremove.1 hremove.2]
    exact cmdProcremove_holds h _
  rw [if_neg hremove]
  obtain ⟨d', hd, htable, hkernel⟩ := ctrlCommandHandler_other d mallocOk hbuf hprio hremove
  refine ⟨d', hd, ?_⟩
  unfold Holds
  rw [htable, hkernel]
  exact h

theorem step_holds (h : Holds d m) {e : Daemon.Event} (hrange : InRange d e) :
    ∃ d' m', d.step e = .ok d' ∧ stepRegistered (d, m) e = .ok (d', m') ∧ Holds d' m' := by
  cases e with
  | packet packet mallocOk =>
    obtain ⟨d', hd, hholds⟩ := ctrlCommandHandler_holds h mallocOk packet hrange
    have hstep : d.step (.packet packet mallocOk) = .ok d' := hd
    refine ⟨d', m.packet mallocOk packet, hstep, ?_, hholds⟩
    simp only [stepRegistered, hstep, Registry.step]
  | pressure e =>
    obtain ⟨d', calls, hd, hcalls, hholds⟩ := mpEvent_holds h e hrange
    have hstep : d.step (.pressure e) = .ok d' := hd
    refine ⟨d', m.without calls, hstep, ?_, hholds⟩
    simp only [stepRegistered, hstep, Registry.step, hcalls, drop_left]

theorem run_holds {events : List Daemon.Event} :
    ∀ {d : Daemon} {m : Registry}, Holds d m → Along Daemon.step InRange d events →
      ∃ d' m', run Daemon.step d events = .ok d' ∧
        run stepRegistered (d, m) events = .ok (d', m') ∧ Holds d' m' := by
  induction events with
  | nil => exact fun {d m} h _ => ⟨d, m, rfl, rfl, h⟩
  | cons e events ih =>
    intro d m h halong
    obtain ⟨d₁, m₁, hstep, hreg, hholds⟩ := step_holds h halong.1
    obtain ⟨d', m', hrun, hregs, hend⟩ := ih hholds (halong.2 d₁ hstep)
    exact ⟨d', m', (run_cons_ok hstep).trans hrun, (run_cons_ok hreg).trans hregs, hend⟩

/-! ## What is in the two structures -/

/-- Each registered pid is in the hash table once and once in the slot of its oomadj, and
nothing else is anywhere. -/
structure Tracks (t : Table) (m : Registry) : Prop where
  hash : ∀ pid, t.hashPids.count pid = if (m pid).isSome = true then 1 else 0
  slot : ∀ (i : Slot) pid, (t.slotPids i).count pid =
    if m pid = some (((i : Nat) : Int) + OOM_ADJUST_MIN) then 1 else 0

theorem nodup_pids (h : HashLayout t order buckets) {procs : List ProcId} (hprocs : procs.Nodup)
    (hsub : ∀ p ∈ procs, p ∈ order) : (procs.map fun p => (t.proc p).pid).Nodup :=
  hprocs.map_on fun p hp q hq heq => h.pid_inj (hsub p hp) (hsub q hq) heq

theorem hashPids_eq (h : HashLayout t order buckets) :
    t.hashPids = (List.range PIDHASH_SZ).flatMap fun k =>
      (buckets k).map fun p => (t.proc p).pid := by
  unfold Table.hashPids
  congr 1
  funext k
  rw [(h.chain k).walk_eq (h.length_le k)]

theorem count_hashPids (h : HashLayout t order buckets) (hm : Registers (order.map t.entry) m)
    (pid : BitVec 32) : t.hashPids.count pid = if (m pid).isSome = true then 1 else 0 := by
  have hbucket : ∀ k, ∀ p ∈ buckets k, p ∈ order := fun k p hp => (h.mem_bucket.mp hp).1
  have hnodup : t.hashPids.Nodup := by
    rw [hashPids_eq h, nodup_flatMap]
    refine ⟨fun k _ => nodup_pids h (h.nodup k) (hbucket k), ?_⟩
    -- records of two chains differ in the hash of their pids
    refine nodup_range.imp fun {j k} hjk x hj hk => ?_
    obtain ⟨p, hp, rfl⟩ := mem_map.mp hj
    obtain ⟨q, hq, heq⟩ := mem_map.mp hk
    refine hjk ?_
    rw [← (h.mem_bucket.mp hp).2, ← (h.mem_bucket.mp hq).2, heq]
  have hmem : pid ∈ t.hashPids ↔ (m pid).isSome = true := by
    rw [hm.isSome_iff, hashPids_eq h, mem_flatMap]
    constructor
    · rintro ⟨k, -, hk⟩
      obtain ⟨p, hp, heq⟩ := mem_map.mp hk
      exact ⟨_, mem_map_of_mem (hbucket k p hp), heq⟩
    · rintro ⟨e, he, rfl⟩
      obtain ⟨p, hp, rfl⟩ := mem_map.mp he
      exact ⟨_, mem_range.mpr (pidHashfn_lt _), mem_map_of_mem (h.mem_bucket.mpr ⟨hp, rfl⟩)⟩
  rw [hnodup.count]
  simp only [hmem]

theorem count_slotPids (h : Layout t order) (hm : Registers (order.map t.entry) m) (i : Slot)
    (pid : BitVec 32) :
    (t.slotPids i).count pid = if m pid = some (slotAdj i) then 1 else 0 := by
  have hsub : t.ofAdj order (slotAdj i) <+ order := filter_sublist
  have hlen : ((t.ofAdj order (slotAdj i)).map Asl.proc).length < t.fresh + 1 := by
    rw [length_map]
    exact Nat.lt_succ_of_le (hsub.length_le.trans h.length_le)
  have heq : t.slotPids i = (t.ofAdj order (slotAdj i)).map fun p => (t.proc p).pid := by
    unfold Table.slotPids
    rw [(h.slots.ring i).walk_eq hlen, filterMap_map]
    exact congrFun filterMap_eq_map _
  have hmem : pid ∈ t.slotPids i ↔ m pid = some (slotAdj i) := by
    rw [heq, hm, mem_map, mem_map]
    simp only [Table.mem_ofAdj, Table.entry, Prod.mk.injEq, and_assoc, and_comm]
  have hnodup : (t.slotPids i).Nodup := by
    obtain ⟨buckets, hhash⟩ := h.hash
    rw [heq]
    exact nodup_pids hhash (hsub.nodup h.nodup) fun _ hp => hsub.subset hp
  rw [hnodup.count]
  simp only [hmem]

theorem Holds.tracks (h : Holds d m) : Tracks d.table m := by
  obtain ⟨-, _, ⟨order, hlayout, rfl⟩, hm⟩ := h
  obtain ⟨buckets, hhash⟩ := hlayout.hash
  exact ⟨count_hashPids hhash hm, count_slotPids hlayout hm⟩

/-- Packets and memory pressure events in the range of the slots never use an index outside it,
and never run on without an end. What the packets have registered, without the processes that
`kill_one_process` was called on, is in the hash table once and once in the slot of its oomadj, and
nothing else is there. -/
theorem lmkd_bookkeeping (events : List Daemon.Event)
    (h : Along Daemon.step InRange (Daemon.init false) events) :
    ∃ d m, run Daemon.step (Daemon.init false) events = .ok d ∧
      run stepRegistered (Daemon.init false, fun _ => none) events = .ok (d, m) ∧
      Tracks d.table m := by
  obtain ⟨d, m, hrun, hreg, hholds⟩ := run_holds holds_init h
  exact ⟨d, m, hrun, hreg, hholds.tracks⟩

/-! ## Inside the slots and below them -/

/-- The bytes of a word in network order, for small numbers and small negative ones. -/
def netWord (x : Int) : List UInt8 :=
  if 0 ≤ x then [0, 0, 0, UInt8.ofNat x.toNat] else [255, 255, 255, UInt8.ofNat (256 + x).toNat]

def procprio (pid oomadj : Int) : Daemon.Event :=
  .packet (netWord 1 ++ netWord pid ++ netWord 0 ++ netWord oomadj) true

/-- One limit: below `minfree` pages, kill down to `adj`. -/
def target (minfree adj : Int) : Daemon.Event :=
  .packet (netWord 0 ++ netWord minfree ++ netWord adj) true

/-- No memory at all, and every process can be killed. -/
def pressure : Daemon.Event := .pressure ⟨100, 0, ⟨0, 0, 0, 0⟩, fun _ => ⟨true, 5, 0⟩⟩

/-- Two processes of one hash chain, one of them moved to another slot, then one killed. -/
def twoProcesses : List Daemon.Event :=
  [procprio 5 3, procprio 6 3, procprio 5 9, target 4 (-16), pressure]

theorem lmkd_bookkeeping_two :
    ∃ d m, run Daemon.step (Daemon.init false) twoProcesses = .ok d ∧
      run stepRegistered (Daemon.init false, fun _ => none) twoProcesses = .ok (d, m) ∧
      Tracks d.table m :=
  lmkd_bookkeeping twoProcesses (by decide +kernel)

/-- `OOM_DISABLE` is let through and has no slot, and a limit that is too low sends the killer
there when there is nothing to kill. -/
theorem slot_index_below_zero :
    run Daemon.step (Daemon.init false) [procprio 5 OOM_DISABLE] = .error (.slotIndex (-1)) ∧
      run Daemon.step (Daemon.init false) [target 4 (-17), pressure] = .error (.slotIndex (-1)) :=
  ⟨rfl, rfl⟩

end SystemCore.Lmkd
