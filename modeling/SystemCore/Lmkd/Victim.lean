import SystemCore.Lmkd.Registry

/-!
# Which process is killed

The killer goes through the slots from the largest oomadj down to the one of the target that
memory is under, and what it looks at and cannot kill goes from the table on the way. After any
commands the list of the settings says which process it takes.
-/
namespace SystemCore.Lmkd

open Lib Lib.Runs Lib.RankedPick List Daemon

/-! ## Commands -/

inductive Command where
  | target (ntargets : Nat) (params : Nat → BitVec 32)
  | procprio (mallocOk : Bool) (pid uid : BitVec 32) (oomadj : Int)
  | procremove (pid : BitVec 32)

def Daemon.command (d : Daemon) : Command → Except Fault Daemon
  | .target ntargets params => .ok (d.cmdTarget ntargets params)
  | .procprio mallocOk pid uid oomadj => d.cmdProcprio mallocOk pid uid oomadj
  | .procremove pid => d.cmdProcremove pid

/-- What a command should do to the registered processes. -/
def Recency.command (l : Recency) : Command → Recency
  | .target .. => l
  | .procprio mallocOk pid _ oomadj => l.procprio mallocOk pid oomadj
  | .procremove pid => l.procremove pid

/-- An oomadj is one that has a slot. -/
def Command.InRange : Command → Prop
  | .target ntargets params => ∀ i < ntargets,
      OOM_ADJUST_MIN ≤ (params (2 * i + 1)).toInt ∧ (params (2 * i + 1)).toInt ≤ OOM_ADJUST_MAX
  | .procprio _ _ _ oomadj => OOM_ADJUST_MIN ≤ oomadj ∧ oomadj ≤ OOM_ADJUST_MAX
  | .procremove _ => True

instance : ∀ c : Command, Decidable c.InRange
  | .target .. => inferInstanceAs (Decidable (∀ i < _, _))
  | .procprio .. => inferInstanceAs (Decidable (_ ∧ _))
  | .procremove _ => inferInstanceAs (Decidable True)

/-- The daemon's table has the processes of the list, and its targets have slots. -/
structure Follows (d : Daemon) (l : Recency) : Prop where
  user : d.useInkernelInterface = false
  recalls : Recalls d.table l
  targets : ∀ i < d.lowmemTargetsSize,
    OOM_ADJUST_MIN ≤ d.lowmemAdj i ∧ d.lowmemAdj i ≤ OOM_ADJUST_MAX

theorem follows_init : Follows (Daemon.init false) [] where
  user := rfl
  recalls := recalls_init
  targets := fun i hi => absurd hi (Nat.not_lt_zero i)

variable {d : Daemon} {l : Recency} {order : List ProcId} {t : Table}
  {view : BitVec 32 → Daemon.ProcView}

theorem cmdTarget_follows (h : Follows d l) {ntargets : Nat} {params : Nat → BitVec 32}
    (hrange : (Command.target ntargets params).InRange) :
    Follows (d.cmdTarget ntargets params) l := by
  unfold cmdTarget
  split
  · exact h
  · refine ⟨h.user, h.recalls, fun i hi => ?_⟩
    simp only [if_pos hi]
    exact hrange i hi

theorem command_follows (h : Follows d l) {c : Command} (hrange : c.InRange) :
    ∃ d', d.command c = .ok d' ∧ Follows d' (l.command c) := by
  cases c with
  | target ntargets params => exact ⟨_, rfl, cmdTarget_follows h hrange⟩
  | procprio mallocOk pid uid oomadj =>
    obtain ⟨t', hd, hrecalls⟩ := cmdProcprio_recalls hrange h.user h.recalls mallocOk pid uid
    exact ⟨_, hd, h.user, hrecalls, h.targets⟩
  | procremove pid =>
    obtain ⟨t', hd, hrecalls⟩ := cmdProcremove_recalls h.user h.recalls pid
    exact ⟨_, hd, h.user, hrecalls, h.targets⟩

theorem commands_follow {commands : List Command} :
    ∀ {d : Daemon} {l : Recency}, Follows d l → (∀ c ∈ commands, c.InRange) →
      ∃ d', run Daemon.command d commands = .ok d' ∧
        Follows d' (commands.foldl Recency.command l) := by
  induction commands with
  | nil => exact fun {d l} h _ => ⟨d, rfl, h⟩
  | cons c commands ih =>
    intro d l h hrange
    obtain ⟨d₁, hstep, hnext⟩ := command_follows h (hrange c mem_cons_self)
    obtain ⟨d', hrun, hend⟩ := ih hnext fun c hc => hrange c (mem_cons_of_mem _ hc)
    exact ⟨d', (run_cons_ok hstep).trans hrun, hend⟩

/-! ## The killer -/

namespace Daemon

/-- The first target that memory is under. -/
def firstTarget (otherFree otherFile : Int) (d : Daemon) : Option Nat :=
  (List.range d.lowmemTargetsSize).find? fun i => Below otherFree otherFile i d

end Daemon

/-- What to kill down to an oomadj: a live process of the largest oomadj that a live process has,
and of these the one whose oomadj was set first. Without a live process, nothing. -/
def RightVictim (view : BitVec 32 → Daemon.ProcView) (l : Recency) (minAdj : Int) :
    Option (BitVec 32 × Int) → Prop
  | none => ∀ e ∈ l, minAdj ≤ e.2 → Alive view e.1 = false
  | some (pid, size) =>
    Alive view pid = true ∧ size = (view pid).tasksize ∧
      ∃ newer adj older, l = newer ++ (pid, adj) :: older ∧ minAdj ≤ adj ∧
        (∀ e ∈ l, Alive view e.1 = true → e.2 ≤ adj) ∧
        ∀ e ∈ older, e.2 = adj → Alive view e.1 = false

theorem rightVictim_pick (h : Layout t order) {minAdj : Int} {n : Nat}
    (hn : OOM_ADJUST_MAX - n + 1 = minAdj) :
    RightVictim view (order.map t.entry) minAdj
      ((t.pickAlive view n OOM_ADJUST_MAX order).map (t.killed view)) := by
  have hmax : ∀ p ∈ order, (t.proc p).oomadj ≤ OOM_ADJUST_MAX :=
    fun p hp => (h.slots.in_range hp).2
  rcases hpick : t.pickAlive view n OOM_ADJUST_MAX order with _ | p
  · intro e he hmin
    obtain ⟨p, hp, rfl⟩ := mem_map.mp he
    refine pickDown_none hpick p hp ?_ (hmax p hp)
    change minAdj ≤ (t.proc p).oomadj at hmin
    omega
  · obtain ⟨halive, hlow, hhigh, newer, older, hsplit, hold⟩ := pickDown_some hpick
    refine ⟨halive, rfl, newer.map t.entry, (t.proc p).oomadj, older.map t.entry, ?_, by omega, ?_, ?_⟩
    · rw [hsplit, map_append, map_cons]
      rfl
    · intro e he hlive
      obtain ⟨q, hq, rfl⟩ := mem_map.mp he
      exact hhigh q hq hlive (hmax q hq)
    · intro e he hadj
      obtain ⟨q, hq, rfl⟩ := mem_map.mp he
      exact hold q hq hadj

/-- After any commands the killer comes to an end, and takes the right process. -/
theorem kill_takes_right_victim {commands : List Command} (hrange : ∀ c ∈ commands, c.InRange) :
    ∃ d, run Daemon.command (Daemon.init false) commands = .ok d ∧
      ∀ (view : BitVec 32 → Daemon.ProcView) (otherFree otherFile : Int), ∃ killed d',
        d.findAndKillProcess view otherFree otherFile = .ok (killed, d') ∧
        match d.firstTarget otherFree otherFile with
        | none => killed = none
        | some i => RightVictim view (commands.foldl Recency.command []) (d.lowmemAdj i) killed := by
  obtain ⟨d, hrun, -, ⟨order, hlayout, hlist⟩, htargets⟩ := commands_follow follows_init hrange
  refine ⟨d, hrun, fun view otherFree otherFile => ?_⟩
  have hmin : d.minScoreAdj otherFree otherFile =
      (d.firstTarget otherFree otherFile).elim (OOM_ADJUST_MAX + 1) d.lowmemAdj := by
    unfold minScoreAdj firstTarget
    split
    case h_1 hnone => rw [hnone]; rfl
    case h_2 i hsome => rw [hsome]; rfl
  have hlow : OOM_ADJUST_MIN ≤ d.minScoreAdj otherFree otherFile := by
    rw [hmin]
    rcases htarget : d.firstTarget otherFree otherFile with _ | i
    · rw [Option.elim_none]
      decide
    · exact (htargets i (mem_range.mp (mem_of_find?_eq_some htarget))).1
  obtain ⟨r, t', -, hkill, rfl, -⟩ := findAndKillProcess_pick view hlayout hlow
  refine ⟨_, _, hkill, ?_⟩
  rw [hmin, hlist]
  rcases htarget : d.firstTarget otherFree otherFile with _ | i
  · rfl
  · have hhigh := (htargets i (mem_range.mp (mem_of_find?_eq_some htarget))).2
    exact rightVictim_pick hlayout (by rw [Option.elim_some]; omega)

/-- Two processes share an oomadj, and one of them is set again. -/
theorem kill_takes_right_victim_two :
    (∀ c ∈ [Command.target 1 (fun i => if i = 0 then 100 else 3), .procprio true 10 0 5,
        .procprio true 11 0 5, .procprio true 10 0 5, .procremove 12], c.InRange) ∧
      ∃ d, run Daemon.command (Daemon.init false)
          [.target 1 (fun i => if i = 0 then 100 else 3), .procprio true 10 0 5,
            .procprio true 11 0 5, .procprio true 10 0 5, .procremove 12] = .ok d ∧
        ∀ (view : BitVec 32 → Daemon.ProcView) (otherFree otherFile : Int), ∃ killed d',
          d.findAndKillProcess view otherFree otherFile = .ok (killed, d') ∧
          match d.firstTarget otherFree otherFile with
          | none => killed = none
          | some i => RightVictim view [(10, 5), (11, 5)] (d.lowmemAdj i) killed :=
  ⟨by decide, kill_takes_right_victim (by decide)⟩

end SystemCore.Lmkd
