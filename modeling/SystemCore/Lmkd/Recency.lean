import SystemCore.Lib.RankedPick
import SystemCore.Lmkd.Bookkeeping
import SystemCore.Lmkd.Daemon

/-!
# The order of the settings

A slot has the process whose oomadj was set last at its head, and the killer takes from the tail.
So the table stands for a list: each registered process with its oomadj, in the order in which
these were set. A command puts one process in front or takes one away, and the killer takes away
those that it looks at.
-/
namespace SystemCore.Lmkd

open Lib Lib.RankedPick Daemon List Function

/-- The registered processes and their oomadj, the one that was set last first. -/
abbrev Recency := List (BitVec 32 × Int)

/-- A process gets an oomadj, unless there is no memory for a new one. -/
def Recency.procprio (mallocOk : Bool) (pid : BitVec 32) (adj : Int) (l : Recency) : Recency :=
  if (∃ e ∈ l, e.1 = pid) ∨ mallocOk = true then (pid, adj) :: l.filter (·.1 ≠ pid) else l

def Recency.procremove (pid : BitVec 32) (l : Recency) : Recency := l.filter (·.1 ≠ pid)

def Table.entry (t : Table) (p : ProcId) : BitVec 32 × Int := ((t.proc p).pid, (t.proc p).oomadj)

/-- The table is in order and has the processes of the list. -/
def Recalls (t : Table) (l : Recency) : Prop := ∃ order, Layout t order ∧ l = order.map t.entry

theorem recalls_init : Recalls Table.init [] := ⟨[], layout_init, rfl⟩

variable {p : ProcId} {order : List ProcId} {t t' : Table} {pid : BitVec 32} {oomadj : Int}
  {d : Daemon} {l : Recency} {pids : List (BitVec 32)}

theorem entry_congr (h : t'.proc = t.proc) : t'.entry = t.entry := by
  unfold Table.entry
  rw [h]

/-! ## Commands -/

/-- Without a record, the list is without its pid. -/
theorem map_entry_without (h : ∀ q ∈ order, (t.proc q).pid = pid ↔ q = p) :
    (order.filter (· ≠ p)).map t.entry = (order.map t.entry).filter (·.1 ≠ pid) := by
  rw [filter_map]
  congr 1
  exact filter_congr fun q hq => decide_eq_decide.mpr (not_congr (h q hq).symm)

/-- A record, new or of the pid that it had, in front of the others. -/
theorem recalls_set {r : Proc} (hproc : t'.proc = Function.update t.proc p r)
    (hpid : ∀ q ∈ order, (t.proc q).pid = r.pid ↔ q = p)
    (hlayout : Layout t' (p :: order.filter (· ≠ p))) :
    Recalls t' ((r.pid, r.oomadj) :: (order.map t.entry).filter (·.1 ≠ r.pid)) := by
  refine ⟨_, hlayout, ?_⟩
  rw [← map_entry_without hpid, map_cons]
  congr 1
  · unfold Table.entry
    rw [hproc, update_self]
  · refine map_congr_left fun q hq => ?_
    unfold Table.entry
    rw [hproc, update_of_ne (mem_filter_ne.mp hq).2]

section Procprio

variable (hrange : OOM_ADJUST_MIN ≤ oomadj ∧ oomadj ≤ OOM_ADJUST_MAX)

include hrange

/-- A process that is not registered yet. -/
theorem register_new (h : Layout t order) (uid : BitVec 32)
    (habsent : ∀ p ∈ order, (t.proc p).pid ≠ pid) :
    ∃ t' : Table, Table.procInsert t.fresh
        { t with
          proc := Function.update t.proc t.fresh ⟨pid, uid, oomadj⟩
          fresh := t.fresh + 1 } = .ok t' ∧
      Recalls t' ((pid, oomadj) :: (order.map t.entry).filter (·.1 ≠ pid)) := by
  let t₁ : Table :=
    { t with proc := Function.update t.proc t.fresh ⟨pid, uid, oomadj⟩, fresh := t.fresh + 1 }
  obtain ⟨buckets, hhash⟩ := h.hash
  have hnew : t.fresh ∉ order := fun hmem => Nat.lt_irrefl _ (hhash.fresh hmem)
  have hself : t₁.proc t.fresh = ⟨pid, uid, oomadj⟩ := update_self ..
  have hold : ∀ p ∈ order, t₁.proc p = t.proc p :=
    fun p hp => update_of_ne (ne_of_mem_of_not_mem hp hnew) _ _
  have hhash₁ : HashLayout t₁ order buckets :=
    hhash.congr (fun _ => Iff.rfl) rfl rfl (Nat.le_succ _) fun p hp => by rw [hold p hp]
  have hslots₁ : SlotLayout t₁ order := h.slots.congr rfl fun p hp => by rw [hold p hp]
  have hhash₂ := hhash₁.insert hnew (Nat.lt_succ_self _) fun q hq => by
    rw [hold q hq, hself]
    exact habsent q hq
  have hslots₂ : SlotLayout { t₁ with
      pidhashNext :=
        Function.update t₁.pidhashNext t.fresh (t₁.pidhash (pidHashfn (t₁.proc t.fresh).pid))
      pidhash := Function.update t₁.pidhash (pidHashfn (t₁.proc t.fresh).pid) (some t.fresh) }
      order := hslots₁.congr rfl fun _ _ => rfl
  obtain ⟨asl, hslot, hslots'⟩ := hslots₂.procSlot hnew (by
    change OOM_ADJUST_MIN ≤ (t₁.proc t.fresh).oomadj ∧ (t₁.proc t.fresh).oomadj ≤ OOM_ADJUST_MAX
    rw [hself]
    exact hrange)
  refine ⟨_, hslot, recalls_set (p := t.fresh) (r := ⟨pid, uid, oomadj⟩) rfl (fun q hq => ?_) ?_⟩
  · exact iff_of_false (habsent q hq) (ne_of_mem_of_not_mem hq hnew)
  · rw [filter_ne_of_notMem hnew]
    exact ⟨nodup_cons.mpr ⟨hnew, h.nodup⟩,
      ⟨_, hhash₂.congr (fun _ => Iff.rfl) rfl rfl (Nat.le_refl _) fun _ _ => rfl⟩, hslots'⟩

/-- A process that is registered gets another oomadj. -/
theorem register_again (h : Layout t order) (hp : p ∈ order) :
    ∃ t' : Table, Table.procSlot p
        { t.procUnslot p with
          proc := Function.update (t.procUnslot p).proc p
            { (t.procUnslot p).proc p with oomadj := oomadj } } = .ok t' ∧
      Recalls t' (((t.proc p).pid, oomadj) ::
        (order.map t.entry).filter (·.1 ≠ (t.proc p).pid)) := by
  let t₁ : Table :=
    { t.procUnslot p with proc := Function.update t.proc p { t.proc p with oomadj := oomadj } }
  obtain ⟨buckets, hhash⟩ := h.hash
  have hself : t₁.proc p = { t.proc p with oomadj := oomadj } := update_self ..
  have hold : ∀ q ≠ p, t₁.proc q = t.proc q := fun q hq => update_of_ne hq _ _
  have hpid : ∀ q, (t₁.proc q).pid = (t.proc q).pid := by
    intro q
    by_cases hq : q = p
    · rw [hq, hself]
    · rw [hold q hq]
  have hslots₁ : SlotLayout t₁ (order.filter (· ≠ p)) :=
    (h.slots.procUnslot hp).congr rfl fun q hq => by rw [hold q (mem_filter_ne.mp hq).2]; rfl
  have hgone : p ∉ order.filter (· ≠ p) := fun hmem => (mem_filter_ne.mp hmem).2 rfl
  obtain ⟨asl, hslot, hslots'⟩ := hslots₁.procSlot hgone (by rw [hself]; exact hrange)
  refine ⟨_, hslot, recalls_set (r := { t.proc p with oomadj := oomadj }) rfl (fun q hq => ?_)
    ⟨nodup_cons.mpr ⟨hgone, h.nodup.filter _⟩, ⟨buckets, ?_⟩, hslots'⟩⟩
  · exact ⟨hhash.pid_inj hq hp, fun heq => by rw [heq]⟩
  · refine hhash.congr (fun q => ?_) rfl rfl (Nat.le_refl _) fun q _ => hpid q
    rw [mem_cons, mem_filter_ne]
    by_cases hq : q = p
    · simp [hq, hp]
    · simp [hq]

/-- What `cmd_procprio` does for an oomadj that has a slot. -/
theorem cmdProcprio_recalls (hkernel : d.useInkernelInterface = false) (h : Recalls d.table l)
    (mallocOk : Bool) (pid uid : BitVec 32) :
    ∃ t', d.cmdProcprio mallocOk pid uid oomadj = .ok { d with table := t' } ∧
      Recalls t' (l.procprio mallocOk pid oomadj) := by
  have hgood : ¬ (oomadj < OOM_DISABLE ∨ oomadj > OOM_ADJUST_MAX) := by
    unfold OOM_DISABLE OOM_ADJUST_MIN at *
    omega
  have huser : ¬ d.useInkernelInterface = true := by rw [hkernel]; exact Bool.false_ne_true
  obtain ⟨order, hlayout, rfl⟩ := h
  obtain ⟨buckets, hhash⟩ := hlayout.hash
  unfold cmdProcprio Recency.procprio
  rw [if_neg hgood, if_neg huser]
  rcases hhash.pidLookup pid with ⟨hlookup, habsent⟩ | ⟨p, hp, rfl, hlookup⟩
  · cases mallocOk with
    | false =>
      have hno : ¬ ((∃ e ∈ order.map d.table.entry, e.1 = pid) ∨ false = true) := by
        rintro (⟨e, he, hpid⟩ | hmalloc)
        · obtain ⟨p, hp, rfl⟩ := mem_map.mp he
          exact habsent p hp hpid
        · cases hmalloc
      rw [if_neg hno]
      exact ⟨d.table, by simp only [hlookup, if_true], order, hlayout, rfl⟩
    | true =>
      obtain ⟨t', hinsert, hset⟩ := register_new hrange hlayout uid habsent
      exact ⟨t', by simp only [hlookup, hinsert, Bool.true_eq_false, if_false],
        by rwa [if_pos (.inr rfl)]⟩
  · obtain ⟨t', hslot, hset⟩ := register_again hrange hlayout hp
    have hknown : ∃ e ∈ order.map d.table.entry, e.1 = (d.table.proc p).pid :=
      ⟨_, mem_map_of_mem hp, rfl⟩
    exact ⟨t', by simp only [hlookup, hslot], by rwa [if_pos (.inl hknown)]⟩

end Procprio

theorem cmdProcremove_recalls (hkernel : d.useInkernelInterface = false) (h : Recalls d.table l)
    (pid : BitVec 32) :
    ∃ t', d.cmdProcremove pid = .ok { d with table := t', killLasttime := 0 } ∧
      Recalls t' (l.procremove pid) := by
  obtain ⟨order, hlayout, rfl⟩ := h
  obtain ⟨buckets, hhash⟩ := hlayout.hash
  have huser : ¬ d.useInkernelInterface = true := by rw [hkernel]; exact Bool.false_ne_true
  unfold cmdProcremove Recency.procremove
  rw [if_neg huser]
  by_cases hpresent : ∃ p ∈ order, (d.table.proc p).pid = pid
  · obtain ⟨p, hp, rfl⟩ := hpresent
    obtain ⟨t', hremove, hlayout', hproc, -⟩ := pidRemove_present hlayout hp
    refine ⟨t', by simp only [hremove], _, hlayout', ?_⟩
    rw [entry_congr hproc, map_entry_without fun q hq =>
      ⟨hhash.pid_inj hq hp, fun heq => by rw [heq]⟩]
  · have habsent : ∀ p ∈ order, (d.table.proc p).pid ≠ pid := fun p hp heq => hpresent ⟨p, hp, heq⟩
    have hsame : (order.map d.table.entry).filter (·.1 ≠ pid) = order.map d.table.entry := by
      rw [filter_eq_self, forall_mem_map]
      exact fun p hp => decide_eq_true (habsent p hp)
    rw [hsame]
    exact ⟨d.table, by simp only [pidRemove_absent hlayout habsent], order, hlayout, rfl⟩

/-! ## The killer -/

/-- There is a process of this pid that has a name and a size, and `kill` reaches it. -/
def Alive (view : BitVec 32 → Daemon.ProcView) (pid : BitVec 32) : Bool :=
  (view pid).hasName && decide (0 < (view pid).tasksize) && decide ((view pid).kill = 0)

/-- The records without those of some pids. -/
def Table.without (t : Table) (pids : List (BitVec 32)) (order : List ProcId) : List ProcId :=
  order.filter fun p => !pids.contains (t.proc p).pid

/-- The records that have gone are the ones that were called on. -/
structure Killed (t : Table) (order : List ProcId) (t' : Table) (pids : List (BitVec 32)) : Prop where
  layout : Layout t' (t.without pids order)
  proc : t'.proc = t.proc
  calls : t'.killCalls = t.killCalls ++ pids

theorem without_nil (t : Table) (order : List ProcId) : t.without [] order = order := by
  simp [Table.without]

theorem Killed.refl (h : Layout t order) : Killed t order t [] :=
  ⟨by rwa [without_nil], rfl, (append_nil _).symm⟩

theorem Killed.without_append (h : Killed t order t' pids) (pids' : List (BitVec 32)) :
    t'.without pids' (t.without pids order) = t.without (pids ++ pids') order := by
  unfold Table.without
  rw [h.proc, filter_filter]
  refine filter_congr fun p _ => ?_
  rw [contains_append, Bool.not_or, Bool.and_comm]

theorem Killed.trans {t'' : Table} {pids' : List (BitVec 32)} (h : Killed t order t' pids)
    (h' : Killed t' (t.without pids order) t'' pids') : Killed t order t'' (pids ++ pids') :=
  ⟨by rw [← h.without_append]; exact h'.layout, h'.proc.trans h.proc,
    by rw [h'.calls, h.calls, append_assoc]⟩

theorem Killed.recalls (h : Killed t order t' pids) :
    Recalls t' ((order.map t.entry).filter fun e => !pids.contains e.1) := by
  refine ⟨_, h.layout, ?_⟩
  rw [entry_congr h.proc, filter_map]
  rfl

section Choice

variable (view : BitVec 32 → Daemon.ProcView)

/-- The record goes, and the size comes back if the process is alive. -/
theorem killOneProcess_spec (h : Layout t order) (hp : p ∈ order) :
    ∃ t', Daemon.killOneProcess view p t =
        .ok (if Alive view (t.proc p).pid = true then (view (t.proc p).pid).tasksize else -1, t') ∧
      Killed t order t' [(t.proc p).pid] ∧
      t.without [(t.proc p).pid] order = order.filter (· ≠ p) := by
  obtain ⟨buckets, hhash⟩ := h.hash
  have hwithout : t.without [(t.proc p).pid] order = order.filter (· ≠ p) := by
    refine filter_congr fun q hq => ?_
    have hiff : (t.proc q).pid = (t.proc p).pid ↔ q = p :=
      ⟨hhash.pid_inj hq hp, fun heq => by rw [heq]⟩
    simp [hiff]
  have hcalled : Layout (t.callKill (t.proc p).pid) order :=
    ⟨h.nodup, ⟨buckets, hhash.congr (fun _ => Iff.rfl) rfl rfl (Nat.le_refl _) fun _ _ => rfl⟩,
      h.slots.congr rfl fun _ _ => rfl⟩
  obtain ⟨t', hremove, hlayout, hproc, hcalls⟩ := pidRemove_present hcalled hp
  change (t.callKill (t.proc p).pid).pidRemove (t.proc p).pid = .ok (0, t') at hremove
  refine ⟨t', ?_, ⟨by rwa [hwithout], hproc, hcalls⟩, hwithout⟩
  unfold killOneProcess Alive
  simp only [hremove]
  by_cases hname : (view (t.proc p).pid).hasName = false
  · simp [hname]
  by_cases hsize : (view (t.proc p).pid).tasksize ≤ 0
  · simp [hname, hsize, Int.not_lt.mpr hsize]
  by_cases hkill : (view (t.proc p).pid).kill = 0
  · simp [hname, hkill, hsize, Int.not_le.mp hsize]
  · simp [hname, hkill, hsize]

theorem tasksize_pos {view : BitVec 32 → Daemon.ProcView} (h : Alive view pid = true) :
    0 < (view pid).tasksize := by
  simp only [Alive, Bool.and_eq_true, decide_eq_true_eq] at h
  exact h.1.2

/-- The oldest live process of an oomadj, and of the largest oomadj from `i` down. -/
def Table.oldestAlive (t : Table) : Int → List ProcId → Option ProcId :=
  oldest (fun p => (t.proc p).oomadj) fun p => Alive view (t.proc p).pid

def Table.pickAlive (t : Table) : Nat → Int → List ProcId → Option ProcId :=
  pickDown (fun p => (t.proc p).oomadj) fun p => Alive view (t.proc p).pid

def Table.killed (t : Table) (p : ProcId) : BitVec 32 × Int :=
  ((t.proc p).pid, (view (t.proc p).pid).tasksize)

/-- In a slot the oldest live process is killed. The ones behind it go, and other slots stay. -/
theorem killInSlot_oldest {adj : Int} (hrange : OOM_ADJUST_MIN ≤ adj ∧ adj ≤ OOM_ADJUST_MAX)
    {fuel : Nat} (h : Layout t order) (hfuel : order.length ≤ fuel) :
    ∃ t' pids, Daemon.killInSlot view adj fuel t =
        .ok ((t.oldestAlive view adj order).map (t.killed view), t') ∧ Killed t order t' pids ∧
      (∀ j ≠ adj, t.oldestAlive view j (t.without pids order) = t.oldestAlive view j order) ∧
      ∀ p ∈ t.oldestAlive view adj order, (t.proc p).pid ∈ pids := by
  induction hn : order.length using Nat.strong_induction_on generalizing fuel t order with
  | h n ih =>
    have hlru := h.slots.procAdjLru hrange
    unfold killInSlot
    rcases hlast : (t.ofAdj order adj).getLast? with _ | p
    · have hnone : t.oldestAlive view adj order = none :=
        oldest_of_filter_nil (List.getLast?_eq_none_iff.mp hlast)
      refine ⟨t, [], ?_, .refl h, fun j _ => by rw [without_nil], ?_⟩
      · rw [hlru, hlast, hnone]
        rfl
      · rw [hnone]
        exact fun _ hp => nomatch hp
    obtain ⟨hp, hpadj⟩ := Table.mem_ofAdj.mp (mem_of_getLast? hlast)
    obtain ⟨fuel, rfl⟩ : ∃ k, fuel = k + 1 := ⟨fuel - 1, by have := length_pos_of_mem hp; omega⟩
    obtain ⟨t₁, hkill, hkilled, hwithout⟩ := killOneProcess_spec view h hp
    have hother : ∀ j ≠ adj, t.oldestAlive view j (t.without [(t.proc p).pid] order) =
        t.oldestAlive view j order := by
      intro j hj
      rw [hwithout]
      refine oldest_filter fun q hq _ => decide_eq_true ?_
      rintro rfl
      exact hj (hq.symm.trans hpadj)
    rw [hlast] at hlru
    rcases halive : Alive view (t.proc p).pid with _ | _
    · rw [if_neg (by rw [halive]; exact Bool.false_ne_true)] at hkill
      have hless : (t.without [(t.proc p).pid] order).length < order.length := by
        rw [hwithout, length_filter_lt_length_iff_exists]
        exact ⟨p, hp, by simp⟩
      obtain ⟨t', pids, hrest, hkilled', hsame, hgone⟩ :=
        @ih _ (hn ▸ hless) _ t₁ fuel hkilled.layout (by omega) rfl
      have hskip : t.oldestAlive view adj (t.without [(t.proc p).pid] order) =
          t.oldestAlive view adj order := by
        rw [hwithout]
        refine oldest_filter fun q _ hq => decide_eq_true ?_
        rintro rfl
        rw [halive] at hq
        cases hq
      unfold Table.oldestAlive Table.killed at *
      rw [hkilled.proc] at hrest hsame hgone
      rw [hskip] at hrest hgone
      refine ⟨t', _, ?_, hkilled.trans hkilled', fun j hj => ?_, fun q hq => ?_⟩
      · simp only [hlru, hkill]
        rw [if_pos (by decide), hrest]
      · rw [← hkilled.without_append, hsame j hj, hother j hj]
      · exact mem_append_right _ (hgone q hq)
    · rw [if_pos halive] at hkill
      have hfound : t.oldestAlive view adj order = some p := oldest_of_getLast? hlast halive
      refine ⟨t₁, _, ?_, hkilled, hother, ?_⟩
      · simp only [hlru, hkill]
        rw [if_neg (Int.not_lt.mpr (Int.le_of_lt (tasksize_pos halive))), hfound]
        rfl
      · rw [hfound]
        rintro q ⟨⟩
        exact mem_singleton_self _

theorem killFrom_pick (n : Nat) {i : Int} (hmax : i ≤ OOM_ADJUST_MAX)
    (hmin : OOM_ADJUST_MIN + n ≤ i + 1) (h : Layout t order) :
    ∃ t' pids, Daemon.killFrom view n i t =
        .ok ((t.pickAlive view n i order).map (t.killed view), t') ∧ Killed t order t' pids ∧
      ∀ p ∈ t.pickAlive view n i order, (t.proc p).pid ∈ pids := by
  induction n generalizing i t order with
  | zero => exact ⟨t, [], rfl, .refl h, fun _ hp => nomatch hp⟩
  | succ n ih =>
    obtain ⟨t₁, pids, hslot, hkilled, hsame, hgone⟩ :=
      killInSlot_oldest view ⟨by omega, hmax⟩ h h.length_le
    have hpick : t.pickAlive view (n + 1) i order =
        (t.oldestAlive view i order).or (t.pickAlive view n (i - 1) order) := rfl
    unfold killFrom
    rw [hslot, hpick]
    rcases hold : t.oldestAlive view i order with _ | p
    · obtain ⟨t', pids', hrest, hkilled', hgone'⟩ :=
        ih (i := i - 1) (by omega) (by omega) hkilled.layout
      have hcongr : t.pickAlive view n (i - 1) (t.without pids order) =
          t.pickAlive view n (i - 1) order := pickDown_congr fun j hj => hsame j (by omega)
      unfold Table.pickAlive Table.killed at *
      rw [hkilled.proc, hcongr] at hrest hgone'
      exact ⟨t', _, hrest, hkilled.trans hkilled', fun q hq => mem_append_right _ (hgone' q hq)⟩
    · rw [hold] at hgone
      exact ⟨t₁, pids, rfl, hkilled, hgone⟩

/-- Without a target the range of oomadj is empty, so this is one case. -/
theorem findAndKillProcess_pick {otherFree otherFile : Int} (h : Layout d.table order)
    (hmin : OOM_ADJUST_MIN ≤ d.minScoreAdj otherFree otherFile) :
    ∃ r t' pids, d.findAndKillProcess view otherFree otherFile =
        .ok (r.map (d.table.killed view), { d with table := t' }) ∧
      r = d.table.pickAlive view (OOM_ADJUST_MAX - d.minScoreAdj otherFree otherFile + 1).toNat
        OOM_ADJUST_MAX order ∧
      Killed d.table order t' pids ∧ ∀ p ∈ r, (d.table.proc p).pid ∈ pids := by
  unfold findAndKillProcess
  by_cases hnone : d.minScoreAdj otherFree otherFile = OOM_ADJUST_MAX + 1
  · rw [if_pos hnone, hnone]
    exact ⟨none, d.table, [], rfl, rfl, .refl h, fun _ hp => nomatch hp⟩
  · obtain ⟨t', pids, hkill, hkilled, hgone⟩ :=
      killFrom_pick view (OOM_ADJUST_MAX - d.minScoreAdj otherFree otherFile + 1).toNat
        (Int.le_refl OOM_ADJUST_MAX) (by unfold OOM_ADJUST_MAX OOM_ADJUST_MIN at *; omega) h
    exact ⟨_, t', pids, by simp only [if_neg hnone, hkill], rfl, hkilled, hgone⟩

end Choice

end SystemCore.Lmkd
