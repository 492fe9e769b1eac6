import Mathlib.Data.List.Perm.Subperm
import SystemCore.Lmkd.Processes

/-!
# The two structures agree

The records that are in use are a list, the one whose oomadj was set last first. The hash chains
hold them by the pid, and each slot holds those of its oomadj in the order of the list. The two
are put in order separately, since a process that gets another oomadj is for a moment in the hash
table only.
-/
namespace SystemCore.Lmkd

open Lib List Function

/-! ## The layout of the table -/

/-- The chains hold the records in use, by the hash of the pid. -/
structure HashLayout (t : Table) (order : List ProcId) (buckets : Nat → List ProcId) : Prop where
  chain : ∀ h, Chain.Follows t.pidhashNext (t.pidhash h) (buckets h)
  nodup : ∀ h, (buckets h).Nodup
  mem_bucket : ∀ {h p}, p ∈ buckets h ↔ p ∈ order ∧ pidHashfn (t.proc p).pid = h
  fresh : ∀ {p}, p ∈ order → p < t.fresh
  pid_inj : ∀ {p q}, p ∈ order → q ∈ order → (t.proc p).pid = (t.proc q).pid → p = q

/-- The records that have an oomadj. -/
def Table.ofAdj (t : Table) (order : List ProcId) (adj : Int) : List ProcId :=
  order.filter fun p => (t.proc p).oomadj = adj

def slotAdj (i : Slot) : Int := ((i : Nat) : Int) + OOM_ADJUST_MIN

/-- The slots hold the records in use, by the oomadj. -/
structure SlotLayout (t : Table) (order : List ProcId) : Prop where
  ring : ∀ i, Ring.IsRing t.asl (.slot i) ((t.ofAdj order (slotAdj i)).map .proc)
  in_range : ∀ {p}, p ∈ order →
    OOM_ADJUST_MIN ≤ (t.proc p).oomadj ∧ (t.proc p).oomadj ≤ OOM_ADJUST_MAX

structure Layout (t : Table) (order : List ProcId) : Prop where
  nodup : order.Nodup
  hash : ∃ buckets, HashLayout t order buckets
  slots : SlotLayout t order

theorem layout_init : Layout Table.init [] := by
  refine ⟨nodup_nil, ⟨fun _ => [], fun _ => rfl, fun _ => nodup_nil, ?_, ?_, ?_⟩, ?_, ?_⟩
  all_goals try simp
  intro i
  exact ⟨nodup_singleton _, isChain_cons_cons.mpr ⟨⟨rfl, rfl⟩, isChain_singleton _⟩⟩

variable {p : ProcId} {t' t : Table} {order pre post : List ProcId} {adj : Int} {i j : Slot}

/-- The nodes of a list without one of them. -/
theorem mem_without {q : ProcId} (h : (pre ++ p :: post).Nodup) :
    q ∈ pre ++ post ↔ q ≠ p ∧ q ∈ pre ++ p :: post := by
  have hnot : p ∉ pre ++ post := (nodup_cons.mp (nodup_middle.mp h)).1
  have hmid : q ∈ pre ++ p :: post ↔ q = p ∨ q ∈ pre ++ post := by
    simp only [mem_append, mem_cons, or_left_comm]
  rw [hmid]
  constructor
  · intro hq
    refine ⟨?_, .inr hq⟩
    rintro rfl
    exact hnot hq
  · exact fun ⟨hne, hq⟩ => hq.resolve_left hne

theorem mem_filter_ne {q : ProcId} : q ∈ order.filter (· ≠ p) ↔ q ∈ order ∧ q ≠ p := by
  rw [mem_filter, decide_eq_true_eq]

theorem filter_ne_of_notMem (h : p ∉ order) : order.filter (· ≠ p) = order := by
  rw [filter_eq_self]
  exact fun q hq => decide_eq_true (ne_of_mem_of_not_mem hq h)

theorem length_le_of_lt {l : List ProcId} {n : Nat} (h : l.Nodup) (hlt : ∀ p ∈ l, p < n) :
    l.length ≤ n := by
  have hsub : l <+~ List.range n := h.subperm fun p hp => mem_range.mpr (hlt p hp)
  exact hsub.length_le.trans_eq length_range

/-! ## The hash table -/

namespace HashLayout

variable {t : Table} {order : List ProcId} {buckets : Nat → List ProcId}
  (h : HashLayout t order buckets)

include h

theorem length_le (hval : Nat) : (buckets hval).length ≤ t.fresh :=
  length_le_of_lt (h.nodup hval) fun _ hp => h.fresh (h.mem_bucket.mp hp).1

/-- Only the pids and the links of the records in use matter. -/
theorem congr {order' : List ProcId} (horder : ∀ p, p ∈ order' ↔ p ∈ order)
    (hnext : t'.pidhashNext = t.pidhashNext) (hhash : t'.pidhash = t.pidhash)
    (hfresh : t.fresh ≤ t'.fresh) (hpid : ∀ p ∈ order, (t'.proc p).pid = (t.proc p).pid) :
    HashLayout t' order' buckets where
  chain := by rw [hnext, hhash]; exact h.chain
  nodup := h.nodup
  mem_bucket := by
    intro hval p
    rw [h.mem_bucket, horder]
    exact and_congr_right fun hp => by rw [hpid p hp]
  fresh := fun hp => Nat.lt_of_lt_of_le (h.fresh ((horder _).mp hp)) hfresh
  pid_inj := by
    intro p q hp hq heq
    rw [horder] at hp hq
    rw [hpid p hp, hpid q hq] at heq
    exact h.pid_inj hp hq heq

theorem pidLookup (pid : BitVec 32) :
    (t.pidLookup pid = .ok none ∧ ∀ p ∈ order, (t.proc p).pid ≠ pid) ∨
      ∃ p ∈ order, (t.proc p).pid = pid ∧ t.pidLookup pid = .ok (some p) := by
  have hlookup : t.pidLookup pid =
      .ok ((buckets (pidHashfn pid)).find? fun p => (t.proc p).pid = pid) := by
    unfold Table.pidLookup
    rw [(h.chain (pidHashfn pid)).find_eq (h.length_le _)]
  rw [hlookup]
  cases hfound : (buckets (pidHashfn pid)).find? fun p => (t.proc p).pid = pid with
  | none =>
    refine .inl ⟨rfl, fun p hp heq => ?_⟩
    have hmem : p ∈ buckets (pidHashfn pid) := h.mem_bucket.mpr ⟨hp, by rw [heq]⟩
    exact absurd heq (by simpa using List.find?_eq_none.mp hfound p hmem)
  | some p =>
    have hpid : (t.proc p).pid = pid := by simpa using List.find?_some hfound
    exact .inr ⟨p, (h.mem_bucket.mp (mem_of_find?_eq_some hfound)).1, hpid, rfl⟩

/-- A record whose pid is not in the table goes to the front of its chain. -/
theorem insert (hp : p ∉ order) (hlt : p < t.fresh)
    (hpid : ∀ q ∈ order, (t.proc q).pid ≠ (t.proc p).pid) : let hval := pidHashfn (t.proc p).pid
    HashLayout
      { t with
        pidhashNext := Function.update t.pidhashNext p (t.pidhash hval)
        pidhash := Function.update t.pidhash hval (some p) }
      (p :: order) (Function.update buckets hval (p :: buckets hval)) := by
  intro hval
  have hnot : ∀ k, p ∉ buckets k := fun k hmem => hp (h.mem_bucket.mp hmem).1
  refine ⟨fun k => ?_, fun k => ?_, fun {k q} => ?_, fun {q} hq => ?_, fun {q r} hq hr heq => ?_⟩
  · by_cases hk : k = hval
    · rw [hk]
      simp only [update_self]
      exact (h.chain hval).push (hnot hval)
    · simp only [update_of_ne hk]
      refine (h.chain k).congr fun q hq => ?_
      have hne : q ≠ p := by
        rintro rfl
        exact hnot k hq
      exact update_of_ne hne _ _
  · by_cases hk : k = hval
    · rw [hk, update_self]
      exact nodup_cons.mpr ⟨hnot hval, h.nodup hval⟩
    · rw [update_of_ne hk]
      exact h.nodup k
  · by_cases hk : k = hval
    · subst hk
      rw [update_self, mem_cons, h.mem_bucket, mem_cons]
      constructor
      · rintro (rfl | ⟨hq, heq⟩)
        · exact ⟨.inl rfl, rfl⟩
        · exact ⟨.inr hq, heq⟩
      · rintro ⟨rfl | hq, heq⟩
        · exact .inl rfl
        · exact .inr ⟨hq, heq⟩
    · rw [update_of_ne hk, h.mem_bucket, mem_cons]
      constructor
      · exact fun ⟨hq, heq⟩ => ⟨.inr hq, heq⟩
      · rintro ⟨rfl | hq, heq⟩
        · exact absurd heq.symm hk
        · exact ⟨hq, heq⟩
  · rcases mem_cons.mp hq with rfl | hq
    · exact hlt
    · exact h.fresh hq
  · rcases mem_cons.mp hq with rfl | hq
    · rcases mem_cons.mp hr with rfl | hr
      · rfl
      · exact absurd heq.symm (hpid r hr)
    · rcases mem_cons.mp hr with rfl | hr
      · exact absurd heq (hpid q ‹q ∈ order›)
      · exact h.pid_inj hq hr heq

/-- The table without one record, when its chain is made to go past it. -/
theorem erase (hsplit : buckets (pidHashfn (t.proc p).pid) = pre ++ p :: post)
    (hproc : t'.proc = t.proc) (hfresh : t'.fresh = t.fresh)
    (hown : Chain.Follows t'.pidhashNext (t'.pidhash (pidHashfn (t.proc p).pid)) (pre ++ post))
    (hother : ∀ k ≠ pidHashfn (t.proc p).pid,
      Chain.Follows t'.pidhashNext (t'.pidhash k) (buckets k)) :
    HashLayout t' (order.filter (· ≠ p))
      (Function.update buckets (pidHashfn (t.proc p).pid) (pre ++ post)) := by
  have hnodup := h.nodup (pidHashfn (t.proc p).pid)
  rw [hsplit] at hnodup
  refine ⟨fun k => ?_, fun k => ?_, fun {k q} => ?_, fun {q} hq => ?_, fun {q r} hq hr heq => ?_⟩
  · by_cases hk : k = pidHashfn (t.proc p).pid
    · rw [hk, update_self]
      exact hown
    · rw [update_of_ne hk]
      exact hother k hk
  · by_cases hk : k = pidHashfn (t.proc p).pid
    · rw [hk, update_self]
      exact (nodup_cons.mp (nodup_middle.mp hnodup)).2
    · rw [update_of_ne hk]
      exact h.nodup k
  · rw [hproc, mem_filter_ne, and_comm (a := q ∈ order)]
    have hold : q ∈ buckets k ↔ q ∈ order ∧ pidHashfn (t.proc q).pid = k := h.mem_bucket
    by_cases hk : k = pidHashfn (t.proc p).pid
    · rw [hk, update_self, mem_without hnodup, ← hsplit, ← hk, hold, and_assoc]
    · rw [update_of_ne hk, hold]
      constructor
      · rintro ⟨hlive, heq⟩
        refine ⟨⟨?_, hlive⟩, heq⟩
        rintro rfl
        exact hk heq.symm
      · exact fun ⟨⟨_, hlive⟩, heq⟩ => ⟨hlive, heq⟩
  · rw [hfresh]
    exact h.fresh (mem_filter_ne.mp hq).1
  · rw [hproc] at heq
    exact h.pid_inj (mem_filter_ne.mp hq).1 (mem_filter_ne.mp hr).1 heq

end HashLayout

/-! ## The slots -/

theorem Table.mem_ofAdj : p ∈ t.ofAdj order adj ↔ p ∈ order ∧ (t.proc p).oomadj = adj := by
  rw [ofAdj, mem_filter, decide_eq_true_eq]

theorem procadjslot_of_range (h : OOM_ADJUST_MIN ≤ adj ∧ adj ≤ OOM_ADJUST_MAX) :
    ∃ i : Slot, Table.procadjslot (adjToSlot adj) = .ok (.slot i) ∧ slotAdj i = adj := by
  have hrange : 0 ≤ adjToSlot adj ∧ adjToSlot adj ≤ adjToSlot OOM_ADJUST_MAX := by
    unfold adjToSlot
    omega
  refine ⟨_, dif_pos hrange, ?_⟩
  simp only [slotAdj, adjToSlot]
  omega

theorem slotAdj_ne (h : j ≠ i) : slotAdj j ≠ slotAdj i := by
  intro heq
  refine h (Fin.ext ?_)
  unfold slotAdj at heq
  omega

namespace SlotLayout

variable {t : Table} {order : List ProcId} (h : SlotLayout t order)

include h

/-- Only the oomadj of the records in use matters. -/
theorem congr (hasl : t'.asl = t.asl)
    (hadj : ∀ p ∈ order, (t'.proc p).oomadj = (t.proc p).oomadj) : SlotLayout t' order where
  ring := by
    intro i
    have hsame : t'.ofAdj order (slotAdj i) = t.ofAdj order (slotAdj i) :=
      filter_congr fun p hp => by rw [hadj p hp]
    rw [hasl, hsame]
    exact h.ring i
  in_range := by
    intro p hp
    rw [hadj p hp]
    exact h.in_range hp

omit h in
theorem disjoint (hij : i ≠ j) :
    List.Disjoint (Asl.slot i :: (t.ofAdj order (slotAdj i)).map .proc)
      (Asl.slot j :: (t.ofAdj order (slotAdj j)).map .proc) := by
  intro a hi hj
  rcases mem_cons.mp hi with rfl | hi
  · rcases mem_cons.mp hj with heq | hj
    · exact hij (Asl.slot.inj heq)
    · obtain ⟨p, -, heq⟩ := mem_map.mp hj
      cases heq
  · obtain ⟨p, hp, rfl⟩ := mem_map.mp hi
    rcases mem_cons.mp hj with heq | hj
    · cases heq
    · obtain ⟨q, hq, heq⟩ := mem_map.mp hj
      cases heq
      exact slotAdj_ne hij ((Table.mem_ofAdj.mp hp).2.symm.trans (Table.mem_ofAdj.mp hq).2)

theorem procSlot (hp : p ∉ order)
    (hrange : OOM_ADJUST_MIN ≤ (t.proc p).oomadj ∧ (t.proc p).oomadj ≤ OOM_ADJUST_MAX) :
    ∃ asl, t.procSlot p = .ok { t with asl } ∧ SlotLayout { t with asl } (p :: order) := by
  obtain ⟨i, hslot, hadj⟩ := procadjslot_of_range hrange
  have hnot : ∀ j, Asl.proc p ∉ Asl.slot j :: (t.ofAdj order (slotAdj j)).map .proc := by
    intro j hmem
    rcases mem_cons.mp hmem with heq | hmem
    · cases heq
    · obtain ⟨q, hq, heq⟩ := mem_map.mp hmem
      cases heq
      exact hp (Table.mem_ofAdj.mp hq).1
  refine ⟨t.asl.insertAfter (.slot i) (.proc p), ?_, fun j => ?_, fun {q} hq => ?_⟩
  · unfold Table.procSlot
    rw [hslot]
  · by_cases hj : j = i
    · have hfirst : t.ofAdj (p :: order) (slotAdj i) = p :: t.ofAdj order (slotAdj i) :=
        filter_cons_of_pos (decide_eq_true hadj.symm)
      change Ring.IsRing _ _ ((t.ofAdj (p :: order) (slotAdj j)).map Asl.proc)
      rw [hj, hfirst, map_cons]
      exact (h.ring i).insertAfter (hnot i)
    · have hother : t.ofAdj (p :: order) (slotAdj j) = t.ofAdj order (slotAdj j) := by
        refine filter_cons_of_neg fun heq => slotAdj_ne hj ?_
        rw [hadj]
        exact (of_decide_eq_true heq).symm
      change Ring.IsRing _ _ ((t.ofAdj (p :: order) (slotAdj j)).map Asl.proc)
      rw [hother]
      exact (h.ring j).insertAfter_other (h.ring i) (hnot j) (disjoint (Ne.symm hj))
  · rcases mem_cons.mp hq with rfl | hq
    · exact hrange
    · exact h.in_range hq

theorem procUnslot (hp : p ∈ order) : SlotLayout (t.procUnslot p) (order.filter (· ≠ p)) := by
  obtain ⟨i, -, hadj⟩ := procadjslot_of_range (h.in_range hp)
  have hmem : p ∈ t.ofAdj order (slotAdj i) := Table.mem_ofAdj.mpr ⟨hp, hadj.symm⟩
  obtain ⟨pre, post, hsplit⟩ := append_of_mem hmem
  have hring := h.ring i
  rw [hsplit, map_append, map_cons] at hring
  have hnodup : (pre ++ p :: post).Nodup := by
    have hmap := (nodup_cons.mp (h.ring i).nodup).2
    rw [hsplit] at hmap
    exact hmap.of_map _
  have hnot : p ∉ pre ++ post := (nodup_cons.mp (nodup_middle.mp hnodup)).1
  rw [mem_append, not_or] at hnot
  refine ⟨fun j => ?_, fun {q} hq => h.in_range (mem_filter_ne.mp hq).1⟩
  have hcomm : t.ofAdj (order.filter (· ≠ p)) (slotAdj j) =
      (t.ofAdj order (slotAdj j)).filter (· ≠ p) := filter_comm ..
  change Ring.IsRing _ _ ((t.ofAdj (order.filter (· ≠ p)) (slotAdj j)).map Asl.proc)
  rw [hcomm]
  by_cases hj : j = i
  · rw [hj, hsplit, filter_append, filter_cons_of_neg (by simp), filter_ne_of_notMem hnot.1,
      filter_ne_of_notMem hnot.2, map_append]
    exact hring.unlink
  · rw [filter_ne_of_notMem fun hq =>
      slotAdj_ne hj ((Table.mem_ofAdj.mp hq).2.symm.trans hadj.symm)]
    exact (h.ring j).unlink_other (h.ring i) (mem_map_of_mem hmem) (disjoint (Ne.symm hj))

theorem procAdjLru (hrange : OOM_ADJUST_MIN ≤ adj ∧ adj ≤ OOM_ADJUST_MAX) :
    t.procAdjLru adj = .ok (t.ofAdj order adj).getLast? := by
  obtain ⟨i, hslot, rfl⟩ := procadjslot_of_range hrange
  have hprev := (h.ring i).prev_head
  unfold Table.procAdjLru Table.adjslotTail
  rw [hslot]
  rcases eq_nil_or_concat (t.ofAdj order (slotAdj i)) with hnil | ⟨l, p, hl⟩
  · rw [hnil] at hprev ⊢
    simp [hprev]
  · rw [hl, concat_eq_append, map_append, map_singleton, List.getLast?_concat] at hprev
    rw [hl, concat_eq_append, List.getLast?_concat]
    simp [hprev]

end SlotLayout

/-! ## Taking a process away -/

theorem Layout.length_le (h : Layout t order) : order.length ≤ t.fresh := by
  obtain ⟨buckets, hhash⟩ := h.hash
  exact length_le_of_lt h.nodup fun _ hp => hhash.fresh hp

theorem pidRemove_absent (h : Layout t order) {pid : BitVec 32}
    (habsent : ∀ p ∈ order, (t.proc p).pid ≠ pid) : t.pidRemove pid = .ok (-1, t) := by
  obtain ⟨buckets, hhash⟩ := h.hash
  have hfind : ∃ last, Chain.findWithPrev t.pidhashNext (fun p => (t.proc p).pid = pid) t.fresh none
      (t.pidhash (pidHashfn pid)) = some (last, none) := by
    refine Chain.Follows.findWithPrev_none (fun p hp => ?_) (hhash.chain (pidHashfn pid))
      (hhash.length_le _)
    exact decide_eq_false (habsent p (hhash.mem_bucket.mp hp).1)
  obtain ⟨last, hfind⟩ := hfind
  unfold Table.pidRemove
  simp only [hfind]

/-- The record goes from the chain of its pid and from its slot. -/
theorem pidRemove_present (h : Layout t order) (hp : p ∈ order) :
    ∃ t', t.pidRemove (t.proc p).pid = .ok (0, t') ∧ Layout t' (order.filter (· ≠ p)) ∧
      t'.proc = t.proc ∧ t'.killCalls = t.killCalls := by
  obtain ⟨buckets, hhash⟩ := h.hash
  have hmem : p ∈ buckets (pidHashfn (t.proc p).pid) := hhash.mem_bucket.mpr ⟨hp, rfl⟩
  obtain ⟨pre, post, hsplit⟩ := append_of_mem hmem
  have hnodup := hhash.nodup (pidHashfn (t.proc p).pid)
  have hchain := hhash.chain (pidHashfn (t.proc p).pid)
  have hlen := hhash.length_le (pidHashfn (t.proc p).pid)
  rw [hsplit] at hnodup hchain hlen
  have hpre : ∀ q ∈ pre, decide ((t.proc q).pid = (t.proc p).pid) = false := by
    intro q hq
    refine decide_eq_false fun heq => ?_
    have hqlive : q ∈ order := (hhash.mem_bucket.mp (hsplit ▸ mem_append_left _ hq)).1
    obtain rfl := hhash.pid_inj hqlive hp heq
    exact (nodup_cons.mp (nodup_middle.mp hnodup)).1 (mem_append_left _ hq)
  have hfind : Chain.findWithPrev t.pidhashNext (fun q => (t.proc q).pid = (t.proc p).pid) t.fresh
      none (t.pidhash (pidHashfn (t.proc p).pid)) = some (pre.getLast?.or none, some p) := by
    refine Chain.Follows.findWithPrev_some hpre (decide_eq_true rfl) hchain ?_
    rw [length_append, length_cons] at hlen
    omega
  have hdone {t' : Table} (hproc : t'.proc = t.proc) (hasl : t'.asl = t.asl)
      (hfresh : t'.fresh = t.fresh)
      (hown : Chain.Follows t'.pidhashNext (t'.pidhash (pidHashfn (t.proc p).pid)) (pre ++ post))
      (hother : ∀ k ≠ pidHashfn (t.proc p).pid,
        Chain.Follows t'.pidhashNext (t'.pidhash k) (buckets k)) :
      Layout (t'.procUnslot p) (order.filter (· ≠ p)) :=
    ⟨h.nodup.filter _, ⟨_, hhash.erase hsplit hproc hfresh hown hother⟩,
      (h.slots.procUnslot hp).congr (congrArg (·.unlink (.proc p)) hasl)
        fun q _ => congrArg (·.oomadj) (congrFun hproc q)⟩
  unfold Table.pidRemove
  rcases eq_nil_or_concat pre with rfl | ⟨pre, q, rfl⟩
  · simp only [hfind, List.getLast?_nil]
    refine ⟨_, rfl, hdone rfl rfl rfl ?_ fun k hk => ?_, rfl, rfl⟩
    · simp only [update_self]
      exact hchain.behind
    · simp only [update_of_ne hk]
      exact hhash.chain k
  · rw [concat_eq_append] at hfind hchain hnodup hsplit
    rw [List.getLast?_concat] at hfind
    rw [append_assoc, singleton_append] at hchain hnodup
    have hq : q ∈ buckets (pidHashfn (t.proc p).pid) := by rw [hsplit]; simp
    simp only [hfind]
    refine ⟨_, rfl, hdone rfl rfl rfl ?_ fun k hk => (hhash.chain k).congr fun r hr => ?_, rfl,
      rfl⟩
    · rw [concat_eq_append, append_assoc, singleton_append]
      exact hchain.skip hnodup
    · refine update_of_ne ?_ _ _
      rintro rfl
      exact hk ((hhash.mem_bucket.mp hr).2.symm.trans (hhash.mem_bucket.mp hq).2)

end SystemCore.Lmkd
