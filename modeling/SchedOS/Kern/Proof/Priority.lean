import SchedOS.Kern.Proof.Cycle
import SchedOS.Kern.Proof.Safety
import SchedOS.Lib.Best

/-!
# Algorithm 41

A pass of algorithm 41 from `c` keeps the best of the pids it visits, from the seed `c`
(`priorityScan_eq`): of the runnable processes one with the least `p_priority`, and of these the
last visited, which is the first in the downward rotation of the pids (`passPick_le`). It goes on
only when it starts at a process that is not runnable and that hides every runnable one, and then
from the pid below (`priorityPass_inl`), so a run comes to an end (`ends_priorityPass`). Ties are
therefore served in the downward rotation as long as the process that gives up the CPU hides none of
them (`Run.walk_down`), which it can do only in the first of several calls.
-/

namespace SchedOS

/-- Runnable with the smallest `p_priority` of the runnable processes. -/
def MinPriority (pa : ProcArray) (p : Pid) : Prop :=
  Runnable pa p ∧ ∀ q, Runnable pa q → (pa p).pPriority ≤ (pa q).pPriority

instance (pa : ProcArray) (p : Pid) : Decidable (MinPriority pa p) :=
  inferInstanceAs (Decidable (_ ∧ ∀ _, _ → _))

theorem minPriority_congr {pa pa' : ProcArray} (h : ∀ q, (pa' q).pState = (pa q).pState ∧
    (pa' q).pPriority = (pa q).pPriority) (p : Pid) : MinPriority pa' p ↔ MinPriority pa p := by
  simp only [MinPriority, Runnable, (h _).1, (h _).2]

/-! ## One pass -/

/-- The test of the scan: `x` replaces `b`. -/
def PriorityBetter (pa : ProcArray) (x b : Pid) : Prop :=
  Runnable pa x ∧ (pa x).pPriority ≤ (pa b).pPriority

instance (pa : ProcArray) : DecidableRel (PriorityBetter pa) := fun _ _ =>
  inferInstanceAs (Decidable (_ ∧ _))

theorem priorityScan_eq (pa : ProcArray) : ∀ (n : Nat) (c b : Pid),
    priorityScan pa n ⟨c, b, (pa b).pPriority⟩ =
      let k := Best.pick (PriorityBetter pa) b (visits n c)
      ⟨next^[n] c, k, (pa k).pPriority⟩
  | 0, _, _ => rfl
  | n + 1, c, b => by
    rw [visits, Best.pick_cons, Function.iterate_succ_apply]
    unfold priorityScan
    dsimp only
    by_cases h : Runnable pa (next c) ∧ (pa (next c)).pPriority ≤ (pa b).pPriority
    · rw [if_pos h, if_pos (show PriorityBetter pa (next c) b from h)]
      exact priorityScan_eq pa n (next c) (next c)
    · rw [if_neg h, if_neg (show ¬ PriorityBetter pa (next c) b from h)]
      exact priorityScan_eq pa n (next c) b

/-- The process that a pass from `c` ends up with. -/
def passPick (pa : ProcArray) (c : Pid) : Pid :=
  Best.pick (PriorityBetter pa) c (visits (NPROCS - 1) c)

theorem priorityPass_eq (pa : ProcArray) (c : Pid) :
    priorityPass pa c =
      if Runnable pa (passPick pa c) then .inr (passPick pa c)
      else .inl (next^[NPROCS - 1] c) := by
  unfold priorityPass
  rw [priorityScan_eq]
  rfl

/-- Less `p_priority`, or the same and earlier in the downward rotation from `c`. -/
def PriorityLe (pa : ProcArray) (c x y : Pid) : Prop :=
  (pa x).pPriority < (pa y).pPriority ∨
    (pa x).pPriority = (pa y).pPriority ∧ downward.dist c x ≤ downward.dist c y

theorem PriorityLe.trans {pa : ProcArray} {c x y z : Pid} (h : PriorityLe pa c x y)
    (h' : PriorityLe pa c y z) : PriorityLe pa c x z := by
  simp only [PriorityLe, UInt32.lt_iff_toNat_lt, ← UInt32.toNat_inj] at h h' ⊢
  omega

/-- The pick of a pass is least among its seed and the runnable processes. -/
theorem passPick_le (pa : ProcArray) (c : Pid) {q : Pid} (hq : q = c ∨ Runnable pa q) :
    PriorityLe pa c (passPick pa c) q := by
  refine Best.pick_le (PriorityLe pa c) (Runnable pa)
    (fun x => .inr ⟨rfl, Nat.le_refl _⟩) (fun _ _ _ => PriorityLe.trans) _ _
    ((visits_pairwise c).imp fun hd => ?_) q (mem_visits c q) hq
  simp only [PriorityBetter, PriorityLe, UInt32.lt_iff_toNat_lt, UInt32.le_iff_toNat_le,
    ← UInt32.toNat_inj]
  refine ⟨fun h => by omega, fun h hx => ?_⟩
  have : ¬ (pa _).pPriority.toNat ≤ (pa _).pPriority.toNat := fun hle => h ⟨hx, hle⟩
  exact .inl (Nat.lt_of_not_le this)

theorem PriorityLe.priority_le {pa : ProcArray} {c x y : Pid} (h : PriorityLe pa c x y) :
    (pa x).pPriority ≤ (pa y).pPriority := by
  simp only [PriorityLe, UInt32.lt_iff_toNat_lt, UInt32.le_iff_toNat_le, ← UInt32.toNat_inj] at h ⊢
  omega

theorem priorityPass_inr {pa : ProcArray} {c k : Pid} (h : priorityPass pa c = .inr k) :
    Runnable pa k ∧ ∀ q, Runnable pa q → PriorityLe pa c k q := by
  rw [priorityPass_eq] at h
  split at h
  · rename_i hk
    cases h
    exact ⟨hk, fun q hq => passPick_le pa c (.inr hq)⟩
  · cases h

/-- A pass goes on only from a process that is not runnable and whose `p_priority` hides every
runnable one. -/
theorem priorityPass_inl {pa : ProcArray} {c c' : Pid} (h : priorityPass pa c = .inl c') :
    ¬ Runnable pa c ∧ c' = next^[NPROCS - 1] c ∧
      ∀ q, Runnable pa q → (pa c).pPriority < (pa q).pPriority := by
  rw [priorityPass_eq] at h
  split at h
  · cases h
  · rename_i hk
    cases h
    have hpick : passPick pa c = c := by
      have hor : passPick pa c = c ∨ ∃ y, PriorityBetter pa (passPick pa c) y := Best.pick_eq_or _ c
      rcases hor with hc | ⟨y, hy⟩
      · exact hc
      · exact absurd hy.1 hk
    rw [hpick] at hk
    refine ⟨hk, rfl, fun q hq => ?_⟩
    have hle := passPick_le pa c (.inr hq)
    rw [hpick] at hle
    rcases hle with hlt | ⟨-, hd⟩
    · exact hlt
    · have hne : q ≠ c := fun he => hk (he ▸ hq)
      have := downward.dist_lt_size hne
      rw [downward.dist_self] at hd
      omega

/-! ## The loop -/

/-- With some process runnable the loop ends within five passes, at a runnable process with the
least `p_priority`. -/
theorem run_priorityPass {pa : ProcArray} (h : ∃ q, Runnable pa q) (c : Pid) :
    ∃ k, Loop.run (priorityPass pa) 5 c = some k ∧ MinPriority pa k := by
  obtain ⟨q, hq⟩ := h
  -- each pass that goes on comes one nearer to `q`, downwards
  have hfall : ∀ c c', True → priorityPass pa c = .inl c' →
      True ∧ (if c' = q then 0 else downward.dist c' q) <
        if c = q then 0 else downward.dist c q := by
    intro c c' _ hb
    obtain ⟨hc, rfl, -⟩ := priorityPass_inl hb
    have hne : c ≠ q := fun he => hc (he ▸ hq)
    rw [if_neg hne]
    have h1 := downward_dist_prev c
    have hpos := downward.dist_pos c q
    split
    · exact ⟨trivial, hpos⟩
    · rename_i hne'
      have hlt : downward.dist c (next^[NPROCS - 1] c) < downward.dist c q := by
        refine Nat.lt_of_le_of_ne (by omega) fun he => hne' ?_
        exact downward.dist_inj c _ _ he
      have := downward.dist_add c _ q hlt
      exact ⟨trivial, by omega⟩
  obtain ⟨k, hk⟩ := Loop.run_of_measure (I := fun _ => True) _ hfall (s := c) trivial
  refine ⟨k, Loop.run_mono hk ?_, ?_⟩
  · split
    · omega
    · rename_i hne
      have hlt : downward.dist c q < 5 := downward.dist_lt_size (Ne.symm hne)
      omega
  · refine Loop.run_inv (I := fun _ => True) (Q := MinPriority pa) (fun _ _ _ _ => trivial)
      (fun c k _ hb => ?_) trivial hk
    obtain ⟨hr, hle⟩ := priorityPass_inr hb
    exact ⟨hr, fun q hq => (hle q hq).priority_le⟩

/-- If the loop starts at a process that hides no runnable one, it ends at the first process with
the least `p_priority`, downwards. -/
theorem ends_priorityPass {pa : ProcArray} {c q : Pid} (hq : Runnable pa q)
    (hle : (pa q).pPriority ≤ (pa c).pPriority) :
    ∃ k, Loop.Ends (priorityPass pa) c k ∧ downward.First (MinPriority pa) c k := by
  cases hb : priorityPass pa c with
  | inl c' =>
    have hlt := (priorityPass_inl hb).2.2 q hq
    rw [UInt32.lt_iff_toNat_lt] at hlt
    rw [UInt32.le_iff_toNat_le] at hle
    omega
  | inr k =>
    obtain ⟨hr, hk⟩ := priorityPass_inr hb
    refine ⟨k, ⟨1, Loop.run_succ_inr hb⟩, ⟨hr, fun q hq => (hk q hq).priority_le⟩,
      fun p hp => ?_⟩
    rcases hk p hp.1 with hlt | ⟨-, hd⟩
    · have := hp.2 k hr
      rw [UInt32.lt_iff_toNat_lt] at hlt
      rw [UInt32.le_iff_toNat_le] at this
      omega
    · exact hd

/-- **Algorithm 41 is strict priority**: from any table and any current process the loop ends within
five passes at a runnable process with the least `p_priority`, if there is one, and else never. -/
theorem priority_selects (tsc : Nat → UInt64) (s : Kernel) (h : s.schedulingAlgorithm = 41) :
    ((∃ q, Runnable s.procArray q) →
      ∃ k, schedule tsc 5 s = some (.run s.procArray k) ∧ Runnable s.procArray k ∧
        ∀ q, Runnable s.procArray q → (s.procArray k).pPriority ≤ (s.procArray q).pPriority) ∧
    ((∀ q, ¬ Runnable s.procArray q) → ∀ fuel, schedule tsc fuel s = none) := by
  have hloop : ∀ fuel, schedule tsc fuel s =
      (Loop.run (priorityPass s.procArray) fuel s.currentProc.pPid).map (.run s.procArray) := by
    intro fuel
    simp only [schedule, h, ↓reduceIte, show ¬ (41 : Int) = 0 by decide,
      show ¬ (41 : Int) = 2 by decide]
  refine ⟨fun hq => ?_, fun hno fuel => ?_⟩
  · obtain ⟨k, hk, hmin⟩ := run_priorityPass hq s.currentProc.pPid
    refine ⟨k, ?_, hmin⟩
    rw [hloop, hk]
    rfl
  · rw [hloop, Option.map_eq_none_iff]
    refine Option.eq_none_iff_forall_ne_some.2 fun k hk => hno k ?_
    exact ends_runnable (fun _ _ => priorityPass_runnable) ⟨fuel, hk⟩

/-- Process 1 has exited, and its `p_priority` hides the three others. -/
def zombieFirst : Kernel :=
  { startKernel 41 .zero with
    current := 1
    procArray := fun i =>
      if i = 0 then emptyProc 0
      else if i = 1 then { startProc .zero 1 with pState := .zombie }
      else { startProc .zero i with pPriority := 3 } }

theorem zombieFirst_selects : ∃ k,
    schedule (fun _ => 0) 5 zombieFirst = some (.run zombieFirst.procArray k) ∧
      Runnable zombieFirst.procArray k ∧ ∀ q, Runnable zombieFirst.procArray q →
        (zombieFirst.procArray k).pPriority ≤ (zombieFirst.procArray q).pPriority :=
  (priority_selects (fun _ => 0) zombieFirst rfl).1 ⟨2, rfl⟩

/-! ## Runs -/

section
variable {boot : Boot} (r : Run 41 boot)

theorem Run.schedules_call {i : Nat} (hi : i ≤ r.len) {k : Pid}
    (h : Loop.Ends (priorityPass (r.call i).procArray) (r.kern i).current k) :
    Schedules (r.event i).tsc (r.call i) (r.call i).procArray k := by
  have hc := r.call_inv hi
  rw [schedules_priority hc.algorithm, hc.pPid]
  refine ⟨rfl, ?_⟩
  rw [Run.call, call_current]
  exact h

theorem Run.dispatched_of_ends {i : Nat} (hi : i < r.len) {k : Pid}
    (h : Loop.Ends (priorityPass (r.call i).procArray) (r.kern i).current k) :
    r.dispatched i = some k := by
  rw [Run.dispatched, r.state_of_schedules hi (r.schedules_call (Nat.le_of_lt hi) h)]
  rfl

/-- A call in which some process is runnable runs one with the least `p_priority`. -/
theorem Run.dispatch_min {i : Nat} (hi : i < r.len)
    (h : ∃ q, Runnable (r.call i).procArray q) :
    ∃ k, r.dispatched i = some k ∧ MinPriority (r.call i).procArray k := by
  obtain ⟨k, hk, hmin⟩ := run_priorityPass h (r.kern i).current
  exact ⟨k, r.dispatched_of_ends hi ⟨5, hk⟩, hmin⟩

/-- If the process that gives up the CPU hides no runnable one, the dispatch goes one step down
among the processes with the least `p_priority`. -/
theorem Run.walk_down {i : Nat} (hi : i < r.len) {q : Pid}
    (hq : Runnable (r.call i).procArray q)
    (hle : ((r.call i).procArray q).pPriority ≤
      ((r.call i).procArray (r.kern i).current).pPriority) :
    r.dispatched i = some (r.kern (i + 1)).current ∧
      downward.First (MinPriority (r.call i).procArray) (r.kern i).current
        (r.kern (i + 1)).current := by
  obtain ⟨k, hk, hf⟩ := ends_priorityPass hq hle
  have hd := r.dispatched_of_ends hi hk
  have : (r.kern (i + 1)).current = k := r.current_of_dispatched _ hd
  rw [this]
  exact ⟨hd, hf⟩

/-- Once a process with the least `p_priority` has been run, it does not hide another one at the
next call: it gives up its place by `sys_priority` only while it is runnable. -/
theorem Run.not_hidden {i : Nat} (hi : i + 1 ≤ r.len) {p : Pid}
    (hp : MinPriority (r.call i).procArray p)
    (hp' : MinPriority (r.call (i + 1)).procArray p) (hne : (r.kern (i + 1)).current ≠ p) :
    ((r.call (i + 1)).procArray p).pPriority ≤
      ((r.call (i + 1)).procArray (r.kern (i + 1)).current).pPriority := by
  obtain ⟨k, hd, hk⟩ := r.dispatch_min hi ⟨p, hp.1⟩
  have hcur : (r.kern (i + 1)).current = k := r.current_of_dispatched _ hd
  have hkern : (r.kern (i + 1)).procArray = (r.call i).procArray :=
    ((r.steps i hi).frame (r.inv (by omega))).2.1 (by decide)
  rw [hcur] at hne ⊢
  by_cases ht : (r.event (i + 1)).trap = .sysPriority
  · refine hp'.2 k ?_
    unfold Runnable Run.call
    rw [← hcur, call_self, hcur, hkern, ht]
    exact hk.1
  · have hpp : (r.call (i + 1)).procArray p = (r.call i).procArray p := by
      rw [Run.call, call_of_ne _ _ (by rw [hcur]; exact Ne.symm hne), hkern]
    have hkp : ((r.call (i + 1)).procArray k).pPriority =
        ((r.call i).procArray k).pPriority := by
      unfold Run.call
      rw [← hcur, call_self, procEffect_pPriority ht, hcur, hkern, Run.call]
    rw [hpp, hkp]
    exact hp.2 k hk.1

/-- A process that has the least `p_priority` at each of four consecutive calls runs in one of them:
after the first call the dispatches walk down towards it. -/
theorem Run.min_dispatched {a : Nat} {p : Pid} (ha : a + 4 ≤ r.len)
    (hp : ∀ i, a ≤ i → i < a + 4 → MinPriority (r.call i).procArray p) :
    ∃ i, a ≤ i ∧ i < a + 4 ∧ r.dispatched i = some p := by
  obtain ⟨k, hd, hk⟩ := r.dispatch_min (by omega) ⟨p, (hp a (Nat.le_refl a) (by omega)).1⟩
  have hcur : (r.kern (a + 1)).current = k := r.current_of_dispatched _ hd
  by_cases hkp : k = p
  · exact ⟨a, Nat.le_refl a, by omega, by rw [hd, hkp]⟩
  apply Classical.byContradiction
  intro hnone
  have hnone : ∀ i, a ≤ i → i < a + 4 → r.dispatched i ≠ some p :=
    fun i h1 h2 h3 => hnone ⟨i, h1, h2, h3⟩
  have hwalk : ∀ i, a + 1 ≤ i → i < a + 1 + 3 →
      r.dispatched i = some (r.kern (i + 1)).current ∧
      downward.First (MinPriority (r.call i).procArray) (r.kern i).current
        (r.kern (i + 1)).current := by
    intro i h1 h2
    obtain ⟨i, rfl⟩ : ∃ j, i = j + 1 := ⟨i - 1, by omega⟩
    refine r.walk_down (by omega) (hp (i + 1) (by omega) (by omega)).1
      (r.not_hidden (by omega) (hp i (by omega) (by omega)) (hp (i + 1) (by omega) (by omega))
        fun he => hnone i (by omega) (by omega) ?_)
    rw [← he]
    exact (r.steps (i + 1) (by omega)).running_current
  have hlive : ∀ i, a ≤ i → i < a + 4 → ∀ q, MinPriority (r.call i).procArray q →
      q ∈ livePids := fun i _ h2 q hq => (r.call_inv (by omega)).table.mem_livePids hq.1
  have hrank : downward.rank livePids (r.kern (a + 1)).current p ≤ 3 := by
    rw [hcur]
    have := downward.rank_lt_card (hlive a (Nat.le_refl a) (by omega) k hk) (Ne.symm hkp)
    rw [card_livePids] at this
    omega
  obtain ⟨i, h1, h2, h3⟩ := Rotation.arrives (w := fun i => (r.kern i).current)
    (fun i h1 h2 => hlive i (by omega) (by omega)) (fun i h1 h2 => (hwalk i h1 h2).2)
    (fun i h1 h2 => hp i (by omega) (by omega)) hrank
    (hlive a (Nat.le_refl a) (by omega) p (hp a (Nat.le_refl a) (by omega)))
  exact hnone i (by omega) (by omega) (by rw [(hwalk i h1 h2).1, h3])

/-- As long as the processes with the least `p_priority` are those of `T`, the dispatches walk down
among them. -/
theorem Run.walk_ties {a b : Nat} {T : Finset Pid} (hb : b ≤ r.len) (hT : T.Nonempty)
    (hmin : ∀ i, a ≤ i → i < b → ∀ q, MinPriority (r.call i).procArray q ↔ q ∈ T) :
    (∀ i, a ≤ i → i < b → r.dispatched i = some (r.kern (i + 1)).current ∧
      (r.kern (i + 1)).current ∈ T) ∧
    (∀ i, a < i → i < b → downward.First (· ∈ T) (r.kern i).current (r.kern (i + 1)).current) := by
  have hdisp : ∀ i, a ≤ i → i < b →
      r.dispatched i = some (r.kern (i + 1)).current ∧ (r.kern (i + 1)).current ∈ T := by
    intro i h1 h2
    obtain ⟨p, hp⟩ := hT
    obtain ⟨k, hd, hk⟩ := r.dispatch_min (by omega) ⟨p, ((hmin i h1 h2 p).2 hp).1⟩
    rw [r.current_of_dispatched i hd]
    exact ⟨hd, (hmin i h1 h2 k).1 hk⟩
  refine ⟨hdisp, fun i h1 h2 => ?_⟩
  obtain ⟨i, rfl⟩ : ∃ j, i = j + 1 := ⟨i - 1, by omega⟩
  have hc := (hmin (i + 1) (by omega) h2 _).2 (hdisp i (by omega) (by omega)).2
  have hf := (r.walk_down (by omega) hc.1 (UInt32.le_refl _)).2
  exact ⟨(hmin _ (by omega) h2 _).1 hf.1, fun q hq => hf.2 q ((hmin _ (by omega) h2 q).2 hq)⟩

/-- In a window as long as the tie, each of the tied processes runs exactly once. -/
theorem Run.ties_dispatched {a : Nat} {T : Finset Pid} (ha : a + T.card ≤ r.len)
    (hmin : ∀ i, a ≤ i → i < a + T.card → ∀ q, MinPriority (r.call i).procArray q ↔ q ∈ T)
    {p : Pid} (hp : p ∈ T) :
    ∃ i, (a ≤ i ∧ i < a + T.card ∧ r.dispatched i = some p) ∧
      ∀ j, a ≤ j → j < a + T.card → r.dispatched j = some p → j = i := by
  obtain ⟨hdisp, hwalk⟩ := r.walk_ties ha ⟨p, hp⟩ hmin
  have hcard : 0 < T.card := Finset.card_pos.2 ⟨p, hp⟩
  have hreach : ∀ q ∈ T, ∃ i, a ≤ i ∧ i < a + T.card ∧ (r.kern (i + 1)).current = q := by
    intro q hq
    have hk := (hdisp a (Nat.le_refl a) (by omega)).2
    by_cases hkq : (r.kern (a + 1)).current = q
    · exact ⟨a, Nat.le_refl a, by omega, hkq⟩
    · have hrank := downward.rank_lt_card hk (Ne.symm hkq)
      obtain ⟨i, h1, h2, h3⟩ := Rotation.arrives (w := fun i => (r.kern i).current)
        (R := fun _ => (· ∈ T)) (a := a + 1) (fun _ _ _ _ hq => hq)
        (fun i h1 h2 => hwalk i h1 (by omega)) (fun _ _ _ => hq)
        (show downward.rank T (r.kern (a + 1)).current q ≤ T.card - 1 by omega) hq
      exact ⟨i, by omega, by omega, h3⟩
  obtain ⟨i, ⟨h1, h2, h3⟩, huniq⟩ :=
    Rotation.arrives_each (w := fun i => (r.kern i).current) hreach hp
  exact ⟨i, ⟨h1, h2, by rw [(hdisp i h1 h2).1, h3]⟩, fun j h4 h5 h6 =>
    huniq j h4 h5 (r.current_of_dispatched j h6)⟩

/-- **Algorithm 41 starves no process of the best priority**: a process that has the least
`p_priority` of the runnable ones at each of four consecutive calls runs in one of them, and `k`
processes that tie for it run once each in every `k` consecutive calls without a change of state or
priority. -/
theorem priority_no_starvation :
    (∀ a p, a + 4 ≤ r.len →
      (∀ i, a ≤ i → i < a + 4 → MinPriority (r.call i).procArray p) →
      ∃ i, a ≤ i ∧ i < a + 4 ∧ r.dispatched i = some p) ∧
    (∀ a (T : Finset Pid), a + T.card ≤ r.len →
      (∀ q, q ∈ T ↔ MinPriority (r.call a).procArray q) →
      (∀ i, a ≤ i → i < a + T.card → ∀ q,
        ((r.call i).procArray q).pState = ((r.call a).procArray q).pState ∧
        ((r.call i).procArray q).pPriority = ((r.call a).procArray q).pPriority) →
      ∀ p, p ∈ T → ∃ i, (a ≤ i ∧ i < a + T.card ∧ r.dispatched i = some p) ∧
        ∀ j, a ≤ j → j < a + T.card → r.dispatched j = some p → j = i) := by
  refine ⟨fun a p ha hp => r.min_dispatched ha hp, fun a T ha hT hsame p hp => ?_⟩
  exact r.ties_dispatched ha
    (fun i h1 h2 q => (minPriority_congr (hsame i h1 h2) q).trans (hT q).symm) hp

end

/-- Process 1 lowers its priority, and the processes yield. -/
def oneLowered : Run 41 .zero :=
  .ofEvents 41 (fun i => if i = 0 then .ofCall .sysPriority 3 else yieldCall) 4 (by decide +kernel)

theorem oneLowered_dispatches : (∃ i, 0 ≤ i ∧ i < 4 ∧ oneLowered.dispatched i = some 2) ∧
    ∃ i, (0 ≤ i ∧ i < 3 ∧ oneLowered.dispatched i = some 2) ∧
      ∀ j, 0 ≤ j → j < 3 → oneLowered.dispatched j = some 2 → j = i := by
  obtain ⟨hfour, hties⟩ := priority_no_starvation oneLowered
  have hmin : ∀ i, i < 4 → MinPriority (oneLowered.call i).procArray 2 := by decide +kernel
  have hsame : ∀ i, i < 3 → ∀ q,
      ((oneLowered.call i).procArray q).pState = ((oneLowered.call 0).procArray q).pState ∧
      ((oneLowered.call i).procArray q).pPriority =
        ((oneLowered.call 0).procArray q).pPriority := by decide +kernel
  exact ⟨hfour 0 2 (by decide) fun i _ hi => hmin i hi,
    hties 0 {2, 3, 4} (by decide) (by decide +kernel) (fun i _ hi => hsame i hi) 2 (by decide)⟩

end SchedOS
