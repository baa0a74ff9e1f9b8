import SchedOS.Kern.Proof.Cycle
import SchedOS.Kern.Proof.Safety

/-!
# Algorithm 0

The loop of algorithm 0 ends at the first runnable process after `current` in the upward rotation of
the pids (`ends_roundRobinPass`), so the dispatches of a run walk that rotation (`Run.first_up`) and
the rules of `Rotation` bound the waiting.
-/

namespace SchedOS

/-- The loop ends at the first runnable process after `c`. -/
theorem ends_roundRobinPass {pa : ProcArray} {c k : Pid}
    (h : upward.First (Runnable pa) c k) : Loop.Ends (roundRobinPass pa) c k := by
  obtain ⟨n, hn⟩ : ∃ n, upward.dist c k ≤ n := ⟨_, Nat.le_refl _⟩
  refine ⟨n, ?_⟩
  induction n generalizing c with
  | zero =>
    have := upward.dist_pos c k
    omega
  | succ n ih =>
    by_cases hk : next c = k
    · subst hk
      exact Loop.run_succ_inr (if_pos h.1)
    · have hd := upward_dist_of_ne hk
      have hc : ¬ Runnable pa (next c) := by
        intro hr
        have := h.2 _ hr
        have := upward_dist_next c
        have := upward.dist_pos (next c) k
        omega
      have hpass : roundRobinPass pa c = .inl (next c) := if_neg hc
      rw [Loop.run_succ_inl hpass]
      refine ih ⟨h.1, fun q hq => ?_⟩ (by omega)
      have hq1 := upward_dist_of_ne (c := c) (k := q) fun he => hc (he ▸ hq)
      have := h.2 q hq
      omega

section
variable {boot : Boot} (r : Run 0 boot)

/-- The dispatch of a call in which some process is runnable. -/
theorem Run.first_up {i : Nat} (hi : i < r.len)
    (hk : ∃ k, Runnable (r.call i).procArray k) :
    ∃ k, r.dispatched i = some k ∧
      upward.First (Runnable (r.call i).procArray) (r.kern i).current k := by
  have hc := r.call_inv (Nat.le_of_lt hi)
  obtain ⟨k, hf⟩ := Rotation.exists_first upward (r.kern i).current hk
  have hpid : (r.call i).currentProc.pPid = (r.kern i).current := by
    rw [hc.pPid, Run.call, call_current]
  have hs : Schedules (r.event i).tsc (r.call i) (r.call i).procArray k := by
    rw [schedules_roundRobin hc.algorithm, hpid]
    exact ⟨rfl, ends_roundRobinPass hf⟩
  exact ⟨k, by rw [Run.dispatched, r.state_of_schedules hi hs]; rfl, hf⟩

/-- A window in each call of which some process is runnable is a walk of the rotation. -/
theorem Run.walk_up {i : Nat} (hi : i < r.len)
    (hk : ∃ k, Runnable (r.call i).procArray k) :
    upward.First (Runnable (r.call i).procArray) (r.kern i).current
      (r.kern (i + 1)).current := by
  obtain ⟨k, hd, hf⟩ := r.first_up hi hk
  have := Machine.current_of_running hd
  rwa [← this] at hf

/-- A process that stays runnable runs in every four consecutive calls. -/
theorem Run.dispatched_in_four {a : Nat} {p : Pid} (ha : a + 4 ≤ r.len)
    (hp : ∀ i, a ≤ i → i < a + 4 → Runnable (r.call i).procArray p) :
    ∃ i, a ≤ i ∧ i < a + 4 ∧ r.dispatched i = some p := by
  have hT : ∀ i, a ≤ i → i < a + 4 → ∀ q, Runnable (r.call i).procArray q → q ∈ livePids :=
    fun i _ h2 q hq => (r.call_inv (by omega)).table.mem_livePids hq
  have hrank : upward.rank livePids (r.kern a).current p ≤ 4 := Rotation.rank_le _ _
  obtain ⟨i, h1, h2, h3⟩ := Rotation.arrives (w := fun i => (r.kern i).current) hT
    (fun i h1 h2 => r.walk_up (by omega) ⟨p, hp i h1 h2⟩) hp hrank
    (hT a (Nat.le_refl a) (by omega) p (hp a (Nat.le_refl a) (by omega)))
  refine ⟨i, h1, h2, ?_⟩
  obtain ⟨k, hd, -⟩ := r.first_up (by omega) ⟨p, hp i h1 h2⟩
  rw [hd, ← h3, r.current_of_dispatched i hd]

/-- Between two consecutive turns of `q` every other process that stays runnable has exactly one. -/
theorem Run.running_between {a b : Nat} {p q : Pid} (hab : a < b) (hb : b ≤ r.len)
    (hqa : (r.state a).running = some q) (hqb : (r.state b).running = some q)
    (hno : ∀ i, a < i → i < b → (r.state i).running ≠ some q) (hpq : p ≠ q)
    (hp : ∀ i, a ≤ i → i < b → Runnable (r.call i).procArray p) :
    ∃ i, (a < i ∧ i < b ∧ (r.state i).running = some p) ∧
      ∀ j, a < j → j < b → (r.state j).running = some p → j = i := by
  have hrun : ∀ i, i < r.len → (r.state i).running = some (r.kern i).current :=
    fun i hi => (r.steps i hi).running_current
  -- `q` runs at the end of the window, so it is runnable all along it
  have hq : ∀ i, a ≤ i → i < b → Runnable (r.call i).procArray q := by
    intro i h1 h2
    obtain ⟨b, rfl⟩ : ∃ k, b = k + 1 := ⟨b - 1, by omega⟩
    refine r.runnable_earlier (j := b) (by omega) (by omega) (r.runnable_call (by omega) ?_)
    exact (r.inv hb).running q hqb
  have hno' : ∀ i, a < i → i < b → (r.kern i).current ≠ q := fun i h1 h2 he =>
    hno i h1 h2 (by rw [hrun i (by omega), he])
  obtain ⟨i, ⟨h1, h2, h3⟩, huniq⟩ := Rotation.arrives_once (C := upward)
    (w := fun i => (r.kern i).current) hab
    (Machine.current_of_running hqa) (Machine.current_of_running hqb)
    (fun i h1 h2 => r.walk_up (by omega) ⟨p, hp i h1 h2⟩) hq hno' hp hpq
  refine ⟨i, ⟨h1, h2, ?_⟩, fun j h4 h5 h6 => huniq j h4 h5 (Machine.current_of_running h6)⟩
  rw [hrun i (by omega)]
  exact congrArg some h3

/-- **Algorithm 0 is fair round robin**: each call of `schedule()` runs the first runnable process
after `current` in the cyclic order, a process that stays runnable runs in every four consecutive
calls, and between two consecutive dispatches of a process every other one that stays runnable runs
exactly once. -/
theorem round_robin_fair :
    (∀ i, i < r.len → (∃ k, Runnable (r.call i).procArray k) →
      ∃ k, r.dispatched i = some k ∧
        upward.First (Runnable (r.call i).procArray) (r.kern i).current k) ∧
    (∀ a p, a + 4 ≤ r.len →
      (∀ i, a ≤ i → i < a + 4 → Runnable (r.call i).procArray p) →
      ∃ i, a ≤ i ∧ i < a + 4 ∧ r.dispatched i = some p) ∧
    (∀ a b p q, a < b → b ≤ r.len → (r.state a).running = some q →
      (r.state b).running = some q → (∀ i, a < i → i < b → (r.state i).running ≠ some q) →
      p ≠ q → (∀ i, a ≤ i → i < b → Runnable (r.call i).procArray p) →
      ∃ i, (a < i ∧ i < b ∧ (r.state i).running = some p) ∧
        ∀ j, a < j → j < b → (r.state j).running = some p → j = i) :=
  ⟨fun _ hi hk => r.first_up hi hk, fun _ _ ha hp => r.dispatched_in_four ha hp,
    fun _ _ _ _ hab hb hqa hqb hno hpq hp => r.running_between hab hb hqa hqb hno hpq hp⟩

end

/-- The processes yield in turn, but process 2 exits. -/
def oneRound : Run 0 .zero :=
  .ofEvents 0 (fun i => if i = 1 then .ofCall .sysExit 0 else yieldCall) 5 (by decide +kernel)

theorem oneRound_fair :
    (∃ k, oneRound.dispatched 4 = some k ∧
      upward.First (Runnable (oneRound.call 4).procArray) (oneRound.kern 4).current k) ∧
    (∃ i, 0 ≤ i ∧ i < 4 ∧ oneRound.dispatched i = some 3) ∧
    ∃ i, (0 < i ∧ i < 4 ∧ (oneRound.state i).running = some 3) ∧
      ∀ j, 0 < j → j < 4 → (oneRound.state j).running = some 3 → j = i := by
  obtain ⟨hfirst, hfour, hbetween⟩ := round_robin_fair oneRound
  have hrun : ∀ i, i < 4 → Runnable (oneRound.call i).procArray 3 := by decide +kernel
  have hone : (oneRound.state 0).running = some 1 ∧ (oneRound.state 4).running = some 1 ∧
      ∀ i, i < 4 → 0 < i → (oneRound.state i).running ≠ some 1 := by decide +kernel
  refine ⟨hfirst 4 (by decide) ⟨3, by decide +kernel⟩,
    hfour 0 3 (by decide) fun i _ hi => hrun i hi, ?_⟩
  exact hbetween 0 4 3 1 (by decide) (by decide) hone.1 hone.2.1
    (fun i h1 h2 => hone.2.2 i h2 h1) (by decide) fun i _ hi => hrun i hi

end SchedOS
