import SchedOS.Kern.Proof.RoundRobin

/-!
# Algorithm 2

The loop of algorithm 2 is the one of algorithm 0 started between slot 0 and process 1
(`run_strictPass`), so it ends at the runnable process with the least pid (`Run.dispatch_least`).
-/

namespace SchedOS

theorem run_strictPass (pa : ProcArray) : ∀ (n : Nat) (c : Pid),
    Loop.run (strictPass pa) n (next c) = Loop.run (roundRobinPass pa) n c
  | 0, _ => rfl
  | n + 1, c => by
    by_cases h : Runnable pa (next c)
    · have hs : strictPass pa (next c) = .inr (next c) := if_pos h
      have hr : roundRobinPass pa c = .inr (next c) := if_pos h
      rw [Loop.run_succ_inr hs, Loop.run_succ_inr hr]
    · have hs : strictPass pa (next c) = .inl (next (next c)) := if_neg h
      have hr : roundRobinPass pa c = .inl (next c) := if_neg h
      rw [Loop.run_succ_inl hs, Loop.run_succ_inl hr]
      exact run_strictPass pa n (next c)

/-- The loop ends at the first runnable process after slot 0. -/
theorem ends_strictPass {pa : ProcArray} {k : Pid} (h : upward.First (Runnable pa) 0 k) :
    Loop.Ends (strictPass pa) 1 k := by
  obtain ⟨n, hn⟩ := ends_roundRobinPass h
  exact ⟨n, (run_strictPass pa n 0).trans hn⟩

theorem upward_dist_zero : ∀ k : Pid, k ≠ 0 → upward.dist 0 k = k.val := by decide

/-- A call in which some process is runnable runs the one with the least pid. -/
theorem Run.dispatch_least {boot : Boot} (r : Run 2 boot) {i : Nat} (hi : i < r.len)
    (h : ∃ q, Runnable (r.call i).procArray q) :
    ∃ k, r.dispatched i = some k ∧ Runnable (r.call i).procArray k ∧
      ∀ q, Runnable (r.call i).procArray q → k ≤ q := by
  have hc := r.call_inv (Nat.le_of_lt hi)
  obtain ⟨k, hk⟩ := Rotation.exists_first upward 0 h
  have hs : Schedules (r.event i).tsc (r.call i) (r.call i).procArray k :=
    (schedules_strict hc.algorithm).2 ⟨rfl, ends_strictPass hk⟩
  refine ⟨k, by rw [Run.dispatched, r.state_of_schedules hi hs]; rfl, hk.1, fun q hq => ?_⟩
  have hle := hk.2 q hq
  rwa [upward_dist_zero k (hc.table.ne_zero hk.1), upward_dist_zero q (hc.table.ne_zero hq)] at hle

end SchedOS
