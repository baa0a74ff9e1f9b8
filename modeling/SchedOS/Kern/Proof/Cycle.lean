import SchedOS.Kern.Types
import SchedOS.Lib.Rotation

/-!
# The pids as a cycle

`pid = (pid + 1) % NPROCS` walks the pids upwards (`upward`), and the last of the `NPROCS - 1` pids
that a scan visits is the one below its start, so that failed passes walk them `downward`.
-/

namespace SchedOS

/-- The cyclic order of the pids. -/
abbrev upward : Rotation Pid := .up NPROCS

theorem upward_dist_next : ∀ c : Pid, upward.dist c (next c) = 1 := by decide

/-- A process further on than the next pid is one step nearer from there. -/
theorem upward_dist_of_ne {c k : Pid} (h : next c ≠ k) :
    upward.dist c k = 1 + upward.dist (next c) k := by
  have h1 := upward_dist_next c
  have hpos := upward.dist_pos c k
  have hlt : upward.dist c (next c) < upward.dist c k := by
    refine Nat.lt_of_le_of_ne (by omega) fun he => h ?_
    exact upward.dist_inj c _ _ he
  have := upward.dist_add c (next c) k hlt
  omega

/-- The pids of the four processes, in the order of their turns. -/
def turns : List Pid := [1, 2, 3, 4]

theorem turns_pairwise : turns.Pairwise (· < ·) := by decide

theorem mem_turns : ∀ q : Pid, q ∈ turns ↔ q ≠ 0 := by decide

/-- The cyclic order of the pids, downwards. -/
abbrev downward : Rotation Pid := .down NPROCS

theorem downward_dist_prev : ∀ c : Pid, downward.dist c (next^[NPROCS - 1] c) = 1 := by decide

/-- The pids that a scan visits after `c`. -/
def visits : Nat → Pid → List Pid
  | 0, _ => []
  | n + 1, c => next c :: visits n (next c)

theorem iterate_next_mem_visits : ∀ c : Pid, next^[NPROCS - 1] c ∈ visits (NPROCS - 1) c := by
  decide

/-- A scan visits the pids in the order of the upward rotation. -/
theorem visits_pairwise : ∀ c : Pid,
    (c :: visits (NPROCS - 1) c).Pairwise fun b x => downward.dist c x < downward.dist c b := by
  decide

theorem mem_visits : ∀ c q : Pid, q ∈ c :: visits (NPROCS - 1) c := by decide

end SchedOS
