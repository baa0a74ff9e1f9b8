import SchedOS.Kern.Proof.Priority
import SchedOS.Kern.Proof.Strict

/-!
# The gates that an application can call

`segments_init` lets applications call the vectors 48 to 57 (`dpl_eq_three_iff`), and each of the
ten handlers pushes its own vector (`interruptFrame_intno`), but the `switch` of `interrupt` has
cases for 48 to 53 alone. Under algorithms 0, 2 and 41 a call of `schedule()` comes to an end as
long as some process is runnable (`exists_schedules`), so these six calls lead to a `run` and the
other four to none (`system_call_runs_iff`).
-/

namespace SchedOS

theorem dpl_eq_three_iff : ∀ v : Vector, (segmentsInit v).dpl = 3 ↔ 48 ≤ v.val ∧ v.val ≤ 57 := by
  decide +kernel

theorem userGate : ∀ v : Vector, (segmentsInit v).dpl = 3 → hasErrorCode v = false ∧
    ∃ i, (segmentsInit v).off = .sys i ∧ 48 + i.val.toUInt32 = intno v := by
  decide +kernel

/-- The word that `interrupt` reads is the vector. -/
theorem interruptFrame_intno {v : Vector} (hv : (segmentsInit v).dpl = 3) (c : Context) :
    (interruptFrame v 0 [] c).regIntno = intno v := by
  obtain ⟨herr, i, hoff, hi⟩ := userGate v hv
  unfold interruptFrame enterKernel cpuInterrupt
  rw [hoff, herr, ← hi]
  rfl

/-- The system calls that the `switch` knows. -/
theorem exists_trap : ∀ v : Vector, (segmentsInit v).dpl = 3 → v.val ≤ 53 →
    ∃ t ∈ [Trap.sysYield, .sysExit, .sysPriority, .sysShare, .sysLottery, .sysPrint],
      t.vector = v := by
  decide +kernel

theorem intno_ne : ∀ v : Vector, (segmentsInit v).dpl = 3 → ¬ v.val ≤ 53 →
    ∀ w ∈ [INT_SYS_YIELD, INT_SYS_EXIT, INT_SYS_PRIORITY, INT_SYS_SHARE, INT_SYS_LOTTERY,
      INT_SYS_PRINT, INT_CLOCK], intno v ≠ intno w := by
  decide +kernel

/-- The default case of the `switch`. -/
theorem interruptCase_eq_none {v : Vector} (hv : (segmentsInit v).dpl = 3) (h : ¬ v.val ≤ 53)
    (c : Context) (s : Kernel) : interruptCase (interruptFrame v 0 [] c) s = none := by
  have hne := intno_ne v hv h
  unfold interruptCase
  rw [interruptFrame_intno hv]
  simp only [List.forall_mem_cons] at hne
  obtain ⟨h1, h2, h3, h4, h5, h6, h7, -⟩ := hne
  rw [if_neg h1, if_neg h2, if_neg h3, if_neg h4, if_neg h5, if_neg h6, if_neg h7]

/-- Algorithms 0, 2 and 41 find a runnable process. -/
theorem exists_schedules {alg : Int} (halg : alg = 0 ∨ alg = 2 ∨ alg = 41) {s : Kernel}
    (hI : KernInv alg s) (h : ∃ q, Runnable s.procArray q) (tsc : Nat → UInt64) :
    ∃ k, Schedules tsc s s.procArray k := by
  rcases halg with rfl | rfl | rfl
  · obtain ⟨k, hk⟩ := Rotation.exists_first upward s.currentProc.pPid h
    exact ⟨k, (schedules_roundRobin hI.algorithm).2 ⟨rfl, ends_roundRobinPass hk⟩⟩
  · obtain ⟨k, hk⟩ := Rotation.exists_first upward 0 h
    exact ⟨k, (schedules_strict hI.algorithm).2 ⟨rfl, ends_strictPass hk⟩⟩
  · obtain ⟨k, hk, -⟩ := run_priorityPass h s.currentProc.pPid
    exact ⟨k, (schedules_priority hI.algorithm).2 ⟨rfl, 5, hk⟩⟩

/-- Under algorithms 0, 2 and 41 the machine stops only when all four have exited. -/
theorem Step.zombie_of_stuck {alg : Int} (halg : alg = 0 ∨ alg = 2 ∨ alg = 41) {m : Machine}
    {s : Kernel} {e : Event} (hI : Inv alg m) (h : Step m e (.stuck s)) {p : Pid} (hp : p ≠ 0) :
    (s.procArray p).pState = .zombie := by
  obtain ⟨s', c, rfl, ⟨pa, k, -, hm⟩ | ⟨hno, hm⟩⟩ := h.inv
  · cases hm
  · cases hm
    have hc : KernInv alg (e.call s') := hI.toKernInv.call e
    refine (hc.table.state p hp).resolve_left fun hr => ?_
    obtain ⟨k, hs⟩ := exists_schedules halg hc ⟨p, hr⟩ e.tsc
    exact hno _ _ hs

/-- One of two runnable processes is left to run, whatever the other one calls. -/
theorem exists_runnable_call {s : Kernel} {p q : Pid} (hne : p ≠ q) (hp : Runnable s.procArray p)
    (hq : Runnable s.procArray q) (e : Event) : ∃ k, Runnable (e.call s).procArray k := by
  by_cases h : p = s.current
  · refine ⟨q, ?_⟩
    unfold Runnable
    rwa [call_of_ne e s fun hqc => hne (h.trans hqc.symm)]
  · refine ⟨p, ?_⟩
    unfold Runnable
    rwa [call_of_ne e s h]

/-- `interrupt` ends by calling `run` on a runnable process. -/
def Returns (tsc : Nat → UInt64) (reg : Registers) (s : Kernel) : Prop :=
  ∃ fuel m k, interrupt tsc fuel reg s = some m ∧ m.running = some k ∧ Runnable m.kern.procArray k

/-- **Which system calls return**: under algorithms 0, 2 and 41, in every state of a run with two
runnable processes, a call of a gate of level 3 ends in a `run` of a runnable process exactly if its
vector is at most 53. -/
theorem system_call_runs_iff {alg : Int} {boot : Boot} (r : Run alg boot)
    (halg : alg = 0 ∨ alg = 2 ∨ alg = 41) {i : Nat} (hi : i ≤ r.len)
    (h : ∃ p q, p ≠ q ∧ Runnable (r.kern i).procArray p ∧ Runnable (r.kern i).procArray q)
    (v : Vector) (hv : (segmentsInit v).dpl = 3) (c : Context) (tsc : Nat → UInt64) :
    Returns tsc (interruptFrame v 0 [] c) (r.kern i) ↔ v.val ≤ 53 := by
  constructor
  · rintro ⟨fuel, m, k, hm, -⟩
    apply Classical.byContradiction
    intro hle
    unfold interrupt at hm
    rw [interruptCase_eq_none hv hle] at hm
    cases hm
  · intro hle
    obtain ⟨t, -, rfl⟩ := exists_trap v hv hle
    obtain ⟨p, q, hne, hp, hq⟩ := h
    have hI := (r.inv hi).toKernInv.call ⟨t, c, tsc⟩
    obtain ⟨k, hs⟩ := exists_schedules halg hI (exists_runnable_call hne hp hq _) tsc
    have hk := (hs.frame hI.table.not_runnable_zero).2.1
    obtain ⟨fuel, hf⟩ := hs
    exact ⟨fuel, _, k, interrupt_of_schedule (e := ⟨t, c, tsc⟩) hf, rfl, hk⟩

theorem noInterrupt_returns :
    Returns (fun _ => 0) (interruptFrame INT_SYS_EXIT 0 [] (loadContext []))
      ((noInterrupt 0 .zero).kern 0) ↔ INT_SYS_EXIT.val ≤ 53 :=
  system_call_runs_iff (noInterrupt 0 .zero) (.inl rfl) (Nat.le_refl 0)
    ⟨1, 2, by decide, rfl, rfl⟩ INT_SYS_EXIT (by decide) (loadContext []) fun _ => 0

/-- `int $54` in the first state of a run spins. -/
theorem int54_spins :
    ¬ ∀ (alg : Int) (boot : Boot) (r : Run alg boot), alg = 0 ∨ alg = 2 ∨ alg = 41 →
      ∀ i, i ≤ r.len → (∃ p q, p ≠ q ∧ Runnable (r.kern i).procArray p ∧
        Runnable (r.kern i).procArray q) → ∀ (v : Vector), (segmentsInit v).dpl = 3 →
          ∀ c tsc, Returns tsc (interruptFrame v 0 [] c) (r.kern i) := by
  intro hclaim
  obtain ⟨fuel, m, k, hm, -⟩ := hclaim 0 .zero (noInterrupt 0 .zero) (.inl rfl) 0 (Nat.le_refl 0)
    ⟨1, 2, by decide, rfl, rfl⟩ 54 (by decide +kernel) (loadContext []) fun _ => 0
  unfold interrupt at hm
  rw [interruptCase_eq_none (v := 54) (by decide +kernel) (by decide)] at hm
  cases hm

end SchedOS
