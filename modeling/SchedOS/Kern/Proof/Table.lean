import SchedOS.Kern.Proof.Schedules

/-!
# The process table along a run

The invariant of every run (`Inv`): slot 0 stays empty, the other descriptors stay runnable or
zombie under their own pid, and an application has the CPU only while its descriptor is runnable. It
is kept by every interrupt (`Step.keeps_inv`), so it holds in every state of a run and in every call
of `schedule()` (`Run.inv`, `Run.call_inv`).
-/

namespace SchedOS

/-- The descriptors along a run. -/
structure Table (pa : ProcArray) : Prop where
  slot0 : pa 0 = emptyProc 0
  pid : ∀ q, (pa q).pPid = q
  state : ∀ q, q ≠ 0 → (pa q).pState = .runnable ∨ (pa q).pState = .zombie

theorem Table.not_runnable_zero {pa : ProcArray} (h : Table pa) : ¬ Runnable pa 0 := by
  unfold Runnable
  rw [h.slot0]
  decide

theorem not_runnable_of_zombie {pa : ProcArray} {q : Pid} (h : (pa q).pState = .zombie) :
    ¬ Runnable pa q := by
  unfold Runnable
  rw [h]
  decide

theorem Table.ne_zero {pa : ProcArray} (h : Table pa) {q : Pid} (hq : Runnable pa q) : q ≠ 0 := by
  rintro rfl
  exact h.not_runnable_zero hq

/-- The slots of the four applications. -/
def livePids : Finset Pid := {1, 2, 3, 4}

theorem card_livePids : livePids.card = 4 := rfl

theorem mem_livePids : ∀ q : Pid, q ∈ livePids ↔ q ≠ 0 := by decide

theorem Table.mem_livePids {pa : ProcArray} (h : Table pa) {q : Pid} (hq : Runnable pa q) :
    q ∈ livePids := (SchedOS.mem_livePids q).2 (h.ne_zero hq)

theorem Table.frame {pa pa' : ProcArray} (h : Table pa) (hf : ShareFrame pa pa') : Table pa' := by
  refine ⟨hf.slot0.trans h.slot0, fun q => ?_, fun q hq => ?_⟩
  · rw [hf.pPid q]
    exact h.pid q
  · rw [hf.pState q]
    exact h.state q hq

theorem start_procArray (alg : Int) (boot : Boot) {q : Pid} (hq : q ≠ 0) :
    (start alg boot).kern.procArray q = startProc boot q := if_pos (one_le_val hq)

theorem start_table (alg : Int) (boot : Boot) : Table (start alg boot).kern.procArray := by
  refine ⟨rfl, fun q => ?_, fun q hq => ?_⟩
  · by_cases hq : q = 0
    · rw [hq]
      rfl
    · rw [start_procArray alg boot hq]
      rfl
  · rw [start_procArray alg boot hq]
    exact .inl rfl

/-- What holds of the kernel in every state of a run and in every call of `schedule()`. -/
structure KernInv (alg : Int) (s : Kernel) : Prop where
  table : Table s.procArray
  current : s.current ≠ 0
  algorithm : s.schedulingAlgorithm = alg

/-- The invariant of a run: also, the process that has the CPU is runnable. -/
structure Inv (alg : Int) (m : Machine) : Prop extends KernInv alg m.kern where
  running : ∀ q, m.running = some q → Runnable m.kern.procArray q

/-- `current->p_pid` is the pid that `current` stands for. -/
theorem KernInv.pPid {alg : Int} {s : Kernel} (h : KernInv alg s) :
    s.currentProc.pPid = s.current := h.table.pid _

theorem procEffect_pPid (t : Trap) (reg : Registers) (p : Process) :
    (t.procEffect reg p).pPid = p.pPid := by
  cases t <;> rfl

theorem procEffect_pState (t : Trap) (reg : Registers) (p : Process) :
    (t.procEffect reg p).pState = p.pState ∨ (t.procEffect reg p).pState = .zombie := by
  cases t <;> simp [Trap.procEffect]

theorem procEffect_pState_of_ne {t : Trap} (ht : t ≠ .sysExit) (reg : Registers) (p : Process) :
    (t.procEffect reg p).pState = p.pState := by
  cases t <;> first | rfl | exact absurd rfl ht

theorem procEffect_pPriority {t : Trap} (ht : t ≠ .sysPriority) (reg : Registers) (p : Process) :
    (t.procEffect reg p).pPriority = p.pPriority := by
  cases t <;> first | rfl | exact absurd rfl ht

theorem KernInv.call {alg : Int} {s : Kernel} (h : KernInv alg s) (e : Event) :
    KernInv alg (e.call s) := by
  have hc := h.current
  refine ⟨⟨?_, fun q => ?_, fun q hq => ?_⟩, ?_, ?_⟩
  · rw [call_of_ne e s hc.symm]
    exact h.table.slot0
  · by_cases hq : q = s.current
    · rw [hq, call_self, procEffect_pPid]
      exact h.table.pid _
    · rw [call_of_ne e s hq]
      exact h.table.pid q
  · by_cases hqc : q = s.current
    · rw [hqc, call_self]
      rcases procEffect_pState e.trap e.registers (s.procArray s.current) with hp | hp
      · rw [hp]
        exact h.table.state _ hc
      · exact .inr hp
    · rw [call_of_ne e s hqc]
      exact h.table.state q hq
  · rwa [call_current]
  · rw [call_schedulingAlgorithm]
    exact h.algorithm

theorem start_inv (alg : Int) (boot : Boot) : Inv alg (start alg boot) := by
  refine ⟨⟨start_table alg boot, ?_, rfl⟩, fun q hq => ?_⟩
  · show (1 : Pid) ≠ 0
    decide
  · cases hq
    rfl

/-- From the call state to the state after the interrupt: only `p_share_left` changes, under
algorithm 42 alone, and the process that gets the CPU is runnable. -/
theorem Step.frame {alg : Int} {m m' : Machine} {e : Event} (hI : Inv alg m) (h : Step m e m') :
    ShareFrame (e.call m.kern).procArray m'.kern.procArray ∧
      (alg ≠ 42 → m'.kern.procArray = (e.call m.kern).procArray) ∧
      ∀ k, m'.running = some k → Runnable (e.call m.kern).procArray k := by
  obtain ⟨s, c, rfl, ⟨pa, k, hs, rfl⟩ | ⟨-, rfl⟩⟩ := h.inv
  · have hc := hI.toKernInv.call e
    obtain ⟨hf, hk, h42⟩ := hs.frame hc.table.not_runnable_zero
    refine ⟨hf, fun ha => h42 (by rwa [hc.algorithm]), fun q hq => ?_⟩
    cases hq
    exact hk
  · exact ⟨.refl _, fun _ => rfl, fun q hq => by cases hq⟩

/-- One interrupt keeps the invariant. -/
theorem Step.keeps_inv {alg : Int} {m m' : Machine} {e : Event} (hI : Inv alg m)
    (h : Step m e m') : Inv alg m' := by
  obtain ⟨s, c, rfl, ⟨pa, k, hs, rfl⟩ | ⟨-, rfl⟩⟩ := h.inv
  · have hc := hI.toKernInv.call e
    obtain ⟨hf, hk, -⟩ := hs.frame hc.table.not_runnable_zero
    refine ⟨⟨hc.table.frame hf, hc.table.ne_zero hk, hc.algorithm⟩, fun q hq => ?_⟩
    cases hq
    exact (hf.runnable k).2 hk
  · refine ⟨hI.toKernInv.call e, fun q hq => ?_⟩
    cases hq

theorem Run.kern_zero {alg : Int} {boot : Boot} (r : Run alg boot) :
    r.kern 0 = (start alg boot).kern := congrArg Machine.kern r.start

theorem Run.inv {alg : Int} {boot : Boot} (r : Run alg boot) {i : Nat} (hi : i ≤ r.len) :
    Inv alg (r.state i) :=
  r.invariant (fun _ h => h ▸ start_inv alg boot) (fun _ _ _ => Step.keeps_inv) hi

/-- A call of `schedule()` that runs a process, in a run. -/
theorem Run.state_of_schedules {alg : Int} {boot : Boot} (r : Run alg boot) {i : Nat}
    (hi : i < r.len) {pa : ProcArray} {k : Pid}
    (hs : Schedules (r.event i).tsc (r.call i) pa k) :
    r.state (i + 1) = run { r.call i with procArray := pa } k := by
  obtain ⟨s, c, hm, -⟩ := (r.steps i hi).inv
  have h := r.steps i hi
  unfold Run.call Run.kern at hs ⊢
  rw [hm] at h hs ⊢
  exact h.eq_run hs

/-- The call of `schedule()` behind a dispatch. -/
theorem Run.schedules_of_dispatched {alg : Int} {boot : Boot} (r : Run alg boot) {i : Nat}
    (hi : i < r.len) {k : Pid} (hd : r.dispatched i = some k) :
    Schedules (r.event i).tsc (r.call i) (r.kern (i + 1)).procArray k := by
  unfold Run.dispatched at hd
  unfold Run.call Run.kern
  obtain ⟨s, c, hm, ⟨pa, k', hs, hm'⟩ | ⟨-, hm'⟩⟩ := (r.steps i hi).inv
  · rw [hm'] at hd ⊢
    rw [hm]
    cases hd
    exact hs
  · rw [hm'] at hd
    cases hd

theorem Run.call_inv {alg : Int} {boot : Boot} (r : Run alg boot) {i : Nat} (hi : i ≤ r.len) :
    KernInv alg (r.call i) :=
  (r.inv hi).toKernInv.call _

/-! ## Process 1 alone -/

/-- Process 1 has the CPU. -/
structure OneRuns (alg : Int) (m : Machine) : Prop where
  user : ∃ s c, m = .user s c
  inv : KernInv alg m.kern
  current : m.kern.current = 1
  runnable : Runnable m.kern.procArray 1

theorem start_oneRuns (alg : Int) (boot : Boot) : OneRuns alg (start alg boot) :=
  ⟨⟨_, _, rfl⟩, (start_inv alg boot).toKernInv, rfl, rfl⟩

section
variable {alg : Int} {m : Machine} (h : OneRuns alg m) {e : Event}
include h

theorem OneRuns.pPid : (e.call m.kern).currentProc.pPid = 1 := by
  rw [(h.inv.call e).pPid, call_current, h.current]

theorem OneRuns.call_one :
    (e.call m.kern).procArray 1 = e.trap.procEffect e.registers (m.kern.procArray 1) := by
  rw [← h.current]
  exact call_self e m.kern

theorem OneRuns.call_runnable (he : e.trap ≠ .sysExit) :
    Runnable (e.call m.kern).procArray 1 := by
  unfold Runnable
  rw [h.call_one, procEffect_pState_of_ne he]
  exact h.runnable

/-- If the scheduler runs process 1 again, it is as before. -/
theorem OneRuns.step {pa : ProcArray} (hs : Schedules e.tsc (e.call m.kern) pa 1) :
    Step m e (run { e.call m.kern with procArray := pa } 1) ∧
      OneRuns alg (run { e.call m.kern with procArray := pa } 1) := by
  have hc := h.inv.call e
  obtain ⟨hf, hr, -⟩ := hs.frame hc.table.not_runnable_zero
  refine ⟨?_, ⟨_, _, rfl⟩, ⟨hc.table.frame hf, ?_, hc.algorithm⟩, rfl, (hf.runnable 1).2 hr⟩
  · obtain ⟨s, c, rfl⟩ := h.user
    exact Step.of_schedules hs
  · show (1 : Pid) ≠ 0
    decide

end

end SchedOS
