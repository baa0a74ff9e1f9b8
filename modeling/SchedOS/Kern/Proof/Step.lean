import SchedOS.Kern.Machine

/-!
# What one interrupt can do

The frame that reaches `interrupt` holds the vector and the registers of the application
(`registers_intno`, `registers_eax`), so the `switch` takes the case of the trap (`call_eq`). `Step`
is inverted once (`Step.inv`): the call state, then either a `run` of a process that the scheduler
chose (`Schedules`) or no return. `Schedules.frame` is what every algorithm leaves alone.
-/

namespace SchedOS

/-! ## The frame -/

theorem registers_intno (e : Event) : e.registers.regIntno = intno e.trap.vector := by
  obtain ⟨trap, cpu, tsc⟩ := e
  cases trap <;> rfl

theorem registers_eax (e : Event) : e.registers.regEax = e.cpu.eax := by
  obtain ⟨trap, cpu, tsc⟩ := e
  cases trap <;> rfl

/-- What the case of a trap does after the registers are saved. -/
def Trap.effect : Trap → Registers → Kernel → Kernel
  | .clock, _ => id
  | .sysYield, _ => id
  | .sysExit, reg => caseSysExit reg
  | .sysPriority, reg => caseSysPriority reg
  | .sysShare, reg => caseSysShare reg
  | .sysLottery, reg => caseSysLottery reg
  | .sysPrint, reg => caseSysPrint reg

theorem interruptCase_eq (e : Event) (s : Kernel) :
    interruptCase e.registers s =
      some (e.trap.effect e.registers (saveRegisters e.registers s)) := by
  have h := registers_intno e
  unfold interruptCase
  rw [h]
  cases e.trap <;> rfl

/-- The call state of an interrupt. -/
theorem call_eq (e : Event) (s : Kernel) :
    e.call s = e.trap.effect e.registers (saveRegisters e.registers s) := by
  simp [Event.call, interruptCase_eq]

/-! ## Fields of the call state -/

section
variable (e : Event) (s : Kernel)

@[simp] theorem call_current : (e.call s).current = s.current := by
  rw [call_eq]
  cases e.trap <;> rfl

@[simp] theorem call_schedulingAlgorithm :
    (e.call s).schedulingAlgorithm = s.schedulingAlgorithm := by
  rw [call_eq]
  cases e.trap <;> rfl

/-- An interrupt changes only the descriptor of the process it interrupts. -/
theorem call_of_ne {q : Pid} (h : q ≠ s.current) : (e.call s).procArray q = s.procArray q := by
  rw [call_eq]
  cases e.trap <;>
    simp [Trap.effect, saveRegisters, caseSysExit, caseSysPriority, caseSysShare, caseSysLottery,
      caseSysPrint, h]

/-- The descriptor of the interrupted process when `schedule()` is called. -/
def Trap.procEffect : Trap → Registers → Process → Process
  | .clock, reg, p => { p with pRegisters := reg }
  | .sysYield, reg, p => { p with pRegisters := reg }
  | .sysExit, reg, p =>
    { p with pRegisters := reg, pState := .zombie, pExitStatus := reg.regEax.toInt32 }
  | .sysPriority, reg, p => { p with pRegisters := reg, pPriority := reg.regEax }
  | .sysShare, reg, p =>
    { p with pRegisters := reg, pShareAmt := reg.regEax, pShareLeft := reg.regEax }
  | .sysLottery, reg, p => { p with pRegisters := reg, pLotteryAmt := reg.regEax }
  | .sysPrint, reg, p => { p with pRegisters := reg }

theorem call_self :
    (e.call s).procArray s.current =
      e.trap.procEffect e.registers (s.procArray s.current) := by
  rw [call_eq]
  cases e.trap <;>
    simp [Trap.effect, Trap.procEffect, saveRegisters, caseSysExit, caseSysPriority,
      caseSysShare, caseSysLottery, caseSysPrint]

end

/-! ## The scheduler's choice -/

/-- `schedule()` calls `run(&proc_array[pid])` with the descriptors `procArray`. -/
def Schedules (tsc : Nat → UInt64) (s : Kernel) (procArray : ProcArray) (pid : Pid) : Prop :=
  ∃ fuel, schedule tsc fuel s = some (.run procArray pid)

theorem interrupt_eq_some {e : Event} {s : Kernel} {fuel : Nat} {m : Machine}
    (h : interrupt e.tsc fuel e.registers s = some m) :
    ∃ procArray pid, schedule e.tsc fuel (e.call s) = some (.run procArray pid) ∧
      m = run { e.call s with procArray } pid := by
  unfold interrupt at h
  rw [interruptCase_eq, ← call_eq] at h
  dsimp only at h
  split at h
  · rename_i procArray pid hs
    cases h
    exact ⟨procArray, pid, hs, rfl⟩
  · cases h

theorem interrupt_of_schedule {e : Event} {s : Kernel} {fuel : Nat} {procArray : ProcArray}
    {pid : Pid} (h : schedule e.tsc fuel (e.call s) = some (.run procArray pid)) :
    interrupt e.tsc fuel e.registers s = some (run { e.call s with procArray } pid) := by
  unfold interrupt
  rw [interruptCase_eq, ← call_eq]
  simp [h]

theorem Step.of_schedules {e : Event} {s : Kernel} {c : Context} {procArray : ProcArray} {pid : Pid}
    (h : Schedules e.tsc (e.call s) procArray pid) :
    Step (.user s c) e (run { e.call s with procArray } pid) := by
  obtain ⟨fuel, h⟩ := h
  exact .dispatch (interrupt_of_schedule h)

/-- An interrupt leads on or spins. -/
theorem Step.exists_step (s : Kernel) (c : Context) (e : Event) : ∃ m, Step (.user s c) e m := by
  by_cases h : ∃ fuel m, interrupt e.tsc fuel e.registers s = some m
  · obtain ⟨fuel, m, h⟩ := h
    exact ⟨m, .dispatch h⟩
  · exact ⟨_, .spin fun fuel => Option.eq_none_iff_forall_ne_some.2 fun m hm => h ⟨fuel, m, hm⟩⟩

theorem Step.exists_of_running {m : Machine} (h : m.running.isSome) (e : Event) :
    ∃ m', Step m e m' := by
  cases m with
  | user s c => exact Step.exists_step s c e
  | stuck s => cases h

/-- The last call of a run with one more interrupt. -/
theorem Run.call_snoc {alg : Int} {boot : Boot} (r : Run alg boot) {e : Event} {m : Machine}
    (h : Step (r.state r.len) e m) : Run.call (Exec.snoc r h) r.len = e.call (r.kern r.len) := by
  unfold Run.call Run.kern
  rw [r.snoc_event_last h, (r.snoc_extends h).state _ (Nat.le_refl _)]

/-- The machine after an interrupt whose `schedule()` ends within three passes. -/
def nextMachine (m : Machine) (e : Event) : Machine :=
  (interrupt e.tsc 3 e.registers m.kern).getD m

theorem step_nextMachine {m : Machine} {e : Event} (hm : m.running.isSome)
    (h : (interrupt e.tsc 3 e.registers m.kern).isSome) : Step m e (nextMachine m e) := by
  obtain ⟨m', hm'⟩ := Option.isSome_iff_exists.1 h
  have hnext : nextMachine m e = m' := by
    unfold nextMachine
    rw [hm']
    rfl
  rw [hnext]
  cases m with
  | stuck s => cases hm
  | user s c => exact .dispatch hm'

/-- The run with these interrupts, as computed. -/
def Run.ofEvents (alg : Int) (event : Nat → Event) (len : Nat)
    (h : ∀ i, i < len → (Exec.states nextMachine event (start alg .zero) i).running.isSome ∧
      (interrupt (event i).tsc 3 (event i).registers
        (Exec.states nextMachine event (start alg .zero) i).kern).isSome) : Run alg .zero :=
  .ofNext nextMachine event (start alg .zero) len rfl fun i hi =>
    step_nextMachine (h i hi).1 (h i hi).2

/-- `sys_yield()`. -/
def yieldCall : Event := .ofCall .sysYield 0

/-- Everything an interrupt can do. -/
theorem Step.inv {m m' : Machine} {e : Event} (h : Step m e m') :
    ∃ s c, m = .user s c ∧
      ((∃ procArray pid, Schedules e.tsc (e.call s) procArray pid ∧
          m' = run { e.call s with procArray } pid) ∨
        ((∀ procArray pid, ¬ Schedules e.tsc (e.call s) procArray pid) ∧
          m' = .stuck (e.call s))) := by
  cases h with
  | @dispatch s c _ fuel _ hrun =>
    obtain ⟨procArray, pid, hs, rfl⟩ := interrupt_eq_some hrun
    exact ⟨s, c, rfl, .inl ⟨procArray, pid, ⟨fuel, hs⟩, rfl⟩⟩
  | @spin s c _ hspin =>
    refine ⟨s, c, rfl, .inr ⟨fun procArray pid ⟨fuel, hs⟩ => ?_, rfl⟩⟩
    have := hspin fuel
    rw [interrupt_of_schedule hs] at this
    cases this

end SchedOS
