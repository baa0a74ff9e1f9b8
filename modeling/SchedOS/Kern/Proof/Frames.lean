import SchedOS.Kern.Proof.Context

/-!
# The frames of all vectors

A `registers_t` is 17 words. `_generic_int_handler` pushes ten of them and the CPU five, so the
handler and the CPU's error code have to be the other two (`middle`). `default_int_handler` pushes
one word for every vector that it serves, so the frames of those without an error code are a word
short (`length_middle`, `interruptFrame_iff`).
-/

namespace SchedOS

/-! ## What is pushed -/

/-- The words that a handler pushes, the last one first. -/
def Handler.pushed : Handler → List UInt32
  | .clock => [32, 0]
  | .sys i => [48 + i.val.toUInt32, 0]
  | .default => [0]

/-- The words between the task status and those of `_generic_int_handler`. -/
def middle (v : Vector) (err : UInt32) : List UInt32 :=
  (segmentsInit v).off.pushed ++ if hasErrorCode v then [err] else []

theorem Handler.enter_words (h : Handler) (k : KernelStack) :
    (h.enter k).words = h.pushed ++ k.words := by
  cases h <;> rfl

theorem Handler.enter_esp (h : Handler) (k : KernelStack) :
    (h.enter k).esp = k.esp - UInt32.ofNat (4 * h.pushed.length) := by
  have htwo : k.esp - 4 - 4 = k.esp - 8 := by grind
  cases h
  · exact htwo
  · exact htwo
  · rfl

theorem cpuInterrupt_words (v : Vector) (err : UInt32) (above : List UInt32) (c : Context) :
    (cpuInterrupt v err above c).words = (if hasErrorCode v then [err] else []) ++
      [c.eip, c.cs.toUInt32, c.eflags, c.esp, c.ss.toUInt32] ++ above := by
  unfold cpuInterrupt
  cases hasErrorCode v <;> rfl

theorem cpuInterrupt_esp (v : Vector) (err : UInt32) (above : List UInt32) (c : Context) :
    (cpuInterrupt v err above c).esp =
      KERNEL_STACK_TOP - UInt32.ofNat (20 + 4 * if hasErrorCode v then 1 else 0) := by
  unfold cpuInterrupt
  cases hasErrorCode v
  · simp only [KernelStack.pushl, Bool.false_eq_true, if_false]
    decide
  · simp only [KernelStack.pushl, if_true]
    decide

theorem genericIntHandler_words (c : Context) (k : KernelStack) :
    (genericIntHandler c k).words = [c.edi, c.esi, c.ebp, k.esp - 4 - 4, c.ebx, c.edx, c.ecx, c.eax,
      c.es.toUInt32, c.ds.toUInt32] ++ k.words := rfl

theorem genericIntHandler_esp (c : Context) (k : KernelStack) :
    (genericIntHandler c k).esp = k.esp - 40 := by
  simp only [genericIntHandler, pushal, KernelStack.pushl]
  grind

/-! ## Whole frames -/

/-- `sizeof(registers_t)`. -/
abbrev REGISTERS_SIZE : Nat := 68

/-- The `registers_t` that `interrupt` gets holds the interrupted context and ends at the top of the
kernel stack or below it. -/
structure FrameHolds (v : Vector) (err : UInt32) (above : List UInt32) (c : Context) : Prop where
  context : (interruptFrame v err above c).context = c
  below : (enterKernel v err above c).esp.toNat + REGISTERS_SIZE ≤ KERNEL_STACK_TOP.toNat

/-- The vectors whose frame is whole: the exceptions with an error code, the clock and the system
calls. -/
def Whole (v : Vector) : Prop := hasErrorCode v = true ∨ v = INT_CLOCK ∨ 48 ≤ v.val ∧ v.val ≤ 57

instance (v : Vector) : Decidable (Whole v) := inferInstanceAs (Decidable (_ ∨ _ ∨ _))

theorem length_middle (v : Vector) (err : UInt32) :
    (middle v err).length = if Whole v then 2 else 1 := by
  have key : ∀ v : Vector, (segmentsInit v).off.pushed.length + (if hasErrorCode v then 1 else 0) =
      if Whole v then 2 else 1 := by decide +kernel
  rw [← key v, middle, List.length_append]
  congr 1
  cases hasErrorCode v <;> rfl

theorem enterKernel_middle (v : Vector) (err : UInt32) (above : List UInt32) (c : Context) :
    ∃ originalEsp, (enterKernel v err above c).words =
      [c.edi, c.esi, c.ebp, originalEsp, c.ebx, c.edx, c.ecx, c.eax, c.es.toUInt32, c.ds.toUInt32] ++
        middle v err ++ [c.eip, c.cs.toUInt32, c.eflags, c.esp, c.ss.toUInt32] ++ above := by
  refine ⟨((segmentsInit v).off.enter (cpuInterrupt v err above c)).esp - 4 - 4, ?_⟩
  unfold enterKernel
  rw [genericIntHandler_words, Handler.enter_words, cpuInterrupt_words, middle]
  simp only [List.append_assoc]

theorem enterKernel_esp (v : Vector) (err : UInt32) (above : List UInt32) (c : Context) :
    (enterKernel v err above c).esp =
      KERNEL_STACK_TOP - UInt32.ofNat (60 + 4 * (middle v err).length) := by
  have hlength : (middle v err).length =
      (segmentsInit v).off.pushed.length + if hasErrorCode v then 1 else 0 := by
    rw [middle, List.length_append]
    cases hasErrorCode v <;> rfl
  unfold enterKernel
  rw [genericIntHandler_esp, Handler.enter_esp, cpuInterrupt_esp, hlength]
  generalize (segmentsInit v).off.pushed.length = n
  generalize (if hasErrorCode v then 1 else 0) = e
  simp only [UInt32.ofNat_add, UInt32.ofNat_mul]
  grind

/-- **Which interrupts save the interrupted context**: those of the exceptions with an error code, of
the clock and of the system calls. -/
theorem interruptFrame_iff (v : Vector) (err : UInt32) (above : List UInt32) (c : Context) :
    FrameHolds v err above c ↔
      hasErrorCode v = true ∨ v = INT_CLOCK ∨ 48 ≤ v.val ∧ v.val ≤ 57 := by
  show FrameHolds v err above c ↔ Whole v
  have hlength := length_middle v err
  constructor
  · intro h
    apply Classical.byContradiction
    intro hv
    have hbelow := h.below
    rw [enterKernel_esp, hlength, if_neg hv] at hbelow
    exact absurd hbelow (by decide)
  · intro hv
    rw [if_pos hv] at hlength
    obtain ⟨originalEsp, hwords⟩ := enterKernel_middle v err above c
    obtain ⟨intno, err', hmiddle⟩ := List.length_eq_two.1 hlength
    refine ⟨?_, ?_⟩
    · unfold interruptFrame
      rw [hwords, hmiddle]
      simp [Registers.ofWords, Registers.context]
    · rw [enterKernel_esp, hlength]
      decide

/-- A division by zero in an application. -/
theorem divide_error_short : ¬ ∀ (v : Vector) (err : UInt32) (above : List UInt32) (c : Context),
    FrameHolds v err above c := by
  intro hclaim
  have hbelow := (hclaim 0 0 [] (loadContext [])).below
  rw [enterKernel_esp, length_middle, if_neg (by decide)] at hbelow
  exact absurd hbelow (by decide)

end SchedOS
