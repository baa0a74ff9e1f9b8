import SchedOS.Kern.Proof.Table

/-!
# Contexts across runs

The push sequence of an interrupt fills a `registers_t` with the context of the application
(`registers_context`) and the pop sequence of `run` loads the members it stands for
(`loadContext_words`), so a process goes on where it was interrupted: in every state of a run the
`p_registers` of each process stand for its last context (`Run.registers_last`).
-/

namespace SchedOS

/-- The context that a `registers_t` stands for, by the names of its members. -/
def Registers.context (r : Registers) : Context where
  edi := r.regEdi
  esi := r.regEsi
  ebp := r.regEbp
  ebx := r.regEbx
  edx := r.regEdx
  ecx := r.regEcx
  eax := r.regEax
  es := r.regEs
  ds := r.regDs
  eip := r.regEip
  cs := r.regCs
  eflags := r.regEflags
  esp := r.regEsp
  ss := r.regSs

theorem halves_toUInt16 (lo hi : UInt16) : (halves lo hi).toUInt16 = lo := by
  have h : (hi.toUInt32 <<< 16).toUInt16 = 0 := by
    apply UInt16.toNat_inj.1
    simp only [UInt32.toNat_toUInt16, UInt32.toNat_shiftLeft, UInt16.toNat_toUInt32]
    rw [show (16 : UInt32).toNat % 32 = 16 from rfl, Nat.shiftLeft_eq]
    have := hi.toNat_lt
    show _ = 0
    omega
  unfold halves
  rw [UInt32.toUInt16_or, UInt16.toUInt16_toUInt32, h, UInt16.or_zero]

/-- The instructions of `run` load the members by their names. -/
theorem loadContext_words (r : Registers) : loadContext r.words = r.context := by
  simp only [loadContext, Registers.words, popl, List.drop_succ_cons, List.drop_zero,
    halves_toUInt16, Registers.context]

/-- The words of a complete frame: the pushes of `_generic_int_handler`, the handler's two words and
the CPU's five. -/
def frameWords (c : Context) (originalEsp intno err : UInt32) : List UInt32 :=
  [c.edi, c.esi, c.ebp, originalEsp, c.ebx, c.edx, c.ecx, c.eax, c.es.toUInt32, c.ds.toUInt32,
    intno, err, c.eip, c.cs.toUInt32, c.eflags, c.esp, c.ss.toUInt32]

theorem ofWords_frameWords (c : Context) (originalEsp intno err : UInt32) :
    (Registers.ofWords (frameWords c originalEsp intno err)).context = c := by
  simp [frameWords, Registers.ofWords, Registers.context]

theorem enterKernel_words (t : Trap) (c : Context) :
    ∃ originalEsp, (enterKernel t.vector 0 [] c).words =
      frameWords c originalEsp (intno t.vector) 0 := by
  cases t <;> exact ⟨_, rfl⟩

/-- The frame of an interrupt holds the context of the application. -/
theorem registers_context (e : Event) : e.registers.context = e.cpu := by
  obtain ⟨originalEsp, h⟩ := enterKernel_words e.trap e.cpu
  unfold Event.registers interruptFrame
  rw [h, ofWords_frameWords]

/-! ## The last context of a process -/

/-- The context in which `start()` leaves application `p`. -/
def startContext (boot : Boot) (p : Pid) : Context := (startProc boot p).pRegisters.context

section
variable {alg : Int} {boot : Boot} (r : Run alg boot)

/-- The context of process `p` when it was last interrupted, before interrupt `i`. -/
def Run.lastContext (p : Pid) : Nat → Context
  | 0 => startContext boot p
  | i + 1 =>
    if (r.kern i).current = p then (r.event i).cpu else Run.lastContext p i

end

theorem procEffect_pRegisters (t : Trap) (reg : Registers) (p : Process) :
    (t.procEffect reg p).pRegisters = reg := by
  cases t <;> rfl

theorem call_pRegisters_context (e : Event) (s : Kernel) (q : Pid) :
    ((e.call s).procArray q).pRegisters.context =
      if s.current = q then e.cpu else (s.procArray q).pRegisters.context := by
  split
  · rename_i h
    rw [← h, call_self, procEffect_pRegisters, registers_context]
  · rename_i h
    rw [call_of_ne e s (Ne.symm h)]

/-- The CPU holds what `run` loads from the descriptor of the running process. -/
def Loaded (m : Machine) : Prop :=
  ∀ s c, m = .user s c → c = loadContext (s.procArray s.current).pRegisters.words

theorem run_loaded (s : Kernel) (k : Pid) : Loaded (run s k) := by
  intro s' c h
  cases h
  rfl

theorem Step.loaded {m m' : Machine} {e : Event} (h : Step m e m') : Loaded m' := by
  obtain ⟨s, c, rfl, ⟨pa, k, hs, rfl⟩ | ⟨-, rfl⟩⟩ := h.inv
  · exact run_loaded _ _
  · intro s' c' h'
    cases h'

section
variable {alg : Int} {boot : Boot} (r : Run alg boot)

theorem Run.loaded {i : Nat} (hi : i ≤ r.len) : Loaded (r.state i) :=
  r.invariant (fun _ h => h ▸ run_loaded _ _) (fun _ _ _ _ h => h.loaded) hi

/-- The saved registers of every process stand for its last context. -/
theorem Run.registers_last {i : Nat} (hi : i ≤ r.len) {p : Pid} (hp : p ≠ 0) :
    ((r.kern i).procArray p).pRegisters.context = r.lastContext p i := by
  induction i with
  | zero =>
    rw [r.kern_zero, start_procArray alg boot hp]
    rfl
  | succ i ih =>
    obtain ⟨hf, -, -⟩ := (r.steps i (by omega)).frame (r.inv (by omega))
    show ((r.state (i + 1)).kern.procArray p).pRegisters.context = _
    rw [hf.eq p]
    show ((r.call i).procArray p).pRegisters.context = _
    rw [Run.call, call_pRegisters_context, Run.lastContext, ih (by omega)]

/-- The CPU holds the last context of the running process. -/
theorem Run.cpu_last {i : Nat} (hi : i ≤ r.len) {s : Kernel} {c : Context}
    (hs : r.state i = .user s c) : c = r.lastContext s.current i := by
  have hl := r.loaded hi s c hs
  have hk : r.kern i = s := congrArg Machine.kern hs
  have hlast := r.registers_last hi (r.inv hi).current
  change ((r.kern i).procArray (r.kern i).current).pRegisters.context =
    r.lastContext (r.kern i).current i at hlast
  rw [hk] at hlast
  rw [hl, loadContext_words, hlast]

/-- **Context preservation and isolation**: a process that gets the CPU has the registers it had
when it was last interrupted, or those of `start()`; and an interrupt changes no descriptor but that
of the process it interrupts, except for `p_share_left` under algorithm 42. -/
theorem context_preservation :
    (∀ i, i ≤ r.len → ∀ s c, r.state i = .user s c →
      c = loadContext (s.procArray s.current).pRegisters.words ∧
      c = r.lastContext s.current i) ∧
    (∀ i, i < r.len → ∀ q, q ≠ (r.kern i).current →
      (alg ≠ 42 → (r.kern (i + 1)).procArray q = (r.kern i).procArray q) ∧
      { (r.kern (i + 1)).procArray q with
        pShareLeft := ((r.kern i).procArray q).pShareLeft } =
          (r.kern i).procArray q) := by
  refine ⟨fun i hi s c hs => ⟨r.loaded hi s c hs, r.cpu_last hi hs⟩, fun i hi q hq => ?_⟩
  obtain ⟨hf, h42, -⟩ := (r.steps i hi).frame (r.inv (Nat.le_of_lt hi))
  have hcall : ((r.event i).call (r.kern i)).procArray q = (r.kern i).procArray q :=
    call_of_ne _ _ hq
  have hq' : (r.kern (i + 1)).procArray q =
      { (r.kern i).procArray q with
        pShareLeft := ((r.kern (i + 1)).procArray q).pShareLeft } := by
    rw [← hcall]
    exact hf.eq q
  refine ⟨fun ha => ?_, ?_⟩
  · rw [← hcall]
    exact congrFun (h42 ha) q
  · rw [hq']

end

end SchedOS
