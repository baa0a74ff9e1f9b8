import SchedOS.App.LockProgram
import SchedOS.Kern.Proof.Screen
import SchedOS.Lib.SpinLock

/-!
# Printing under the lock

At most one process is in its critical section, and the lock says whether one is
(`SpinLock.Exclusive`). What the process in the section has done so far (`LockState.Section`)
determines the cursor and the cells, so the sections that are complete have put their characters on
the first cells. `LockInv` is kept by every statement (`LockInv.stmt`) and every interrupt, so it
holds along a run (`LockRun.inv`), whatever the algorithm and the clock do (`lock_print_safe`).
-/

namespace SchedOS

/-! ## Contexts -/

theorem contextOf_user (s : Kernel) (c : Context) (p : Pid) : (Machine.user s c).contextOf p =
    if s.current = p then c else (s.procArray p).pRegisters.context := rfl

/-- When the kernel has just loaded the CPU, every context is saved. -/
theorem Loaded.contextOf {m : Machine} (h : Loaded m) (p : Pid) :
    m.contextOf p = (m.kern.procArray p).pRegisters.context := by
  cases m with
  | stuck s => rfl
  | user s c =>
    rw [contextOf_user]
    split
    · rename_i hp
      rw [h s c rfl, loadContext_words, hp, Machine.kern_user]
    · rfl

/-- An interrupt saves the context of the process it interrupts; the others keep theirs. -/
theorem Step.contextOf {alg : Int} {m m' : Machine} {e : Event} (hI : Inv alg m) (h : Step m e m')
    (p : Pid) : m'.contextOf p = if m.kern.current = p then e.cpu else m.contextOf p := by
  have hf := (h.frame hI).1
  rw [h.loaded.contextOf p, hf.eq p, call_pRegisters_context]
  obtain ⟨s, c, rfl, -⟩ := h.inv
  rw [contextOf_user, Machine.kern_user]
  split <;> rfl

theorem start_contextOf (alg : Int) (boot : Boot) {p : Pid} (hp : p ≠ 0) :
    (start alg boot).contextOf p = startContext boot p := by
  have hl : Loaded (start alg boot) := run_loaded _ _
  rw [hl.contextOf, start_procArray alg boot hp, startContext]

/-- The kernel leaves the lock alone. -/
theorem Step.cursorposLock {m m' : Machine} {e : Event} (h : Step m e m') :
    m'.kern.cursorposLock = m.kern.cursorposLock := by
  have hcall : ∀ s : Kernel, (e.call s).cursorposLock = s.cursorposLock := by
    intro s
    rw [call_eq]
    cases e.trap <;> rfl
  obtain ⟨s, c, rfl, ⟨pa, k, -, rfl⟩ | ⟨-, rfl⟩⟩ := h.inv
  · exact hcall s
  · exact hcall s

/-! ## The critical section -/

/-- The shared variables are the same. -/
structure SameShared (s s' : Kernel) : Prop where
  lock : s'.cursorposLock = s.cursorposLock
  cursor : s'.cursorpos = s.cursorpos
  cells : s'.cells = s.cells

theorem Step.sameShared {m m' : Machine} {e : Event} (h : Step m e m')
    (ht : e.trap ≠ .sysPrint) : SameShared m.kern m'.kern := by
  obtain ⟨hcells, hcursor⟩ := h.screen
  rw [call_cells, if_neg ht] at hcells
  rw [call_cursorpos, if_neg ht] at hcursor
  exact ⟨h.cursorposLock, hcursor, hcells⟩

/-- What holds of a process if no other one is in its section, `log` having been printed: how far it
has come with printing `c`. -/
def LockState.Section (c : UInt16) (s : Kernel) (log : List UInt16) (st : LockState) : Prop :=
  match st.pc with
  | .write =>
    s.cursorpos = cell log.length ∧ st.temp = cell log.length ∧
      (log.length ≤ CONSOLE_CELLS → Tape.Holds cell s.cells log)
  | .store =>
    s.cursorpos = cell (log.length + 1) ∧ st.temp = cell log.length ∧
      (log.length ≤ CONSOLE_CELLS → Tape.Holds cell s.cells log)
  | .release =>
    s.cursorpos = cell (log.length + 1) ∧
      (log.length ≤ CONSOLE_CELLS → Tape.Holds cell s.cells (log ++ [c]))
  | _ =>
    s.cursorpos = cell log.length ∧ (log.length ≤ CONSOLE_CELLS → Tape.Holds cell s.cells log)

theorem LockState.section_outside {c : UInt16} {s : Kernel} {log : List UInt16} {st : LockState}
    (h : ¬ st.Inside) : st.Section c s log ↔ s.cursorpos = cell log.length ∧
      (log.length ≤ CONSOLE_CELLS → Tape.Holds cell s.cells log) := by
  obtain ⟨pc, i, temp⟩ := st
  cases pc with
  | write | store | release => exact absurd (by simp [LockState.Inside]) h
  | _ => exact Iff.rfl

/-- Whatever a process has done in its section, the cells still hold what was printed. -/
theorem LockState.Section.holds {c : UInt16} {s : Kernel} {log : List UInt16} {st : LockState}
    (h : st.Section c s log) (hn : log.length ≤ CONSOLE_CELLS) : Tape.Holds cell s.cells log := by
  obtain ⟨pc, i, temp⟩ := st
  cases pc with
  | write | store => exact h.2.2 hn
  | release => exact (h.2 hn).left
  | _ => exact h.2 hn

theorem LockState.Section.same {c : UInt16} {s s' : Kernel} {log : List UInt16} {st : LockState}
    (h : st.Section c s log) (hs : SameShared s s') : st.Section c s' log := by
  unfold LockState.Section at h ⊢
  rw [hs.cursor, hs.cells]
  exact h

/-- The invariant of the shared variables, the local states being `st` and `log` the characters of
the completed sections. -/
structure LockInv (s : Kernel) (st : Pid → LockState) (log : List UInt16) : Prop where
  exclusive : SpinLock.Exclusive (s.cursorposLock = 0) fun p => p ≠ 0 ∧ (st p).Inside
  own : ∀ p, p ≠ 0 → (∀ q, q ≠ 0 → (st q).Inside → q = p) → (st p).Section (printchar p) s log

section
variable {s s' : Kernel} {st : Pid → LockState} {log : List UInt16} {p : Pid} {st' : LockState}

theorem LockInv.same (h : LockInv s st log) (hs : SameShared s s') : LockInv s' st log := by
  refine ⟨h.exclusive.congr (by rw [hs.lock]) fun _ => Iff.rfl, fun p hp hno => ?_⟩
  exact (h.own p hp hno).same hs

theorem LockInv.holds (h : LockInv s st log) (hn : log.length ≤ CONSOLE_CELLS) :
    Tape.Holds cell s.cells log := by
  by_cases hin : ∃ p, p ≠ 0 ∧ (st p).Inside
  · obtain ⟨p, hp, hpin⟩ := hin
    exact (h.own p hp fun q hq hqin => h.exclusive.unique q p ⟨hq, hqin⟩ ⟨hp, hpin⟩).holds hn
  · exact (h.own 1 (by decide) fun q hq hqin => absurd ⟨q, hq, hqin⟩ hin).holds hn

theorem inside_update_of_ne {q : Pid} (h : q ≠ p) :
    (Function.update st p st' q).Inside ↔ (st q).Inside := by
  rw [Function.update_of_ne h]

/-- A process outside stays outside, and takes no lock that is free. -/
theorem LockInv.outside (h : LockInv s st log) (hold : ¬ (st p).Inside) (hnew : ¬ st'.Inside)
    (hlock : s'.cursorposLock = 0 ↔ s.cursorposLock = 0) (hcursor : s'.cursorpos = s.cursorpos)
    (hcells : s'.cells = s.cells) : LockInv s' (Function.update st p st') log := by
  have hinside : ∀ q, (Function.update st p st' q).Inside ↔ (st q).Inside := by
    intro q
    by_cases hq : q = p
    · rw [hq, Function.update_self]
      exact iff_of_false hnew hold
    · exact inside_update_of_ne hq
  refine ⟨h.exclusive.congr hlock fun q => and_congr_right fun _ => hinside q, fun q hq hno => ?_⟩
  have hsec := h.own q hq fun q' hq' hin => hno q' hq' ((hinside q').2 hin)
  by_cases hqp : q = p
  · rw [hqp, Function.update_self]
    rw [hqp, LockState.section_outside hold] at hsec
    rw [LockState.section_outside hnew, hcursor, hcells]
    exact hsec
  · rw [Function.update_of_ne hqp]
    unfold LockState.Section at hsec ⊢
    rw [hcursor, hcells]
    exact hsec

/-- What is left to show when a process is inside after a statement. -/
theorem LockInv.own_of_inside (hp : p ≠ 0) (hnew : st'.Inside)
    (hsec : st'.Section (printchar p) s' log) : ∀ q, q ≠ 0 →
      (∀ q', q' ≠ 0 → (Function.update st p st' q').Inside → q' = q) →
      (Function.update st p st' q).Section (printchar q) s' log := by
  intro q hq hno
  have hqp : p = q := hno p hp (by rwa [Function.update_self])
  rw [← hqp, Function.update_self]
  exact hsec

theorem taken_ne_zero : ¬ (1 : UInt32) = 0 := by decide

/-- A process that takes the free lock. -/
theorem LockInv.acquire (h : LockInv s st log) (hp : p ≠ 0) (hold : ¬ (st p).Inside)
    (hfree : s.cursorposLock = 0) {pc : LockPc} (hpc : pc = .read) :
    LockInv { s with cursorposLock := 1 } (Function.update st p { st p with pc }) log := by
  subst hpc
  have hin : ({ st p with pc := .read } : LockState).Inside := by simp [LockState.Inside]
  have hno := h.exclusive.free_iff.1 hfree
  refine ⟨h.exclusive.acquire hfree taken_ne_zero (p := p) ⟨hp, ?_⟩ fun q hq => ?_,
    LockInv.own_of_inside hp hin ?_⟩
  · rwa [Function.update_self]
  · rw [inside_update_of_ne hq]
  · have hsec := h.own p hp fun q hq hqin => absurd ⟨hq, hqin⟩ (hno q)
    exact (LockState.section_outside hold).1 hsec

/-- A process goes on in its section. -/
theorem LockInv.inside (h : LockInv s st log) (hp : p ≠ 0) (hold : (st p).Inside)
    (hnew : st'.Inside) (hlock : s'.cursorposLock = s.cursorposLock)
    (hsec : (st p).Section (printchar p) s log → st'.Section (printchar p) s' log) :
    LockInv s' (Function.update st p st') log := by
  refine ⟨h.exclusive.congr (by rw [hlock]) fun q => and_congr_right fun _ => ?_,
    LockInv.own_of_inside hp hnew (hsec ?_)⟩
  · by_cases hq : q = p
    · rw [hq, Function.update_self]
      exact iff_of_true hnew hold
    · exact inside_update_of_ne hq
  · exact h.own p hp fun q hq hin => h.exclusive.unique q p ⟨hq, hin⟩ ⟨hp, hold⟩

/-- A process completes its section. -/
theorem LockInv.release (h : LockInv s st log) (hp : p ≠ 0) (hold : (st p).pc = .release)
    (hnew : ¬ st'.Inside) :
    LockInv { s with cursorposLock := 0 } (Function.update st p st') (log ++ [printchar p]) := by
  have hin : (st p).Inside := by simp [LockState.Inside, hold]
  have hsec := h.own p hp fun q hq hqin => h.exclusive.unique q p ⟨hq, hqin⟩ ⟨hp, hin⟩
  unfold LockState.Section at hsec
  rw [hold] at hsec
  obtain ⟨hcursor, hcells⟩ := hsec
  have hno : ∀ q, q ≠ 0 → ¬ (Function.update st p st' q).Inside := by
    intro q hq
    by_cases hqp : q = p
    · rwa [hqp, Function.update_self]
    · rw [Function.update_of_ne hqp]
      exact fun hqin => hqp (h.exclusive.unique q p ⟨hq, hqin⟩ ⟨hp, hin⟩)
  refine ⟨h.exclusive.release (p := p) ⟨hp, hin⟩ rfl (fun hpin => hno p hp hpin.2) fun q hq => ?_,
    fun q hq _ => (LockState.section_outside (hno q hq)).2 ⟨?_, fun hn => hcells ?_⟩⟩
  · rw [inside_update_of_ne hq]
  · rw [List.length_append, List.length_singleton]
    exact hcursor
  · rw [List.length_append, List.length_singleton] at hn
    exact Nat.le_of_lt hn

theorem LockEvent.completed_interrupt (e : Event) : (LockEvent.interrupt e).completed = [] := rfl

theorem LockEvent.completed_of_ne {pc : LockPc} (h : pc ≠ .release) :
    (LockEvent.stmt p pc).completed = [] := by
  cases pc <;> first | rfl | exact absurd rfl h

/-- A statement keeps the invariant. -/
theorem LockInv.stmt {a : App} (ha : a.printchar = printchar p) (h : LockInv s st log) (hp : p ≠ 0)
    (hstep : a.lockStep s (st p) = (.silent, s', st')) :
    LockInv s' (Function.update st p st')
      (log ++ (LockEvent.stmt p (st p).pc).completed.map printchar) := by
  by_cases hrel : (st p).pc = .release
  · unfold App.lockStep at hstep
    rw [hrel] at hstep ⊢
    cases hstep
    exact h.release hp hrel (by simp [LockState.Inside])
  rw [LockEvent.completed_of_ne hrel, List.map_nil, List.append_nil]
  unfold App.lockStep at hstep
  cases hpc : (st p).pc with
  | init | incr | loop =>
    rw [hpc] at hstep
    cases hstep
    refine h.outside ?_ ?_ Iff.rfl rfl rfl <;> simp [LockState.Inside, hpc]
  | test =>
    rw [hpc] at hstep
    cases hstep
    refine h.outside (by simp [LockState.Inside, hpc]) ?_ Iff.rfl rfl rfl
    by_cases hi : (st p).i < a.runcount <;> simp [LockState.Inside, hi]
  | swap =>
    rw [hpc] at hstep
    cases hstep
    have hold : ¬ (st p).Inside := by simp [LockState.Inside, hpc]
    by_cases hfree : s.cursorposLock = 0
    · exact h.acquire hp hold hfree (if_pos hfree)
    · refine h.outside hold ?_ (iff_of_false taken_ne_zero hfree) rfl rfl
      simp [LockState.Inside, hfree]
  | read =>
    rw [hpc] at hstep
    cases hstep
    refine h.inside hp (by simp [LockState.Inside, hpc]) (by simp [LockState.Inside]) rfl ?_
    intro hsec
    unfold LockState.Section at hsec
    rw [hpc] at hsec
    exact ⟨hsec.1, hsec.1, hsec.2⟩
  | write =>
    rw [hpc] at hstep
    cases hstep
    refine h.inside hp (by simp [LockState.Inside, hpc]) (by simp [LockState.Inside]) rfl ?_
    intro hsec
    unfold LockState.Section at hsec
    rw [hpc] at hsec
    obtain ⟨-, htemp, hcells⟩ := hsec
    refine ⟨?_, htemp, hcells⟩
    show (st p).temp + 2 = _
    rw [htemp, cell_succ]
  | store =>
    rw [hpc] at hstep
    cases hstep
    refine h.inside hp (by simp [LockState.Inside, hpc]) (by simp [LockState.Inside]) rfl ?_
    intro hsec
    unfold LockState.Section at hsec
    rw [hpc] at hsec
    obtain ⟨hcursor, htemp, hcells⟩ := hsec
    refine ⟨hcursor, fun hn => ?_⟩
    show Tape.Holds cell (Function.update s.cells (st p).temp a.printchar) _
    rw [htemp, ha]
    exact (hcells hn).append cell_inj_succ (Nat.lt_succ_of_le hn) _
  | release => exact absurd hpc hrel
  | yield | exit =>
    rw [hpc] at hstep
    cases hstep

end

/-! ## The loop of an application -/

/-- The number of sections that lead to a local state. -/
def LockState.sections (st : LockState) : Nat :=
  match st.pc with
  | .init => 0
  | .yield | .incr => st.i + 1
  | _ => st.i

/-- What holds of the counter of the loop. -/
def LockState.Valid (n : Nat) (st : LockState) : Prop :=
  match st.pc with
  | .init => True
  | .test => st.i ≤ n
  | .exit | .loop => st.i = n
  | _ => st.i < n

section
variable {a : App} {s s' : Kernel} {st st' : LockState} {act : AppAction}

theorem App.lockStep_valid (h : a.lockStep s st = (act, s', st')) (hv : st.Valid a.runcount) :
    st'.Valid a.runcount := by
  obtain ⟨pc, i, temp⟩ := st
  cases pc with
  | init =>
    cases h
    exact Nat.zero_le _
  | test =>
    cases h
    by_cases hi : i < a.runcount
    · simp [LockState.Valid, hi]
    · simpa [LockState.Valid, hi] using Nat.le_antisymm hv (Nat.le_of_not_lt hi)
  | swap =>
    cases h
    by_cases hl : s.cursorposLock = 0 <;> simpa [LockState.Valid, atomicSwap, hl] using hv
  | _ =>
    cases h
    exact hv

theorem App.lockStep_sections (h : a.lockStep s st = (act, s', st')) (p : Pid) :
    st'.sections = st.sections + (LockEvent.stmt p st.pc).completed.count p := by
  obtain ⟨pc, i, temp⟩ := st
  cases pc with
  | test =>
    cases h
    by_cases hi : i < a.runcount <;> simp [LockState.sections, LockEvent.completed, hi]
  | swap =>
    cases h
    by_cases hl : s.cursorposLock = 0 <;> simp [LockState.sections, LockEvent.completed, hl]
  | _ =>
    cases h
    simp [LockState.sections, LockEvent.completed]

/-- A statement changes the shared variables alone. -/
theorem App.lockStep_kernel (h : a.lockStep s st = (act, s', st')) : s'.procArray = s.procArray ∧
    s'.current = s.current ∧ s'.schedulingAlgorithm = s.schedulingAlgorithm := by
  obtain ⟨pc, i, temp⟩ := st
  cases pc <;> cases h <;> exact ⟨rfl, rfl, rfl⟩

/-- The system calls of an application, all of them outside its section. -/
theorem App.lockStep_call {e : Event} (h : a.lockStep s st = (act, s', st')) (hc : act.Causes e) :
    ¬ st.Inside ∧ ¬ st'.Inside ∧ (LockEvent.stmt 0 st.pc).completed = [] ∧ e.trap ≠ .sysPrint ∧
      (e.trap = .sysExit → st'.pc = .loop) := by
  obtain ⟨pc, i, temp⟩ := st
  cases pc with
  | yield =>
    cases h
    have ht : e.trap = .sysYield := hc
    rw [ht]
    exact ⟨by simp [LockState.Inside], by simp [LockState.Inside], rfl, nofun, nofun⟩
  | exit =>
    cases h
    rw [hc.1]
    exact ⟨by simp [LockState.Inside], by simp [LockState.Inside], rfl, nofun, fun _ => rfl⟩
  | _ =>
    cases h
    exact absurd hc id

end

/-! ## The system -/

section
variable {μ : Type} (view : Pid → Context → μ → LockState)

/-- The invariant of the system, `log` being who has completed a section. -/
structure LockSysInv (alg : Int) (runcount : Nat) (sys : LockSys μ) (log : List Pid) : Prop where
  machine : Inv alg sys.machine
  shared : LockInv sys.machine.kern (sys.app view) (log.map printchar)
  valid : ∀ p, p ≠ 0 → (sys.app view p).Valid runcount
  sections : ∀ p, p ≠ 0 → log.count p = (sys.app view p).sections
  zombie : ∀ p, p ≠ 0 → (sys.machine.kern.procArray p).pState = .zombie →
    (sys.app view p).pc = .loop

variable {view} {alg : Int} {runcount : Nat} {mem : Pid → μ}

/-- A statement of the process that has the CPU changes its local state alone. -/
theorem LockSys.app_stmt (view : Pid → Context → μ → LockState) {s s' : Kernel} (c c' : Context)
    (mem : Pid → μ) (own : μ) (hcur : s'.current = s.current) (hpa : s'.procArray = s.procArray) :
    (LockSys.mk (.user s' c') (Function.update mem s.current own)).app view =
      Function.update ((LockSys.mk (.user s c) mem).app view) s.current
        (view s.current c' own) := by
  funext q
  by_cases hq : q = s.current
  · simp [LockSys.app, contextOf_user, hcur, hq]
  · simp [LockSys.app, contextOf_user, hcur, hpa, hq, Ne.symm hq]

/-- A system call too. -/
theorem LockSys.app_call (view : Pid → Context → μ → LockState) {s : Kernel} {c : Context}
    {e : Event} {m : Machine} (hI : Inv alg (.user s c)) (h : Step (.user s c) e m)
    (mem : Pid → μ) (own : μ) :
    (LockSys.mk m (Function.update mem s.current own)).app view =
      Function.update ((LockSys.mk (.user s c) mem).app view) s.current
        (view s.current e.cpu own) := by
  funext q
  by_cases hq : q = s.current
  · simp [LockSys.app, h.contextOf hI, hq]
  · simp [LockSys.app, h.contextOf hI, hq, Ne.symm hq]

/-- The clock changes none. -/
theorem LockSys.app_clock (view : Pid → Context → μ → LockState) {s : Kernel} {e : Event}
    {m : Machine} (hI : Inv alg (.user s e.cpu)) (h : Step (.user s e.cpu) e m) (mem : Pid → μ) :
    (LockSys.mk m mem).app view = (LockSys.mk (.user s e.cpu) mem).app view := by
  funext q
  simp only [LockSys.app, h.contextOf hI q, contextOf_user, Machine.kern_user]
  split <;> rfl

theorem LockStart.inv {boot : Boot} {sys : LockSys μ} (h : LockStart view alg boot sys) :
    LockSysInv view alg runcount sys [] := by
  obtain ⟨hm, hinit⟩ := h
  have hpc : ∀ p, p ≠ 0 → (sys.app view p).pc = .init := by
    intro p hp
    unfold LockSys.app
    rw [hm, start_contextOf alg boot hp]
    exact hinit p hp
  have hout : ∀ p, p ≠ 0 → ¬ (sys.app view p).Inside := by
    intro p hp
    simp [LockState.Inside, hpc p hp]
  refine ⟨hm ▸ start_inv alg boot, ⟨?_, fun p hp _ => ?_⟩, fun p hp => ?_, fun p hp => ?_,
    fun p hp hz => ?_⟩
  · refine ⟨fun p _ hp => absurd hp.2 (hout p hp.1), ?_⟩
    rw [hm]
    exact iff_of_true rfl fun p hp => hout p hp.1 hp.2
  · rw [LockState.section_outside (hout p hp), hm]
    exact ⟨cell_zero.symm, fun _ => nofun⟩
  · unfold LockState.Valid
    rw [hpc p hp]
    trivial
  · unfold LockState.sections
    rw [hpc p hp]
    rfl
  · rw [hm, start_procArray alg boot hp] at hz
    cases hz

theorem LockEvent.count_completed_of_ne {p q : Pid} (h : q ≠ p) (pc : LockPc) :
    (LockEvent.stmt p pc).completed.count q = 0 := by
  by_cases hpc : pc = .release
  · rw [hpc]
    exact List.count_eq_zero.2 fun hq => h (List.mem_singleton.1 hq)
  · rw [LockEvent.completed_of_ne hpc, List.count_nil]

section
variable {log : List Pid} {s : Kernel} {c : Context} {e : Event} {m : Machine}

theorem LockSysInv.stmt {s' : Kernel} {c' : Context} {own : μ}
    (hI : LockSysInv view alg runcount ⟨.user s c, mem⟩ log)
    (hstep : (SchedOS.app runcount s.current).lockStep s (view s.current c (mem s.current)) =
      (.silent, s', view s.current c' own)) :
    LockSysInv view alg runcount ⟨.user s' c', Function.update mem s.current own⟩
      (log ++ (LockEvent.stmt s.current (view s.current c (mem s.current)).pc).completed) := by
  obtain ⟨hpa, hcur, halg⟩ := App.lockStep_kernel hstep
  have hp : s.current ≠ 0 := hI.machine.current
  have hrun : Runnable s.procArray s.current := hI.machine.running _ rfl
  have happ : (LockSys.mk (.user s c) mem).app view s.current =
      view s.current c (mem s.current) := by simp [LockSys.app, contextOf_user]
  have happ' := LockSys.app_stmt view c c' mem own hcur hpa
  rw [← happ] at hstep ⊢
  refine ⟨⟨⟨?_, ?_, ?_⟩, fun q hq => ?_⟩, ?_, fun q hq => ?_, fun q hq => ?_, fun q hq hz => ?_⟩
  · rw [Machine.kern_user, hpa]
    exact hI.machine.table
  · rwa [Machine.kern_user, hcur]
  · rw [Machine.kern_user, halg]
    exact hI.machine.algorithm
  · cases hq
    rwa [Machine.kern_user, hpa, hcur]
  · rw [happ', List.map_append]
    exact hI.shared.stmt rfl hp hstep
  · rw [happ']
    by_cases hqp : q = s.current
    · rw [hqp, Function.update_self]
      exact App.lockStep_valid hstep (hI.valid _ hp)
    · rw [Function.update_of_ne hqp]
      exact hI.valid q hq
  · rw [happ', List.count_append, hI.sections q hq]
    by_cases hqp : q = s.current
    · rw [hqp, Function.update_self]
      exact (App.lockStep_sections hstep _).symm
    · rw [Function.update_of_ne hqp, LockEvent.count_completed_of_ne hqp, Nat.add_zero]
  · rw [Machine.kern_user, hpa] at hz
    rw [happ', Function.update_of_ne]
    · exact hI.zombie q hq hz
    · rintro rfl
      exact not_runnable_of_zombie hz hrun

theorem LockSysInv.clock {e : Event} (hI : LockSysInv view alg runcount ⟨.user s e.cpu, mem⟩ log)
    (ht : e.trap = .clock) (h : Step (.user s e.cpu) e m) :
    LockSysInv view alg runcount ⟨m, mem⟩ log := by
  have happ := LockSys.app_clock view hI.machine h mem
  refine ⟨h.keeps_inv hI.machine, ?_, fun q hq => ?_, fun q hq => ?_, fun q hq hz => ?_⟩
  · rw [happ]
    exact hI.shared.same (h.sameShared (by rw [ht]; decide))
  · rw [happ]
    exact hI.valid q hq
  · rw [happ]
    exact hI.sections q hq
  · rw [happ]
    refine hI.zombie q hq ((h.zombie hI.machine hz).resolve_left ?_)
    rw [ht]
    exact fun h => nomatch h.2

theorem LockSysInv.call {own : μ} {act : AppAction}
    (hI : LockSysInv view alg runcount ⟨.user s c, mem⟩ log)
    (hstep : (SchedOS.app runcount s.current).lockStep s (view s.current c (mem s.current)) =
      (act, s, view s.current e.cpu own)) (hc : act.Causes e) (h : Step (.user s c) e m) :
    LockSysInv view alg runcount ⟨m, Function.update mem s.current own⟩ log := by
  have hp : s.current ≠ 0 := hI.machine.current
  have hrun : Runnable s.procArray s.current := hI.machine.running _ rfl
  have happ : (LockSys.mk (.user s c) mem).app view s.current =
      view s.current c (mem s.current) := by simp [LockSys.app, contextOf_user]
  have happ' := LockSys.app_call view hI.machine h mem own
  rw [← happ] at hstep
  obtain ⟨hold, hnew, hnone, ht, hexit⟩ := App.lockStep_call hstep hc
  refine ⟨h.keeps_inv hI.machine, ?_, fun q hq => ?_, fun q hq => ?_, fun q hq hz => ?_⟩
  · have hs := h.sameShared ht
    rw [happ']
    exact hI.shared.outside hold hnew (by rw [hs.lock, Machine.kern_user]) hs.cursor hs.cells
  · rw [happ']
    by_cases hqp : q = s.current
    · rw [hqp, Function.update_self]
      exact App.lockStep_valid hstep (hI.valid _ hp)
    · rw [Function.update_of_ne hqp]
      exact hI.valid q hq
  · rw [happ', hI.sections q hq]
    by_cases hqp : q = s.current
    · rw [hqp, Function.update_self, App.lockStep_sections hstep 0, hnone, List.count_nil,
        Nat.add_zero]
    · rw [Function.update_of_ne hqp]
  · rw [happ']
    rcases h.zombie hI.machine hz with ⟨hqp, he⟩ | hz'
    · rw [hqp, Machine.kern_user, Function.update_self]
      exact hexit he
    · rw [Function.update_of_ne]
      · exact hI.zombie q hq hz'
      · rintro rfl
        exact not_runnable_of_zombie hz' hrun

end

/-- One event keeps the invariant. -/
theorem LockStep.keeps_inv {sys sys' : LockSys μ} {ev : LockEvent} {log : List Pid}
    (hI : LockSysInv view alg runcount sys log) (h : LockStep view runcount sys ev sys') :
    LockSysInv view alg runcount sys' (log ++ ev.completed) := by
  cases h with
  | stmt hstep => exact hI.stmt hstep
  | clock ht hc h =>
    subst hc
    rw [LockEvent.completed_interrupt, List.append_nil]
    exact hI.clock ht h
  | call hstep hc h =>
    rw [LockEvent.completed_interrupt, List.append_nil]
    exact hI.call hstep hc h

theorem LockRun.inv {boot : Boot} (r : LockRun view alg boot runcount) {i : Nat} (hi : i ≤ r.len) :
    LockSysInv view alg runcount (r.state i) (r.completed i) := by
  induction i with
  | zero => exact r.start.inv
  | succ i ih => exact (r.steps i hi).keeps_inv (ih (Nat.le_of_lt hi))

end

/-- **Printing under the lock**: whatever the algorithm and whenever the clock strikes, at most one
process is in its critical section, the lock is free exactly when none is, and as long as the
completed sections are no more than the cells, these hold their characters in the order of the
sections, those of a process that has exited being `RUNCOUNT`. -/
theorem lock_print_safe {μ : Type} {view : Pid → Context → μ → LockState} {alg : Int} {boot : Boot}
    {n : Nat} (r : LockRun view alg boot n) :
    ∀ i, i ≤ r.len →
      (∀ p q, p ≠ 0 → q ≠ 0 → (r.app i p).Inside → (r.app i q).Inside → p = q) ∧
      ((r.kern i).cursorposLock = 0 ↔ ∀ p, p ≠ 0 → ¬ (r.app i p).Inside) ∧
      ((r.completed i).length ≤ CONSOLE_CELLS → ∀ j p, (r.completed i)[j]? = some p →
        (r.kern i).cells (cell j) = printchar p) ∧
      ∀ p, p ≠ 0 → ((r.kern i).procArray p).pState = .zombie → (r.completed i).count p = n := by
  intro i hi
  have hI := r.inv hi
  refine ⟨fun p q hp hq hpin hqin => ?_, ?_, fun hn j p hj => ?_, fun p hp hz => ?_⟩
  · exact hI.shared.exclusive.unique p q ⟨hp, hpin⟩ ⟨hq, hqin⟩
  · refine hI.shared.exclusive.free_iff.trans (forall_congr' fun p => ?_)
    exact not_and
  · refine hI.shared.holds (by rwa [List.length_map]) j _ ?_
    rw [List.getElem?_map, hj]
    rfl
  · have hv := hI.valid p hp
    rw [hI.sections p hp]
    unfold LockState.Valid at hv
    unfold LockState.sections
    rw [hI.zombie p hp hz] at hv ⊢
    exact hv

/-! ## One section -/

/-- An application with its local state in its memory. -/
def inLockMemory (_ : Pid) (_ : Context) (st : LockState) : LockState := st

/-- The next statement of the process that has the CPU. -/
def nextStmt (runcount : Nat) (sys : LockSys LockState) (_ : LockEvent) : LockSys LockState :=
  match sys.machine with
  | .user s c =>
    let r := (app runcount s.current).lockStep s (sys.mem s.current)
    ⟨.user r.2.1 c, Function.update sys.mem s.current r.2.2⟩
  | .stuck _ => sys

theorem LockStep.nextStmt {n : Nat} {s : Kernel} {c : Context} {mem : Pid → LockState}
    (h : ((app n s.current).lockStep s (mem s.current)).1 = .silent) (ev : LockEvent) :
    LockStep inLockMemory n ⟨.user s c, mem⟩ (.stmt s.current (mem s.current).pc)
      (SchedOS.nextStmt n ⟨.user s c, mem⟩ ev) := by
  apply LockStep.stmt
  rw [← h]
  rfl

/-- Process 1 goes through its first section. -/
def oneSection : LockRun inLockMemory 0 .zero 1 :=
  .ofNext (nextStmt 1)
    (fun i => .stmt 1 ([LockPc.init, .test, .swap, .read, .write, .store, .release].getD i .yield))
    ⟨start 0 .zero, fun _ => ⟨.init, 0, 0⟩⟩ 7 ⟨rfl, fun _ _ => rfl⟩ fun i hi =>
      match i with
      | 0 => LockStep.nextStmt rfl _
      | 1 => LockStep.nextStmt rfl _
      | 2 => LockStep.nextStmt rfl _
      | 3 => LockStep.nextStmt rfl _
      | 4 => LockStep.nextStmt rfl _
      | 5 => LockStep.nextStmt rfl _
      | 6 => LockStep.nextStmt rfl _
      | i + 7 => absurd hi (by omega)

theorem oneSection_prints : (oneSection.kern 7).cells (cell 0) = printchar 1 :=
  (lock_print_safe oneSection 7 (Nat.le_refl 7)).2.2.1 (by decide) 0 1 rfl

end SchedOS
