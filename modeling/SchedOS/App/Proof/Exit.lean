import SchedOS.App.Proof.Output
import SchedOS.Kern.Proof.Gates
import SchedOS.Kern.Proof.Share

/-!
# The applications come to their end

A local state tells how many system calls the application still makes (`AppState.left`), and every
statement that is not one leaves that number alone (`App.step_left`). A process whose application
makes no more has exited (`Run.zombie_of_loop`), and as long as one is runnable the kernel goes on
(`Run.Apps.exists_dispatched`), so a run of the applications can be continued until all four have
exited (`Run.Apps.exists_exit`, `apps_exit`).
-/

namespace SchedOS

/-! ## One application -/

/-- The number of system calls from a local state to the end. -/
def AppState.left (n : Nat) (st : AppState) : Nat :=
  match st.pc with
  | .init => 2 * n + 1
  | .test | .print => 2 * (n - st.i) + 1
  | .yield => 2 * (n - (st.i + 1)) + 2
  | .incr => 2 * (n - (st.i + 1)) + 1
  | .exit => 1
  | .loop => 0

/-- The number of system calls of an action. -/
def AppAction.calls (x : AppAction) : Nat := if x = .silent then 0 else 1

theorem App.step_left {a : App} {st : AppState} (h : st.Valid a.runcount) :
    st.left a.runcount = (a.step st).2.left a.runcount + (a.step st).1.calls := by
  obtain ⟨pc, i⟩ := st
  cases pc with
  | test =>
    unfold App.step
    dsimp only
    split
    · rfl
    · rename_i hi
      show 2 * (a.runcount - i) + 1 = 1 + 0
      omega
  | print =>
    have hi : i < a.runcount := h
    show 2 * (a.runcount - i) + 1 = 2 * (a.runcount - (i + 1)) + 2 + 1
    omega
  | _ => rfl

theorem App.Locals.left {a : App} {st st' : AppState} (h : a.Locals st st')
    (hv : st.Valid a.runcount) : st.left a.runcount = st'.left a.runcount := by
  induction h with
  | refl => rfl
  | step hsilent _ ih =>
    rw [App.step_left hv, hsilent, ih (App.step_valid hv)]
    rfl

theorem App.exists_call_test (a : App) (i : Nat) :
    ∃ st, a.Locals ⟨.test, i⟩ st ∧ (a.step st).1 ≠ .silent := by
  by_cases hi : i < a.runcount
  · refine ⟨⟨.print, i⟩, .step ?_ ?_, nofun⟩
    · exact congrArg Prod.fst (if_pos hi)
    · rw [show a.step ⟨.test, i⟩ = (.silent, ⟨.print, i⟩) from if_pos hi]
      exact .refl _
  · refine ⟨⟨.exit, i⟩, .step ?_ ?_, nofun⟩
    · exact congrArg Prod.fst (if_neg hi)
    · rw [show a.step ⟨.test, i⟩ = (.silent, ⟨.exit, i⟩) from if_neg hi]
      exact .refl _

/-- An application that has not exited comes to a system call. -/
theorem App.exists_call (a : App) {st : AppState} (h : st.pc ≠ .loop) :
    ∃ st', a.Locals st st' ∧ (a.step st').1 ≠ .silent := by
  obtain ⟨pc, i⟩ := st
  cases pc with
  | init =>
    obtain ⟨st, hl, hs⟩ := a.exists_call_test 0
    exact ⟨st, .step rfl hl, hs⟩
  | test => exact a.exists_call_test i
  | incr =>
    obtain ⟨st, hl, hs⟩ := a.exists_call_test (i + 1)
    exact ⟨st, .step rfl hl, hs⟩
  | loop => exact absurd rfl h
  | _ => exact ⟨_, .refl _, nofun⟩

/-- An interrupt by which an action is done. -/
theorem AppAction.exists_causes {x : AppAction} (h : x ≠ .silent) :
    ∃ e, x.Causes e ∧ e.trap ≠ .clock := by
  cases x with
  | silent => exact absurd rfl h
  | sysPrint c => exact ⟨.ofCall .sysPrint c.toUInt32, ⟨rfl, UInt16.toUInt16_toUInt32 c⟩, nofun⟩
  | sysYield => exact ⟨.ofCall .sysYield 0, rfl, nofun⟩
  | sysExit status => exact ⟨.ofCall .sysExit status, ⟨rfl, rfl⟩, nofun⟩

/-- An application that has not exited can come to a system call, which leaves it less to do. -/
theorem App.exists_interrupted (a : App) {st : AppState} (h : st.pc ≠ .loop)
    (hv : st.Valid a.runcount) : ∃ e st', a.Interrupted st e st' ∧ e.trap ≠ .clock ∧
      st'.left a.runcount < st.left a.runcount := by
  obtain ⟨st1, hl, hs⟩ := a.exists_call h
  obtain ⟨e, he, ht⟩ := AppAction.exists_causes hs
  refine ⟨e, _, .call hl he, ht, ?_⟩
  rw [hl.left hv, App.step_left (hl.keeps hv).1, AppAction.calls, if_neg hs]
  exact Nat.lt_succ_self _

theorem App.step_pc_loop {a : App} {st : AppState} (h : (a.step st).2.pc = .loop) :
    st.pc = .loop ∨ ∃ status, (a.step st).1 = .sysExit status := by
  obtain ⟨pc, i⟩ := st
  cases pc with
  | loop => exact .inl rfl
  | exit => exact .inr ⟨0, rfl⟩
  | test =>
    unfold App.step at h
    dsimp only at h
    split at h <;> cases h
  | _ => cases h

theorem App.Locals.loop {a : App} {st st' : AppState} (h : a.Locals st st')
    (hl : st'.pc = .loop) : st.pc = .loop := by
  induction h with
  | refl => exact hl
  | step hsilent _ ih =>
    refine (App.step_pc_loop (ih hl)).resolve_right ?_
    rintro ⟨status, hexit⟩
    rw [hsilent] at hexit
    cases hexit

/-- An application comes to its end by `sys_exit` alone. -/
theorem App.Interrupted.loop {a : App} {st st' : AppState} {e : Event}
    (h : a.Interrupted st e st') (hl : st'.pc = .loop) : st.pc = .loop ∨ e.trap = .sysExit := by
  cases h with
  | clock h ht => exact .inl (h.loop hl)
  | call h hc =>
    rcases App.step_pc_loop hl with hpc | ⟨status, hexit⟩
    · exact .inl (h.loop hpc)
    · rw [hexit] at hc
      exact .inr hc.1

/-- The applications do not change their shares. -/
theorem App.Interrupted.trap_ne_sysShare {a : App} {st st' : AppState} {e : Event}
    (h : a.Interrupted st e st') : e.trap ≠ .sysShare := by
  intro he
  cases h with
  | clock _ ht => exact nomatch ht.symm.trans he
  | @call st1 _ hc =>
    cases hx : (a.step st1).1 with
    | silent =>
      rw [hx] at hc
      exact hc
    | sysYield =>
      rw [hx] at hc
      exact nomatch he.symm.trans hc
    | _ =>
      rw [hx] at hc
      exact nomatch he.symm.trans hc.1

/-! ## All of them -/

section
variable {alg : Int} {boot : Boot} {r : Run alg boot} {n : Nat} {μ : Type}
  {view : Pid → Context → μ → AppState} {mem : Nat → Pid → μ}

/-- A process whose application has come to its end is a zombie. -/
theorem Run.zombie_of_loop (h : r.Apps n view mem) {i : Nat} (hi : i ≤ r.len) {p : Pid} (hp : p ≠ 0)
    (hl : (r.appState view mem p i).pc = .loop) : ((r.kern i).procArray p).pState = .zombie := by
  induction i with
  | zero =>
    have hpc : (r.appState view mem p 0).pc = .init := h.start p hp
    rw [hpc] at hl
    cases hl
  | succ i ih =>
    have hf := ((r.steps i hi).frame (r.inv (Nat.le_of_lt hi))).1.pState p
    show ((r.state (i + 1)).kern.procArray p).pState = .zombie
    rw [hf]
    show ((r.call i).procArray p).pState = .zombie
    by_cases hc : (r.kern i).current = p
    · rcases (r.appState_current h hi hc).loop hl with hl' | he
      · have hrun := (r.inv (Nat.le_of_lt hi)).running _ (r.steps i hi).running_current
        subst hc
        exact absurd hrun (not_runnable_of_zombie (ih (Nat.le_of_lt hi) hl'))
      · rw [← hc]
        exact (call_exited he (r.kern i)).1
    · rw [r.appState_other h hi hc] at hl
      rw [Run.call, call_of_ne _ _ (Ne.symm hc)]
      exact ih (Nat.le_of_lt hi) hl

theorem Run.Apps.trap_ne_sysShare (h : r.Apps n view mem) {i : Nat} (hi : i < r.len) :
    (r.event i).trap ≠ .sysShare := by
  obtain ⟨s, c, hs, -⟩ := (r.steps i hi).inv
  exact (h.event i hi s c hs).trap_ne_sysShare

/-- In a run of the applications the kernel goes on as long as one of them is runnable. -/
theorem Run.Apps.exists_dispatched (h : r.Apps n view mem)
    (halg : alg = 0 ∨ alg = 2 ∨ alg = 41 ∨ alg = 42) {i : Nat} (hi : i < r.len) {p : Pid}
    (hp : Runnable (r.call i).procArray p) : ∃ k, r.dispatched i = some k := by
  have hc := r.call_inv (Nat.le_of_lt hi)
  by_cases h42 : alg = 42
  · subst h42
    have hshares : r.SharesWithin 1 := fun j hj he => absurd he (h.trap_ne_sysShare hj)
    refine r.share_dispatched hi hp (UInt32.lt_iff_toNat_lt.2 ?_)
    exact (r.shareInv (Nat.le_refl 1) hshares hi).amt_pos p (hc.table.ne_zero hp)
  · obtain ⟨k, hs⟩ := exists_schedules (by omega) hc ⟨p, hp⟩ (r.event i).tsc
    refine ⟨k, ?_⟩
    rw [Run.dispatched, r.state_of_schedules hi hs]
    rfl

/-- The machine stops only when all four have exited. -/
theorem Run.Apps.zombie_of_stuck (h : r.Apps n view mem)
    (halg : alg = 0 ∨ alg = 2 ∨ alg = 41 ∨ alg = 42) {i : Nat} (hi : i ≤ r.len) {s : Kernel}
    (hs : r.state i = .stuck s) {p : Pid} (hp : p ≠ 0) :
    ((r.kern i).procArray p).pState = .zombie := by
  cases i with
  | zero =>
    rw [r.start] at hs
    cases hs
  | succ i =>
    refine ((r.inv hi).table.state p hp).resolve_left fun hr => ?_
    have hf := ((r.steps i hi).frame (r.inv (Nat.le_of_lt hi))).1
    obtain ⟨k, hd⟩ := h.exists_dispatched halg hi ((hf.runnable p).1 hr)
    rw [Run.dispatched, hs] at hd
    cases hd

end

/-! ## To the end -/

/-- An application with its local state in its memory. -/
def inMemory (_ : Pid) (_ : Context) (st : AppState) : AppState := st

section
variable {alg : Int} {boot : Boot} {r : Run alg boot} {n : Nat} {mem : Nat → Pid → AppState}

/-- One more interrupt of the application that has the CPU. -/
theorem Run.Apps.snoc (h : r.Apps n inMemory mem) {s : Kernel} {c : Context}
    (hs : r.state r.len = .user s c) {e : Event} {m : Machine} (hstep : Step (r.state r.len) e m)
    {st : AppState} (hint : (app n s.current).Interrupted (mem r.len s.current) e st) :
    Run.Apps (Exec.snoc r hstep) n inMemory
      (fun i => if i ≤ r.len then mem i else Function.update (mem r.len) s.current st) := by
  have hstate : ∀ i, i ≤ r.len → (Exec.snoc r hstep).state i = r.state i :=
    (r.snoc_extends hstep).state
  refine ⟨fun p hp => ?_, fun i hi p hp => ?_, fun i hi s' c' hs' => ?_⟩
  · rw [if_pos (Nat.zero_le _)]
    exact h.start p hp
  · have hi' : i ≤ r.len := Nat.le_of_lt_succ hi
    have hp' : p ≠ (r.kern i).current := by
      unfold Run.kern at hp ⊢
      rwa [hstate i hi'] at hp
    rw [if_pos hi']
    rcases Nat.eq_or_lt_of_le hi' with rfl | hlt
    · rw [if_neg (Nat.not_succ_le_self _), Function.update_of_ne]
      rwa [Run.kern, hs] at hp'
    · rw [if_pos (Nat.succ_le_of_lt hlt)]
      exact h.own i hlt p hp'
  · have hi' : i ≤ r.len := Nat.le_of_lt_succ hi
    rw [hstate i hi'] at hs'
    rw [if_pos hi']
    rcases Nat.eq_or_lt_of_le hi' with rfl | hlt
    · rw [hs] at hs'
      cases hs'
      rw [if_neg (Nat.not_succ_le_self _), Function.update_self, r.snoc_event_last]
      exact hint
    · rw [if_pos (Nat.succ_le_of_lt hlt), (r.snoc_extends hstep).event i hlt]
      exact h.event i hlt s' c' hs'

/-- The number of system calls that the four applications still make. -/
def leftInAll (n : Nat) (mem : Pid → AppState) : Nat := ∑ p ∈ livePids, (mem p).left n

theorem leftInAll_update {mem : Pid → AppState} {p : Pid} (hp : p ≠ 0) {st : AppState}
    (h : st.left n < (mem p).left n) : leftInAll n (Function.update mem p st) < leftInAll n mem := by
  refine Finset.sum_lt_sum (fun q _ => ?_) ⟨p, (mem_livePids p).2 hp, ?_⟩
  · by_cases hq : q = p
    · rw [hq, Function.update_self]
      exact Nat.le_of_lt h
    · rw [Function.update_of_ne hq]
  · rwa [Function.update_self]

end

theorem noInterrupt_apps (alg : Int) (boot : Boot) (n : Nat) :
    (noInterrupt alg boot).Apps n inMemory fun _ _ => ⟨.init, 0⟩ :=
  ⟨fun _ _ => rfl, fun _ _ _ _ => rfl, fun i hi => absurd hi (Nat.not_lt_zero i)⟩

section
variable {alg : Int} {boot : Boot} (halg : alg = 0 ∨ alg = 2 ∨ alg = 41 ∨ alg = 42) {n : Nat}
include halg

/-- A run of the applications can be continued, without the clock, until all four have exited. -/
theorem Run.Apps.exists_exit {r : Run alg boot} {mem : Nat → Pid → AppState}
    (h : r.Apps n inMemory mem) :
    ∃ (r' : Run alg boot) (mem' : Nat → Pid → AppState), r'.Apps n inMemory mem' ∧
      r'.Extends r ∧ (∀ p, p ≠ 0 → ((r'.kern r'.len).procArray p).pState = .zombie) ∧
      ∀ i, r.len ≤ i → i < r'.len → (r'.event i).trap ≠ .clock := by
  induction hk : leftInAll n (mem r.len) using Nat.strong_induction_on generalizing r mem with
  | _ k ih =>
    cases hs : r.state r.len with
    | stuck s =>
      exact ⟨r, mem, h, .refl r, fun p => h.zombie_of_stuck halg (Nat.le_refl _) hs,
        fun i h1 h2 => absurd h1 (Nat.not_le.2 h2)⟩
    | user s c =>
      have hI := r.inv (Nat.le_refl r.len)
      have hrun := hI.running s.current (by rw [hs]; rfl)
      have hp : s.current ≠ 0 := hI.table.ne_zero hrun
      have hpc : (mem r.len s.current).pc ≠ .loop := fun hl =>
        not_runnable_of_zombie (Run.zombie_of_loop h (Nat.le_refl _) hp hl) hrun
      obtain ⟨e, st, hint, ht, hlt⟩ := (app n s.current).exists_interrupted hpc
        (r.apps_inv h (Nat.le_refl _) hp).1
      obtain ⟨m, hstep⟩ := Step.exists_step s c e
      rw [← hs] at hstep
      have hless : leftInAll n (Function.update (mem r.len) s.current st) < k :=
        hk ▸ leftInAll_update hp hlt
      obtain ⟨r', mem', h', hext, hz, hclock⟩ := ih _ hless (h.snoc hs hstep hint)
        (by rw [Exec.snoc_len, if_neg (Nat.not_succ_le_self _)])
      refine ⟨r', mem', h', hext.trans (r.snoc_extends hstep), hz, fun i h1 h2 => ?_⟩
      rcases Nat.eq_or_lt_of_le h1 with rfl | hlt'
      · rw [hext.event _ (Nat.lt_succ_self _), r.snoc_event_last]
        exact ht
      · exact hclock i hlt' h2

/-- **The applications come to their end**: under algorithms 0, 2, 41 and 42 the four applications
have a run after which all of them have exited. -/
theorem apps_exit (n : Nat) : ∃ (r : Run alg boot) (mem : Nat → Pid → AppState),
    r.Apps n inMemory mem ∧ ∀ p, p ≠ 0 → ((r.kern r.len).procArray p).pState = .zombie := by
  obtain ⟨r, mem, hr, -, hz, -⟩ := (noInterrupt_apps alg boot n).exists_exit halg
  exact ⟨r, mem, hr, hz⟩

end

/-- The screen of such a run. -/
theorem three_prints_screen : ∃ r : Run 0 .zero,
    (∀ p, p ≠ 0 → ((r.kern r.len).procArray p).pState = .zombie) ∧
    (r.kern r.len).cursorpos = cell 12 ∧
    ∀ p, p ≠ 0 →
      Window.count (fun j => (r.kern r.len).cells (cell j) = printchar p) 0 CONSOLE_CELLS = 3 := by
  obtain ⟨r, mem, h, hz⟩ : ∃ (r : Run 0 .zero) (mem : Nat → Pid → AppState),
      r.Apps 3 inMemory mem ∧ ∀ p, p ≠ 0 → ((r.kern r.len).procArray p).pState = .zombie :=
    apps_exit (.inl rfl) 3
  have hlen : (r.prints r.len).length = 12 := r.length_prints_of_zombies h (Nat.le_refl _) hz
  obtain ⟨hscreen, -, hcount⟩ := screen_holds_prints r
  have hcursor := (hscreen r.len (Nat.le_refl _) (by rw [hlen]; decide)).1
  rw [hlen] at hcursor
  exact ⟨r, hz, hcursor, hcount 3 AppState inMemory mem (by decide) h r.len (Nat.le_refl _) hz⟩

end SchedOS
