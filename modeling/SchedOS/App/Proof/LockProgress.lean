import SchedOS.App.Proof.LockPrint
import SchedOS.App.Proof.Exit
import Mathlib.Algebra.Order.BigOperators.Group.Finset

/-!
# The applications with the lock come to their end

A process that waits for the lock spins until the clock strikes, so its turns are lost, and only
the turns bring the holder nearer. Under algorithm 0 every event takes from the statements that are
left (`LockState.remaining`) or, if it is a failed swap or the clock, from a slack: the turns up to
the holder's (`away`) and the statements up to the next interrupt (`LockStep.progress`). The clock
is assumed to strike after `Q` statements at most and never right after another interrupt
(`LockRun.Timed`).
-/

namespace SchedOS

/-! ## One application -/

/-- The number of statements from a local state to the end, if every swap finds the lock free. -/
def LockState.remaining (n : Nat) (st : LockState) : Nat :=
  match st.pc with
  | .init => 8 * n + 3
  | .test => 8 * (n - st.i) + 2
  | .swap => 8 * (n - (st.i + 1)) + 9
  | .read => 8 * (n - (st.i + 1)) + 8
  | .write => 8 * (n - (st.i + 1)) + 7
  | .store => 8 * (n - (st.i + 1)) + 6
  | .release => 8 * (n - (st.i + 1)) + 5
  | .yield => 8 * (n - (st.i + 1)) + 4
  | .incr => 8 * (n - (st.i + 1)) + 3
  | .exit => 1
  | .loop => 0

section
variable {a : App} {s s' : Kernel} {st st' : LockState} {act : AppAction}

/-- A statement that is not a failed swap. -/
theorem App.lockStep_remaining (h : a.lockStep s st = (act, s', st')) (hv : st.Valid a.runcount)
    (hloop : st.pc ≠ .loop) (hswap : st.pc = .swap → s.cursorposLock = 0) :
    st'.remaining a.runcount + 1 = st.remaining a.runcount := by
  obtain ⟨pc, i, temp⟩ := st
  cases pc with
  | test =>
    cases h
    by_cases hi : i < a.runcount
    · simp only [LockState.remaining, hi, if_true]
      omega
    · have hin : i = a.runcount := Nat.le_antisymm hv (Nat.le_of_not_lt hi)
      simp [LockState.remaining, hin]
  | swap =>
    cases h
    simp [LockState.remaining, hswap rfl]
  | loop => exact absurd rfl hloop
  | _ =>
    cases h
    simp [LockState.remaining]

/-- A failed swap. -/
theorem App.lockStep_spin (h : a.lockStep s st = (act, s', st')) (hpc : st.pc = .swap)
    (hl : s.cursorposLock ≠ 0) : st' = st := by
  obtain ⟨pc, i, temp⟩ := st
  cases hpc
  cases h
  simp [hl]

/-- An application comes to its end by `sys_exit` alone. -/
theorem App.lockStep_loop (h : a.lockStep s st = (act, s', st')) (hl : st'.pc = .loop) :
    st.pc = .loop ∨ act = .sysExit 0 := by
  obtain ⟨pc, i, temp⟩ := st
  cases pc with
  | test =>
    cases h
    by_cases hi : i < a.runcount <;> simp [hi] at hl
  | swap =>
    cases h
    by_cases hs : s.cursorposLock = 0 <;> simp [hs] at hl
  | exit =>
    cases h
    exact .inr rfl
  | loop => exact .inl rfl
  | _ =>
    cases h
    cases hl

end

/-! ## The holder -/

instance (st : LockState) : Decidable st.Inside := inferInstanceAs (Decidable (_ ∈ _))

/-- The process in its critical section. -/
def holder (st : Pid → LockState) : Option Pid := turns.find? fun p => (st p).Inside

section
variable {free : Prop} {st : Pid → LockState}

theorem holder_inside {q : Pid} (h : holder st = some q) : q ≠ 0 ∧ (st q).Inside := by
  refine ⟨(mem_turns q).1 (List.mem_of_find?_eq_some h), ?_⟩
  simpa using List.find?_some h

theorem holder_none (h : holder st = none) {q : Pid} (hq : q ≠ 0) : ¬ (st q).Inside := by
  simpa using List.find?_eq_none.1 h q ((mem_turns q).2 hq)

theorem holder_eq_none (h : SpinLock.Exclusive free fun p => p ≠ 0 ∧ (st p).Inside) :
    holder st = none ↔ free := by
  rw [h.free_iff]
  constructor
  · exact fun hn p hp => holder_none hn hp.1 hp.2
  · intro hno
    cases hh : holder st with
    | none => rfl
    | some q => exact absurd (holder_inside hh) (hno q)

end

/-- The number of turns up to one that takes from the statements left, `holder` being in its
section and `since` the statements since the last interrupt: the turn that has just begun is one if
the lock is free or it is the holder's. -/
def away (current : Pid) (since : Nat) : Option Pid → Nat
  | none => if since = 0 then 0 else 1
  | some q => if since = 0 ∧ current = q then 0 else upward.dist current q

theorem away_le (current : Pid) (since : Nat) (h : Option Pid) : away current since h ≤ 5 := by
  cases h with
  | none =>
    simp only [away]
    split <;> omega
  | some q =>
    simp only [away]
    split
    · omega
    · exact upward.dist_le current q

/-- A clock interrupt brings the holder's turn nearer. -/
theorem away_clock {R : Pid → Prop} {current k : Pid} {since : Nat} {h : Option Pid}
    (hf : upward.First R current k) (hsince : 0 < since) (hR : ∀ q, h = some q → R q) :
    away k 0 h < away current since h := by
  have hne : ¬ since = 0 := Nat.pos_iff_ne_zero.1 hsince
  cases h with
  | none => simp [away, hne]
  | some q =>
    by_cases hk : k = q
    · simpa [away, hne, hk] using upward.dist_pos current q
    · simpa [away, hne, hk] using hf.dist_lt (hR q rfl) hk

/-! ## The system -/

/-- The number of statements since the last interrupt, after one more event. -/
def LockEvent.since : LockEvent → Nat → Nat
  | .stmt _ _, since => since + 1
  | .interrupt _, _ => 0

section
variable {μ : Type} (view : Pid → Context → μ → LockState)

/-- The number of statements that the four applications still make. -/
def LockSys.work (n : Nat) (sys : LockSys μ) : Nat :=
  ∑ p ∈ livePids, (sys.app view p).remaining n

/-- How long the number of statements left can stay as it is. -/
def LockSys.slack (Q since : Nat) (sys : LockSys μ) : Nat :=
  away sys.machine.kern.current since (holder (sys.app view)) * (Q + 1) + (Q - since)

variable {view} {alg : Int} {runcount Q since : Nat} {sys sys' : LockSys μ} {ev : LockEvent}
  {log : List Pid}

theorem LockSys.slack_lt : sys.slack view Q since < 6 * (Q + 1) := by
  have h := Nat.mul_le_mul_right (Q + 1)
    (away_le sys.machine.kern.current since (holder (sys.app view)))
  unfold LockSys.slack
  omega

/-- A statement that is one of those left. -/
theorem LockSys.work_succ {p : Pid} (hp : p ≠ 0) {st : LockState}
    (happ : sys'.app view = Function.update (sys.app view) p st)
    (h : st.remaining runcount + 1 = (sys.app view p).remaining runcount) :
    sys'.work view runcount + 1 = sys.work view runcount := by
  have hmem := (mem_livePids p).2 hp
  have hother : ∑ q ∈ livePids.erase p, (Function.update (sys.app view) p st q).remaining runcount =
      ∑ q ∈ livePids.erase p, (sys.app view q).remaining runcount := by
    refine Finset.sum_congr rfl fun q hq => ?_
    rw [Function.update_of_ne (Finset.ne_of_mem_erase hq)]
  unfold LockSys.work
  rw [happ, ← Finset.add_sum_erase _ _ hmem, ← Finset.add_sum_erase livePids _ hmem, hother,
    Function.update_self, ← h]
  omega

theorem LockSys.app_current (view : Pid → Context → μ → LockState) (s : Kernel) (c : Context)
    (mem : Pid → μ) :
    (LockSys.mk (.user s c) mem).app view s.current = view s.current c (mem s.current) := by
  simp [LockSys.app, contextOf_user]

/-- A process that is in its section is runnable. -/
theorem LockSysInv.runnable_of_inside (hI : LockSysInv view alg runcount sys log) {p : Pid}
    (hp : p ≠ 0) (hin : (sys.app view p).Inside) : Runnable sys.machine.kern.procArray p := by
  refine (hI.machine.table.state p hp).resolve_right fun hz => ?_
  simp [LockState.Inside, hI.zombie p hp hz] at hin

/-- Every process whose application has come to its end is a zombie. -/
def LockSys.Ended (view : Pid → Context → μ → LockState) (sys : LockSys μ) : Prop :=
  ∀ p, p ≠ 0 → (sys.app view p).pc = .loop → (sys.machine.kern.procArray p).pState = .zombie

theorem Step.keeps_zombie {m m' : Machine} {e : Event} (hI : Inv alg m) (h : Step m e m') {p : Pid}
    (hz : (m.kern.procArray p).pState = .zombie) : (m'.kern.procArray p).pState = .zombie :=
  (Exited.step hI h ⟨hz, rfl⟩).2.1.1

theorem LockStep.ended (hI : LockSysInv view alg runcount sys log)
    (h : LockStep view runcount sys ev sys') (hE : sys.Ended view) : sys'.Ended view := by
  cases h with
  | @stmt s s' c c' mem own hstep =>
    obtain ⟨hpa, hcur, -⟩ := App.lockStep_kernel hstep
    intro p hp hl
    rw [LockSys.app_stmt view c c' mem own hcur hpa] at hl
    rw [Machine.kern_user, hpa]
    by_cases hpc : p = s.current
    · rw [hpc, Function.update_self] at hl
      rw [hpc]
      refine hE s.current (hpc ▸ hp) ?_
      rw [LockSys.app_current]
      exact (App.lockStep_loop hstep hl).resolve_right nofun
    · rw [Function.update_of_ne hpc] at hl
      exact hE p hp hl
  | @clock s c mem e m ht hc h =>
    subst hc
    intro p hp hl
    rw [LockSys.app_clock view hI.machine h mem] at hl
    exact h.keeps_zombie hI.machine (hE p hp hl)
  | @call s c mem own e m act hstep hc h =>
    intro p hp hl
    rw [LockSys.app_call view hI.machine h mem own] at hl
    by_cases hpc : p = s.current
    · rw [hpc, Function.update_self] at hl
      rw [hpc]
      rcases App.lockStep_loop hstep hl with hpc' | rfl
      · refine h.keeps_zombie hI.machine (hE s.current (hpc ▸ hp) ?_)
        rwa [LockSys.app_current]
      · exact ((call_exited hc.1 s).frame (h.frame hI.machine).1).1
    · rw [Function.update_of_ne hpc] at hl
      exact h.keeps_zombie hI.machine (hE p hp hl)

/-- The process that has the CPU has not come to its end. -/
theorem LockSysInv.pc_ne_loop {s : Kernel} {c : Context} {mem : Pid → μ}
    (hI : LockSysInv view alg runcount ⟨.user s c, mem⟩ log)
    (hE : LockSys.Ended view ⟨.user s c, mem⟩) :
    (view s.current c (mem s.current)).pc ≠ .loop := by
  intro hl
  rw [← LockSys.app_current view s c mem] at hl
  exact not_runnable_of_zombie (hE s.current hI.machine.current hl) (hI.machine.running _ rfl)

/-- The dispatch of a call in which some process is runnable. -/
theorem Step.first_up {m m' : Machine} {e : Event} (hI : Inv 0 m) (h : Step m e m')
    (hex : ∃ q, Runnable (e.call m.kern).procArray q) :
    upward.First (Runnable (e.call m.kern).procArray) m.kern.current m'.kern.current := by
  obtain ⟨s, c, rfl, -⟩ := h.inv
  rw [Machine.kern_user] at hex ⊢
  have hc : KernInv 0 (e.call s) := hI.toKernInv.call e
  obtain ⟨k, hk⟩ := Rotation.exists_first upward s.current hex
  have hpid : (e.call s).currentProc.pPid = s.current := by rw [hc.pPid, call_current]
  have hs : Schedules e.tsc (e.call s) (e.call s).procArray k := by
    rw [schedules_roundRobin hc.algorithm, hpid]
    exact ⟨rfl, ends_roundRobinPass hk⟩
  rw [h.eq_run hs]
  exact hk

/-- The kinds of events. -/
def LockEvent.Timed (Q since : Nat) : LockEvent → Prop
  | .stmt _ _ => since < Q
  | .interrupt e => e.trap = .clock → 0 < since

/-- A statement of the process that has the CPU, or its system call, that is not a failed swap. -/
theorem LockSysInv.work_succ {s s' : Kernel} {c c' : Context} {mem : Pid → μ} {own : μ}
    {act : AppAction} (hI : LockSysInv view alg runcount ⟨.user s c, mem⟩ log)
    (hE : LockSys.Ended view ⟨.user s c, mem⟩)
    (hstep : (SchedOS.app runcount s.current).lockStep s (view s.current c (mem s.current)) =
      (act, s', view s.current c' own))
    (happ : sys'.app view = Function.update ((LockSys.mk (.user s c) mem).app view) s.current
      (view s.current c' own))
    (hswap : (view s.current c (mem s.current)).pc = .swap → s.cursorposLock = 0) :
    sys'.work view runcount + 1 = (LockSys.mk (.user s c) mem).work view runcount := by
  have hp : s.current ≠ 0 := hI.machine.current
  have hv := hI.valid s.current hp
  rw [LockSys.app_current] at hv
  refine LockSys.work_succ hp happ ?_
  rw [LockSys.app_current]
  exact App.lockStep_remaining hstep hv (hI.pc_ne_loop hE) hswap

/-- A system call is no swap. -/
theorem App.lockStep_pc_of_call {a : App} {s s' : Kernel} {st st' : LockState} {act : AppAction}
    {e : Event} (h : a.lockStep s st = (act, s', st')) (hc : act.Causes e) : st.pc ≠ .swap := by
  intro hpc
  unfold App.lockStep at h
  rw [hpc] at h
  obtain ⟨rfl, -⟩ := Prod.mk.inj h
  exact hc

/-- **Progress**: an event takes from the statements left or from the slack. -/
theorem LockStep.progress (hI : LockSysInv view 0 runcount sys log) (hE : sys.Ended view)
    (h : LockStep view runcount sys ev sys') (hev : ev.Timed Q since) (hQ : since ≤ Q) :
    sys'.work view runcount < sys.work view runcount ∨
      sys'.work view runcount = sys.work view runcount ∧
        sys'.slack view Q (ev.since since) < sys.slack view Q since := by
  cases h with
  | @stmt s s' c c' mem own hstep =>
    obtain ⟨hpa, hcur, -⟩ := App.lockStep_kernel hstep
    have happ := LockSys.app_stmt view c c' mem own hcur hpa
    by_cases hspin : (view s.current c (mem s.current)).pc = .swap ∧ s.cursorposLock ≠ 0
    · -- the holder is another process, so the slack falls by the statement alone
      rw [App.lockStep_spin hstep hspin.1 hspin.2, ← LockSys.app_current view s c mem,
        Function.update_eq_self] at happ
      refine .inr ⟨by rw [LockSys.work, LockSys.work, happ], ?_⟩
      have hlt : since < Q := hev
      have haway : away s.current (since + 1) (holder (LockSys.app view ⟨.user s c, mem⟩)) ≤
          away s.current since (holder (LockSys.app view ⟨.user s c, mem⟩)) := by
        cases hh : holder (LockSys.app view ⟨.user s c, mem⟩) with
        | none => exact absurd ((holder_eq_none hI.shared.exclusive).1 hh) hspin.2
        | some q =>
          have hne : ¬ s.current = q := by
            rintro rfl
            have hin := (holder_inside hh).2
            rw [LockSys.app_current] at hin
            simp [LockState.Inside, hspin.1] at hin
          simp [away, hne]
      have hmul := Nat.mul_le_mul_right (Q + 1) haway
      unfold LockSys.slack
      rw [happ]
      simp only [Machine.kern_user, hcur, LockEvent.since]
      omega
    · have hwork := hI.work_succ hE hstep happ fun hpc =>
        Classical.byContradiction fun hl => hspin ⟨hpc, hl⟩
      omega
  | @clock s c mem e m ht hc h =>
    subst hc
    have happ := LockSys.app_clock view hI.machine h mem
    have hsame := runnable_call_iff (show e.trap ≠ .sysExit by rw [ht]; decide) s
    have hrun : Runnable (e.call s).procArray s.current :=
      (hsame s.current).2 (hI.machine.running _ rfl)
    have hf := h.first_up hI.machine ⟨s.current, hrun⟩
    have haway := @away_clock _ _ _ since _ hf (hev ht)
      fun q (hq : holder (LockSys.app view ⟨.user s e.cpu, mem⟩) = some q) => by
        obtain ⟨hq0, hin⟩ := holder_inside hq
        exact (hsame q).2 (hI.runnable_of_inside hq0 hin)
    refine .inr ⟨by rw [LockSys.work, LockSys.work, happ], ?_⟩
    have hmul := Nat.mul_le_mul_right (Q + 1) haway
    rw [Nat.succ_mul] at hmul
    unfold LockSys.slack
    rw [happ]
    simp only [Machine.kern_user, LockEvent.since] at hmul ⊢
    omega
  | @call s c mem own e m act hstep hc h =>
    have hwork := hI.work_succ hE hstep (LockSys.app_call view hI.machine h mem own) fun hpc =>
      absurd hpc (App.lockStep_pc_of_call hstep hc)
    omega

end

/-! ## Runs -/

section
variable {μ : Type} {view : Pid → Context → μ → LockState} {alg : Int} {boot : Boot} {n Q : Nat}
  (r : LockRun view alg boot n)

/-- The number of statements since the last interrupt, before event `i`. -/
def LockRun.since : Nat → Nat
  | 0 => 0
  | i + 1 => (r.event i).since (LockRun.since i)

/-- No more than `Q` statements pass between two interrupts, and the clock strikes after one of
them. -/
def LockRun.Timed (Q : Nat) : Prop := ∀ i, i < r.len → (r.event i).Timed Q (r.since i)

variable {r}

theorem LockRun.since_le (h : r.Timed Q) {i : Nat} (hi : i ≤ r.len) : r.since i ≤ Q := by
  cases i with
  | zero => exact Nat.zero_le _
  | succ i =>
    have hev := h i hi
    unfold LockRun.since
    cases he : r.event i with
    | stmt p pc =>
      rw [he] at hev
      exact hev
    | interrupt e => exact Nat.zero_le _

theorem LockRun.ended {i : Nat} (hi : i ≤ r.len) : (r.state i).Ended view := by
  induction i with
  | zero =>
    intro p hp hl
    obtain ⟨hm, hinit⟩ := r.start
    unfold LockSys.app at hl
    rw [hm, start_contextOf alg boot hp, hinit p hp] at hl
    cases hl
  | succ i ih => exact (r.steps i hi).ended (r.inv (Nat.le_of_lt hi)) (ih (Nat.le_of_lt hi))

theorem LockStep.completed_ne_zero {sys sys' : LockSys μ} {ev : LockEvent} {log : List Pid}
    (hI : LockSysInv view alg n sys log) (h : LockStep view n sys ev sys') :
    (0 : Pid) ∉ ev.completed := by
  cases h with
  | @stmt s s' c c' mem own hstep =>
    have hp : s.current ≠ 0 := hI.machine.current
    rw [← List.count_eq_zero, LockEvent.count_completed_of_ne hp.symm]
  | clock => exact List.not_mem_nil
  | call => exact List.not_mem_nil

theorem LockRun.completed_ne_zero {i : Nat} (hi : i ≤ r.len) : (0 : Pid) ∉ r.completed i := by
  induction i with
  | zero => exact List.not_mem_nil
  | succ i ih =>
    have hnew := (r.steps i hi).completed_ne_zero (r.inv (Nat.le_of_lt hi))
    unfold LockRun.completed
    rw [List.mem_append, not_or]
    exact ⟨ih (Nat.le_of_lt hi), hnew⟩

/-- All four have exited, and their output is complete. -/
structure LockRun.Finished (r : LockRun view alg boot n) : Prop where
  zombie : ∀ p, p ≠ 0 → ((r.kern r.len).procArray p).pState = .zombie
  count : ∀ p, p ≠ 0 → (r.completed r.len).count p = n
  length : (r.completed r.len).length = 4 * n
  cells : 4 * n ≤ CONSOLE_CELLS → ∀ j p, (r.completed r.len)[j]? = some p →
    (r.kern r.len).cells (cell j) = printchar p

theorem LockSysInv.count_of_zombie {sys : LockSys μ} {log : List Pid}
    (hI : LockSysInv view alg n sys log) {p : Pid} (hp : p ≠ 0)
    (hz : (sys.machine.kern.procArray p).pState = .zombie) : log.count p = n := by
  have hv := hI.valid p hp
  rw [hI.sections p hp]
  unfold LockState.Valid at hv
  unfold LockState.sections
  rw [hI.zombie p hp hz] at hv ⊢
  exact hv

theorem LockSysInv.count_le {sys : LockSys μ} {log : List Pid}
    (hI : LockSysInv view alg n sys log) {p : Pid} (hp : p ≠ 0) : log.count p ≤ n := by
  have hv := hI.valid p hp
  rw [hI.sections p hp]
  unfold LockState.Valid at hv
  unfold LockState.sections
  cases hpc : (sys.app view p).pc with
  | init => exact Nat.zero_le n
  | exit | loop =>
    rw [hpc] at hv
    exact Nat.le_of_eq hv
  | test | yield | incr =>
    rw [hpc] at hv
    exact hv
  | _ =>
    rw [hpc] at hv
    exact Nat.le_of_lt hv

theorem LockSysInv.work_of_zombies {sys : LockSys μ} {log : List Pid}
    (hI : LockSysInv view alg n sys log)
    (hz : ∀ p, p ≠ 0 → (sys.machine.kern.procArray p).pState = .zombie) : sys.work view n = 0 := by
  refine Finset.sum_eq_zero fun p hp => ?_
  have hp0 := (mem_livePids p).1 hp
  unfold LockState.remaining
  rw [hI.zombie p hp0 (hz p hp0)]

theorem LockRun.finished (hz : ∀ p, p ≠ 0 → ((r.kern r.len).procArray p).pState = .zombie) :
    r.Finished := by
  have hI := r.inv (Nat.le_refl _)
  have hcount : ∀ p, p ≠ 0 → (r.completed r.len).count p = n := fun p hp =>
    hI.count_of_zombie hp (hz p hp)
  have hlen : (r.completed r.len).length = 4 * n := by
    have hmem : ∀ p ∈ (r.completed r.len : Multiset Pid), p ∈ livePids := fun p hp =>
      (mem_livePids p).2 fun h0 => r.completed_ne_zero (Nat.le_refl _) (h0 ▸ hp)
    have hsum := Multiset.sum_count_eq_card hmem
    simp only [Multiset.coe_card, Multiset.coe_count] at hsum
    rw [← hsum, Finset.sum_congr rfl fun p hp => hcount p ((mem_livePids p).1 hp)]
    simp [card_livePids]
  refine ⟨hz, hcount, hlen, fun hn j p hj => ?_⟩
  refine hI.shared.holds (by rwa [List.length_map, hlen]) j _ ?_
  rw [List.getElem?_map, hj]
  rfl

theorem LockStep.zombie_of_stuck (halg : alg = 0 ∨ alg = 2 ∨ alg = 41) {sys sys' : LockSys μ}
    {ev : LockEvent} {log : List Pid} (hI : LockSysInv view alg n sys log)
    (h : LockStep view n sys ev sys') {s : Kernel} (hs : sys'.machine = .stuck s) {p : Pid}
    (hp : p ≠ 0) : (s.procArray p).pState = .zombie := by
  cases h with
  | stmt => cases hs
  | clock ht hc h =>
    cases hs
    exact h.zombie_of_stuck halg hI.machine hp
  | call hstep hc h =>
    cases hs
    exact h.zombie_of_stuck halg hI.machine hp

theorem LockRun.finished_of_stuck (halg : alg = 0 ∨ alg = 2 ∨ alg = 41) {s : Kernel}
    (hs : (r.state r.len).machine = .stuck s) : r.Finished := by
  apply LockRun.finished
  intro p hp
  unfold LockRun.kern
  rw [hs]
  cases hl : r.len with
  | zero =>
    rw [hl, r.start.1] at hs
    cases hs
  | succ i =>
    rw [hl] at hs
    exact (r.steps i (by omega)).zombie_of_stuck halg (r.inv (by omega)) hs hp

end

section
variable {μ : Type} {view : Pid → Context → μ → LockState} {boot : Boot} {n Q : Nat}

theorem LockStart.work {alg : Int} {sys : LockSys μ} (h : LockStart view alg boot sys) :
    sys.work view n = 4 * (8 * n + 3) := by
  have hrem : ∀ p ∈ livePids, (sys.app view p).remaining n = 8 * n + 3 := by
    intro p hp
    have hp0 := (mem_livePids p).1 hp
    unfold LockSys.app LockState.remaining
    rw [h.1, start_contextOf alg boot hp0, h.2 p hp0]
  unfold LockSys.work
  rw [Finset.sum_congr rfl hrem]
  simp [card_livePids]

theorem LockRun.len_le {r : LockRun view 0 boot n} (h : r.Timed Q) :
    r.len ≤ 4 * (8 * n + 3) * (6 * (Q + 1)) + 6 * (Q + 1) := by
  have hlen := r.len_le_of_work (fun i => (r.state i).work view n)
    (fun i => (r.state i).slack view Q (r.since i)) (fun i _ => LockSys.slack_lt) fun i hi =>
      (r.steps i hi).progress (r.inv (Nat.le_of_lt hi)) (r.ended (Nat.le_of_lt hi)) (h i hi)
        (r.since_le h (Nat.le_of_lt hi))
  have hslack : (r.state 0).slack view Q (r.since 0) < 6 * (Q + 1) := LockSys.slack_lt
  rw [r.start.work] at hlen
  omega

/-- **The applications with the lock come to their end**: under algorithm 0, if the clock strikes
after one to `Q` statements, a run has a bounded number of events, and if nothing more can happen
all four applications have exited after `RUNCOUNT` sections each, which the screen holds in
order. -/
theorem lock_apps_bounded (r : LockRun view 0 boot n) (h : r.Timed Q) :
    r.len ≤ 4 * (8 * n + 3) * (6 * (Q + 1)) + 6 * (Q + 1) ∧
      ∀ s, (r.state r.len).machine = .stuck s → r.Finished :=
  ⟨LockRun.len_le h, fun _ hs => LockRun.finished_of_stuck (.inl rfl) hs⟩

end

theorem oneSection_since (i : Nat) : oneSection.since i = i := by
  induction i with
  | zero => rfl
  | succ i ih => exact congrArg (· + 1) ih

theorem oneSection_timed : oneSection.Timed 7 := by
  intro i hi
  show oneSection.since i < 7
  rw [oneSection_since]
  exact hi

theorem oneSection_bounded : oneSection.len ≤ 4 * (8 * 1 + 3) * (6 * (7 + 1)) + 6 * (7 + 1) ∧
    ∀ s, (oneSection.state oneSection.len).machine = .stuck s → oneSection.Finished :=
  lock_apps_bounded oneSection oneSection_timed

/-! ## To the end -/

/-- A statement that makes a system call changes no shared variable. -/
theorem App.lockStep_kernel_of_call {a : App} {s s' : Kernel} {st st' : LockState} {act : AppAction}
    (h : a.lockStep s st = (act, s', st')) (hact : act ≠ .silent) : s' = s := by
  obtain ⟨pc, i, temp⟩ := st
  cases pc with
  | yield | exit =>
    cases h
    rfl
  | _ =>
    cases h
    exact absurd rfl hact

section
variable {alg : Int} {boot : Boot} {n Q since : Nat} {r r' : LockRun inLockMemory alg boot n}

/-- A machine that is not stuck has another event that the clock allows. -/
theorem LockStep.exists_timed (hQ : 0 < Q) (hsince : since ≤ Q) (s : Kernel) (c : Context)
    (mem : Pid → LockState) :
    ∃ ev sys', LockStep inLockMemory n ⟨.user s c, mem⟩ ev sys' ∧ ev.Timed Q since := by
  by_cases hact : ((app n s.current).lockStep s (mem s.current)).1 = .silent
  · rcases Nat.lt_or_eq_of_le hsince with hlt | rfl
    · exact ⟨_, _, LockStep.nextStmt hact (.stmt 0 .init), hlt⟩
    · obtain ⟨m, hm⟩ := Step.exists_step s c ⟨.clock, c, fun _ => 0⟩
      exact ⟨_, _, .clock rfl rfl hm, fun _ => hQ⟩
  · obtain ⟨e, he, ht⟩ := AppAction.exists_causes hact
    obtain ⟨m, hm⟩ := Step.exists_step s c e
    have hk := App.lockStep_kernel_of_call (a := app n s.current) rfl hact
    exact ⟨_, _, .call (Prod.ext rfl (Prod.ext hk rfl)) he hm, fun h => absurd h ht⟩

theorem LockRun.since_of_extends (h : r'.Extends r) {i : Nat} (hi : i ≤ r.len) :
    r'.since i = r.since i := by
  induction i with
  | zero => rfl
  | succ i ih =>
    unfold LockRun.since
    rw [h.event i hi, ih (Nat.le_of_lt hi)]

theorem LockRun.Timed.snoc (h : r.Timed Q) {ev : LockEvent} {sys : LockSys LockState}
    (hstep : LockStep inLockMemory n (r.state r.len) ev sys) (hev : ev.Timed Q (r.since r.len)) :
    LockRun.Timed (Exec.snoc r hstep) Q := by
  intro i hi
  have hi' : i ≤ r.len := Nat.le_of_lt_succ hi
  have hsince : LockRun.since (Exec.snoc r hstep) i = r.since i :=
    LockRun.since_of_extends (r.snoc_extends hstep) hi'
  rw [hsince]
  rcases Nat.eq_or_lt_of_le hi' with rfl | hlt
  · rwa [r.snoc_event_last]
  · rw [(r.snoc_extends hstep).event i hlt]
    exact h i hlt

end

/-- **No deadlock under the lock**: under algorithm 0 and such a clock every run of the applications
can be continued until all four have exited with their output complete. -/
theorem lock_apps_finish {boot : Boot} {n Q : Nat} (hQ : 0 < Q)
    (r : LockRun inLockMemory 0 boot n) (h : r.Timed Q) :
    ∃ r' : LockRun inLockMemory 0 boot n, r'.Extends r ∧ r'.Timed Q ∧ r'.Finished := by
  obtain ⟨B, hB⟩ : ∃ B, B = 4 * (8 * n + 3) * (6 * (Q + 1)) + 6 * (Q + 1) - r.len := ⟨_, rfl⟩
  induction B using Nat.strong_induction_on generalizing r with
  | _ B ih =>
    cases hm : (r.state r.len).machine with
    | stuck s => exact ⟨r, .refl r, h, LockRun.finished_of_stuck (.inl rfl) hm⟩
    | user s c =>
      obtain ⟨ev, sys, hstep, hev⟩ := LockStep.exists_timed (n := n) hQ
        (LockRun.since_le h (Nat.le_refl _)) s c (r.state r.len).mem
      rw [← hm] at hstep
      have hsnoc := h.snoc hstep hev
      have hlen := LockRun.len_le hsnoc
      rw [Exec.snoc_len] at hlen
      obtain ⟨r', hext, htimed, hfin⟩ := ih (B - 1) (by omega) (Exec.snoc r hstep) hsnoc
        (by rw [Exec.snoc_len]; omega)
      exact ⟨r', hext.trans (r.snoc_extends hstep), htimed, hfin⟩

theorem oneSection_finish : ∃ r' : LockRun inLockMemory 0 .zero 1, r'.Extends oneSection ∧
    r'.Timed 7 ∧ r'.Finished :=
  lock_apps_finish (by decide) oneSection oneSection_timed

end SchedOS
