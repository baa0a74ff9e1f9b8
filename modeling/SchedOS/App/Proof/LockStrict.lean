import SchedOS.App.Proof.LockProgress
import SchedOS.App.Proof.StrictOutput

/-!
# The lock under algorithm 2

Under algorithm 2 no process gets the CPU before the ones with smaller pids have exited
(`Step.current_strict`), and a process that has not had it is at its beginning (`LockTurns`). So the
lock is free at every swap, the clock costs nothing, and the sections come in the order of the pids:
with the lock the applications print what they print by `sys_print` (`lock_strict_output`).
-/

namespace SchedOS

/-! ## Turns -/

/-- An interrupt under algorithm 2: the next process is the least runnable one, or none is left. -/
theorem Step.current_strict {m m' : Machine} {e : Event} (hI : Inv 2 m) (h : Step m e m')
    (hbefore : ∀ q, q ≠ 0 → q < m.kern.current → (m.kern.procArray q).pState = .zombie) :
    m.kern.current ≤ m'.kern.current ∧
      ∀ q, q ≠ 0 → q < m'.kern.current → (m'.kern.procArray q).pState = .zombie := by
  have hI' := h.keeps_inv hI
  have hkeep : ∀ q, q ≠ 0 → q < m.kern.current → (m'.kern.procArray q).pState = .zombie :=
    fun q hq hlt => h.keeps_zombie hI (hbefore q hq hlt)
  have hf := (h.frame hI).1
  obtain ⟨s, c, rfl, ⟨pa, k, hs, rfl⟩ | ⟨-, rfl⟩⟩ := h.inv
  · have hc : KernInv 2 (e.call s) := hI.toKernInv.call e
    have hk : Runnable (e.call s).procArray k := (hs.frame hc.table.not_runnable_zero).2.1
    obtain ⟨k', hfirst⟩ := Rotation.exists_first upward 0 ⟨k, hk⟩
    obtain ⟨-, rfl⟩ := hs.unique ((schedules_strict hc.algorithm).2 ⟨rfl, ends_strictPass hfirst⟩)
    have hcur : s.current ≤ k' := by
      refine Fin.not_lt.1 fun hlt => not_runnable_of_zombie ?_ ((hf.runnable k').2 hk)
      exact hkeep k' (hc.table.ne_zero hk) hlt
    refine ⟨hcur, fun q hq hlt => (hI'.table.state q hq).resolve_left fun hr => ?_⟩
    have hr' := (hf.runnable q).1 hr
    have hle := hfirst.2 q hr'
    rw [upward_dist_zero k' (hc.table.ne_zero hk), upward_dist_zero q hq] at hle
    exact Nat.not_le.2 hlt hle
  · rw [Machine.kern_stuck, Machine.kern_user, call_current] at *
    exact ⟨Fin.le_refl _, hkeep⟩

section
variable {μ : Type} (view : Pid → Context → μ → LockState)

/-- The turns of algorithm 2: the processes before `current` have exited, those after it have not
begun. -/
structure LockTurns (sys : LockSys μ) : Prop where
  before : ∀ q, q ≠ 0 → q < sys.machine.kern.current →
    (sys.machine.kern.procArray q).pState = .zombie
  after : ∀ q, sys.machine.kern.current < q → (sys.app view q).pc = .init

variable {view} {n : Nat} {sys sys' : LockSys μ} {ev : LockEvent} {log : List Pid}

theorem LockTurns.interrupt {s : Kernel} {c : Context} {e : Event} {m : Machine} {mem mem' : Pid → μ}
    (hI : Inv 2 (.user s c)) (h : Step (.user s c) e m)
    (happ : ∀ q, q ≠ s.current →
      (LockSys.mk m mem').app view q = (LockSys.mk (.user s c) mem).app view q)
    (hT : LockTurns view ⟨.user s c, mem⟩) : LockTurns view ⟨m, mem'⟩ := by
  obtain ⟨hle, hbefore⟩ := h.current_strict hI hT.before
  refine ⟨hbefore, fun q hlt => ?_⟩
  have hq : s.current < q := Fin.lt_of_le_of_lt hle hlt
  rw [happ q (Fin.ne_of_gt hq)]
  exact hT.after q hq

theorem LockStep.turns (hI : LockSysInv view 2 n sys log) (h : LockStep view n sys ev sys')
    (hT : LockTurns view sys) : LockTurns view sys' := by
  cases h with
  | @stmt s s' c c' mem own hstep =>
    obtain ⟨hpa, hcur, -⟩ := App.lockStep_kernel hstep
    refine ⟨fun q hq hlt => ?_, fun q hlt => ?_⟩
    · rw [Machine.kern_user, hcur] at hlt
      rw [Machine.kern_user, hpa]
      exact hT.before q hq hlt
    · rw [Machine.kern_user, hcur] at hlt
      rw [LockSys.app_stmt view c c' mem own hcur hpa, Function.update_of_ne (Fin.ne_of_gt hlt)]
      exact hT.after q hlt
  | @clock s c mem e m ht hc h =>
    subst hc
    refine hT.interrupt hI.machine h fun q _ => ?_
    rw [LockSys.app_clock view hI.machine h mem]
  | @call s c mem own e m act hstep hc h =>
    refine hT.interrupt hI.machine h fun q hq => ?_
    rw [LockSys.app_call view hI.machine h mem own, Function.update_of_ne hq]

/-- Only the process whose turn it is can be in its section. -/
theorem LockTurns.current_of_inside (hT : LockTurns view sys) (hI : LockSysInv view 2 n sys log)
    {q : Pid} (hq : q ≠ 0) (hin : (sys.app view q).Inside) : q = sys.machine.kern.current := by
  rcases lt_trichotomy q sys.machine.kern.current with hlt | he | hlt
  · simp [LockState.Inside, hI.zombie q hq (hT.before q hq hlt)] at hin
  · exact he
  · simp [LockState.Inside, hT.after q hlt] at hin

/-- **The lock is free at every swap.** -/
theorem LockTurns.free_of_swap (hT : LockTurns view sys) (hI : LockSysInv view 2 n sys log)
    (hpc : (sys.app view sys.machine.kern.current).pc = .swap) :
    sys.machine.kern.cursorposLock = 0 := by
  rw [hI.shared.exclusive.free_iff]
  rintro q ⟨hq, hin⟩
  rw [hT.current_of_inside hI hq hin] at hin
  simp [LockState.Inside, hpc] at hin

/-- The sections of a process that has not begun. -/
theorem LockTurns.count_after (hT : LockTurns view sys) (hI : LockSysInv view 2 n sys log) {q : Pid}
    (hlt : sys.machine.kern.current < q) : log.count q = 0 := by
  have hq : q ≠ 0 := by
    rintro rfl
    exact Fin.not_lt_zero _ hlt
  rw [hI.sections q hq]
  unfold LockState.sections
  rw [hT.after q hlt]

/-- The process that makes a statement. -/
theorem LockStep.completed_current (h : LockStep view n sys ev sys') :
    ev.completed = [] ∨ ev.completed = [sys.machine.kern.current] := by
  cases h with
  | @stmt s s' c c' mem own hstep =>
    by_cases hpc : (view s.current c (mem s.current)).pc = .release
    · rw [hpc]
      exact .inr rfl
    · exact .inl (LockEvent.completed_of_ne hpc)
  | clock => exact .inl rfl
  | call => exact .inl rfl

/-- The clock interrupts. -/
def LockEvent.IsClock : LockEvent → Prop
  | .stmt _ _ => False
  | .interrupt e => e.trap = .clock

instance : DecidablePred LockEvent.IsClock
  | .stmt _ _ => inferInstanceAs (Decidable False)
  | .interrupt e => inferInstanceAs (Decidable (e.trap = .clock))

/-- Every event but the clock is one of the statements left. -/
theorem LockStep.work_strict (hI : LockSysInv view 2 n sys log) (hE : sys.Ended view)
    (hT : LockTurns view sys) (h : LockStep view n sys ev sys') :
    sys.work view n = sys'.work view n + if ¬ ev.IsClock then 1 else 0 := by
  cases h with
  | @stmt s s' c c' mem own hstep =>
    obtain ⟨hpa, hcur, -⟩ := App.lockStep_kernel hstep
    refine (hI.work_succ hE hstep (LockSys.app_stmt view c c' mem own hcur hpa) fun hpc => ?_).symm
    exact hT.free_of_swap hI (by rwa [Machine.kern_user, LockSys.app_current])
  | @clock s c mem e m ht hc h =>
    subst hc
    have hclock : LockEvent.IsClock (.interrupt e) := ht
    rw [if_neg (not_not.2 hclock), Nat.add_zero, LockSys.work, LockSys.work,
      LockSys.app_clock view hI.machine h mem]
  | @call s c mem own e m act hstep hc h =>
    have hclock : ¬ LockEvent.IsClock (.interrupt e) := by
      intro ht
      cases act with
      | silent => exact hc
      | sysYield => cases hc.symm.trans ht
      | _ => cases hc.1.symm.trans ht
    rw [if_pos hclock]
    refine (hI.work_succ hE hstep (LockSys.app_call view hI.machine h mem own) fun hpc => ?_).symm
    exact absurd hpc (App.lockStep_pc_of_call hstep hc)

end

/-! ## Runs -/

theorem length_sequential (n : Nat) : (sequential n).length = 4 * n := by
  simp [sequential, turns]
  omega

theorem replicate_prefix {α : Type} {a b : Nat} (h : a ≤ b) (x : α) :
    List.replicate a x <+: List.replicate b x := by
  obtain ⟨m, rfl⟩ := Nat.le.dest h
  rw [List.replicate_add]
  exact List.prefix_append _ _

section
variable {μ : Type} {view : Pid → Context → μ → LockState} {boot : Boot} {n : Nat}
  {r : LockRun view 2 boot n}

theorem LockRun.lockTurns {i : Nat} (hi : i ≤ r.len) : LockTurns view (r.state i) := by
  induction i with
  | zero =>
    obtain ⟨hm, hinit⟩ := r.start
    refine ⟨fun q hq hlt => ?_, fun q hlt => ?_⟩
    · rw [hm] at hlt
      exact absurd (one_le_val hq) (Nat.not_le.2 hlt)
    · have hq : q ≠ 0 := by
        rintro rfl
        exact Fin.not_lt_zero _ hlt
      unfold LockSys.app
      rw [hm, start_contextOf 2 boot hq]
      exact hinit q hq
  | succ i ih => exact (r.steps i hi).turns (r.inv (Nat.le_of_lt hi)) (ih (Nat.le_of_lt hi))

/-- The sections come in turn. -/
theorem LockRun.completed_in_turn {i : Nat} (hi : i ≤ r.len) :
    r.completed i = turns.flatMap fun p => List.replicate ((r.completed i).count p) p := by
  induction i with
  | zero => rfl
  | succ i ih =>
    have hle := Nat.le_of_lt hi
    have hI := r.inv hle
    have hafter : ∀ q, (r.kern i).current < q → (r.completed i).count q = 0 :=
      fun q hq => (LockRun.lockTurns hle).count_after hI hq
    have hsucc : r.completed (i + 1) = r.completed i ++ (r.event i).completed := rfl
    rcases (r.steps i hi).completed_current with hnil | hone
    · rw [hsucc, hnil, List.append_nil]
      exact ih hle
    · rw [hsucc, hone]
      symm
      conv_rhs => rw [ih hle]
      refine InTurn.flatMap_write turns_pairwise ((mem_turns _).2 hI.machine.current) ?_
        (fun q hq => ?_) fun q hq => ?_
      · rw [List.count_append, List.count_singleton_self, List.replicate_succ']
      · rw [List.count_append, List.count_singleton, if_neg, Nat.add_zero]
        simpa using Ne.symm hq
      · rw [hafter q hq, List.replicate_zero]

theorem LockRun.printed_in_turn {i : Nat} (hi : i ≤ r.len) : (r.completed i).map printchar =
    turns.flatMap fun p => List.replicate ((r.completed i).count p) (printchar p) := by
  conv_lhs => rw [LockRun.completed_in_turn hi]
  simp only [List.map_flatMap, List.map_replicate]

theorem LockRun.printed_prefix {i : Nat} (hi : i ≤ r.len) :
    (r.completed i).map printchar <+: sequential n := by
  have hI := r.inv hi
  have hT := LockRun.lockTurns hi
  have hcur : (r.kern i).current ≠ 0 := hI.machine.current
  rw [LockRun.printed_in_turn hi]
  refine InTurn.flatMap_prefix turns_pairwise ((mem_turns _).2 hcur) (fun q hq hlt => ?_) ?_
    fun q _ hlt => ?_
  · have hq0 := (mem_turns q).1 hq
    rw [hI.count_of_zombie hq0 (hT.before q hq0 hlt)]
  · exact replicate_prefix (hI.count_le hcur) _
  · rw [hT.count_after hI hlt, List.replicate_zero]

/-- The events that are not clock interrupts, and the statements left. -/
theorem LockRun.count_add_work {i : Nat} (hi : i ≤ r.len) :
    Window.count (fun j => ¬ (r.event j).IsClock) 0 i + (r.state i).work view n =
      4 * (8 * n + 3) := by
  rw [← r.start.work]
  refine Window.count_add_of_fall _ (f := fun j => (r.state j).work view n) (Nat.zero_le i)
    fun j _ hj => ?_
  have hle : j ≤ r.len := by omega
  exact (r.steps j (by omega)).work_strict (r.inv hle) (r.ended hle) (LockRun.lockTurns hle)

theorem LockStep.stmt_current {sys sys' : LockSys μ} {p : Pid} {pc : LockPc}
    (h : LockStep view n sys (.stmt p pc) sys') :
    (sys.app view sys.machine.kern.current).pc = pc := by
  cases h with
  | stmt hstep => rw [Machine.kern_user, LockSys.app_current]

end

/-- **The lock under algorithm 2**: whatever the clock does, every swap finds the lock free, so every
event but the clock is one of the `4 * (8 * RUNCOUNT + 3)` statements of the applications, what they
have printed is a prefix of the sequential output, and once they have exited all of them are done
and the screen holds that output. -/
theorem lock_strict_output {μ : Type} {view : Pid → Context → μ → LockState} {boot : Boot} {n : Nat}
    (r : LockRun view 2 boot n) : ∀ i, i ≤ r.len →
      (∀ p, i < r.len → r.event i = .stmt p .swap → (r.kern i).cursorposLock = 0) ∧
      Window.count (fun j => ¬ (r.event j).IsClock) 0 i ≤ 4 * (8 * n + 3) ∧
      (r.completed i).map printchar <+: sequential n ∧
      ((∀ p, p ≠ 0 → ((r.kern i).procArray p).pState = .zombie) →
        Window.count (fun j => ¬ (r.event j).IsClock) 0 i = 4 * (8 * n + 3) ∧
        (r.completed i).map printchar = sequential n ∧
        (4 * n ≤ CONSOLE_CELLS → Tape.Holds cell (r.kern i).cells (sequential n))) := by
  intro i hi
  have hI := r.inv hi
  have hcount := LockRun.count_add_work hi
  refine ⟨fun p hlt he => ?_, by omega, LockRun.printed_prefix hi, fun hz => ?_⟩
  · have hstep := r.steps i hlt
    rw [he] at hstep
    exact (LockRun.lockTurns hi).free_of_swap hI hstep.stmt_current
  · have hwork : (r.state i).work view n = 0 := hI.work_of_zombies hz
    have hprinted : (r.completed i).map printchar = sequential n := by
      rw [LockRun.printed_in_turn hi]
      refine List.flatMap_congr fun p hp => ?_
      rw [hI.count_of_zombie ((mem_turns p).1 hp) (hz p ((mem_turns p).1 hp))]
    refine ⟨by omega, hprinted, fun hn => ?_⟩
    rw [← hprinted]
    refine hI.shared.holds ?_
    rw [hprinted, length_sequential]
    exact hn

/-- Process 1 goes through its first section under algorithm 2. -/
def strictSection : LockRun inLockMemory 2 .zero 1 :=
  .ofNext (nextStmt 1)
    (fun i => .stmt 1 ([LockPc.init, .test, .swap, .read, .write, .store, .release].getD i .yield))
    ⟨start 2 .zero, fun _ => ⟨.init, 0, 0⟩⟩ 7 ⟨rfl, fun _ _ => rfl⟩ fun i hi =>
      match i with
      | 0 => LockStep.nextStmt rfl _
      | 1 => LockStep.nextStmt rfl _
      | 2 => LockStep.nextStmt rfl _
      | 3 => LockStep.nextStmt rfl _
      | 4 => LockStep.nextStmt rfl _
      | 5 => LockStep.nextStmt rfl _
      | 6 => LockStep.nextStmt rfl _
      | i + 7 => absurd hi (by omega)

theorem strictSection_printed : [printchar 1] <+: sequential 1 :=
  (lock_strict_output strictSection 7 (Nat.le_refl 7)).2.2.1

end SchedOS
