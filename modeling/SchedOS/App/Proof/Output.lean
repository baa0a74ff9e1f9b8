import SchedOS.App.Program
import SchedOS.Kern.Proof.Screen

/-!
# What the applications print

A local state tells how many characters the application has printed (`AppState.printed`). A process
keeps its state while others run (`Run.appState_other`) and goes on from it when it is run again
(`Run.appState_current`), so the state is always the one that its calls have led to
(`Run.apps_inv`). When all four have exited each has printed `RUNCOUNT` characters, and all of them
are on the screen (`screen_holds_prints`).
-/

namespace SchedOS

/-! ## One application -/

/-- The number of `sys_print` calls that lead to a local state. -/
def AppState.printed (st : AppState) : Nat :=
  match st.pc with
  | .init => 0
  | .test | .print | .exit | .loop => st.i
  | .yield | .incr => st.i + 1

/-- What holds of the counter of the loop. -/
def AppState.Valid (n : Nat) (st : AppState) : Prop :=
  match st.pc with
  | .init => True
  | .test => st.i ≤ n
  | .print | .yield | .incr => st.i < n
  | .exit | .loop => st.i = n

/-- The characters that an action prints. -/
def AppAction.output : AppAction → List UInt16
  | .sysPrint c => [c]
  | _ => []

theorem App.step_valid {a : App} {st : AppState} (h : st.Valid a.runcount) :
    (a.step st).2.Valid a.runcount := by
  obtain ⟨pc, i⟩ := st
  cases pc with
  | init => exact Nat.zero_le _
  | test =>
    unfold App.step
    dsimp only
    split
    · rename_i hi
      exact hi
    · rename_i hi
      exact Nat.le_antisymm h (Nat.le_of_not_lt hi)
  | incr => exact h
  | _ => exact h

/-- One statement prints what the count says. -/
theorem App.step_printed (a : App) (st : AppState) :
    List.replicate (a.step st).2.printed a.printchar =
      List.replicate st.printed a.printchar ++ (a.step st).1.output := by
  obtain ⟨pc, i⟩ := st
  cases pc with
  | test =>
    unfold App.step
    dsimp only
    split <;> exact (List.append_nil _).symm
  | print => exact List.replicate_succ'
  | _ => exact (List.append_nil _).symm

theorem App.Locals.keeps {a : App} {st st' : AppState} (h : a.Locals st st')
    (hv : st.Valid a.runcount) :
    st'.Valid a.runcount ∧
      List.replicate st'.printed a.printchar = List.replicate st.printed a.printchar := by
  induction h with
  | refl => exact ⟨hv, rfl⟩
  | @step st st' hsilent _ ih =>
    obtain ⟨hv', hp⟩ := ih (App.step_valid hv)
    refine ⟨hv', hp.trans ?_⟩
    rw [App.step_printed, hsilent]
    exact List.append_nil _

/-- The characters that an interrupt prints. -/
def Event.output (e : Event) : List UInt16 :=
  if e.trap = .sysPrint then [e.cpu.eax.toUInt16] else []

theorem AppAction.Causes.output {x : AppAction} {e : Event} (h : x.Causes e) :
    e.output = x.output := by
  unfold Event.output
  cases x with
  | silent => exact absurd h id
  | sysPrint c => rw [if_pos h.1, h.2]; rfl
  | sysYield => rw [if_neg (by rw [show e.trap = _ from h]; decide)]; rfl
  | sysExit status => rw [if_neg (by rw [h.1]; decide)]; rfl

theorem App.step_exit {a : App} {st : AppState} {e : Event} (h : (a.step st).1.Causes e)
    (he : e.trap = .sysExit) : (a.step st).2.pc = .loop := by
  obtain ⟨pc, i⟩ := st
  cases pc with
  | exit => rfl
  | print => exact nomatch he.symm.trans h.1
  | yield => exact nomatch he.symm.trans h
  | test =>
    unfold App.step at h
    dsimp only at h
    split at h <;> exact absurd h id
  | _ => exact absurd h id

/-- From one interrupt to the next an application prints what the counts say, and an application
that exits has come to its end. -/
theorem App.Interrupted.keeps {a : App} {st st' : AppState} {e : Event}
    (h : a.Interrupted st e st') (hv : st.Valid a.runcount) :
    st'.Valid a.runcount ∧
      List.replicate st'.printed a.printchar = List.replicate st.printed a.printchar ++ e.output ∧
      (e.trap = .sysExit → st'.pc = .loop) := by
  cases h with
  | clock hl ht =>
    obtain ⟨hv', hp⟩ := hl.keeps hv
    refine ⟨hv', ?_, fun he => ?_⟩
    · rw [hp, Event.output, if_neg (by rw [ht]; decide), List.append_nil]
    · rw [ht] at he
      cases he
  | @call st1 hl hc =>
    obtain ⟨hv', hp⟩ := hl.keeps hv
    refine ⟨App.step_valid hv', ?_, fun he => ?_⟩
    · rw [App.step_printed, hp, hc.output]
    · exact App.step_exit hc he

/-! ## All of them -/

section
variable {alg : Int} {boot : Boot} (r : Run alg boot)

/-- A process becomes a zombie by its own `sys_exit` alone. -/
theorem Run.zombie_succ {i : Nat} (hi : i < r.len) {p : Pid}
    (h : ((r.kern (i + 1)).procArray p).pState = .zombie) :
    (p = (r.kern i).current ∧ (r.event i).trap = .sysExit) ∨
      ((r.kern i).procArray p).pState = .zombie :=
  (r.steps i hi).zombie (r.inv (Nat.le_of_lt hi)) h

theorem Run.printsOf_succ {i : Nat} {p : Pid} (hp : (r.kern i).current = p) :
    (r.printsOf p (i + 1)).map UInt32.toUInt16 =
      (r.printsOf p i).map UInt32.toUInt16 ++ (r.event i).output := by
  have hs : r.printsOf p (i + 1) = if (r.event i).trap = .sysPrint ∧ (r.kern i).current = p then
      r.printsOf p i ++ [(r.event i).cpu.eax] else r.printsOf p i := rfl
  rw [hs, Event.output]
  by_cases h : (r.event i).trap = .sysPrint
  · rw [if_pos ⟨h, hp⟩, if_pos h, List.map_append]
    rfl
  · rw [if_neg fun hc => h hc.1, if_neg h, List.append_nil]

/-- The local state of process `p` before interrupt `i` has reached it. -/
def Run.appState {μ : Type} (view : Pid → Context → μ → AppState) (mem : Nat → Pid → μ) (p : Pid)
    (i : Nat) : AppState := view p (r.lastContext p i) (mem i p)

variable {r} {n : Nat} {μ : Type} {view : Pid → Context → μ → AppState} {mem : Nat → Pid → μ}

/-- The process that is interrupted goes on from the state that its last context holds. -/
theorem Run.appState_current (h : r.Apps n view mem) {i : Nat} (hi : i < r.len) {p : Pid}
    (hc : (r.kern i).current = p) :
    (app n p).Interrupted (r.appState view mem p i) (r.event i)
      (r.appState view mem p (i + 1)) := by
  obtain ⟨s, c, hs, -⟩ := (r.steps i hi).inv
  have hcur : s.current = p := (congrArg (fun m => m.kern.current) hs).symm.trans hc
  have hint := h.event i hi s c hs
  have hlast : r.lastContext p (i + 1) = (r.event i).cpu := if_pos hc
  rw [r.cpu_last (Nat.le_of_lt hi) hs, hcur, ← hlast] at hint
  exact hint

theorem Run.appState_other (h : r.Apps n view mem) {i : Nat} (hi : i < r.len) {p : Pid}
    (hc : (r.kern i).current ≠ p) : r.appState view mem p (i + 1) = r.appState view mem p i := by
  have hlast : r.lastContext p (i + 1) = r.lastContext p i := if_neg hc
  unfold Run.appState
  rw [hlast, h.own i hi p (Ne.symm hc)]

/-- The local state of every process is the one that its `sys_print` calls have led to. -/
theorem Run.apps_inv (h : r.Apps n view mem) {i : Nat} (hi : i ≤ r.len) {p : Pid} (hp : p ≠ 0) :
    (r.appState view mem p i).Valid n ∧
      (r.printsOf p i).map UInt32.toUInt16 =
        List.replicate (r.appState view mem p i).printed (printchar p) ∧
      (((r.kern i).procArray p).pState = .zombie → (r.appState view mem p i).pc = .loop) := by
  induction i with
  | zero =>
    have hpc : (r.appState view mem p 0).pc = .init := h.start p hp
    refine ⟨?_, ?_, fun hz => ?_⟩
    · rw [AppState.Valid, hpc]
      trivial
    · rw [AppState.printed, hpc]
      rfl
    · rw [r.kern_zero, start_procArray alg boot hp] at hz
      cases hz
  | succ i ih =>
    obtain ⟨hv, hout, hz⟩ := ih (by omega)
    by_cases hc : (r.kern i).current = p
    · obtain ⟨hv', hout', hexit⟩ := (r.appState_current h hi hc).keeps hv
      refine ⟨hv', ?_, fun hzombie => ?_⟩
      · rw [r.printsOf_succ hc, hout]
        exact hout'.symm
      · rcases r.zombie_succ hi hzombie with ⟨-, ht⟩ | hz'
        · exact hexit ht
        · have hrun := (r.inv (Nat.le_of_lt hi)).running _ (r.steps i hi).running_current
          subst hc
          exact absurd hrun (not_runnable_of_zombie hz')
    · have hprints : r.printsOf p (i + 1) = r.printsOf p i := if_neg fun h => hc h.2
      rw [r.appState_other h hi hc, hprints]
      refine ⟨hv, hout, fun hzombie => hz ?_⟩
      exact (r.zombie_succ hi hzombie).resolve_left fun hp' => hc hp'.1.symm

/-- A character on the screen was printed by the process whose character it is. -/
theorem Run.prints_owner (h : r.Apps n view mem) {i : Nat} (hi : i ≤ r.len) {x : Pid × UInt32}
    (hx : x ∈ r.prints i) : x.1 ≠ 0 ∧ x.2.toUInt16 = printchar x.1 := by
  have hp := r.prints_pid hi x hx
  obtain ⟨-, hout, -⟩ := r.apps_inv h hi hp
  have hmem : x.2 ∈ r.printsOf x.1 i := by
    rw [← r.prints_filter]
    exact List.mem_map_of_mem (List.mem_filter.2 ⟨hx, decide_eq_true rfl⟩)
  have hmem := List.mem_map_of_mem (f := UInt32.toUInt16) hmem
  rw [hout] at hmem
  exact ⟨hp, List.eq_of_mem_replicate hmem⟩

/-- The number of characters of `p` among the printed ones. -/
theorem Run.count_typed (h : r.Apps n view mem) {i : Nat} (hi : i ≤ r.len) {p : Pid} (hp : p ≠ 0) :
    (r.typed i).count (printchar p) = (r.printsOf p i).length := by
  have hinj : ∀ p q : Pid, p ≠ 0 → q ≠ 0 → printchar p = printchar q → p = q := by decide
  rw [← r.prints_filter, List.length_map, ← List.countP_eq_length_filter, Run.typed,
    List.count_eq_countP, List.countP_map]
  refine List.countP_congr fun x hx => ?_
  obtain ⟨hx0, hchar⟩ := r.prints_owner h hi hx
  simp only [Function.comp_apply, beq_iff_eq, decide_eq_true_eq]
  rw [hchar]
  exact ⟨hinj _ _ hx0 hp, fun he => congrArg printchar he⟩

/-- A process that has exited has printed `RUNCOUNT` characters. -/
theorem Run.length_printsOf (h : r.Apps n view mem) {i : Nat} (hi : i ≤ r.len) {p : Pid}
    (hp : p ≠ 0) (hz : ((r.kern i).procArray p).pState = .zombie) :
    (r.printsOf p i).length = n := by
  obtain ⟨hv, hout, hexit⟩ := r.apps_inv h hi hp
  have hlen := congrArg List.length hout
  rw [List.length_map, List.length_replicate] at hlen
  rw [hlen]
  unfold AppState.Valid at hv
  unfold AppState.printed
  rw [hexit hz] at hv ⊢
  exact hv

theorem Run.length_prints_of_zombies (h : r.Apps n view mem) {i : Nat} (hi : i ≤ r.len)
    (hz : ∀ p, p ≠ 0 → ((r.kern i).procArray p).pState = .zombie) :
    (r.prints i).length = 4 * n := by
  rw [r.length_prints_eq hi, Finset.sum_congr rfl fun q hq =>
    r.length_printsOf h hi ((mem_livePids q).1 hq) (hz q ((mem_livePids q).1 hq)),
    Finset.sum_const, card_livePids]
  rfl

end

/-- **No printed character is lost, duplicated or overwritten**: after as many `sys_print` calls as
fit on the screen, it holds their arguments in the order of the calls, those of each process in its
own order; and when the four applications have exited it holds `RUNCOUNT` characters of each. -/
theorem screen_holds_prints {alg : Int} {boot : Boot} (r : Run alg boot) :
    (∀ i, i ≤ r.len → (r.prints i).length ≤ CONSOLE_CELLS →
      (r.kern i).cursorpos = cell (r.prints i).length ∧
      ∀ j x, (r.prints i)[j]? = some x → (r.kern i).cells (cell j) = x.2.toUInt16) ∧
    (∀ i p, ((r.prints i).filter fun x => x.1 = p).map Prod.snd = r.printsOf p i) ∧
    (∀ n (μ : Type) (view : Pid → Context → μ → AppState) mem, 4 * n ≤ CONSOLE_CELLS →
      r.Apps n view mem → ∀ i, i ≤ r.len →
      (∀ p, p ≠ 0 → ((r.kern i).procArray p).pState = .zombie) → ∀ p, p ≠ 0 →
      Window.count (fun j => (r.kern i).cells (cell j) = printchar p) 0 CONSOLE_CELLS = n) := by
  refine ⟨fun i hi hn => ?_, fun i p => r.prints_filter p i,
    fun n μ view mem hn h i hi hz p hp => ?_⟩
  · refine ⟨r.cursorpos_eq hi, fun j x hx => (r.written hi hn).cells j _ ?_⟩
    rw [Run.typed, List.getElem?_map, hx]
    rfl
  · have hlen := r.length_prints_of_zombies h hi hz
    have hblank : ∀ p : Pid, p ≠ 0 → BLANK ≠ printchar p := by decide
    have hw := r.written hi (by omega)
    rw [hw.count (by rw [r.length_typed]; omega) (hblank p hp), r.count_typed h hi hp,
      r.length_printsOf h hi hp (hz p hp)]

end SchedOS
