import SchedOS.App.Proof.Exit
import SchedOS.Lib.InTurn

/-!
# What the applications print under algorithm 2

Algorithm 2 always runs the least runnable pid (`strict_dispatched_iff`, `Run.strict_running_iff`). No
process becomes runnable again, so `current` never goes back (`Run.current_mono`) and the processes
print in turn: what they have printed is what process 1 has printed, then process 2, and so on
(`Run.typed_in_turn`). For the applications this is the sequential output (`strict_output`).
-/

namespace SchedOS

/-! ## Any processes -/

section
variable {boot : Boot} (r : Run 2 boot)

theorem Run.strict_dispatched_iff {i : Nat} (hi : i < r.len) {k : Pid} :
    r.dispatched i = some k ↔ Runnable (r.call i).procArray k ∧
      ∀ q, Runnable (r.call i).procArray q → k ≤ q := by
  constructor
  · intro hd
    have hk := ((r.steps i hi).frame (r.inv (Nat.le_of_lt hi))).2.2 k hd
    obtain ⟨k', hd', hleast⟩ := r.dispatch_least hi ⟨k, hk⟩
    rw [hd] at hd'
    cases hd'
    exact hleast
  · rintro ⟨hk, hle⟩
    obtain ⟨k', hd, hk', hle'⟩ := r.dispatch_least hi ⟨k, hk⟩
    rw [hd, Fin.le_antisymm (hle' k hk) (hle k' hk')]

/-- The process that has the CPU is the least runnable one. -/
theorem Run.strict_running_iff {i : Nat} (hi : i ≤ r.len) {k : Pid} :
    (r.state i).running = some k ↔ Runnable (r.kern i).procArray k ∧
      ∀ q, Runnable (r.kern i).procArray q → k ≤ q := by
  cases i with
  | zero =>
    have hone : Runnable (r.kern 0).procArray 1 := by
      rw [r.kern_zero]
      rfl
    have hle : ∀ q, Runnable (r.kern 0).procArray q → (1 : Pid) ≤ q := fun q hq =>
      one_le_val ((r.inv hi).table.ne_zero hq)
    have hrun : (r.state 0).running = some 1 := congrArg Machine.running r.start
    rw [hrun, Option.some.injEq]
    constructor
    · rintro rfl
      exact ⟨hone, hle⟩
    · exact fun h => Fin.le_antisymm (hle k h.1) (h.2 1 hone)
  | succ i =>
    have hf := ((r.steps i hi).frame (r.inv (Nat.le_of_lt hi))).1.runnable
    refine (r.strict_dispatched_iff hi).trans ?_
    exact and_congr (hf k).symm (forall_congr' fun q => imp_congr (hf q).symm Iff.rfl)

/-- `current` never goes back. -/
theorem Run.current_mono {i j : Nat} (hij : i ≤ j) (hj : j ≤ r.len) :
    (r.kern i).current ≤ (r.kern j).current := by
  induction j, hij using Nat.le_induction with
  | base => exact Fin.le_refl _
  | succ j hij ih =>
    refine Fin.le_trans (ih (Nat.le_of_lt hj)) ?_
    obtain ⟨s, c, hs, ⟨pa, k, -, hk⟩ | ⟨-, hstuck⟩⟩ := (r.steps j hj).inv
    · have hd : r.dispatched j = some k := congrArg Machine.running hk
      have hrun := ((r.strict_dispatched_iff hj).1 hd).1
      rw [r.current_of_dispatched j hd]
      exact ((r.strict_running_iff (Nat.le_of_lt hj)).1 (r.steps j hj).running_current).2 k
        (runnable_of_call hrun)
    · have hs' : r.kern j = s := congrArg Machine.kern hs
      rw [hs', Run.kern, hstuck, Machine.kern_stuck, call_current]

/-- The processes before the one whose turn it is have exited. -/
theorem Run.zombie_of_lt {i : Nat} (hi : i ≤ r.len) {q : Pid} (hq : q ≠ 0)
    (hlt : q < (r.kern i).current) : ((r.kern i).procArray q).pState = .zombie := by
  refine ((r.inv hi).table.state q hq).resolve_left fun hrun => ?_
  cases hs : r.state i with
  | user s c =>
    have hk : (r.state i).running = some (r.kern i).current := by
      rw [Run.kern, hs]
      rfl
    exact Fin.not_le.2 hlt (((r.strict_running_iff hi).1 hk).2 q hrun)
  | stuck s =>
    cases i with
    | zero =>
      rw [r.start] at hs
      cases hs
    | succ i =>
      obtain ⟨k, hd, -⟩ := r.dispatch_least hi ⟨q, r.runnable_call hi hrun⟩
      rw [Run.dispatched, hs] at hd
      cases hd

/-- A process prints nothing before its turn. -/
theorem Run.printsOf_of_lt {i : Nat} (hi : i ≤ r.len) {q : Pid} (hq : (r.kern i).current < q) :
    r.printsOf q i = [] := by
  induction i with
  | zero => rfl
  | succ i ih =>
    have hlt := Fin.lt_of_le_of_lt (r.current_mono (Nat.le_succ i) hi) hq
    have hother : r.printsOf q (i + 1) = r.printsOf q i :=
      if_neg fun h => Fin.ne_of_lt hlt h.2
    rw [hother]
    exact ih (Nat.le_of_lt hi) hlt

/-- The processes print in turn. -/
theorem Run.typed_in_turn {i : Nat} (hi : i ≤ r.len) :
    r.typed i = turns.flatMap fun p => (r.printsOf p i).map UInt32.toUInt16 := by
  induction i with
  | zero => rfl
  | succ i ih =>
    have hle := Nat.le_of_lt hi
    have htyped : r.typed (i + 1) = r.typed i ++ (r.event i).output := by
      unfold Run.typed Event.output
      split
      · rename_i ht
        rw [r.prints_print ht, List.map_append]
        rfl
      · rename_i ht
        rw [r.prints_other ht, List.append_nil]
    rw [htyped, ih hle]
    symm
    refine InTurn.flatMap_write turns_pairwise ((mem_turns _).2 (r.inv hle).current)
      (r.printsOf_succ rfl) (fun q hq => ?_) fun q hq => ?_
    · exact congrArg _ (if_neg fun h => hq h.2.symm)
    · rw [r.printsOf_of_lt hle hq]
      rfl

end

/-! ## The applications -/

/-- `RUNCOUNT` characters of each process, one process after another. -/
def sequential (n : Nat) : List UInt16 := turns.flatMap fun p => List.replicate n (printchar p)

theorem AppState.printed_le {n : Nat} {st : AppState} (h : st.Valid n) : st.printed ≤ n := by
  obtain ⟨pc, i⟩ := st
  cases pc with
  | init => exact Nat.zero_le n
  | exit | loop => exact Nat.le_of_eq h
  | print => exact Nat.le_of_lt h
  | _ => exact h

theorem Run.exists_exit_of_zombie {alg : Int} {boot : Boot} (r : Run alg boot) {i : Nat}
    (hi : i ≤ r.len) {p : Pid} (hp : p ≠ 0) (hz : ((r.kern i).procArray p).pState = .zombie) :
    ∃ j, j < i ∧ (r.event j).trap = .sysExit ∧ (r.kern j).current = p := by
  induction i with
  | zero =>
    rw [r.kern_zero, start_procArray alg boot hp] at hz
    cases hz
  | succ i ih =>
    rcases r.zombie_succ hi hz with ⟨hc, ht⟩ | hz'
    · exact ⟨i, Nat.lt_succ_self i, ht, hc.symm⟩
    · obtain ⟨j, hj, h⟩ := ih (Nat.le_of_lt hi) hz'
      exact ⟨j, Nat.lt_succ_of_lt hj, h⟩

section
variable {boot : Boot} {r : Run 2 boot} {n : Nat} {μ : Type} {view : Pid → Context → μ → AppState}
  {mem : Nat → Pid → μ} (h : r.Apps n view mem)
include h

/-- A process that has exited has printed all its characters. -/
theorem Run.Apps.printsOf_zombie {i : Nat} (hi : i ≤ r.len) {p : Pid} (hp : p ≠ 0)
    (hz : ((r.kern i).procArray p).pState = .zombie) :
    (r.printsOf p i).map UInt32.toUInt16 = List.replicate n (printchar p) := by
  obtain ⟨-, hout, -⟩ := r.apps_inv h hi hp
  have hlen := congrArg List.length hout
  rw [List.length_map, List.length_replicate, r.length_printsOf h hi hp hz] at hlen
  rw [hout, hlen]

theorem Run.Apps.typed_prefix {i : Nat} (hi : i ≤ r.len) : r.typed i <+: sequential n := by
  have hc := (r.inv hi).current
  rw [r.typed_in_turn hi]
  refine InTurn.flatMap_prefix turns_pairwise ((mem_turns _).2 hc) (fun q hq hlt => ?_) ?_
    fun q _ hlt => ?_
  · have hq0 := (mem_turns q).1 hq
    exact h.printsOf_zombie hi hq0 (r.zombie_of_lt hi hq0 hlt)
  · obtain ⟨hv, hout, -⟩ := r.apps_inv h hi hc
    rw [hout]
    obtain ⟨m, hm⟩ := Nat.le.dest (AppState.printed_le hv)
    rw [← hm, List.replicate_add]
    exact List.prefix_append _ _
  · rw [r.printsOf_of_lt hi hlt]
    rfl

theorem Run.Apps.typed_complete {i : Nat} (hi : i ≤ r.len)
    (hz : ∀ p, p ≠ 0 → ((r.kern i).procArray p).pState = .zombie) : r.typed i = sequential n := by
  rw [r.typed_in_turn hi]
  refine List.flatMap_congr fun p hp => ?_
  exact h.printsOf_zombie hi ((mem_turns p).1 hp) (hz p ((mem_turns p).1 hp))

omit h in
/-- Process `p` exits after the characters of the processes up to `p`, before all others. -/
theorem Run.print_before_exit_iff {i j : Nat} (hi : i < r.len) (hj : j < r.len)
    (hexit : (r.event i).trap = .sysExit) (hprint : (r.event j).trap = .sysPrint) :
    j < i ↔ (r.kern j).current ≤ (r.kern i).current := by
  constructor
  · exact fun hji => r.current_mono (Nat.le_of_lt hji) (Nat.le_of_lt hi)
  · intro hle
    apply Nat.lt_of_not_le
    intro hij
    have hne : i ≠ j := by
      rintro rfl
      rw [hexit] at hprint
      cases hprint
    have hcur : (r.kern i).current = (r.kern j).current :=
      Fin.le_antisymm (r.current_mono hij (Nat.le_of_lt hj)) hle
    -- the process would have the CPU after its exit
    obtain ⟨hf, -, -⟩ := (r.steps i hi).frame (r.inv (Nat.le_of_lt hi))
    have hx : Exited (r.kern (i + 1)).procArray (r.kern i).current
      (r.event i).cpu.eax.toInt32 := (call_exited hexit (r.kern i)).frame hf
    have hx := r.exited_keeps (b := j) (Nat.lt_of_le_of_ne hij hne) (Nat.le_of_lt hj) hx
    rw [hcur] at hx
    exact hx.not_runnable ((r.inv (Nat.le_of_lt hj)).running _ (r.steps j hj).running_current)

end

/-- **The output of algorithm 2**: whatever the clock does, the process that has the CPU is the
least runnable one, what the four applications have printed is a prefix of the sequential output and
all of it once they have exited, and process `p` exits after the characters of the processes up to
`p` and before all others. Such a run comes to its end. -/
theorem strict_output (boot : Boot) (n : Nat) :
    (∀ (r : Run 2 boot) (μ : Type) (view : Pid → Context → μ → AppState) mem, r.Apps n view mem →
      (∀ i, i ≤ r.len → ∀ k, (r.state i).running = some k ↔
        Runnable (r.kern i).procArray k ∧ ∀ q, Runnable (r.kern i).procArray q → k ≤ q) ∧
      (∀ i, i ≤ r.len → r.typed i <+: sequential n) ∧
      (∀ i, i ≤ r.len → (∀ p, p ≠ 0 → ((r.kern i).procArray p).pState = .zombie) →
        r.typed i = sequential n) ∧
      (∀ i j, i < r.len → j < r.len → (r.event i).trap = .sysExit → (r.event j).trap = .sysPrint →
        (j < i ↔ (r.kern j).current ≤ (r.kern i).current)) ∧
      (∀ j p, j < r.len → (r.event j).trap = .sysPrint → p ≠ 0 → p < (r.kern j).current →
        ∃ i, i < j ∧ (r.event i).trap = .sysExit ∧ (r.kern i).current = p)) ∧
    ∃ (r : Run 2 boot) (mem : Nat → Pid → AppState), r.Apps n inMemory mem ∧
      r.typed r.len = sequential n ∧
      ∀ p, p ≠ 0 → ((r.kern r.len).procArray p).pState = .zombie := by
  refine ⟨fun r μ view mem h => ⟨fun i hi k => r.strict_running_iff hi,
    fun i hi => h.typed_prefix hi, fun i hi => h.typed_complete hi,
    fun i j hi hj => r.print_before_exit_iff hi hj, fun j p hj _ hp hlt => ?_⟩, ?_⟩
  · exact r.exists_exit_of_zombie (Nat.le_of_lt hj) hp (r.zombie_of_lt (Nat.le_of_lt hj) hp hlt)
  · obtain ⟨r, mem, h, hz⟩ := apps_exit (.inr (.inl rfl)) n
    exact ⟨r, mem, h, h.typed_complete (Nat.le_refl _) hz, hz⟩

end SchedOS
