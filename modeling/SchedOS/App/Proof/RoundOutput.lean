import SchedOS.App.Proof.Exit
import SchedOS.Kern.Clock

/-!
# What the applications print under algorithm 0 without the clock

Without clock interrupts an application loses the CPU by its system calls alone, which come in a
fixed order (`App.Interrupted.trap_eq`), and algorithm 0 passes the CPU on to the next process. So
interrupt `i` is system call `i / 4` of process `i % 4 + 1` (`Run.Apps.lockstep`): the processes
print one character each, yield one after another, and exit one after another
(`masked_output`).
-/

namespace SchedOS

/-! ## One application -/

/-- The next system call of an application that makes `left` more. -/
def trapOf (left : Nat) : Trap :=
  if left = 1 then .sysExit else if left % 2 = 1 then .sysPrint else .sysYield

theorem App.step_trap {a : App} {st : AppState} {e : Event} (hv : st.Valid a.runcount)
    (h : (a.step st).1.Causes e) :
    e.trap = trapOf (st.left a.runcount) ∧ (e.trap = .sysExit → e.cpu.eax = 0) := by
  obtain ⟨pc, i⟩ := st
  cases pc with
  | print =>
    have hi : i < a.runcount := hv
    have hleft : trapOf (2 * (a.runcount - i) + 1) = .sysPrint := by
      unfold trapOf
      rw [if_neg (by omega), if_pos (by omega)]
    refine ⟨h.1.trans hleft.symm, fun he => ?_⟩
    exact nomatch he.symm.trans h.1
  | yield =>
    have hleft : trapOf (2 * (a.runcount - (i + 1)) + 2) = .sysYield := by
      unfold trapOf
      rw [if_neg (by omega), if_neg (by omega)]
    refine ⟨Eq.trans h hleft.symm, fun he => ?_⟩
    exact nomatch he.symm.trans h
  | exit => exact ⟨h.1, fun _ => h.2⟩
  | test =>
    unfold App.step at h
    dsimp only at h
    split at h <;> exact absurd h id
  | _ => exact absurd h id

/-- Without the clock the number of calls that are left tells the next one. -/
theorem App.Interrupted.trap_eq {a : App} {st st' : AppState} {e : Event}
    (h : a.Interrupted st e st') (hv : st.Valid a.runcount) (hne : e.trap ≠ .clock) :
    st.left a.runcount = st'.left a.runcount + 1 ∧ e.trap = trapOf (st.left a.runcount) ∧
      (e.trap = .sysExit → e.cpu.eax = 0) := by
  cases h with
  | clock _ ht => exact absurd ht hne
  | @call st1 hl hc =>
    obtain ⟨hv1, -⟩ := hl.keeps hv
    have hcall : (a.step st1).1.calls = 1 := by
      refine if_neg fun hs => ?_
      rw [hs] at hc
      exact hc
    obtain ⟨htrap, hexit⟩ := App.step_trap hv1 hc
    rw [hl.left hv]
    exact ⟨by rw [App.step_left hv1, hcall], htrap, hexit⟩

/-! ## All of them -/

/-- The process whose turn it is at interrupt `i`. -/
def turn (i : Nat) : Pid := ⟨i % 4 + 1, Nat.succ_lt_succ (Nat.mod_lt i (by decide))⟩

theorem turn_ne_zero (i : Nat) : turn i ≠ 0 := fun h => nomatch congrArg Fin.val h

theorem turn_eq_iff {i : Nat} {p : Pid} : turn i = p ↔ i % 4 + 1 = p.val := Fin.ext_iff

/-- The first process after the one whose turn it is. -/
theorem eq_turn_of_dist {i : Nat} {k : Pid} (hk : k ≠ 0)
    (h : upward.dist (turn i) k ≤ upward.dist (turn i) (turn (i + 1))) : k = turn (i + 1) := by
  have key : ∀ j, j < 4 → ∀ k : Pid, k ≠ 0 →
      upward.dist (turn j) k ≤ upward.dist (turn j) (turn (j + 1)) → k = turn (j + 1) := by decide
  have h0 : turn (i % 4) = turn i := turn_eq_iff.2 (by simp [turn])
  have h1 : turn (i % 4 + 1) = turn (i + 1) := turn_eq_iff.2 (by simp [turn])
  rw [← h1, ← h0] at h
  rw [← h1]
  exact key _ (Nat.mod_lt i (by decide)) k hk h

theorem one_le_val_le {p : Pid} (hp : p ≠ 0) : 1 ≤ p.val ∧ p.val ≤ 4 :=
  ⟨one_le_val hp, Nat.le_of_lt_succ p.isLt⟩

theorem AppState.left_eq_zero {n : Nat} {st : AppState} : st.left n = 0 ↔ st.pc = .loop := by
  obtain ⟨pc, i⟩ := st
  cases pc <;> simp [AppState.left]

section
variable {alg : Int} {boot : Boot} {r : Run alg boot} {n : Nat} {μ : Type}
  {view : Pid → Context → μ → AppState} {mem : Nat → Pid → μ}

/-- A process is runnable as long as its application has calls to make. -/
theorem Run.Apps.runnable_iff (h : r.Apps n view mem) {i : Nat} (hi : i ≤ r.len) {p : Pid}
    (hp : p ≠ 0) : Runnable (r.kern i).procArray p ↔ 0 < (r.appState view mem p i).left n := by
  rw [Nat.pos_iff_ne_zero, Ne, AppState.left_eq_zero]
  constructor
  · exact fun hr hl => not_runnable_of_zombie (Run.zombie_of_loop h hi hp hl) hr
  · exact fun hl => ((r.inv hi).table.state p hp).resolve_right fun hz =>
      hl ((r.apps_inv h hi hp).2.2 hz)

end

/-- Before interrupt `i` the processes have made their calls in turn. -/
structure Run.Lockstep {boot : Boot} (r : Run 0 boot) (n : Nat) {μ : Type}
    (view : Pid → Context → μ → AppState) (mem : Nat → Pid → μ) (i : Nat) : Prop where
  left : ∀ p, p ≠ 0 → (r.appState view mem p i).left n + (i + 4 - p.val) / 4 = 2 * n + 1
  running : i < 8 * n + 4 → (r.state i).running = some (turn i)

section
variable {boot : Boot} {r : Run 0 boot} {n : Nat} {μ : Type} {view : Pid → Context → μ → AppState}
  {mem : Nat → Pid → μ} (h : r.Apps n view mem)
include h

theorem Run.Apps.runnable_of_left {i : Nat} (hi : i ≤ r.len)
    (hl : ∀ p, p ≠ 0 → (r.appState view mem p i).left n + (i + 4 - p.val) / 4 = 2 * n + 1)
    {p : Pid} (hp : p ≠ 0) : Runnable (r.kern i).procArray p ↔ i < 8 * n + p.val := by
  have := hl p hp
  have := one_le_val_le hp
  rw [h.runnable_iff hi hp]
  omega

/-- The call that a process makes in its turn. -/
theorem Run.Lockstep.call {i : Nat} (hl : r.Lockstep n view mem i) (hi : i < r.len)
    (hne : (r.event i).trap ≠ .clock) (hn : i < 8 * n + 4) :
    (r.kern i).current = turn i ∧
      (r.appState view mem (turn i) i).left n =
        (r.appState view mem (turn i) (i + 1)).left n + 1 ∧
      (r.event i).trap = trapOf (2 * n + 1 - i / 4) ∧
      ((r.event i).trap = .sysExit → (r.event i).cpu.eax = 0) := by
  have hc : (r.kern i).current = turn i := Machine.current_of_running (hl.running hn)
  obtain ⟨hleft, htrap, hexit⟩ := (r.appState_current h hi hc).trap_eq
    (r.apps_inv h (Nat.le_of_lt hi) (turn_ne_zero i)).1 hne
  have hl' : (r.appState view mem (turn i) i).left n = 2 * n + 1 - i / 4 := by
    have h1 := hl.left (turn i) (turn_ne_zero i)
    have h2 : (turn i).val = i % 4 + 1 := rfl
    omega
  exact ⟨hc, hleft, hl' ▸ htrap, hexit⟩

theorem Run.Lockstep.succ {i : Nat} (hl : r.Lockstep n view mem i) (hi : i < r.len)
    (hne : (r.event i).trap ≠ .clock) (hn : i < 8 * n + 4) : r.Lockstep n view mem (i + 1) := by
  obtain ⟨hc, hleft, -⟩ := hl.call h hi hne hn
  have hl' : ∀ p, p ≠ 0 →
      (r.appState view mem p (i + 1)).left n + (i + 1 + 4 - p.val) / 4 = 2 * n + 1 := by
    intro p hp
    have h1 := hl.left p hp
    have h2 := one_le_val_le hp
    by_cases hpc : turn i = p
    · have h3 := turn_eq_iff.1 hpc
      rw [hpc] at hleft
      omega
    · have h3 := mt turn_eq_iff.2 hpc
      rw [r.appState_other h hi fun he => hpc (hc.symm.trans he)]
      omega
  refine ⟨hl', fun hn' => ?_⟩
  have hrun : Runnable (r.call i).procArray (turn (i + 1)) := by
    refine r.runnable_call hi ((h.runnable_of_left hi hl' (turn_ne_zero _)).2 ?_)
    have h2 : (turn (i + 1)).val = (i + 1) % 4 + 1 := rfl
    omega
  obtain ⟨k, hd, hk, hfirst⟩ := r.first_up hi ⟨_, hrun⟩
  have hk0 := (r.call_inv (Nat.le_of_lt hi)).table.ne_zero hk
  rw [hc] at hfirst
  rw [← eq_turn_of_dist hk0 (hfirst _ hrun)]
  exact hd

variable (hclock : ∀ i, i < r.len → (r.event i).trap ≠ .clock)
include hclock

theorem Run.Apps.lockstep_of_le {i : Nat} (hi : i ≤ r.len) (hn : i ≤ 8 * n + 4) :
    r.Lockstep n view mem i := by
  induction i with
  | zero =>
    refine ⟨fun p hp => ?_, fun _ => ?_⟩
    · have hpc : (r.appState view mem p 0).pc = .init := h.start p hp
      have := one_le_val_le hp
      unfold AppState.left
      rw [hpc]
      show 2 * n + 1 + (0 + 4 - p.val) / 4 = 2 * n + 1
      omega
    · rw [r.start]
      rfl
  | succ i ih =>
    exact (ih (Nat.le_of_lt hi) (Nat.le_of_lt hn)).succ h hi (hclock i hi) hn

/-- The run ends when each application has made its `2 * n + 1` calls. -/
theorem Run.Apps.len_le : r.len ≤ 8 * n + 4 := by
  apply Nat.le_of_not_lt
  intro hlt
  have hl := h.lockstep_of_le hclock (Nat.le_of_lt hlt) (Nat.le_refl _)
  have hI := r.inv (Nat.le_of_lt hlt)
  have hrun := hI.running _ (r.steps _ hlt).running_current
  have := (h.runnable_of_left (Nat.le_of_lt hlt) hl.left hI.current).1 hrun
  have := one_le_val_le hI.current
  omega

theorem Run.Apps.lockstep {i : Nat} (hi : i ≤ r.len) : r.Lockstep n view mem i :=
  h.lockstep_of_le hclock hi (Nat.le_trans hi (h.len_le hclock))

theorem Run.Apps.lockstep_call {i : Nat} (hi : i < r.len) :
    (r.kern i).current = turn i ∧ (r.event i).trap = trapOf (2 * n + 1 - i / 4) ∧
      ((r.event i).trap = .sysExit → (r.event i).cpu.eax = 0) := by
  have hn := Nat.lt_of_lt_of_le hi (h.len_le hclock)
  obtain ⟨hc, -, ht, hexit⟩ :=
    (h.lockstep hclock (Nat.le_of_lt hi)).call h hi (hclock i hi) hn
  exact ⟨hc, ht, hexit⟩

/-! ## The output -/

omit h hclock in
theorem trapOf_eq_sysPrint {n i : Nat} (hi : i < 8 * n + 4) :
    trapOf (2 * n + 1 - i / 4) = .sysPrint ↔ i % 8 < 4 ∧ i < 8 * n := by
  unfold trapOf
  split_ifs with h1 h2
  · simp only [false_iff]
    omega
  · simp only [true_iff]
    omega
  · simp only [false_iff]
    omega

omit h hclock in
theorem trapOf_eq_sysExit {n i : Nat} (hi : i < 8 * n + 4) :
    trapOf (2 * n + 1 - i / 4) = .sysExit ↔ 8 * n ≤ i := by
  unfold trapOf
  split_ifs with h1 h2
  · simp only [true_iff]
    omega
  · simp only [false_iff]
    omega
  · simp only [false_iff]
    omega

/-- The number of `sys_print` calls among the first `i` interrupts. -/
def printCount (n i : Nat) : Nat := min (4 * (i / 8) + min (i % 8) 4) (4 * n)

/-- The processes print in turn. -/
theorem Run.Apps.prints_turn {i : Nat} (hi : i ≤ r.len) :
    (r.prints i).map Prod.fst = (List.range (printCount n i)).map turn := by
  induction i with
  | zero => rfl
  | succ i ih =>
    have ih := ih (Nat.le_of_lt hi)
    have hn := Nat.lt_of_lt_of_le hi (h.len_le hclock)
    obtain ⟨hc, ht, -⟩ := h.lockstep_call hclock hi
    have hprint : (r.event i).trap = .sysPrint ↔ i % 8 < 4 ∧ i < 8 * n := by
      rw [ht]
      exact trapOf_eq_sysPrint hn
    by_cases hp : (r.event i).trap = .sysPrint
    · obtain ⟨h1, h2⟩ := hprint.1 hp
      have hcount : printCount n (i + 1) = printCount n i + 1 := by
        unfold printCount
        omega
      have hturn : turn i = turn (printCount n i) := by
        refine turn_eq_iff.2 ?_
        show i % 4 + 1 = printCount n i % 4 + 1
        unfold printCount
        omega
      rw [r.prints_print hp, List.map_append, ih, hcount, List.range_succ, List.map_append,
        List.map_singleton, List.map_singleton, hc, hturn]
    · have hcount : printCount n (i + 1) = printCount n i := by
        have h1 := mt hprint.2 hp
        unfold printCount
        omega
      rw [r.prints_other hp, ih, hcount]

theorem Run.Apps.typed_turn {i : Nat} (hi : i ≤ r.len) :
    r.typed i = (List.range (printCount n i)).map fun j => printchar (turn j) := by
  have howner : r.typed i = (r.prints i).map fun x => printchar x.1 :=
    List.map_congr_left fun x hx => (r.prints_owner h hi hx).2
  have hmap := congrArg (List.map printchar) (h.prints_turn hclock hi)
  rw [List.map_map, List.map_map] at hmap
  exact howner.trans hmap

end

/-- The characters of the four processes, `n` times. -/
def rounds (n : Nat) : List UInt16 := (List.replicate n (turns.map printchar)).flatten

theorem rounds_eq (n : Nat) :
    rounds n = (List.range (4 * n)).map fun j => printchar (turn j) := by
  induction n with
  | zero => rfl
  | succ n ih =>
    have hround : ((List.range 4).map fun j => printchar (turn (4 * n + j))) =
        turns.map printchar := by
      have h : ∀ j, turn (4 * n + j) = turn j := fun j => turn_eq_iff.2 (by simp [turn])
      simp only [h]
      rfl
    have hsnoc : rounds (n + 1) = rounds n ++ turns.map printchar := by
      unfold rounds
      rw [List.replicate_succ', List.flatten_append, List.flatten_singleton]
    rw [hsnoc, ih, ← hround, Nat.mul_succ, List.range_add, List.map_append, List.map_map]
    rfl

section
variable {boot : Boot} {r : Run 0 boot} {n : Nat} {μ : Type} {view : Pid → Context → μ → AppState}
  {mem : Nat → Pid → μ} (h : r.Apps n view mem)
  (hclock : ∀ i, i < r.len → (r.event i).trap ≠ .clock)
include h hclock

theorem Run.Apps.typed_prefix_rounds {i : Nat} (hi : i ≤ r.len) : r.typed i <+: rounds n := by
  have hle : printCount n i ≤ 4 * n := Nat.min_le_right _ _
  obtain ⟨m, hm⟩ := Nat.le.dest hle
  rw [h.typed_turn hclock hi, rounds_eq, ← hm, List.range_add, List.map_append]
  exact List.prefix_append _ _

variable (hlen : r.len = 8 * n + 4)
include hlen

omit h hclock in
theorem Run.printCount_len : printCount n r.len = 4 * n := by
  unfold printCount
  omega

theorem Run.Apps.typed_rounds : r.typed r.len = rounds n := by
  rw [h.typed_turn hclock (Nat.le_refl _), rounds_eq, r.printCount_len hlen]

theorem Run.Apps.length_prints : (r.prints r.len).length = 4 * n := by
  rw [← r.length_typed, h.typed_rounds hclock hlen, rounds_eq, List.length_map, List.length_range]

/-- Who has made print `j`. -/
theorem Run.Apps.printer {j : Nat} {x : Pid × UInt32} (hx : (r.prints r.len)[j]? = some x) :
    j < 4 * n ∧ x.1 = turn j := by
  have hj : j < 4 * n := by
    rw [← h.length_prints hclock hlen]
    exact (List.getElem?_eq_some_iff.1 hx).1
  have hmap := congrArg (fun l => l[j]?) (h.prints_turn hclock (Nat.le_refl _))
  rw [r.printCount_len hlen, List.getElem?_map, List.getElem?_map, hx,
    List.getElem?_range hj] at hmap
  exact ⟨hj, Option.some.inj hmap⟩

/-- The last character of process `p`. -/
theorem Run.Apps.last_print (hn : 0 < n) {p : Pid} (hp : p ≠ 0) :
    (∃ x, (r.prints r.len)[4 * n - 4 + p.val - 1]? = some x ∧ x.1 = p) ∧
      ∀ j x, (r.prints r.len)[j]? = some x → x.1 = p → j + 1 ≤ 4 * n - 4 + p.val := by
  have h4 := one_le_val_le hp
  constructor
  · have hlt : 4 * n - 4 + p.val - 1 < (r.prints r.len).length := by
      rw [h.length_prints hclock hlen]
      omega
    have hx := List.getElem?_eq_getElem hlt
    refine ⟨_, hx, (h.printer hclock hlen hx).2.trans (turn_eq_iff.2 ?_)⟩
    omega
  · intro j x hx hxp
    obtain ⟨hj, hturn⟩ := h.printer hclock hlen hx
    have := turn_eq_iff.1 (hturn.symm.trans hxp)
    omega

/-- All four have exited with status 0. -/
theorem Run.Apps.exited {p : Pid} (hp : p ≠ 0) : Exited (r.kern r.len).procArray p 0 := by
  have h4 := one_le_val_le hp
  have hi : 8 * n + p.val - 1 < r.len := by omega
  obtain ⟨hc, ht, hexit⟩ := h.lockstep_call hclock hi
  have htrap := ht.trans ((trapOf_eq_sysExit (by omega)).2 (by omega))
  have hturn : turn (8 * n + p.val - 1) = p := turn_eq_iff.2 (by omega)
  obtain ⟨hf, -, -⟩ := (r.steps _ hi).frame (r.inv (Nat.le_of_lt hi))
  have hx := (call_exited htrap (r.kern (8 * n + p.val - 1))).frame hf
  rw [hexit htrap, hc, hturn] at hx
  exact r.exited_keeps hi (Nat.le_refl _) hx

end

/-- **The output of the shipped configuration**: under algorithm 0 with the clock masked the four
applications make their calls in turn, every call of `schedule()` before the last exit running the
process whose turn is next, so that they print `rounds n` and exit with status 0; and they have such
a run. -/
theorem masked_output (boot : Boot) (n : Nat) (pics : Pics) :
    (∀ (r : Run 0 boot) (μ : Type) (view : Pid → Context → μ → AppState) mem, r.Apps n view mem →
      r.Under (pics.outbs (interruptControllerInit false)) →
      r.len ≤ 8 * n + 4 ∧
      (∀ i, i ≤ r.len → r.typed i <+: rounds n) ∧
      (∀ i, i < r.len → ((r.event i).trap = .sysExit ↔ 8 * n ≤ i) ∧
        (i + 1 < 8 * n + 4 → r.dispatched i = some (turn (i + 1)))) ∧
      (r.len = 8 * n + 4 →
        r.typed r.len = rounds n ∧
        (4 * n ≤ CONSOLE_CELLS → Tape.Written cell CONSOLE_CELLS BLANK (r.kern r.len).cells
          (r.kern r.len).cursorpos (rounds n)) ∧
        (0 < n → ∀ p, p ≠ 0 →
          (∃ x, (r.prints r.len)[4 * n - 4 + p.val - 1]? = some x ∧ x.1 = p) ∧
          ∀ j x, (r.prints r.len)[j]? = some x → x.1 = p → j + 1 ≤ 4 * n - 4 + p.val) ∧
        ∀ p, p ≠ 0 → Exited (r.kern r.len).procArray p 0)) ∧
    ∃ (r : Run 0 boot) (mem : Nat → Pid → AppState), r.Apps n inMemory mem ∧
      r.Under (pics.outbs (interruptControllerInit false)) ∧ r.len = 8 * n + 4 := by
  refine ⟨fun r μ view mem h hunder => ?_, ?_⟩
  · have hclock : ∀ i, i < r.len → (r.event i).trap ≠ .clock := fun i hi => hunder.trap_ne_clock hi
    refine ⟨h.len_le hclock, fun i hi => h.typed_prefix_rounds hclock hi, fun i hi => ⟨?_, ?_⟩,
      fun hlen => ⟨h.typed_rounds hclock hlen, fun hn => ?_, fun hn p hp => ?_, fun p hp => ?_⟩⟩
    · rw [(h.lockstep_call hclock hi).2.1]
      exact trapOf_eq_sysExit (Nat.lt_of_lt_of_le hi (h.len_le hclock))
    · exact (h.lockstep hclock hi).running
    · rw [← h.typed_rounds hclock hlen]
      refine r.written (Nat.le_refl _) ?_
      rwa [h.length_prints hclock hlen]
    · exact h.last_print hclock hlen hn hp
    · exact h.exited hclock hlen hp
  · have h0 : (noInterrupt 0 boot).Apps n inMemory fun _ _ => ⟨.init, 0⟩ :=
      ⟨fun _ _ => rfl, fun _ _ _ _ => rfl, fun i hi => absurd hi (Nat.not_lt_zero i)⟩
    obtain ⟨r, mem, h, -, hz, hclock⟩ := h0.exists_exit (.inl rfl)
    have hclock : ∀ i, i < r.len → (r.event i).trap ≠ .clock := fun i => hclock i (Nat.zero_le i)
    refine ⟨r, mem, h, fun i hi ht => absurd ht (hclock i hi), ?_⟩
    apply Nat.le_antisymm (h.len_le hclock)
    apply Nat.le_of_not_lt
    intro hlt
    have hrun := (h.lockstep hclock (Nat.le_refl r.len)).running hlt
    exact not_runnable_of_zombie (hz _ (turn_ne_zero _)) ((r.inv (Nat.le_refl _)).running _ hrun)

end SchedOS
