import Mathlib.Algebra.BigOperators.Group.Finset.Piecewise
import SchedOS.Kern.Proof.Strict
import SchedOS.Lib.Tape

/-!
# The screen

The `sys_print` calls of a run write a tape: the cells of the console, with `cursorpos` as the head
(`Run.written`). The head is never set back, so the calls stay on the screen exactly as long as
there are no more of them than cells (`print_on_screen_iff`), and up to then the screen holds what
was printed, in the order of the calls (`Run.written`).
-/

namespace SchedOS

/-! ## The cells -/

theorem cell_zero : cell 0 = CONSOLE_BEGIN := by decide

theorem cell_succ (k : Nat) : cell (k + 1) = cell k + 2 := by
  unfold cell Nat.toUInt32
  rw [UInt32.ofNat_add, UInt32.mul_add, ← UInt32.add_assoc]
  rfl

theorem toNat_cell {k : Nat} (h : k ≤ CONSOLE_CELLS) : (cell k).toNat = 0xB8000 + 2 * k := by
  induction k with
  | zero => decide
  | succ k ih =>
    rw [cell_succ, UInt32.toNat_add, ih (by omega)]
    have hcells : CONSOLE_CELLS = 2000 := rfl
    show (_ + 2) % 2 ^ 32 = _
    omega

/-- The cells of the console and the one after them. -/
theorem cell_inj_succ :
    ∀ i j, i < CONSOLE_CELLS + 1 → j < CONSOLE_CELLS + 1 → cell i = cell j → i = j := by
  intro i j hi hj h
  have h1 := toNat_cell (Nat.le_of_lt_succ hi)
  have h2 := toNat_cell (Nat.le_of_lt_succ hj)
  rw [h] at h1
  omega

theorem cell_inj : ∀ i j, i < CONSOLE_CELLS → j < CONSOLE_CELLS → cell i = cell j → i = j :=
  fun i j hi hj => cell_inj_succ i j (Nat.lt_succ_of_lt hi) (Nat.lt_succ_of_lt hj)

theorem cell_mem {k : Nat} (h : k ≤ CONSOLE_CELLS) :
    CONSOLE_BEGIN ≤ cell k ∧ cell k ≤ CONSOLE_END ∧ (k < CONSOLE_CELLS → cell k < CONSOLE_END) := by
  have hk := toNat_cell h
  have hend : CONSOLE_END.toNat = 0xB8000 + 2 * CONSOLE_CELLS := by decide
  have hbegin : CONSOLE_BEGIN.toNat = 0xB8000 := by decide
  rw [UInt32.le_iff_toNat_le, UInt32.le_iff_toNat_le, UInt32.lt_iff_toNat_lt]
  omega

theorem consoleClear_cell (cells : UInt32 → UInt16) {j : Nat} (hj : j < CONSOLE_CELLS) :
    consoleClear cells (cell j) = BLANK := by
  have key : ∀ n, n ≤ CONSOLE_CELLS → j < n →
      (List.range n).foldl (fun cells i => Function.update cells (cell i) BLANK) cells (cell j) =
        BLANK := by
    intro n
    induction n with
    | zero => omega
    | succ n ih =>
      intro hn hjn
      rw [List.range_succ, List.foldl_append, List.foldl_cons, List.foldl_nil]
      by_cases h : j = n
      · rw [h, Function.update_self]
      · rw [Function.update_of_ne fun he => h (cell_inj j n hj (by omega) he)]
        exact ih (by omega) (by omega)
  exact key _ (Nat.le_refl _) hj

theorem consoleClear_outside (cells : UInt32 → UInt16) {a : UInt32}
    (ha : ¬ (CONSOLE_BEGIN ≤ a ∧ a < CONSOLE_END)) : consoleClear cells a = cells a := by
  have key : ∀ n, n ≤ CONSOLE_CELLS →
      (List.range n).foldl (fun cells i => Function.update cells (cell i) BLANK) cells a =
        cells a := by
    intro n
    induction n with
    | zero => exact fun _ => rfl
    | succ n ih =>
      intro hn
      obtain ⟨h1, -, h3⟩ := cell_mem (k := n) (by omega)
      have hne : a ≠ cell n := by
        rintro rfl
        exact ha ⟨h1, h3 hn⟩
      rw [List.range_succ, List.foldl_append, List.foldl_cons, List.foldl_nil,
        Function.update_of_ne hne]
      exact ih (by omega)
  exact key _ (Nat.le_refl _)

/-! ## The prints of a run -/

section
variable (e : Event) (s : Kernel)

theorem call_cells : (e.call s).cells =
    if e.trap = .sysPrint then Function.update s.cells s.cursorpos e.cpu.eax.toUInt16
    else s.cells := by
  rw [call_eq, ← registers_eax]
  cases e.trap <;> rfl

theorem call_cursorpos :
    (e.call s).cursorpos = if e.trap = .sysPrint then s.cursorpos + 2 else s.cursorpos := by
  rw [call_eq]
  cases e.trap <;> rfl

end

/-- The scheduler leaves the screen alone. -/
theorem Step.screen {m m' : Machine} {e : Event} (h : Step m e m') :
    m'.kern.cells = (e.call m.kern).cells ∧ m'.kern.cursorpos = (e.call m.kern).cursorpos := by
  obtain ⟨s, c, rfl, ⟨pa, k, -, rfl⟩ | ⟨-, rfl⟩⟩ := h.inv
  · exact ⟨rfl, rfl⟩
  · exact ⟨rfl, rfl⟩

theorem start_cells (alg : Int) (boot : Boot) :
    (start alg boot).kern.cells = consoleClear boot.cells := by
  simp only [start, run, startKernel, Machine.kern_user]

section
variable {alg : Int} {boot : Boot} (r : Run alg boot)

/-- The `sys_print` calls among the first interrupts: who makes them, and with what argument. -/
def Run.prints : Nat → List (Pid × UInt32)
  | 0 => []
  | i + 1 =>
    if (r.event i).trap = .sysPrint then
      Run.prints i ++ [((r.kern i).current, (r.event i).cpu.eax)]
    else Run.prints i

/-- The arguments of the `sys_print` calls of one process. -/
def Run.printsOf (p : Pid) : Nat → List UInt32
  | 0 => []
  | i + 1 =>
    if (r.event i).trap = .sysPrint ∧ (r.kern i).current = p then
      Run.printsOf p i ++ [(r.event i).cpu.eax]
    else Run.printsOf p i

/-- The characters that the `sys_print` calls print. -/
def Run.typed (i : Nat) : List UInt16 := (r.prints i).map fun x => x.2.toUInt16

theorem Run.length_typed (i : Nat) : (r.typed i).length = (r.prints i).length :=
  List.length_map _

theorem Run.prints_print {i : Nat} (h : (r.event i).trap = .sysPrint) :
    r.prints (i + 1) = r.prints i ++ [((r.kern i).current, (r.event i).cpu.eax)] := if_pos h

theorem Run.prints_other {i : Nat} (h : (r.event i).trap ≠ .sysPrint) :
    r.prints (i + 1) = r.prints i := if_neg h

theorem Run.length_prints (i : Nat) :
    (r.prints i).length = Window.count (fun j => (r.event j).trap = .sysPrint) 0 i := by
  induction i with
  | zero => rfl
  | succ i ih =>
    rw [Window.count_succ _ (Nat.zero_le i), ← ih]
    split
    · rename_i h
      rw [r.prints_print h, List.length_append, List.length_singleton]
    · rename_i h
      rw [r.prints_other h, Nat.add_zero]

theorem Run.length_prints_mono {i j : Nat} (h : i ≤ j) :
    (r.prints i).length ≤ (r.prints j).length := by
  rw [r.length_prints, r.length_prints]
  exact Window.count_le_count _ (Nat.le_refl 0) h

/-- The calls of a process come in its own order. -/
theorem Run.prints_filter (p : Pid) (i : Nat) :
    ((r.prints i).filter fun x => x.1 = p).map Prod.snd = r.printsOf p i := by
  induction i with
  | zero => rfl
  | succ i ih =>
    by_cases h : (r.event i).trap = .sysPrint
    · rw [r.prints_print h, List.filter_append, List.map_append, ih, Run.printsOf]
      by_cases hp : (r.kern i).current = p
      · simp [h, hp]
      · simp [h, hp]
    · rw [r.prints_other h, ih, Run.printsOf, if_neg fun hc => h hc.1]

theorem Run.prints_pid {i : Nat} (hi : i ≤ r.len) : ∀ x ∈ r.prints i, x.1 ≠ 0 := by
  induction i with
  | zero => exact fun x hx => nomatch hx
  | succ i ih =>
    intro x hx
    by_cases h : (r.event i).trap = .sysPrint
    · rw [r.prints_print h, List.mem_append, List.mem_singleton] at hx
      rcases hx with hx | rfl
      · exact ih (by omega) x hx
      · exact (r.inv (by omega)).current
    · rw [r.prints_other h] at hx
      exact ih (by omega) x hx

/-- Every call is one of the four processes'. -/
theorem Run.length_prints_eq {i : Nat} (hi : i ≤ r.len) :
    (r.prints i).length = ∑ p ∈ livePids, (r.printsOf p i).length := by
  have key : ∀ L : List (Pid × UInt32), (∀ x ∈ L, x.1 ≠ 0) →
      L.length = ∑ p ∈ livePids, ((L.filter fun x => x.1 = p).map Prod.snd).length := by
    intro L
    induction L with
    | nil => intro _; rfl
    | cons x L ih =>
      intro hL
      have hx : x.1 ∈ livePids := (mem_livePids _).2 (hL x (.head _))
      have hsum : ∀ p, (((x :: L).filter fun y => y.1 = p).map Prod.snd).length =
          ((L.filter fun y => y.1 = p).map Prod.snd).length + if x.1 = p then 1 else 0 := by
        intro p
        by_cases h : x.1 = p <;> simp [h]
      simp only [hsum]
      rw [Finset.sum_add_distrib, Finset.sum_ite_eq, if_pos hx, ← ih fun y hy => hL y (.tail _ hy),
        List.length_cons]
  rw [key _ (r.prints_pid hi)]
  exact Finset.sum_congr rfl fun p _ => by rw [r.prints_filter]

/-- `cursorpos` counts the `sys_print` calls. -/
theorem Run.cursorpos_eq {i : Nat} (hi : i ≤ r.len) :
    (r.kern i).cursorpos = cell (r.prints i).length := by
  induction i with
  | zero =>
    rw [r.kern_zero]
    exact cell_zero.symm
  | succ i ih =>
    have hs : (r.kern (i + 1)).cursorpos = (r.call i).cursorpos := (r.steps i hi).screen.2
    rw [hs, Run.call, call_cursorpos]
    split
    · rename_i h
      rw [r.prints_print h, List.length_append, List.length_singleton, cell_succ, ih (by omega)]
    · rename_i h
      rw [r.prints_other h, ih (by omega)]

/-- The screen is a tape that the `sys_print` calls write. -/
theorem Run.written {i : Nat} (hi : i ≤ r.len) (hn : (r.prints i).length ≤ CONSOLE_CELLS) :
    Tape.Written cell CONSOLE_CELLS BLANK (r.kern i).cells (r.kern i).cursorpos (r.typed i) := by
  induction i with
  | zero =>
    rw [r.kern_zero]
    refine ⟨cell_zero.symm, nofun, fun j _ hj => ?_⟩
    rw [start_cells, consoleClear_cell _ hj]
  | succ i ih =>
    have hle := r.length_prints_mono (Nat.le_add_right i 1)
    have ih := ih (by omega) (by omega)
    have hcells : (r.kern (i + 1)).cells = (r.call i).cells := (r.steps i hi).screen.1
    have hcursor := r.cursorpos_eq hi
    rw [hcells, hcursor, Run.call, call_cells, Run.typed]
    split
    · rename_i h
      rw [r.prints_print h, List.length_append, List.length_singleton] at hn ⊢
      rw [List.map_append, ← r.length_typed]
      exact ih.append cell_inj (by rw [r.length_typed]; omega) _
    · rename_i h
      rw [r.prints_other h, ← r.cursorpos_eq (by omega)]
      exact ih

/-! ## On the screen -/

/-- Every `sys_print` writes a cell of the screen, the one at `cursorpos`, which stays within it, and
no other cell of memory ever changes. -/
structure Run.OnScreen : Prop where
  written : ∀ i, i < r.len → (r.event i).trap = .sysPrint →
    CONSOLE_BEGIN ≤ (r.kern i).cursorpos ∧ (r.kern i).cursorpos < CONSOLE_END
  cursor : ∀ i, i ≤ r.len →
    CONSOLE_BEGIN ≤ (r.kern i).cursorpos ∧ (r.kern i).cursorpos ≤ CONSOLE_END
  outside : ∀ i, i ≤ r.len → ∀ a, ¬ (CONSOLE_BEGIN ≤ a ∧ a < CONSOLE_END) →
    (r.kern i).cells a = boot.cells a

/-- The prints change only the cells that they are on. -/
theorem Run.cells_outside (h : ∀ i, i < r.len → (r.event i).trap = .sysPrint →
      CONSOLE_BEGIN ≤ (r.kern i).cursorpos ∧ (r.kern i).cursorpos < CONSOLE_END)
    {a : UInt32} (ha : ¬ (CONSOLE_BEGIN ≤ a ∧ a < CONSOLE_END)) {i : Nat} (hi : i ≤ r.len) :
    (r.kern i).cells a = boot.cells a := by
  induction i with
  | zero =>
    rw [r.kern_zero, start_cells]
    exact consoleClear_outside _ ha
  | succ i ih =>
    have hcells : (r.kern (i + 1)).cells = (r.call i).cells := (r.steps i hi).screen.1
    rw [hcells, Run.call, call_cells]
    split
    · rename_i hp
      have hne : a ≠ (r.kern i).cursorpos := by
        rintro rfl
        exact ha (h i hi hp)
      rw [Function.update_of_ne hne]
      exact ih (Nat.le_of_lt hi)
    · exact ih (Nat.le_of_lt hi)

theorem Run.exists_print {m n : Nat} (h : m < (r.prints n).length) :
    ∃ i, i < n ∧ (r.event i).trap = .sysPrint ∧ (r.prints i).length = m := by
  induction n with
  | zero => exact absurd h (Nat.not_lt_zero m)
  | succ n ih =>
    by_cases hm : m < (r.prints n).length
    · obtain ⟨i, hi, hp⟩ := ih hm
      exact ⟨i, by omega, hp⟩
    · by_cases ht : (r.event n).trap = .sysPrint
      · rw [r.prints_print ht, List.length_append, List.length_singleton] at h
        exact ⟨n, Nat.lt_succ_self n, ht, by omega⟩
      · rw [r.prints_other ht] at h
        exact absurd h hm

variable {r}

/-- The print after the last cell is not on the screen. -/
theorem Run.OnScreen.length_le (h : r.OnScreen) :
    (r.prints r.len).length ≤ CONSOLE_CELLS := by
  apply Nat.le_of_not_lt
  intro hlt
  obtain ⟨i, hi, hp, hlen⟩ := r.exists_print hlt
  have hw := (h.written i hi hp).2
  rw [r.cursorpos_eq (Nat.le_of_lt hi), hlen] at hw
  exact absurd hw (by decide)

theorem Run.onScreen_of_length_le (h : (r.prints r.len).length ≤ CONSOLE_CELLS) : r.OnScreen := by
  have hwritten : ∀ i, i < r.len → (r.event i).trap = .sysPrint →
      CONSOLE_BEGIN ≤ (r.kern i).cursorpos ∧ (r.kern i).cursorpos < CONSOLE_END := by
    intro i hi hp
    have hle := r.length_prints_mono (show i + 1 ≤ r.len from hi)
    rw [r.prints_print hp, List.length_append, List.length_singleton] at hle
    rw [r.cursorpos_eq (Nat.le_of_lt hi)]
    obtain ⟨h1, -, h3⟩ := cell_mem (k := (r.prints i).length) (by omega)
    exact ⟨h1, h3 (by omega)⟩
  refine ⟨hwritten, fun i hi => ?_, fun i hi a ha => r.cells_outside hwritten ha hi⟩
  have hle := r.length_prints_mono hi
  rw [r.cursorpos_eq hi]
  obtain ⟨h1, h2, -⟩ := cell_mem (k := (r.prints i).length) (by omega)
  exact ⟨h1, h2⟩

end

/-- **When printing stays on the screen**: in a run, every cell written by `sys_print` is one of the
console, `cursorpos` never leaves it and no cell outside it changes, exactly if the run has at most
as many `sys_print` calls as the console has cells. -/
theorem print_on_screen_iff {alg : Int} {boot : Boot} (r : Run alg boot) :
    r.OnScreen ↔ Window.count (fun i => (r.event i).trap = .sysPrint) 0 r.len ≤ CONSOLE_CELLS := by
  rw [← r.length_prints]
  exact ⟨fun h => h.length_le, Run.onScreen_of_length_le⟩

def printZero : Event := .ofCall .sysPrint 0

/-- Process 1 after an interrupt that leaves it runnable. -/
def runOne (m : Machine) (e : Event) : Machine := run (e.call m.kern) 1

theorem OneRuns.print {m : Machine} (h : OneRuns 2 m) :
    Step m printZero (runOne m printZero) ∧ OneRuns 2 (runOne m printZero) := by
  have ht : printZero.trap ≠ .sysExit := by decide
  exact h.step ((schedules_strict (h.inv.call printZero).algorithm).2
    ⟨rfl, .inr (if_pos (h.call_runnable ht))⟩)

/-- Process 1 calls `sys_print` that many times. -/
def printRun (n : Nat) : Run 2 .zero :=
  .ofNext runOne (fun _ => printZero) (start 2 .zero) n rfl fun i _ =>
    (Exec.states_inv (start_oneRuns 2 .zero) (fun _ _ h => h.print.2) i).print.1

/-- One `sys_print` more than the console has cells writes below it. -/
theorem print_leaves_screen :
    ¬ ∀ (alg : Int) (boot : Boot) (r : Run alg boot),
      alg = 0 ∨ alg = 2 ∨ alg = 41 ∨ alg = 42 ∨ alg = 7 → r.OnScreen := by
  intro hclaim
  have hle := (hclaim 2 .zero (printRun (CONSOLE_CELLS + 1)) (.inr (.inl rfl))).length_le
  have hall : ∀ i, 0 ≤ i → i < (printRun (CONSOLE_CELLS + 1)).len →
      ((printRun (CONSOLE_CELLS + 1)).event i).trap = .sysPrint := fun _ _ _ => rfl
  rw [Run.length_prints, Window.count_eq_length hall] at hle
  exact absurd hle (Nat.not_succ_le_self CONSOLE_CELLS)

end SchedOS
