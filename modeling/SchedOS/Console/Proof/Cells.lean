import SchedOS.Console.Proof.Run
import SchedOS.Kern.Proof.Screen
import SchedOS.Lib.Ring

/-!
# What is on the screen

The cells of the screen are a ring: `console_putc` goes back to the first one before it writes behind
the last one. A newline writes up to the end of its row, and as the rows fill the screen, it stays
within it (`fillRow_holds`, `consolePutc_holds`). So the stores of a run are those of its characters,
the newlines being spaces (`typedAll`), to consecutive cells of the ring (`play_holds`).
-/

namespace SchedOS

/-- What a character writes at the position `k`. -/
def typed (k : Nat) (c : UInt8) (color : UInt32) : List UInt16 :=
  if c = '\n'.toUInt8 then List.replicate (80 - k % 80) (' '.toUInt8.toUInt32 ||| color).toUInt16
  else [(c.toUInt32 ||| color).toUInt16]

/-- What characters write from the position `k` on. -/
def typedAll (k : Nat) : List (UInt8 × UInt32) → List UInt16
  | [] => []
  | (c, color) :: emitted => typed k c color ++ typedAll (k + (typed k c color).length) emitted

/-- The screen when `xs` has been written from the position `k` on, with the cursor on cell `q`. -/
structure Screen.Holds (s : Screen) (k : Nat) (xs : List UInt16) (q : Nat) : Prop where
  stores : s.stores = Ring.place cell CONSOLE_CELLS k xs
  cursor : s.cursor = cell q
  position : q % CONSOLE_CELLS = (k + xs.length) % CONSOLE_CELLS

section
variable {s : Screen} {k q : Nat} {xs : List UInt16}

theorem Screen.Holds.store (h : s.Holds k xs q) (hq : q < CONSOLE_CELLS) (c : UInt32) :
    (s.store c).Holds k (xs ++ [c.toUInt16]) (q + 1) := by
  have hplace := h.position
  rw [Nat.mod_eq_of_lt hq] at hplace
  refine ⟨?_, ?_, ?_⟩
  · show s.stores ++ [(s.cursor, c.toUInt16)] = _
    rw [h.stores, h.cursor, Ring.place_append, Ring.place_singleton, ← hplace]
  · show s.cursor + 2 = _
    rw [h.cursor, cell_succ]
  · rw [List.length_append, List.length_singleton, ← Nat.add_assoc, Nat.add_mod, h.position,
      ← Nat.add_mod]

theorem fillRow_holds (h : s.Holds k xs q) (color : UInt32) {n : Nat} (hn : q + n ≤ CONSOLE_CELLS) :
    (fillRow s color n).Holds k
      (xs ++ List.replicate n (' '.toUInt8.toUInt32 ||| color).toUInt16) (q + n) := by
  induction n generalizing s q xs with
  | zero =>
    rw [List.replicate_zero, List.append_nil]
    exact h
  | succ n ih =>
    have hrest := ih (h.store (by omega) (' '.toUInt8.toUInt32 ||| color)) (by omega)
    rw [List.append_assoc, List.singleton_append, ← List.replicate_succ, Nat.add_right_comm] at hrest
    exact hrest

/-- The wrap before a character. -/
theorem Screen.Holds.wrap (h : s.Holds k xs q) (hq : q ≤ CONSOLE_CELLS) :
    (if s.cursor ≥ CONSOLE_END then { s with cursor := CONSOLE_BEGIN } else s : Screen).Holds k xs
      (q % CONSOLE_CELLS) := by
  rcases Nat.lt_or_eq_of_le hq with hlt | rfl
  · have hbelow := (cell_mem hq).2.2 hlt
    rw [← h.cursor] at hbelow
    rw [if_neg (UInt32.not_le.2 hbelow), Nat.mod_eq_of_lt hlt]
    exact h
  · have hend : s.cursor ≥ CONSOLE_END := by
      rw [h.cursor]
      decide
    rw [if_pos hend, Nat.mod_self]
    exact ⟨h.stores, cell_zero.symm, by rw [← h.position, Nat.mod_self, Nat.zero_mod]⟩

/-- The column of a cell. -/
theorem column_cell (hq : q < CONSOLE_CELLS) :
    ((int (cell q - CONSOLE_BEGIN).toNat).tdiv 2).tmod 80 = (q % 80 : Nat) := by
  have hcells : CONSOLE_CELLS = 2000 := rfl
  have hbegin : CONSOLE_BEGIN.toNat = 0xB8000 := rfl
  have hoffset : (cell q - CONSOLE_BEGIN).toNat = 2 * q := by
    rw [UInt32.toNat_sub_of_le _ _ (cell_mem (Nat.le_of_lt hq)).1, toNat_cell (Nat.le_of_lt hq),
      hbegin]
    omega
  rw [hoffset, int_of_fits (by omega) (by omega)]
  have hhalf : ((2 * q : Nat) : Int).tdiv 2 = q := by
    rw [Int.natCast_mul, Int.mul_comm]
    exact Int.mul_tdiv_cancel _ (by decide)
  rw [hhalf]
  rfl

/-- A character is written within the screen. -/
theorem consolePutc_holds (h : s.Holds k xs q) (hq : q ≤ CONSOLE_CELLS) (c : UInt8)
    (color : UInt32) :
    ∃ q', q' ≤ CONSOLE_CELLS ∧
      (consolePutc s c color).Holds k (xs ++ typed (k + xs.length) c color) q' := by
  have hcells : CONSOLE_CELLS = 2000 := rfl
  have hwrap := h.wrap hq
  have hlt : q % CONSOLE_CELLS < CONSOLE_CELLS := Nat.mod_lt _ (by decide)
  unfold consolePutc typed
  dsimp only
  generalize (if s.cursor ≥ CONSOLE_END then { s with cursor := CONSOLE_BEGIN } else s : Screen) = s1
    at hwrap ⊢
  split
  · -- the row of a cell of the ring is that of the position, as the rows fill the screen
    have hcolumn : q % CONSOLE_CELLS % 80 = (k + xs.length) % 80 := by
      rw [h.position]
      exact Nat.mod_mod_of_dvd _ ⟨25, rfl⟩
    have hrow : q % CONSOLE_CELLS + (80 - (k + xs.length) % 80) ≤ CONSOLE_CELLS := by
      rw [hcells] at hlt hcolumn ⊢
      omega
    have hpos : (80 - ((int (s1.cursor - CONSOLE_BEGIN).toNat).tdiv 2).tmod 80).toNat =
        80 - (k + xs.length) % 80 := by
      rw [hwrap.cursor, column_cell hlt, hcolumn]
      omega
    rw [hpos]
    exact ⟨_, hrow, fillRow_holds hwrap color hrow⟩
  · exact ⟨_, hlt, hwrap.store hlt _⟩

/-- Characters are written within the screen. -/
theorem play_holds (h : s.Holds k xs q) (hq : q ≤ CONSOLE_CELLS) (emitted : List (UInt8 × UInt32)) :
    ∃ q', q' ≤ CONSOLE_CELLS ∧
      (play consolePutc s emitted).Holds k (xs ++ typedAll (k + xs.length) emitted) q' := by
  induction emitted generalizing s q xs with
  | nil =>
    rw [typedAll, List.append_nil]
    exact ⟨q, hq, h⟩
  | cons e emitted ih =>
    obtain ⟨c, color⟩ := e
    obtain ⟨q1, hq1, h1⟩ := consolePutc_holds h hq c color
    obtain ⟨q2, hq2, h2⟩ := ih h1 hq1
    rw [List.append_assoc, List.length_append, ← Nat.add_assoc] at h2
    exact ⟨q2, hq2, h2⟩

end

/-! ## `console_vprintf` -/

/-- **What `console_vprintf` does to the screen**: from a cursor on the screen or at its end, with
arguments that match the format, it stores the characters that it passes to `console_putc`, a
newline as the spaces up to the end of its row, to consecutive cells of the screen, which it does
not leave. -/
theorem consoleVprintf_onScreen (mem : Memory) (numbuf color : UInt32) (format : List UInt8)
    (args : List UInt32) (h : Matches mem numbuf (parse format) args) (k : Nat)
    (hk : k ≤ CONSOLE_CELLS) (n : Nat) (hn : format.length < n) :
    ∃ log st,
      vprintf logPutc format numbuf n { screen := [], color, mem, args, i := 0 } = .ok log ∧
      consoleVprintf n mem numbuf (cell k) color format args = .ok st ∧
      st.screen.stores = Ring.place cell CONSOLE_CELLS k (typedAll k log.screen) ∧
      (∃ q, q ≤ CONSOLE_CELLS ∧ st.screen.cursor = cell q ∧
        q % CONSOLE_CELLS = (k + (typedAll k log.screen).length) % CONSOLE_CELLS) ∧
      (CONSOLE_BEGIN ≤ st.screen.cursor ∧ st.screen.cursor ≤ CONSOLE_END) ∧
      (∀ w ∈ st.screen.stores, CONSOLE_BEGIN ≤ w.1 ∧ w.1 < CONSOLE_END) ∧
      (∀ cells j x, (typedAll k log.screen)[j]? = some x →
        (typedAll k log.screen).length ≤ j + CONSOLE_CELLS →
          st.screen.cells cells (cell ((k + j) % CONSOLE_CELLS)) = x) ∧
      ∀ cells a, (∀ j, j < (typedAll k log.screen).length → a ≠ cell ((k + j) % CONSOLE_CELLS)) →
        st.screen.cells cells a = cells a := by
  obtain ⟨-, emitted, st', -, hrun⟩ := vprintf_plays color h hn
  have hstart : ({ stores := [], cursor := cell k } : Screen).Holds k [] k := ⟨rfl, rfl, rfl⟩
  obtain ⟨q, hq, hholds⟩ := play_holds hstart hk emitted
  rw [List.nil_append, List.length_nil, Nat.add_zero] at hholds
  have hlog : (st'.on (play logPutc [] emitted)).screen = emitted := play_logPutc [] emitted
  refine ⟨_, _, hrun logPutc [], hrun consolePutc _, ?_⟩
  rw [hlog]
  refine ⟨hholds.stores, ⟨q, hq, hholds.cursor, hholds.position⟩, ?_, ?_, ?_, ?_⟩
  · show CONSOLE_BEGIN ≤ (play consolePutc _ emitted).cursor ∧
      (play consolePutc _ emitted).cursor ≤ CONSOLE_END
    rw [hholds.cursor]
    exact ⟨(cell_mem hq).1, (cell_mem hq).2.1⟩
  · intro w hw
    have hw : w ∈ (play consolePutc _ emitted).stores := hw
    rw [hholds.stores] at hw
    obtain ⟨m, hm, haddr⟩ := Ring.mem_place (by decide) hw
    rw [haddr]
    exact ⟨(cell_mem (Nat.le_of_lt hm)).1, (cell_mem (Nat.le_of_lt hm)).2.2 hm⟩
  · intro cells j x hx hlast
    show Ring.after (play consolePutc _ emitted).stores cells _ = x
    rw [hholds.stores]
    exact Ring.after_place cell_inj k _ cells hx hlast
  · intro cells a ha
    show Ring.after (play consolePutc _ emitted).stores cells a = cells a
    rw [hholds.stores]
    refine Ring.after_of_ne (fun w hw => ?_) cells
    obtain ⟨j, hj, rfl⟩ := List.mem_mapIdx.1 hw
    exact (ha j hj).symm

/-- A line from the end of the screen on: the cursor wraps to the first row. -/
theorem consoleVprintf_onScreen_line :
    ∃ st, consoleVprintf 3 (fun _ => 0) 0x1000 CONSOLE_END 0x700 (bytesOf "a\n") [] = .ok st ∧
      ∀ cells, st.screen.cells cells CONSOLE_BEGIN = 0x761 := by
  have hparse : parse (bytesOf "a\n") = [.plain 'a'.toUInt8, .plain '\n'.toUInt8] := by
    show parse ('a'.toUInt8 :: '\n'.toUInt8 :: []) = _
    rw [parse_plain _ (by decide) (by decide), parse_plain _ (by decide) (by decide), parse_end rfl]
  obtain ⟨log, st, hlog, hst, -, -, -, -, hcells, -⟩ := consoleVprintf_onScreen (fun _ => 0) 0x1000
    0x700 (bytesOf "a\n") [] (by rw [hparse]; trivial) CONSOLE_CELLS (Nat.le_refl _) 3 (by decide)
  rw [show cell CONSOLE_CELLS = CONSOLE_END by decide] at hst
  have hscreen : log.screen = [('a'.toUInt8, 0x700), ('\n'.toUInt8, 0x700)] := by
    cases hlog
    rfl
  rw [hscreen] at hcells
  exact ⟨st, hst, fun cells => hcells cells 0 0x761 (by decide) (by decide)⟩

end SchedOS
