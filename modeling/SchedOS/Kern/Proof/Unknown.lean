import SchedOS.Console.Proof.Grammar
import SchedOS.Console.Proof.Number

/-!
# An unknown scheduling algorithm

`schedule()` falls through its tests if it does not know `scheduling_algorithm`. It prints a message
at `cursorpos` (`scheduleUnknown`) and loops. That happens in the first interrupt of a run, so the
message is all that is ever printed after what this interrupt has, and what it looks like is known to
the cell (`unknown_algorithm_message`).
-/

namespace SchedOS

/-! ## The end of `schedule()` -/

/-- The word of an `int`. -/
def wordOf (x : Int) : UInt32 := UInt32.ofNat (x % 0x100000000).toNat

/-- The format of the message. -/
def unknownFormat : List UInt8 := bytesOf "\nUnknown scheduling algorithm %d\n"

/-- `cursorpos = console_printf(cursorpos, 0x100, …, scheduling_algorithm)`. -/
def scheduleUnknown (n : Nat) (mem : Memory) (numbuf : UInt32) (s : Kernel) :
    Except Fault Kernel := do
  let st ← consoleVprintf n mem numbuf s.cursorpos 0x100 unknownFormat [wordOf s.schedulingAlgorithm]
  return { s with cursorpos := st.screen.cursor, cells := st.screen.cells s.cells }

/-! ## The message -/

/-- A number with its sign. -/
def decimalText (x : Int) : List UInt8 :=
  (if x < 0 then ['-'.toUInt8] else []) ++ numeralText 10 upperDigits x.natAbs

/-- The message, without the newlines. -/
def unknownLine (alg : Int) : List UInt8 := bytesOf "Unknown scheduling algorithm " ++ decimalText alg

/-- Characters that stand for themselves. -/
def plains (cs : List UInt8) : List Item := cs.map .plain

theorem render_plains (str : UInt32 → List UInt8) (cs : List UInt8) (items : List Item)
    (args : List UInt32) (color : UInt32) : render str (plains cs ++ items) args color =
      cs.map (fun c => (c, color)) ++ render str items args color := by
  induction cs with
  | nil => rfl
  | cons c cs ih =>
    show (c, color) :: render str (plains cs ++ items) args color = _
    rw [ih]
    rfl

/-- "%d". -/
def decimalDirective : Directive := ⟨[], .absent, none, 'd'.toUInt8⟩

theorem int_wordOf {x : Int} (h1 : -0x80000000 ≤ x) (h2 : x < 0x80000000) :
    int (wordOf x).toNat = x := by
  have hlt : (x % 0x100000000).toNat < 2 ^ 32 := by omega
  unfold wordOf
  rw [UInt32.toNat_ofNat_of_lt' hlt]
  unfold int
  omega

section
variable {alg : Int} (h1 : -0x80000000 ≤ alg) (h2 : alg < 0x80000000) (str : UInt32 → List UInt8)
include h1 h2

theorem decimal_textOf : decimalDirective.textOf str [wordOf alg] =
    numeralText 10 upperDigits alg.natAbs := by
  have hradix : radix decimalDirective.conv = some (10, upperDigits) := by decide
  have hmagnitude : magnitude decimalDirective.conv (wordOf alg) = alg.natAbs := by
    show (int (wordOf alg).toNat).natAbs = _
    rw [int_wordOf h1 h2]
  have harg : decimalDirective.arg [wordOf alg] = wordOf alg := rfl
  have hprecision : decimalDirective.precisionValue [wordOf alg] = -1 := rfl
  have hbase : (10 : UInt32).toNat = 10 := by decide
  unfold Directive.textOf
  rw [hradix]
  dsimp only
  rw [harg, hprecision, hmagnitude, hbase]
  exact if_neg fun h => absurd h.2 (by decide)

theorem decimal_signOf : decimalDirective.signOf [wordOf alg] =
    if alg < 0 then ['-'.toUInt8] else [] := by
  have harg : decimalDirective.arg [wordOf alg] = wordOf alg := rfl
  unfold Directive.signOf isNegative
  rw [harg, int_wordOf h1 h2]
  simp [decimalDirective]

theorem decimal_length : (numeralText 10 upperDigits alg.natAbs).length ≤ 10 :=
  length_numeralText_le upperDigits (n := alg.natAbs) (k := 9) (by decide : 1 < 10) (by omega)

theorem decimal_bodyOf : (decimalDirective.bodyOf [wordOf alg]
    (numeralText 10 upperDigits alg.natAbs) : Int) ≤ 11 := by
  have hsign := decimalDirective.length_signOf [wordOf alg]
  have hlen := decimal_length h1 h2
  have hprinted := printed_le (decimalDirective.precisionValue [wordOf alg])
    (numeralText 10 upperDigits alg.natAbs).length
  have hzeros : decimalDirective.zerosOf [wordOf alg] (numeralText 10 upperDigits alg.natAbs) = 0 :=
    Directive.zerosOf_noFlag rfl fun h => absurd h.1 (by decide)
  unfold Directive.bodyOf Directive.lenOf
  rw [hzeros]
  omega

theorem decimal_fits :
    decimalDirective.NoOverflow [wordOf alg] (decimalDirective.textOf str [wordOf alg]) := by
  have hbody := decimal_bodyOf h1 h2
  have hwidth : decimalDirective.width.value [wordOf alg] = -1 := rfl
  rw [decimal_textOf h1 h2]
  refine ⟨?_, nofun, ?_, ?_⟩ <;> omega

theorem decimal_render : decimalDirective.render str [wordOf alg] = decimalText alg := by
  have hbody := decimal_bodyOf h1 h2
  have hwidth : decimalDirective.width.value [wordOf alg] = -1 := rfl
  have hzeros : decimalDirective.zerosOf [wordOf alg] (numeralText 10 upperDigits alg.natAbs) = 0 :=
    Directive.zerosOf_noFlag rfl fun h => absurd h.1 (by decide)
  have hleft : (decimalDirective.width.value [wordOf alg] -
      (decimalDirective.bodyOf [wordOf alg] (numeralText 10 upperDigits alg.natAbs) : Int)).toNat =
        0 := by omega
  unfold Directive.render
  rw [decimal_textOf h1 h2]
  unfold Directive.layout Field.chars
  dsimp only
  rw [hleft, hzeros, decimal_signOf h1 h2]
  simp only [ite_self, List.replicate_zero, List.nil_append, List.append_nil]
  have hlenOf : decimalDirective.lenOf [wordOf alg] (numeralText 10 upperDigits alg.natAbs) =
      (numeralText 10 upperDigits alg.natAbs).length := rfl
  rw [hlenOf, List.take_length]
  rfl

end

/-! ## What is printed -/

def unknownItems : List Item :=
  plains (bytesOf "\nUnknown scheduling algorithm ") ++
    [.directive decimalDirective, .plain '\n'.toUInt8]

theorem canonical_plains {cs : List UInt8} (h : ∀ c ∈ cs, c ≠ 0 ∧ c ≠ '%'.toUInt8) {items : List Item}
    (hitems : Canonical items) : Canonical (plains cs ++ items) := by
  induction cs with
  | nil => exact hitems
  | cons c cs ih =>
    obtain ⟨h0, hc⟩ := h c List.mem_cons_self
    exact ⟨h0, hc, ih fun c hc => h c (List.mem_cons_of_mem _ hc)⟩

theorem parse_unknownFormat : parse unknownFormat = unknownItems := by
  have hd : decimalDirective.Canonical := by
    refine ⟨nofun, trivial, nofun, fun _ => ⟨by decide, ?_, fun _ => by decide⟩⟩
    rintro (h | h)
    · exact absurd h.2 (by decide)
    · exact absurd h (by decide)
  have hplains : ∀ c ∈ bytesOf "\nUnknown scheduling algorithm ", c ≠ 0 ∧ c ≠ '%'.toUInt8 := by
    decide +kernel
  have hcanonical : Canonical unknownItems :=
    canonical_plains hplains ⟨hd, fun h => absurd h (by decide), by decide, by decide, trivial⟩
  have hnil : parse [] = [] := parse_end rfl
  have hparse : parse (unknownItems.flatMap Item.spell ++ []) = unknownItems ++ parse [] :=
    parse_spell_append hcanonical (.inl rfl)
  rw [hnil, List.append_nil, List.append_nil] at hparse
  have hspell : unknownItems.flatMap Item.spell = unknownFormat := by decide
  rwa [hspell] at hparse

theorem printable_plains {mem : Memory} {numbuf : UInt32} {str : UInt32 → List UInt8}
    {items : List Item} {args : List UInt32} (h : Printable mem numbuf str items args)
    (cs : List UInt8) : Printable mem numbuf str (plains cs ++ items) args := by
  induction cs with
  | nil => exact h
  | cons c cs ih => exact ih

/-- What characters other than newlines write. -/
theorem typedAll_line (k : Nat) {cs : List UInt8} (h : ∀ c ∈ cs, c ≠ '\n'.toUInt8) (color : UInt32)
    (emitted : Log) : typedAll k (cs.map (fun c => (c, color)) ++ emitted) =
      cs.map (fun c => (c.toUInt32 ||| color).toUInt16) ++ typedAll (k + cs.length) emitted := by
  induction cs generalizing k with
  | nil => rfl
  | cons c cs ih =>
    have hc : typed k c color = [(c.toUInt32 ||| color).toUInt16] := if_neg (h c List.mem_cons_self)
    rw [List.map_cons, List.cons_append, typedAll, hc, List.length_singleton,
      ih _ fun c hc => h c (List.mem_cons_of_mem _ hc), List.length_cons, Nat.add_assoc,
      Nat.add_comm 1]
    rfl

/-- A newline goes on to the next row. -/
theorem typed_newline (k : Nat) (color : UInt32) : typed k '\n'.toUInt8 color =
    List.replicate (80 - k % 80) (' '.toUInt8.toUInt32 ||| color).toUInt16 := if_pos rfl

theorem unknownLine_newline (alg : Int) : ∀ c ∈ unknownLine alg, c ≠ '\n'.toUInt8 := by
  have hdigits : ∀ c ∈ upperDigits.take 10, c ≠ '\n'.toUInt8 := by decide +kernel
  intro c hc
  unfold unknownLine decimalText at hc
  rcases List.mem_append.1 hc with hc | hc
  · have htext : ∀ c ∈ bytesOf "Unknown scheduling algorithm ", c ≠ '\n'.toUInt8 := by
      decide +kernel
    exact htext c hc
  · rcases List.mem_append.1 hc with hc | hc
    · split at hc
      · rw [List.mem_singleton.1 hc]
        decide
      · cases hc
    · exact hdigits c (mem_numeralText (by decide) (by decide) hc)

/-- A cell in the color of the message. -/
def messageCell (c : UInt8) : UInt16 := (c.toUInt32 ||| 0x100).toUInt16

section
variable {alg : Int} (h1 : -0x80000000 ≤ alg) (h2 : alg < 0x80000000)
include h1 h2

theorem unknownLine_length : (unknownLine alg).length ≤ 40 := by
  have hlen := decimal_length h1 h2
  unfold unknownLine decimalText
  rw [List.length_append, List.length_append]
  have hsign : (if alg < 0 then ['-'.toUInt8] else []).length ≤ 1 := by
    split
    · exact Nat.le_refl 1
    · exact Nat.zero_le 1
  have htext : (bytesOf "Unknown scheduling algorithm ").length = 29 := by decide
  omega

theorem unknown_printable (mem : Memory) (numbuf : UInt32) :
    Printable mem numbuf (fun _ => []) (parse unknownFormat) [wordOf alg] := by
  rw [parse_unknownFormat]
  have hd : Printable mem numbuf (fun _ => []) [.directive decimalDirective, .plain '\n'.toUInt8]
      [wordOf alg] := by
    refine ⟨?_, fun h => absurd h (by decide), fun _ => decimal_fits h1 h2 _, trivial⟩
    exact (by decide : decimalDirective.vargs ≤ 1)
  exact printable_plains hd _

theorem unknown_render (color : UInt32) :
    render (fun _ => []) (parse unknownFormat) [wordOf alg] color =
      ('\n'.toUInt8, color) :: ((unknownLine alg).map fun c => (c, color)) ++
        [('\n'.toUInt8, color)] := by
  have hC : decimalDirective.conv ≠ 'C'.toUInt8 := by decide
  rw [parse_unknownFormat, unknownItems, render_plains, render, if_neg hC, decimal_render h1 h2]
  unfold unknownLine
  rw [List.map_append, List.cons_append, List.append_assoc]
  rfl

/-- The cells of the message: the rest of the row, the line, and the rest of its row. -/
theorem unknown_typed {k : Nat} (hk : k < 80) :
    typedAll k (render (fun _ => []) (parse unknownFormat) [wordOf alg] 0x100) =
      List.replicate (80 - k) (messageCell ' '.toUInt8) ++ (unknownLine alg).map messageCell ++
        List.replicate (80 - (unknownLine alg).length) (messageCell ' '.toUInt8) := by
  have hlen := unknownLine_length h1 h2
  rw [unknown_render h1 h2, List.cons_append, typedAll, typed_newline, List.length_replicate,
    Nat.mod_eq_of_lt hk, typedAll_line _ (unknownLine_newline alg), typedAll, typed_newline, typedAll,
    List.append_nil, List.append_assoc]
  have hcolumn : (k + (80 - k) + (unknownLine alg).length) % 80 = (unknownLine alg).length := by omega
  rw [hcolumn]
  rfl

end

/-! ## The screen -/

/-- What is printed before the end of the screen is appended to what is there. -/
theorem Screen.Holds.written {s : Screen} {k q : Nat} {xs ys : List UInt16} (h : s.Holds k ys q)
    (hq : q ≤ CONSOLE_CELLS) {cells : UInt32 → UInt16} {cursor : UInt32}
    (hxs : Tape.Written cell CONSOLE_CELLS BLANK cells cursor xs) (hk : xs.length = k)
    (hpos : 0 < k + ys.length) (hfits : k + ys.length < CONSOLE_CELLS) :
    Tape.Written cell CONSOLE_CELLS BLANK (s.cells cells) s.cursor (xs ++ ys) := by
  have hcells : ∀ a, s.cells cells a = Ring.after (Ring.place cell CONSOLE_CELLS k ys) cells a := by
    intro a
    rw [← h.stores]
    rfl
  -- the cells that are not written
  have hother : ∀ j, j < CONSOLE_CELLS → j < k ∨ k + ys.length ≤ j →
      s.cells cells (cell j) = cells (cell j) := by
    intro j hj hout
    rw [hcells]
    refine Ring.after_of_ne (fun w hw he => ?_) cells
    obtain ⟨i, hi, rfl⟩ := List.mem_mapIdx.1 hw
    dsimp only at he
    rw [Nat.mod_eq_of_lt (by omega)] at he
    have := cell_inj _ _ (by omega) hj he
    omega
  refine ⟨?_, fun j x hx => ?_, fun j hj hjn => ?_⟩
  · have hposition := h.position
    rw [Nat.mod_eq_of_lt hfits] at hposition
    rw [h.cursor, List.length_append, hk]
    rcases Nat.lt_or_eq_of_le hq with hlt | rfl
    · rw [← hposition, Nat.mod_eq_of_lt hlt]
    · rw [Nat.mod_self] at hposition
      omega
  · rcases Nat.lt_or_ge j k with hlt | hge
    · rw [List.getElem?_append_left (by omega)] at hx
      rw [hother j (by omega) (.inl hlt)]
      exact hxs.cells j x hx
    · rw [List.getElem?_append_right (by omega), hk] at hx
      have hlt := (List.getElem?_eq_some_iff.1 hx).1
      have hplace := Ring.after_place (n := CONSOLE_CELLS) cell_inj k ys cells hx (by omega)
      rwa [Nat.add_sub_cancel' hge, Nat.mod_eq_of_lt (by omega), ← hcells] at hplace
  · rw [List.length_append, hk] at hj
    rw [hother j hjn (.inr hj)]
    exact hxs.rest j (by omega) hjn

/-- The stores of the message. -/
theorem unknown_holds {alg : Int} (h1 : -0x80000000 ≤ alg) (h2 : alg < 0x80000000) {k : Nat}
    (hk : k < 80) : ∃ q, q ≤ CONSOLE_CELLS ∧ (play consolePutc ⟨[], cell k⟩
      (render (fun _ => []) (parse unknownFormat) [wordOf alg] 0x100)).Holds k
        (List.replicate (80 - k) (messageCell ' '.toUInt8) ++ (unknownLine alg).map messageCell ++
          List.replicate (80 - (unknownLine alg).length) (messageCell ' '.toUInt8)) q := by
  have hstart : ({ stores := [], cursor := cell k } : Screen).Holds k [] k := ⟨rfl, rfl, rfl⟩
  have hcells : k ≤ CONSOLE_CELLS := Nat.le_of_lt (Nat.lt_trans hk (by decide))
  obtain ⟨q, hq, hholds⟩ := play_holds hstart hcells
    (render (fun _ => []) (parse unknownFormat) [wordOf alg] 0x100)
  rw [List.nil_append, List.length_nil, Nat.add_zero, unknown_typed h1 h2 hk] at hholds
  exact ⟨q, hq, hholds⟩

/-- The message, on a screen with something in its first row. -/
theorem scheduleUnknown_written {alg : Int} (h1 : -0x80000000 ≤ alg) (h2 : alg < 0x80000000)
    {s : Kernel} (hs : s.schedulingAlgorithm = alg) {xs : List UInt16}
    (hxs : Tape.Written cell CONSOLE_CELLS BLANK s.cells s.cursorpos xs) (hlen : xs.length < 80)
    (mem : Memory) (numbuf : UInt32) {n : Nat} (hn : unknownFormat.length < n) :
    ∃ s', scheduleUnknown n mem numbuf s = .ok s' ∧
      Tape.Written cell CONSOLE_CELLS BLANK s'.cells s'.cursorpos (xs ++
        (List.replicate (80 - xs.length) (messageCell ' '.toUInt8) ++
          (unknownLine alg).map messageCell ++
          List.replicate (80 - (unknownLine alg).length) (messageCell ' '.toUInt8))) := by
  have hcells : CONSOLE_CELLS = 2000 := rfl
  have hline := unknownLine_length h1 h2
  obtain ⟨st, -, -, -, hrun⟩ := vprintf_render 0x100 (n := n) (unknown_printable h1 h2 mem numbuf) hn
  obtain ⟨q, hq, hholds⟩ := unknown_holds h1 h2 hlen
  have hprinted := hrun consolePutc ⟨[], cell xs.length⟩
  obtain ⟨screen, hscreen⟩ : ∃ screen, screen = play consolePutc ⟨[], cell xs.length⟩
      (render (fun _ => []) (parse unknownFormat) [wordOf alg] 0x100) := ⟨_, rfl⟩
  rw [← hscreen] at hholds hprinted
  unfold scheduleUnknown consoleVprintf
  rw [hs, hxs.head_eq, hprinted]
  refine ⟨_, rfl, hholds.written hq hxs rfl ?_ ?_⟩
  · simp only [List.length_append, List.length_replicate]
    omega
  · simp only [List.length_append, List.length_replicate, List.length_map]
    omega

/-- Such a run ends with its first interrupt. -/
theorem Run.stuck_of_unknown {alg : Int} (halg : alg ≠ 0 ∧ alg ≠ 2 ∧ alg ≠ 41 ∧ alg ≠ 42 ∧ alg ≠ 7)
    {boot : Boot} (r : Run alg boot) (hr : 0 < r.len) :
    r.len = 1 ∧ r.state 1 = .stuck (r.call 0) := by
  have hc := r.call_inv (Nat.zero_le r.len)
  have hstuck : r.state 1 = .stuck (r.call 0) := by
    have hstep := r.steps 0 hr
    unfold Run.call Run.kern at hc ⊢
    obtain ⟨s, c, hs, ⟨pa, k, hsched, -⟩ | ⟨-, hm⟩⟩ := hstep.inv
    · rw [hs] at hc
      have hknown := hsched.algorithm
      have halgorithm : ((r.event 0).call s).schedulingAlgorithm = alg := hc.algorithm
      rw [halgorithm] at hknown
      omega
    · rw [hm, hs]
      rfl
  refine ⟨Nat.le_antisymm (Nat.le_of_not_lt fun hlt => ?_) hr, hstuck⟩
  obtain ⟨s, c, hs, -⟩ := (r.steps 1 hlt).inv
  rw [hstuck] at hs
  cases hs

/-- **An unknown scheduling algorithm**: the first interrupt is the last one, and the message is
printed then: what the interrupt prints, the rest of its row, the message, the rest of its row, and
nothing else is on the screen. -/
theorem unknown_algorithm_message {alg : Int}
    (halg : alg ≠ 0 ∧ alg ≠ 2 ∧ alg ≠ 41 ∧ alg ≠ 42 ∧ alg ≠ 7) (h1 : -0x80000000 ≤ alg)
    (h2 : alg < 0x80000000) {boot : Boot} (r : Run alg boot) (hr : 0 < r.len) (mem : Memory)
    (numbuf : UInt32) (n : Nat) (hn : unknownFormat.length < n) :
    r.len = 1 ∧ r.state 1 = .stuck (r.call 0) ∧
      ∃ s, scheduleUnknown n mem numbuf (r.call 0) = .ok s ∧
        Tape.Written cell CONSOLE_CELLS BLANK s.cells s.cursorpos (r.typed 1 ++
          (List.replicate (80 - (r.typed 1).length) (messageCell ' '.toUInt8) ++
            (unknownLine alg).map messageCell ++
            List.replicate (80 - (unknownLine alg).length) (messageCell ' '.toUInt8))) := by
  obtain ⟨hlen, hstuck⟩ := r.stuck_of_unknown halg hr
  have htyped : (r.typed 1).length ≤ 1 := by
    rw [r.length_typed, r.length_prints]
    exact (Finset.card_filter_le _ _).trans (by simp)
  have hcells : CONSOLE_CELLS = 2000 := rfl
  have hwritten := r.written (i := 1) hr (by rw [← r.length_typed]; omega)
  have hkern : r.kern 1 = r.call 0 := congrArg Machine.kern hstuck
  rw [hkern] at hwritten
  exact ⟨hlen, hstuck, scheduleUnknown_written h1 h2 (r.call_inv (Nat.zero_le r.len)).algorithm
    hwritten (by omega) mem numbuf hn⟩

/-- Algorithm 1. -/
theorem unknown_algorithm_one : ∃ r : Run 1 .zero, r.len = 1 ∧
    ∃ s, scheduleUnknown 40 (fun _ => 0) 0x1000 (r.call 0) = .ok s ∧ s.cursorpos = cell 160 := by
  obtain ⟨m, hstep⟩ := Step.exists_of_running (m := start 1 .zero) rfl (.ofCall .sysYield 0)
  obtain ⟨hlen, -, s, hs, hwritten⟩ := unknown_algorithm_message (by decide) (by decide) (by decide)
    (Exec.snoc (noInterrupt 1 .zero) hstep) Nat.one_pos (fun _ => 0) 0x1000 40 (by decide)
  refine ⟨_, hlen, s, hs, ?_⟩
  have htyped : (Run.typed (Exec.snoc (noInterrupt 1 .zero) hstep) 1).length = 0 := rfl
  rw [hwritten.head_eq]
  simp only [List.length_append, List.length_replicate, List.length_map, htyped]
  decide

end SchedOS
