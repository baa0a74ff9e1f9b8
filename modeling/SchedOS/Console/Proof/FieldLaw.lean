import SchedOS.Console.Proof.Run

/-!
# The layout of a field

In exact arithmetic a field is the text with its sign and its zeros, filled with spaces up to the
width on one of its sides (`Directive.layout`). That is what the code's `int`s come to unless one of
them overflows (`field_eq_layout`), so the characters passed to `console_putc` are laid out so
(`field_layout`).
-/

namespace SchedOS

namespace Directive

variable (d : Directive) (args : List UInt32) (text : List UInt8)

/-- The sign. -/
def signOf : List UInt8 :=
  if isNegative d.conv (d.arg args) then ['-'.toUInt8]
  else if '+'.toUInt8 ∈ d.flags then ['+'.toUInt8]
  else if ' '.toUInt8 ∈ d.flags then [' '.toUInt8]
  else []

/-- The precision as it is given, -1 for none; a negative one is 0. -/
def precisionValue : Int := d.precision.elim (-1) fun c => max 0 (c.value (args.drop d.width.stars))

/-- How much of the text is printed. -/
def lenOf : Nat := printed (d.precisionValue args) text.length

/-- The zeros before a number, by its precision or by the 0 flag. -/
def zerosOf : Nat :=
  if (radix d.conv).isNone then 0
  else if d.precision ≠ none then (d.precisionValue args - d.lenOf args text).toNat
  else if '0'.toUInt8 ∈ d.flags ∧ '-'.toUInt8 ∉ d.flags then
    (d.width.value args - d.lenOf args text - (d.signOf args).length).toNat
  else 0

/-- The characters that the field has at least. -/
def bodyOf : Nat := (d.signOf args).length + d.zerosOf args text + d.lenOf args text

theorem precisionValue_none (h : d.precision = none) : d.precisionValue args = -1 := by
  unfold precisionValue
  rw [h, Option.elim_none]

theorem precisionValue_nonneg (h : d.precision ≠ none) : 0 ≤ d.precisionValue args := by
  obtain ⟨c, hc⟩ := Option.ne_none_iff_exists'.1 h
  unfold precisionValue
  rw [hc, Option.elim_some]
  exact le_max_left _ _

/-- The field, in exact arithmetic. -/
def layout : Field :=
  { left := if '-'.toUInt8 ∈ d.flags then 0 else (d.width.value args - d.bodyOf args text).toNat
    sign := d.signOf args
    zeros := d.zerosOf args text
    len := d.lenOf args text
    right := if '-'.toUInt8 ∈ d.flags then (d.width.value args - d.bodyOf args text).toNat else 0 }

/-- No `int` of the pass overflows: the width and the precision as they are written,
`len + zeros + !!negative`, and what is left of the width. -/
structure NoOverflow : Prop where
  width : d.width.value args < 0x80000000
  precision : ∀ c, d.precision = some c → -0x80000000 ≤ c.value (args.drop d.width.stars) ∧
    c.value (args.drop d.width.stars) < 0x80000000
  body : d.bodyOf args text < 0x80000000
  rest : -0x80000000 ≤ d.width.value args - d.bodyOf args text

end Directive

/-! ## The code's variables -/

theorem signChar_flagBits (fs : List UInt8) (numeric negative : Bool) :
    signChar (flagBits fs) numeric negative =
      if numeric && negative then '-'.toUInt8
      else if '+'.toUInt8 ∈ fs then '+'.toUInt8
      else if ' '.toUInt8 ∈ fs then ' '.toUInt8
      else 0 := by
  have hplus := and_flagBits (c := '+'.toUInt8) (by decide) fs
  have hspace := and_flagBits (c := ' '.toUInt8) (by decide) fs
  rw [show flagChars.idxOf '+'.toUInt8 = 4 by decide] at hplus
  rw [show flagChars.idxOf ' '.toUInt8 = 3 by decide] at hspace
  unfold signChar
  simp only [hplus, hspace]

theorem and_leftjustify (fs : List UInt8) :
    flagBits fs &&& FLAG_LEFTJUSTIFY ≠ 0 ↔ '-'.toUInt8 ∈ fs := by
  have hleft := and_flagBits (c := '-'.toUInt8) (by decide) fs
  rwa [show flagChars.idxOf '-'.toUInt8 = 2 by decide] at hleft

section
variable {d : Directive} {args : List UInt32} {text : List UInt8}

theorem Directive.zerosOf_none (h : radix d.conv = none) : d.zerosOf args text = 0 :=
  if_pos (by rw [h]; rfl)

theorem Directive.zerosOf_precision (h : (radix d.conv).isNone = false) (hp : d.precision ≠ none) :
    d.zerosOf args text = (d.precisionValue args - d.lenOf args text).toNat := by
  unfold Directive.zerosOf
  rw [h, if_neg Bool.false_ne_true, if_pos hp]

theorem Directive.zerosOf_flag (h : (radix d.conv).isNone = false) (hp : d.precision = none)
    (hzero : '0'.toUInt8 ∈ d.flags ∧ '-'.toUInt8 ∉ d.flags) : d.zerosOf args text =
      (d.width.value args - d.lenOf args text - (d.signOf args).length).toNat := by
  unfold Directive.zerosOf
  rw [h, if_neg Bool.false_ne_true, if_neg (not_not.2 hp), if_pos hzero]

theorem Directive.zerosOf_noFlag (hp : d.precision = none)
    (hzero : ¬ ('0'.toUInt8 ∈ d.flags ∧ '-'.toUInt8 ∉ d.flags)) : d.zerosOf args text = 0 := by
  unfold Directive.zerosOf
  rw [if_neg (not_not.2 hp), if_neg hzero, ite_self]

theorem isNumeric_of_negative {conv : UInt8} {x : UInt32} (h : isNegative conv x = true) :
    (radix conv).isSome = true := by
  cases hradix : radix conv with
  | some r => rfl
  | none => exact absurd h (by rw [isNegative_of_radix hradix]; exact Bool.false_ne_true)

/-- The sign as a list. -/
theorem signOf_eq : (if signChar (flagBits d.flags) (radix d.conv).isSome
      (isNegative d.conv (d.arg args)) ≠ 0 then
        [signChar (flagBits d.flags) (radix d.conv).isSome (isNegative d.conv (d.arg args))] else []) =
    d.signOf args := by
  rw [signChar_flagBits]
  unfold Directive.signOf
  cases hneg : isNegative d.conv (d.arg args) with
  | true =>
    rw [isNumeric_of_negative hneg]
    rfl
  | false =>
    rw [Bool.and_false]
    by_cases hplus : '+'.toUInt8 ∈ d.flags
    · rw [if_neg Bool.false_ne_true, if_pos hplus, if_pos (by decide), if_neg Bool.false_ne_true,
        if_pos hplus]
    · rw [if_neg Bool.false_ne_true, if_neg hplus, if_neg Bool.false_ne_true, if_neg hplus]
      split
      · exact if_pos (by decide)
      · rfl

theorem isSign_eq (c : UInt8) : isSign c = ((if c ≠ 0 then [c] else []).length : Int) := by
  unfold isSign
  split <;> rfl

/-- No more of a text is printed than there is. -/
theorem printed_le (precision : Int) (n : Nat) : printed precision n ≤ n := by
  unfold printed
  split
  · exact Nat.min_le_left _ _
  · exact Nat.le_refl _

namespace Directive.NoOverflow

variable (h : d.NoOverflow args text)
include h

theorem lenOf_lt : (d.lenOf args text : Int) < 0x80000000 := by
  have hbody := h.body
  unfold Directive.bodyOf at hbody
  omega

theorem widthOf_eq : d.widthOf args = d.width.value args :=
  int_of_fits (by have hrest := h.rest; omega) h.width

theorem precisionOf_eq : d.precisionOf args = d.precisionValue args := by
  unfold Directive.precisionOf Directive.precisionValue
  cases hp : d.precision with
  | none => rfl
  | some c =>
    obtain ⟨h1, h2⟩ := h.precision c hp
    rw [Option.elim_some, Option.elim_some, int_of_fits h1 h2]

theorem precisionValue_lt : d.precisionValue args < 0x80000000 := by
  unfold Directive.precisionValue
  cases hp : d.precision with
  | none =>
    rw [Option.elim_none]
    decide
  | some c =>
    have hc := (h.precision c hp).2
    rw [Option.elim_some]
    omega

theorem countZeros_eq {sign : UInt8} (hsign : isSign sign = (d.signOf args).length) :
    countZeros (flagBits d.flags) (d.width.value args) (d.precisionValue args) (radix d.conv).isSome
      sign (d.lenOf args text) = d.zerosOf args text := by
  have hbody := h.body
  have hwidth := h.width
  have hp := h.precisionValue_lt
  unfold Directive.bodyOf at hbody
  unfold countZeros
  simp only [hsign, and_zeroFlag]
  cases hradix : radix d.conv with
  | none =>
    rw [Directive.zerosOf_none hradix]
    simp only [Option.isSome_none, Bool.false_eq_true, false_and, and_false, if_false]
    rfl
  | some r =>
    have hnumeric : (radix d.conv).isNone = false := by rw [hradix]; rfl
    simp only [Option.isSome_some, true_and]
    by_cases hprecision : d.precision = none
    · have hp1 := d.precisionValue_none args hprecision
      rw [hp1, if_neg (by omega)]
      by_cases hzero : '0'.toUInt8 ∈ d.flags ∧ '-'.toUInt8 ∉ d.flags
      · rw [Directive.zerosOf_flag hnumeric hprecision hzero] at hbody ⊢
        rw [int_of_fits (x := (d.lenOf args text : Int) + (d.signOf args).length) (by omega) (by omega)]
        split
        · rename_i hflag
          have hlt := hflag.2.2
          rw [int_of_fits (by omega) (by omega)]
          omega
        · rename_i hflag
          have hge : ¬ (d.lenOf args text : Int) + (d.signOf args).length < d.width.value args :=
            fun hlt => hflag ⟨hzero, by decide, hlt⟩
          omega
      · rw [Directive.zerosOf_noFlag hprecision hzero, if_neg fun hflag => hzero hflag.1]
        rfl
    · have hp0 := d.precisionValue_nonneg args hprecision
      rw [Directive.zerosOf_precision hnumeric hprecision] at hbody ⊢
      split
      · rw [int_of_fits (by omega) (by omega)]
        omega
      · rw [if_neg fun hflag => by omega]
        omega

/-- Without overflow the code's field is the exact one. -/
theorem field_eq_layout : d.field args text = d.layout args text := by
  have hbody := h.body
  have hlen := h.lenOf_lt
  have hsign := isSign_eq (signChar (flagBits d.flags) (radix d.conv).isSome
    (isNegative d.conv (d.arg args)))
  rw [signOf_eq] at hsign
  have hint : int (printed (d.precisionValue args) text.length) = d.lenOf args text :=
    int_of_fits (by omega) hlen
  unfold Directive.field fieldOf Directive.layout
  rw [h.widthOf_eq, h.precisionOf_eq, hint]
  dsimp only
  rw [signOf_eq, hsign, h.countZeros_eq hsign]
  have hleft : int (d.width.value args - (d.lenOf args text + d.zerosOf args text +
      (d.signOf args).length)) = d.width.value args - d.bodyOf args text := by
    have hrest := h.rest
    have hwidth := h.width
    unfold Directive.bodyOf at hrest ⊢
    rw [int_of_fits (by omega) (by omega)]
    omega
  rw [hleft]
  simp only [and_leftjustify, Int.toNat_natCast]

end Directive.NoOverflow

end

/-! ## The characters of a directive -/

theorem Directive.text_of_radix {d : Directive} {mem : Memory} {args : List UInt32}
    {text table : List UInt8} {base : UInt32} (h : radix d.conv = some (base, table))
    (htext : text = numberText base.toNat table (d.precisionOf args) (magnitude d.conv (d.arg args))) :
    d.Text mem args text := by
  unfold Directive.Text
  rw [h]
  exact htext

theorem Directive.layout_left {d : Directive} {args : List UInt32} {text : List UInt8}
    (h : '-'.toUInt8 ∈ d.flags) : (d.layout args text).left = 0 := if_pos h

theorem Directive.layout_right {d : Directive} {args : List UInt32} {text : List UInt8}
    (h : '-'.toUInt8 ∉ d.flags) : (d.layout args text).right = 0 := if_neg h

theorem Directive.length_signOf (d : Directive) (args : List UInt32) :
    (d.signOf args).length ≤ 1 := by
  unfold Directive.signOf
  split
  · exact Nat.le_refl _
  · split
    · exact Nat.le_refl _
    · split
      · exact Nat.le_refl _
      · exact Nat.zero_le _

theorem Directive.zerosOf_pos {d : Directive} {args : List UInt32} {text : List UInt8}
    (h : 0 < d.zerosOf args text) : (radix d.conv).isSome = true ∧
      (d.precision ≠ none ∨
        '0'.toUInt8 ∈ d.flags ∧ '-'.toUInt8 ∉ d.flags ∧ d.precision = none) := by
  cases hradix : radix d.conv with
  | none => exact absurd h (by rw [Directive.zerosOf_none hradix]; exact Nat.lt_irrefl 0)
  | some r =>
    refine ⟨rfl, ?_⟩
    by_cases hp : d.precision = none
    · by_cases hzero : '0'.toUInt8 ∈ d.flags ∧ '-'.toUInt8 ∉ d.flags
      · exact .inr ⟨hzero.1, hzero.2, hp⟩
      · exact absurd h (by rw [Directive.zerosOf_noFlag hp hzero]; exact Nat.lt_irrefl 0)
    · exact .inl hp

/-- **The layout of a field**: unless an `int` overflows, the characters that a pass for a directive
passes to `console_putc` are spaces, a sign, zeros, the beginning of the text and spaces. There are
spaces on the left only without the - flag, on the right only with it, and as many characters as the
width if the others are not more. -/
theorem field_layout (format : List UInt8) (numbuf : UInt32) (st : Printer Log) (rest : List UInt8)
    (hat : At format st.i ('%'.toUInt8 :: rest)) (d : Directive) (hd : d = (parseDirective rest).1)
    (hC : d.conv ≠ 'C'.toUInt8) (hargs : d.vargs ≤ st.args.length) (text : List UInt8)
    (htext : d.Text st.mem st.args text) (hfits : d.NoOverflow st.args text) :
    ∃ (st' : Printer Log) (f : Field), vprintfPass logPutc format numbuf st = .inl st' ∧
      st'.screen = st.screen ++ (f.chars text).map (fun c => (c, st.color)) ∧
      f.chars text = List.replicate f.left ' '.toUInt8 ++ d.signOf st.args ++
        List.replicate f.zeros '0'.toUInt8 ++ text.take (d.lenOf st.args text) ++
        List.replicate f.right ' '.toUInt8 ∧
      (d.signOf st.args).length ≤ 1 ∧ d.lenOf st.args text ≤ text.length ∧
      (f.left = 0 ∨ f.right = 0) ∧ (0 < f.right → '-'.toUInt8 ∈ d.flags) ∧
      (0 < f.left → '-'.toUInt8 ∉ d.flags) ∧
      (0 < f.zeros → (radix d.conv).isSome = true ∧ (d.precision ≠ none ∨
        '0'.toUInt8 ∈ d.flags ∧ '-'.toUInt8 ∉ d.flags ∧ d.precision = none)) ∧
      ((f.chars text).length : Int) = max (d.width.value st.args)
        ((d.signOf st.args).length + f.zeros + d.lenOf st.args text : Nat) := by
  subst hd
  obtain ⟨st', -, -, hpass⟩ := @pass_field format rest ⟨(), st.color, st.mem, st.args, st.i⟩ numbuf hat
    hC hargs text htext
  have hlen : (parseDirective rest).1.lenOf st.args text ≤ text.length := printed_le _ _
  have hrun := hpass logPutc st.screen
  rw [hfits.field_eq_layout, putAll_eq_play, play_logPutc] at hrun
  refine ⟨_, (parseDirective rest).1.layout st.args text, hrun, rfl, rfl,
    (parseDirective rest).1.length_signOf st.args, hlen, ?_, ?_, ?_, Directive.zerosOf_pos, ?_⟩
  · by_cases hleft : '-'.toUInt8 ∈ (parseDirective rest).1.flags
    · exact .inl (Directive.layout_left hleft)
    · exact .inr (Directive.layout_right hleft)
  · intro hright
    by_contra hleft
    rw [Directive.layout_right hleft] at hright
    exact absurd hright (Nat.lt_irrefl 0)
  · intro hpos hleft
    rw [Directive.layout_left hleft] at hpos
    exact absurd hpos (Nat.lt_irrefl 0)
  · unfold Field.chars Directive.layout Directive.bodyOf
    simp only [List.length_append, List.length_replicate, List.length_take, Nat.min_eq_left hlen]
    split <;> omega

/-- "%-5d" of 42. -/
theorem field_layout_left : ∃ st' : Printer Log,
    vprintfPass logPutc (bytesOf "%-5d") 0x1000
      { screen := [], color := 0x700, mem := fun _ => 0, args := [42], i := 0 } = .inl st' ∧
      st'.screen.length = 5 := by
  have hparse : parseDirective (bytesOf "-5d") =
      ({ flags := bytesOf "-", width := .number (bytesOf "5"), precision := none,
         conv := 'd'.toUInt8 }, []) := by decide
  have hradix : radix 'd'.toUInt8 = some (10, upperDigits) := by decide
  obtain ⟨st', f, hpass, hscreen, -, -, -, -, -, -, hzeros, hlength⟩ :=
    field_layout (bytesOf "%-5d") 0x1000
    { screen := [], color := 0x700, mem := fun _ => 0, args := [42], i := 0 } (bytesOf "-5d")
    ⟨[], rfl, rfl⟩ ⟨bytesOf "-", .number (bytesOf "5"), none, 'd'.toUInt8⟩ (by rw [hparse]) (by decide)
    (by decide) (bytesOf "42") (Directive.text_of_radix hradix (by decide))
    ⟨by decide, nofun, by decide, by decide⟩
  refine ⟨st', hpass, ?_⟩
  have hnone : f.zeros = 0 := by
    rcases Nat.eq_zero_or_pos f.zeros with h0 | hpos
    · exact h0
    · rcases (hzeros hpos).2 with hp | hflag
      · exact absurd rfl hp
      · exact absurd hflag.1 (by decide)
  rw [hnone] at hlength
  rw [hscreen, List.nil_append, List.length_map]
  exact Int.ofNat_inj.1 (hlength.trans (by decide))

end SchedOS
