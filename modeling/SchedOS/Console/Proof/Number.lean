import SchedOS.Console.Proof.FieldLaw
import SchedOS.Load.Mkbootdisk

/-!
# Printing numbers

A number is printed in full if all of its digits are, behind the zeros that its precision asks for
(`Directive.InFull`); then it is read back as what it was (`readNumber_inFull`). `console_vprintf`
measures a number's text with `strnlen` if there is a precision, so it prints the number in full
exactly if it has no more digits than that (`number_inFull_iff`).
-/

namespace SchedOS

/-! ## Reading a number back -/

/-- Spaces, a sign, and digits up to the first other character. -/
def readNumber (base : Nat) (out : List UInt8) : Int :=
  let text := out.dropWhile (· == ' '.toUInt8)
  if text.headD 0 = '-'.toUInt8 then -((digits base 0 (text.tail.map Char.ofUInt8)).1 : Int)
  else if text.headD 0 = '+'.toUInt8 then (digits base 0 (text.tail.map Char.ofUInt8)).1
  else (digits base 0 (text.map Char.ofUInt8)).1

/-- The characters of digits. -/
def digitChars (table : List UInt8) (ds : List Nat) : List UInt8 := ds.map (table.getD · 0)

/-- Spaces and signs. -/
def isMark (c : UInt8) : Bool := (bytesOf " +-").contains c

theorem ne_of_isMark {c m : UInt8} (hc : isMark c = false) (hm : isMark m = true) : c ≠ m := by
  rintro rfl
  exact absurd hm (by rw [hc]; exact Bool.false_ne_true)

/-- A table that `digits` can read: its characters are digits of their places, and no spaces or
signs. -/
structure Readable (base : Nat) (table : List UInt8) : Prop where
  digit : ∀ d, d < base → digit base (Char.ofUInt8 (table.getD d 0)) = some d
  zero : table.getD 0 0 = '0'.toUInt8
  space : SchedOS.digit base (Char.ofUInt8 ' '.toUInt8) = none
  char : ∀ d, d < base → isMark (table.getD d 0) = false

theorem readable_of_radix {conv : UInt8} {base : UInt32} {table : List UInt8}
    (h : radix conv = some (base, table)) : Readable base.toNat table := by
  obtain ⟨-, rfl, rfl⟩ | ⟨-, rfl, rfl⟩ | ⟨-, rfl, rfl⟩ | ⟨-, rfl, rfl⟩ := radix_cases h
  · exact ⟨by decide, by decide, by decide, by decide⟩
  · exact ⟨by decide, by decide, by decide, by decide⟩
  · exact ⟨by decide, by decide, by decide, by decide⟩
  · exact ⟨by decide, by decide, by decide, by decide⟩

theorem dropWhile_spaces (n : Nat) (cs : List UInt8) :
    (List.replicate n ' '.toUInt8 ++ cs).dropWhile (· == ' '.toUInt8) =
      cs.dropWhile (· == ' '.toUInt8) := by
  induction n with
  | zero => rfl
  | succ n ih =>
    rw [List.replicate_succ, List.cons_append, List.dropWhile_cons_of_pos (by decide), ih]

section
variable {base : Nat} {table : List UInt8} (h : Readable base table)
include h

theorem Readable.digits_append {ds : List Nat} (hds : ∀ d ∈ ds, d < base) (n : Nat)
    (rest : List Char) : digits base n ((digitChars table ds).map Char.ofUInt8 ++ rest) =
      digits base (ds.foldl (fun n d => n * base + d) n) rest := by
  induction ds generalizing n with
  | nil => rfl
  | cons d ds ih =>
    have hd := h.digit d (hds d List.mem_cons_self)
    show digits base n (Char.ofUInt8 (table.getD d 0) ::
      ((digitChars table ds).map Char.ofUInt8 ++ rest)) = _
    rw [digits, hd]
    exact ih (fun d hd => hds d (List.mem_cons_of_mem _ hd)) _

/-- Digits and the spaces behind them. -/
theorem Readable.digits_spaces {ds : List Nat} (hds : ∀ d ∈ ds, d < base) (right : Nat) :
    (digits base 0 ((digitChars table ds ++ List.replicate right ' '.toUInt8).map Char.ofUInt8)).1 =
      Numeral.value base ds := by
  rw [List.map_append, h.digits_append hds]
  cases right with
  | zero => rfl
  | succ right =>
    rw [List.replicate_succ, List.map_cons, digits, h.space]
    rfl

/-- A first character that is neither a space nor a sign. -/
theorem Readable.dropWhile_digits {ds : List Nat} (hds : ∀ d ∈ ds, d < base) (right : Nat) :
    ∃ right', (digitChars table ds ++ List.replicate right ' '.toUInt8).dropWhile (· == ' '.toUInt8) =
        digitChars table ds ++ List.replicate right' ' '.toUInt8 ∧
      (digitChars table ds ++ List.replicate right' ' '.toUInt8).headD 0 ≠ '-'.toUInt8 ∧
      (digitChars table ds ++ List.replicate right' ' '.toUInt8).headD 0 ≠ '+'.toUInt8 := by
  cases ds with
  | nil =>
    refine ⟨0, ?_, show (0 : UInt8) ≠ _ by decide, show (0 : UInt8) ≠ _ by decide⟩
    have hspaces := dropWhile_spaces right []
    rwa [List.append_nil] at hspaces
  | cons d ds =>
    have hchar := h.char d (hds d List.mem_cons_self)
    refine ⟨right, ?_, ne_of_isMark hchar (by decide), ne_of_isMark hchar (by decide)⟩
    exact List.dropWhile_cons_of_neg (mt beq_iff_eq.1 (ne_of_isMark hchar (by decide)))

/-- A number with a sign and spaces around it. -/
theorem Readable.readNumber_eq {ds : List Nat} (hds : ∀ d ∈ ds, d < base) {sign : List UInt8}
    (hsign : sign = [] ∨ sign = ['-'.toUInt8] ∨ sign = ['+'.toUInt8] ∨ sign = [' '.toUInt8])
    (left right : Nat) :
    readNumber base (List.replicate left ' '.toUInt8 ++ sign ++ digitChars table ds ++
        List.replicate right ' '.toUInt8) =
      if sign = ['-'.toUInt8] then -(Numeral.value base ds : Int) else Numeral.value base ds := by
  unfold readNumber
  dsimp only
  rw [List.append_assoc, List.append_assoc, dropWhile_spaces]
  obtain ⟨right', hdrop, hminus, hplus⟩ := h.dropWhile_digits hds right
  have hread := h.digits_spaces hds
  rcases hsign with rfl | rfl | rfl | rfl
  · rw [List.nil_append, hdrop, if_neg hminus, if_neg hplus, hread, if_neg (by decide)]
  · rw [List.singleton_append, List.dropWhile_cons_of_neg (by decide), List.headD_cons, if_pos rfl,
      List.tail_cons, hread, if_pos rfl]
  · rw [List.singleton_append, List.dropWhile_cons_of_neg (by decide), List.headD_cons,
      if_neg (by decide), if_pos rfl, List.tail_cons, hread, if_neg (by decide)]
  · rw [List.singleton_append, List.dropWhile_cons_of_pos (by decide), hdrop, if_neg hminus,
      if_neg hplus, hread, if_neg (by decide)]

end

/-! ## Fields with all of a number -/

namespace Directive

variable (d : Directive) (args : List UInt32)

/-- The number that the argument is. -/
def numberOf : Int :=
  if d.conv = 'd'.toUInt8 then int (d.arg args).toNat else ((d.arg args).toNat : Int)

/-- A field with every digit of a number: nothing of the text is left out, the '-' stands before the
negative numbers, and a precision is filled up with zeros. -/
structure Full (text : List UInt8) (f : Field) : Prop where
  digits : f.len = text.length
  sign : f.sign = [] ∨ f.sign = ['-'.toUInt8] ∨ f.sign = ['+'.toUInt8] ∨ f.sign = [' '.toUInt8]
  minus : f.sign = ['-'.toUInt8] ↔ isNegative d.conv (d.arg args) = true
  zeros : d.precision ≠ none → f.zeros = (d.precisionOf args).toNat - text.length

/-- A number is printed in full. -/
def InFull (base : Nat) (table : List UInt8) (out : List UInt8) : Prop :=
  ∃ f, d.Full args (numberText base table (d.precisionOf args) (magnitude d.conv (d.arg args))) f ∧
    out = f.chars (numberText base table (d.precisionOf args) (magnitude d.conv (d.arg args)))

theorem signOf_cases : d.signOf args = [] ∨ d.signOf args = ['-'.toUInt8] ∨
    d.signOf args = ['+'.toUInt8] ∨ d.signOf args = [' '.toUInt8] := by
  unfold signOf
  split
  · exact .inr (.inl rfl)
  · split
    · exact .inr (.inr (.inl rfl))
    · split
      · exact .inr (.inr (.inr rfl))
      · exact .inl rfl

theorem signOf_minus : d.signOf args = ['-'.toUInt8] ↔ isNegative d.conv (d.arg args) = true := by
  unfold signOf
  by_cases hneg : isNegative d.conv (d.arg args) = true
  · exact iff_of_true (if_pos hneg) hneg
  · rw [if_neg hneg]
    refine iff_of_false ?_ hneg
    split
    · decide
    · split <;> decide

theorem field_sign (text : List UInt8) : (d.field args text).sign = d.signOf args := signOf_eq

end Directive

/-- The other characters of a field. -/
theorem Field.countP_chars {f : Field} {text : List UInt8}
    (hsign : f.sign = [] ∨ f.sign = ['-'.toUInt8] ∨ f.sign = ['+'.toUInt8] ∨ f.sign = [' '.toUInt8])
    (hlen : f.len ≤ text.length) (htext : ∀ c ∈ text, isMark c = false) :
    (f.chars text).countP (fun c => !isMark c) = f.zeros + f.len := by
  have hspace : isMark ' '.toUInt8 = true := by decide
  have hzero : isMark '0'.toUInt8 = false := by decide
  have hmarks : f.sign.countP (fun c => !isMark c) = 0 := by
    rcases hsign with hs | hs | hs | hs
    · rw [hs]
      rfl
    · rw [hs]
      decide
    · rw [hs]
      decide
    · rw [hs]
      decide
  have hdigits : (text.take f.len).countP (fun c => !isMark c) = (text.take f.len).length := by
    refine List.countP_eq_length.2 fun c hc => ?_
    rw [htext c (List.mem_of_mem_take hc)]
    rfl
  unfold Field.chars
  simp only [List.countP_append, List.countP_replicate, hmarks, hdigits, hspace, hzero, Bool.not_true,
    Bool.not_false, Bool.false_eq_true, if_false, if_true, List.length_take, Nat.min_eq_left hlen]
  omega

/-! ## The text of a number -/

section
variable {conv : UInt8} {base : UInt32} {table : List UInt8} (h : radix conv = some (base, table))
include h

/-- The digits that are printed, apart from the 0 that precision 0 leaves out. -/
theorem numberText_digits (precision : Int) (n : Nat) :
    ∃ ds, numberText base.toNat table precision n = digitChars table ds ∧
      (∀ d ∈ ds, d < base.toNat) ∧ Numeral.value base.toNat ds = n := by
  have hb := (radix_spec h).1
  unfold numberText
  split
  · rename_i h0
    exact ⟨[], rfl, nofun, h0.1.symm⟩
  · exact ⟨_, rfl, fun d hd => Numeral.digits_lt (by omega) hd, Numeral.value_digits _ _⟩

theorem isMark_numberText {precision : Int} {n : Nat} {c : UInt8}
    (hc : c ∈ numberText base.toNat table precision n) : isMark c = false := by
  obtain ⟨ds, htext, hds, -⟩ := numberText_digits h precision n
  rw [htext] at hc
  obtain ⟨d, hd, rfl⟩ := List.mem_map.1 hc
  exact (readable_of_radix h).char d (hds d hd)

/-- A number has no more digits than its precision. -/
theorem length_numberText_le_iff {precision : Int} (hp : 0 ≤ precision) (n : Nat) :
    (numberText base.toNat table precision n).length ≤ precision.toNat ↔
      n < base.toNat ^ precision.toNat := by
  have hb := (radix_spec h).1
  obtain ⟨p, rfl⟩ := Int.eq_ofNat_of_zero_le hp
  unfold numberText
  rw [Int.toNat_natCast]
  cases p with
  | zero =>
    rw [Nat.pow_zero, Nat.lt_one_iff]
    by_cases hn : n = 0
    · exact iff_of_true (by rw [if_pos ⟨hn, rfl⟩]; exact Nat.le_refl _) hn
    · rw [if_neg fun h0 => hn h0.1, length_numeralText]
      have hne := List.length_pos_of_ne_nil (Numeral.digits_ne_nil (b := base.toNat) (n := n))
      omega
  | succ p =>
    rw [if_neg (by omega), length_numeralText, Numeral.length_digits_le_iff (by omega)]

end

/-! ## The field of a number -/

section
variable {d : Directive} {args : List UInt32} {text : List UInt8}

theorem Directive.precisionOf_none (h : d.precision = none) : d.precisionOf args = -1 := by
  unfold Directive.precisionOf
  rw [h, Option.elim_none]

theorem Directive.precisionOf_lt (d : Directive) (args : List UInt32) :
    d.precisionOf args < 0x80000000 := by
  unfold Directive.precisionOf
  cases d.precision with
  | none =>
    rw [Option.elim_none]
    decide
  | some c =>
    have hc := (int_bounds (c.value (args.drop d.width.stars))).2
    rw [Option.elim_some]
    omega

theorem Directive.field_len (hten : text.length ≤ 10) :
    (d.field args text).len = printed (d.precisionOf args) text.length := by
  have hle := printed_le (d.precisionOf args) text.length
  unfold Directive.field fieldOf
  rw [int_of_fits (by omega) (by omega), Int.toNat_natCast]

/-- A precision is filled up with zeros. -/
theorem Directive.field_zeros (hnumeric : (radix d.conv).isSome = true) (hp : d.precision ≠ none)
    (hten : text.length ≤ 10) :
    (d.field args text).zeros = (d.precisionOf args).toNat - text.length := by
  have hnonneg := d.precisionOf_nonneg hp args
  have hlt := d.precisionOf_lt args
  have hprinted : printed (d.precisionOf args) text.length =
      min text.length (d.precisionOf args).toNat := if_pos hnonneg
  unfold Directive.field fieldOf countZeros
  dsimp only
  rw [hprinted, int_of_fits (by omega) (by omega)]
  rw [hnumeric]
  by_cases hmore : d.precisionOf args > (min text.length (d.precisionOf args).toNat : Nat)
  · rw [if_pos ⟨rfl, hmore⟩, int_of_fits (by omega) (by omega)]
    omega
  · rw [if_neg fun hzeros => hmore hzeros.2, if_neg fun hflag => absurd hflag.2.2.1 (by omega)]
    omega

/-- The field has every digit if the precision has room for them. -/
theorem Directive.field_full (hnumeric : (radix d.conv).isSome = true) (hten : text.length ≤ 10)
    (hroom : printed (d.precisionOf args) text.length = text.length) :
    d.Full args text (d.field args text) where
  digits := (d.field_len hten).trans hroom
  sign := by
    rw [d.field_sign]
    exact d.signOf_cases args
  minus := by
    rw [d.field_sign]
    exact d.signOf_minus args
  zeros hp := Directive.field_zeros hnumeric hp hten

/-- Otherwise no field with every digit has the same characters. -/
theorem Directive.field_ne_full (hnumeric : (radix d.conv).isSome = true) (hten : text.length ≤ 10)
    (htext : ∀ c ∈ text, isMark c = false) {f : Field} (hf : d.Full args text f)
    (hroom : printed (d.precisionOf args) text.length ≠ text.length) :
    (d.field args text).chars text ≠ f.chars text := by
  intro heq
  have hle := printed_le (d.precisionOf args) text.length
  have hlen : (d.field args text).len = _ := d.field_len hten
  have hp : d.precision ≠ none := by
    intro hnone
    refine hroom ?_
    rw [Directive.precisionOf_none hnone]
    rfl
  have hcount := Field.countP_chars (f := d.field args text) (by
    rw [d.field_sign]
    exact d.signOf_cases args) (by omega) htext
  have hfull := Field.countP_chars hf.sign (le_of_eq hf.digits) htext
  rw [heq, hfull, hf.digits, Directive.field_zeros hnumeric hp hten, hf.zeros hp] at hcount
  omega

end

/-! ## Numbers in full -/

theorem Directive.numberOf_eq (d : Directive) (args : List UInt32) :
    d.numberOf args = if isNegative d.conv (d.arg args) = true then
      -(magnitude d.conv (d.arg args) : Int) else magnitude d.conv (d.arg args) := by
  unfold Directive.numberOf isNegative magnitude
  by_cases hd : d.conv = 'd'.toUInt8
  · rw [if_pos hd, if_pos hd]
    by_cases hneg : int (d.arg args).toNat < 0
    · rw [if_pos (decide_eq_true ⟨hd, hneg⟩)]
      omega
    · rw [if_neg fun h0 => hneg (of_decide_eq_true h0).2]
      omega
  · rw [if_neg hd, if_neg hd, if_neg fun h0 => hd (of_decide_eq_true h0).1]

section
variable {d : Directive} {args : List UInt32} {base : UInt32} {table : List UInt8}
  (h : radix d.conv = some (base, table))
include h

/-- A number that is printed in full is read as what it was. -/
theorem readNumber_inFull {out : List UInt8} (hout : d.InFull args base.toNat table out) :
    readNumber base.toNat out = d.numberOf args := by
  obtain ⟨f, hf, rfl⟩ := hout
  obtain ⟨ds, htext, hds, hvalue⟩ := numberText_digits h (d.precisionOf args)
    (magnitude d.conv (d.arg args))
  have hread := readable_of_radix h
  have hzeros : List.replicate f.zeros '0'.toUInt8 = digitChars table (List.replicate f.zeros 0) := by
    unfold digitChars
    rw [List.map_replicate, hread.zero]
  have hlt : ∀ k ∈ List.replicate f.zeros 0 ++ ds, k < base.toNat := by
    intro k hk
    rcases List.mem_append.1 hk with hk | hk
    · rw [List.eq_of_mem_replicate hk]
      exact Nat.lt_of_lt_of_le (by decide) (radix_spec h).1
    · exact hds k hk
  have happend : digitChars table (List.replicate f.zeros 0) ++ digitChars table ds =
      digitChars table (List.replicate f.zeros 0 ++ ds) := List.map_append.symm
  unfold Field.chars
  rw [hf.digits, List.take_length, htext, hzeros,
    List.append_assoc (List.replicate f.left ' '.toUInt8 ++ f.sign), happend,
    hread.readNumber_eq hlt hf.sign, Numeral.value_replicate_append, hvalue, d.numberOf_eq]
  simp only [hf.minus]

variable {text : List UInt8}
  (htext : text = numberText base.toNat table (d.precisionOf args) (magnitude d.conv (d.arg args)))
include htext

/-- The precision has room for the digits. -/
theorem printed_numberText_iff : printed (d.precisionOf args) text.length = text.length ↔
    d.precision = none ∨
      magnitude d.conv (d.arg args) < base.toNat ^ (d.precisionOf args).toNat := by
  by_cases hp : d.precision = none
  · refine iff_of_true ?_ (.inl hp)
    rw [Directive.precisionOf_none hp]
    rfl
  · have hnonneg := d.precisionOf_nonneg hp args
    rw [← length_numberText_le_iff h hnonneg, ← htext, printed, if_pos hnonneg, min_eq_left_iff]
    exact ⟨.inr, fun hroom => hroom.resolve_left hp⟩

/-- The field of a number has all of it if the precision has room for it. -/
theorem field_inFull_iff : d.InFull args base.toNat table ((d.field args text).chars text) ↔
    d.precision = none ∨
      magnitude d.conv (d.arg args) < base.toNat ^ (d.precisionOf args).toNat := by
  have hnumeric : (radix d.conv).isSome = true := by
    rw [h]
    rfl
  have hten := length_numberText_ten h (d.precisionOf args) (d.arg args)
  rw [← printed_numberText_iff h htext]
  unfold Directive.InFull
  rw [← htext] at hten ⊢
  constructor
  · rintro ⟨f, hf, heq⟩
    by_contra hroom
    refine Directive.field_ne_full hnumeric hten (fun c hc => ?_) hf hroom heq
    rw [htext] at hc
    exact isMark_numberText h hc
  · exact fun hroom => ⟨_, Directive.field_full hnumeric hten hroom, rfl⟩

end

/-- A pass for a directive that prints a number. -/
theorem number_pass {format rest : List UInt8} (numbuf : UInt32) (st : Printer Log)
    (hat : At format st.i ('%'.toUInt8 :: rest)) {d : Directive} (hd : d = (parseDirective rest).1)
    {base : UInt32} {table : List UInt8} (h : radix d.conv = some (base, table))
    (hargs : d.vargs ≤ st.args.length) {text : List UInt8}
    (htext : text = numberText base.toNat table (d.precisionOf st.args)
      (magnitude d.conv (d.arg st.args))) :
    ∃ st' : Printer Log, vprintfPass logPutc format numbuf st = .inl st' ∧
      st'.screen = st.screen ++ ((d.field st.args text).chars text).map fun c => (c, st.color) := by
  subst hd
  have hC : (parseDirective rest).1.conv ≠ 'C'.toUInt8 := by
    intro hC
    rw [hC, show radix 'C'.toUInt8 = none by decide] at h
    exact absurd h nofun
  obtain ⟨st', -, -, hpass⟩ := @pass_field format rest ⟨(), st.color, st.mem, st.args, st.i⟩ numbuf hat
    hC hargs text (Directive.text_of_radix h htext)
  have hrun := hpass logPutc st.screen
  rw [putAll_eq_play, play_logPutc] at hrun
  exact ⟨_, hrun, rfl⟩

/-- **Numbers in full**: the pass for a %d, %u, %x or %X prints every digit of the number, with the
zeros of the precision before it and a '-' if it is negative, and the number can be read back,
exactly if there is no precision or no more digits than that. -/
theorem number_inFull_iff (format : List UInt8) (numbuf : UInt32) (st : Printer Log)
    (rest : List UInt8) (hat : At format st.i ('%'.toUInt8 :: rest)) (d : Directive) (hd : d = (parseDirective rest).1)
    (base : UInt32) (table : List UInt8) (h : radix d.conv = some (base, table))
    (hargs : d.vargs ≤ st.args.length) :
    ∃ (st' : Printer Log) (out : List UInt8), vprintfPass logPutc format numbuf st = .inl st' ∧
      st'.screen = st.screen ++ out.map (fun c => (c, st.color)) ∧
      ((d.InFull st.args base.toNat table out ∧ readNumber base.toNat out = d.numberOf st.args) ↔
        d.precision = none ∨
          magnitude d.conv (d.arg st.args) < base.toNat ^ (d.precisionOf st.args).toNat) := by
  obtain ⟨st', hpass, hscreen⟩ := number_pass numbuf st hat hd h hargs rfl
  refine ⟨st', _, hpass, hscreen, ?_⟩
  rw [← field_inFull_iff h rfl]
  exact and_iff_left_of_imp (readNumber_inFull h)

/-- "%.4d" of -123. -/
theorem number_inFull_minus : ∃ (st' : Printer Log) (out : List UInt8),
    vprintfPass logPutc (bytesOf "%.4d") 0x1000
      { screen := [], color := 0x700, mem := fun _ => 0, args := [-123], i := 0 } = .inl st' ∧
      st'.screen = out.map (fun c => (c, 0x700)) ∧ readNumber 10 out = -123 := by
  have hparse : parseDirective (bytesOf ".4d") =
      ({ flags := [], width := .absent, precision := some (.number (bytesOf "4")),
         conv := 'd'.toUInt8 }, []) := by decide
  obtain ⟨st', out, hpass, hscreen, hfull⟩ := number_inFull_iff (bytesOf "%.4d") 0x1000
    { screen := [], color := 0x700, mem := fun _ => 0, args := [-123], i := 0 } (bytesOf ".4d")
    ⟨[], rfl, rfl⟩ ⟨[], .absent, some (.number (bytesOf "4")), 'd'.toUInt8⟩ (by rw [hparse]) 10
    upperDigits (by decide) (by decide)
  obtain ⟨-, hread⟩ := hfull.2 (.inr (by decide))
  exact ⟨st', out, hpass, hscreen, hread.trans (by decide)⟩

/-- "%.2d" prints 123 as "12", since `strnlen` stops at the precision. -/
theorem number_cutOff : ∃ st' : Printer Log,
    vprintfPass logPutc (bytesOf "%.2d") 0x1000
      { screen := [], color := 0x700, mem := fun _ => 0, args := [123], i := 0 } = .inl st' ∧
      st'.screen.map Prod.fst = bytesOf "12" ∧
      ¬ Directive.InFull ⟨[], .absent, some (.number (bytesOf "2")), 'd'.toUInt8⟩ [123] 10 upperDigits
        (bytesOf "12") ∧
      readNumber 10 (bytesOf "12") = 12 := by
  have hparse : parseDirective (bytesOf ".2d") =
      ({ flags := [], width := .absent, precision := some (.number (bytesOf "2")),
         conv := 'd'.toUInt8 }, []) := by decide
  have hradix : radix 'd'.toUInt8 = some (10, upperDigits) := by decide
  have hfield : (Directive.field ⟨[], .absent, some (.number (bytesOf "2")), 'd'.toUInt8⟩ [123]
      (bytesOf "123")).chars (bytesOf "123") = bytesOf "12" := by decide
  obtain ⟨st', hpass, hscreen⟩ := @number_pass (bytesOf "%.2d") (bytesOf ".2d") 0x1000
    { screen := [], color := 0x700, mem := fun _ => 0, args := [123], i := 0 } ⟨[], rfl, rfl⟩
    ⟨[], .absent, some (.number (bytesOf "2")), 'd'.toUInt8⟩ (by rw [hparse]) 10 upperDigits hradix
    (by decide) (bytesOf "123") (by decide)
  refine ⟨st', hpass, ?_, fun hfull => ?_, by decide⟩
  · rw [hscreen, hfield]
    rfl
  · have hread := @readNumber_inFull _ [123] 10 upperDigits hradix _ hfull
    exact absurd hread (by decide)

end SchedOS
