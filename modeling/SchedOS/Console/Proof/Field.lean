import SchedOS.Console.Proof.Convert

/-!
# What a directive prints

`putField` prints a text in a field (`putField_eq`): the parts of the field are those that the
code's variables are counted down from (`fieldOf`). A pass for a directive reads it, converts its
argument and prints the field (`pass_field`), or sets the color (`pass_color`). Nothing but the
screen depends on `console_putc`, so a pass is stated for all of them (`Printer.on`).
-/

namespace SchedOS

/-- How much is printed of a text of `n` characters. -/
def printed (precision : Int) (n : Nat) : Nat := if precision ≥ 0 then min n precision.toNat else n

/-- The field for the variables at the end of a pass. -/
def fieldOf (flags : Nat) (width precision : Int) (numeric negative : Bool) (len : Int) : Field :=
  let sign := signChar flags numeric negative
  let zeros := countZeros flags width precision numeric sign len
  let width := int (width - (len + zeros + isSign sign))
  { left := if flags &&& FLAG_LEFTJUSTIFY ≠ 0 then 0 else width.toNat
    sign := if sign ≠ 0 then [sign] else []
    zeros := zeros.toNat
    len := len.toNat
    right := if flags &&& FLAG_LEFTJUSTIFY ≠ 0 then width.toNat else 0 }

/-- The field of a directive for a text. -/
def Directive.field (d : Directive) (args : List UInt32) (text : List UInt8) : Field :=
  fieldOf (flagBits d.flags) (d.widthOf args) (d.precisionOf args) (radix d.conv).isSome
    (isNegative d.conv (d.arg args)) (int (printed (d.precisionOf args) text.length))

/-! ## Printing loops -/

section
variable {σ : Type} (putc : σ → UInt8 → UInt32 → σ)

/-- Characters one after the other. -/
def putAll (color : UInt32) (s : σ) (cs : List UInt8) : σ := cs.foldl (fun s c => putc s c color) s

theorem putAll_nil (color : UInt32) (s : σ) : putAll putc color s [] = s := rfl

theorem putAll_append (color : UInt32) (s : σ) (cs cs' : List UInt8) :
    putAll putc color s (cs ++ cs') = putAll putc color (putAll putc color s cs) cs' :=
  List.foldl_append

theorem putTimes_eq (c : UInt8) (color : UInt32) (s : σ) (n : Nat) :
    putTimes putc c color s n = putAll putc color s (List.replicate n c) := by
  induction n generalizing s with
  | zero => rfl
  | succ n ih => exact ih _

theorem putData_eq {mem : Memory} {data : UInt32} {text : List UInt8}
    (h : ∀ i, i < text.length → mem (data + UInt32.ofNat i) = text.getD i 0) (color : UInt32) (s : σ)
    {n : Nat} (hn : n ≤ text.length) :
    putData putc mem color s data n = putAll putc color s (text.take n) := by
  induction n generalizing data text s with
  | zero => rw [List.take_zero]; rfl
  | succ n ih =>
    cases text with
    | nil => exact absurd hn (Nat.not_succ_le_zero n)
    | cons c text =>
      obtain ⟨hc, hrest⟩ := reads_cons h
      unfold putData
      rw [hc, ih hrest _ (Nat.le_of_succ_le_succ hn)]
      rfl

theorem int_toNat_le {x : Int} {n : Nat} (h : 0 ≤ x) (hx : x ≤ n) : (int x).toNat ≤ n := by
  unfold int
  omega

theorem textLength_eq {mem : Memory} {data : UInt32} {precision : Int} {text : List UInt8}
    (h : Prints mem data precision text) : textLength mem data precision =
      .ok (printed precision text.length) := by
  unfold textLength printed
  split
  · rw [strnlen_eq h.reads h.noNul (h.stop.imp_right fun hp => by omega)]
  · exact strlen_eq h.reads h.noNul (h.stop.resolve_right fun hp => by omega)

theorem printField_eq {flags : Nat} {width precision len : Int} {v : Conversion} {text : List UInt8}
    (h : ∀ i, i < text.length → v.mem (v.data + UInt32.ofNat i) = text.getD i 0)
    (hlen : len.toNat ≤ text.length) (color : UInt32) (s : σ) :
    printField putc flags width precision v color s len = putAll putc color s
      ((fieldOf flags width precision v.numeric v.negative len).chars text) := by
  unfold printField fieldOf Field.chars
  dsimp only
  generalize signChar flags v.numeric v.negative = sign
  generalize countZeros flags width precision v.numeric sign len = zeros
  generalize int (width - (len + zeros + isSign sign)) = w
  simp only [putAll_append, putTimes_eq, putData_eq putc h _ _ hlen]
  have hw : (min w 0).toNat = 0 := by omega
  have hsign : ∀ s, (if sign ≠ 0 then putc s sign color else s) =
      putAll putc color s (if sign ≠ 0 then [sign] else []) := by
    intro s
    split <;> rfl
  rw [hsign]
  by_cases hleft : flags &&& FLAG_LEFTJUSTIFY ≠ 0
  · simp only [if_pos hleft, List.replicate_zero, putAll_nil]
  · simp only [if_neg hleft, hw, List.replicate_zero, putAll_nil]

theorem putField_eq {flags : Nat} {width precision : Int} {v : Conversion} {text : List UInt8}
    (h : Prints v.mem v.data precision text) (color : UInt32) (s : σ) :
    putField putc flags width precision v color s = .ok (putAll putc color s
      ((fieldOf flags width precision v.numeric v.negative
        (int (printed precision text.length))).chars text)) := by
  have hle : (int (printed precision text.length)).toNat ≤ text.length := by
    refine int_toNat_le (Int.natCast_nonneg _) ?_
    unfold printed
    split <;> omega
  unfold putField
  rw [textLength_eq h, ← printField_eq putc h.reads hle]
  rfl

end

/-! ## Passes -/

/-- The other variables, with a screen. -/
def Printer.on {σ : Type} (st : Printer Unit) (s : σ) : Printer σ :=
  { screen := s, color := st.color, mem := st.mem, args := st.args, i := st.i }

/-- What `directive` does once it has read the directive up to its conversion character. -/
def directiveRest {σ : Type} (putc : σ → UInt8 → UInt32 → σ) (numbuf : UInt32) (d : Directive)
    (i : Nat) (st : Printer σ) : Except Fault (Printer σ) :=
  if d.conv = 'C'.toUInt8 then do
    let (color, args) ← vaArg (st.args.drop d.stars)
    return { st with color, args, i }
  else do
    let v ← convert numbuf (d.precisionOf st.args) st.mem (st.args.drop d.stars) i d.conv
    let screen ← putField putc (flagBits d.flags) (d.widthOf st.args) (d.precisionOf st.args) v
      st.color st.screen
    return { st with screen, mem := v.mem, args := v.args, i := v.i }

theorem ok_bind {α β : Type} (a : α) (f : α → Except Fault β) : (Except.ok a >>= f) = f a := rfl

section
variable {format rest : List UInt8} {numbuf : UInt32} {st : Printer Unit}

theorem directive_eq (numbuf : UInt32) (hat : At format (st.i + 1) rest)
    (hargs : (parseDirective rest).1.stars ≤ st.args.length) :
    ∃ i r, At format i r ∧ st.i + 1 ≤ i ∧ r.headD 0 = (parseDirective rest).1.conv ∧
      (parseDirective rest).2 = (if (parseDirective rest).1.conv = 0 then r else r.tail) ∧
      ∀ {σ : Type} (putc : σ → UInt8 → UInt32 → σ) (s : σ), directive putc format numbuf (st.on s) =
        directiveRest putc numbuf (parseDirective rest).1 i (st.on s) := by
  unfold Directive.stars at hargs
  have hflags : At format (st.i + 1 + (rest.takeWhile isFlag).length) (rest.dropWhile isFlag) := by
    refine At.skip _ ?_
    rwa [List.takeWhile_append_dropWhile]
  obtain ⟨i1, hat1, hle1, hwidth⟩ := processCount_eq '1' hflags st.args
    (Nat.le_trans (Nat.le_add_right _ _) hargs)
  obtain ⟨i2, hat2, hle2, hprecision⟩ := processPrecision_eq hat1
    (st.args.drop (parseDirective rest).1.width.stars) (by
      rw [List.length_drop]
      exact Nat.le_sub_of_add_le' hargs)
  refine ⟨i2, _, hat2, by omega, rfl, rfl, fun putc s => ?_⟩
  have hdrop : (st.args.drop (parseDirective rest).1.width.stars).drop
      ((parseDirective rest).1.precision.elim 0 Count.stars) =
        st.args.drop (parseDirective rest).1.stars := List.drop_drop
  have hwidth' : processWidth format (st.i + 1 + (rest.takeWhile isFlag).length) st.args =
      .ok ((parseDirective rest).1.widthOf st.args, i1,
        st.args.drop (parseDirective rest).1.width.stars) := hwidth
  have hprecision' : processPrecision format i1 (st.args.drop (parseDirective rest).1.width.stars) =
      .ok ((parseDirective rest).1.precisionOf st.args, i2,
        st.args.drop (parseDirective rest).1.stars) := by
    rw [hprecision, ← hdrop]
    rfl
  unfold directive
  rw [show (st.on s).i = st.i from rfl, formatFrom_at hat, ok_bind]
  dsimp only
  rw [processFlags_eq, show (st.on s).args = st.args from rfl, hwidth', ok_bind]
  dsimp only
  rw [hprecision', ok_bind]
  dsimp only
  rw [formatFrom_at hat2, ok_bind]
  rfl

/-- What a pass leaves apart from the screen. -/
structure Passed (format rest : List UInt8) (numbuf : UInt32) (st st' : Printer Unit) (n : Nat) :
    Prop where
  at_rest : At format st'.i rest
  args : st'.args = st.args.drop n
  outside : ∀ x, NUMBUFSIZ.toNat ≤ (x - numbuf).toNat → st'.mem x = st.mem x

/-- The index after the conversion character. `format--` is made up for by `++format`. -/
theorem at_next {i k : Nat} {r : List UInt8} {conv : UInt8} (hat : At format i r) (hi : k + 1 ≤ i)
    (hconv : r.headD 0 = conv) :
    At format ((if conv = 0 then i - 1 else i) + 1) (if conv = 0 then r else r.tail) := by
  split
  · rwa [Nat.sub_add_cancel (by omega)]
  · rename_i hne
    rw [cons_tail_of_headD hconv hne] at hat
    exact hat.next

theorem vprintfPass_directive {σ : Type} {putc : σ → UInt8 → UInt32 → σ}
    (hat : At format st.i ('%'.toUInt8 :: rest)) {s s' : σ} (st' : Printer Unit)
    (h : directive putc format numbuf (st.on s) = .ok (st'.on s')) :
    vprintfPass putc format numbuf (st.on s) =
      .inl (({ st' with i := st'.i + 1 } : Printer Unit).on s') := by
  unfold vprintfPass
  rw [show (st.on s).i = st.i from rfl, formatFrom_at hat]
  dsimp only
  rw [List.headD_cons, if_neg (by decide), if_neg (not_not.2 rfl), h]
  rfl

/-- A pass for a directive that prints a field. -/
theorem pass_field (numbuf : UInt32) (hat : At format st.i ('%'.toUInt8 :: rest))
    (hC : (parseDirective rest).1.conv ≠ 'C'.toUInt8)
    (hargs : (parseDirective rest).1.vargs ≤ st.args.length) {text : List UInt8}
    (htext : (parseDirective rest).1.Text st.mem st.args text) :
    ∃ st', Passed format (parseDirective rest).2 numbuf st st' (parseDirective rest).1.vargs ∧
      st'.color = st.color ∧
      ∀ {σ : Type} (putc : σ → UInt8 → UInt32 → σ) (s : σ),
        vprintfPass putc format numbuf (st.on s) = .inl (st'.on (putAll putc st.color s
          (((parseDirective rest).1.field st.args text).chars text))) := by
  obtain ⟨i, r, hi, hle, hconv, hrest, hdirective⟩ := directive_eq numbuf hat.next
    (Nat.le_trans (Nat.le_add_right _ _) hargs)
  obtain ⟨v, hv, hconverted⟩ := convert_eq numbuf i hargs hC htext
  refine ⟨⟨(), st.color, v.mem, v.args, v.i + 1⟩, ⟨?_, hconverted.args, hconverted.outside⟩, rfl,
    fun putc s => ?_⟩
  · rw [hrest, hconverted.i]
    exact at_next hi hle hconv
  · refine vprintfPass_directive hat ⟨(), st.color, v.mem, v.args, v.i⟩ ?_
    rw [hdirective, directiveRest, if_neg hC, show (st.on s).args = st.args from rfl,
      show (st.on s).mem = st.mem from rfl, hv, ok_bind, putField_eq putc hconverted.prints, ok_bind,
      hconverted.numeric, hconverted.negative]
    rfl

/-- A pass for a directive that sets the color. -/
theorem pass_color (numbuf : UInt32) (hat : At format st.i ('%'.toUInt8 :: rest))
    (hC : (parseDirective rest).1.conv = 'C'.toUInt8)
    (hargs : (parseDirective rest).1.vargs ≤ st.args.length) :
    ∃ st', Passed format (parseDirective rest).2 numbuf st st' (parseDirective rest).1.vargs ∧
      st'.color = (parseDirective rest).1.arg st.args ∧
      ∀ {σ : Type} (putc : σ → UInt8 → UInt32 → σ) (s : σ),
        vprintfPass putc format numbuf (st.on s) = .inl (st'.on s) := by
  obtain ⟨i, r, hi, hle, hconv, hrest, hdirective⟩ := directive_eq numbuf hat.next
    (Nat.le_trans (Nat.le_add_right _ _) hargs)
  have hne : (parseDirective rest).1.conv ≠ 0 := by
    rw [hC]
    decide
  have hnext := at_next hi hle hconv
  rw [if_neg hne, ← hrest] at hnext
  refine ⟨⟨(), (parseDirective rest).1.arg st.args, st.mem,
    st.args.drop (parseDirective rest).1.vargs, i + 1⟩, ⟨hnext, rfl, fun _ _ => rfl⟩, rfl,
    fun putc s => ?_⟩
  refine vprintfPass_directive hat ⟨(), (parseDirective rest).1.arg st.args, st.mem,
    st.args.drop (parseDirective rest).1.vargs, i⟩ ?_
  rw [hdirective, directiveRest, if_pos hC, show (st.on s).args = st.args from rfl,
    Directive.drop_stars (by rw [hC]; decide) hargs]
  rfl

/-- A pass for a character. -/
theorem pass_plain (numbuf : UInt32) {c : UInt8} (hat : At format st.i (c :: rest)) (h0 : c ≠ 0)
    (hc : c ≠ '%'.toUInt8) :
    ∃ st', Passed format rest numbuf st st' 0 ∧ st'.color = st.color ∧
      ∀ {σ : Type} (putc : σ → UInt8 → UInt32 → σ) (s : σ),
        vprintfPass putc format numbuf (st.on s) = .inl (st'.on (putAll putc st.color s [c])) := by
  refine ⟨{ st with i := st.i + 1 }, ⟨hat.next, rfl, fun _ _ => rfl⟩, rfl, fun putc s => ?_⟩
  unfold vprintfPass
  rw [show (st.on s).i = st.i from rfl, formatFrom_at hat]
  dsimp only
  rw [List.headD_cons, if_neg h0, if_pos hc]
  rfl

/-- The last pass. -/
theorem pass_end (hat : At format st.i rest) (h0 : rest.headD 0 = 0) {σ : Type}
    (putc : σ → UInt8 → UInt32 → σ) (s : σ) :
    vprintfPass putc format numbuf (st.on s) = .inr (.ok (st.on s)) := by
  unfold vprintfPass
  rw [show (st.on s).i = st.i from rfl, formatFrom_at hat]
  dsimp only
  rw [if_pos h0]

end

end SchedOS
