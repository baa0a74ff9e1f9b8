import SchedOS.Console.Format
import SchedOS.Lib.Block

/-!
# The numerals in `numbuf`

`fill_numbuf` writes a number's digits from the last one on, downwards from the buffer's end: a pass
puts the digit of `val % base` before the digits that are there (`Block.write_last`), and what is
left is the numeral of `val / base` (`Numeral.digits_step`). So the buffer's end is the number's
text (`fillNumbuf_eq`), of at most 10 digits in the bases that are used (`length_numeralText_le`).
-/

namespace SchedOS

/-! ## Texts that end at an address -/

/-- Where a text begins that ends before `e`. -/
def textStart (e : UInt32) (text : List UInt8) : UInt32 := e - UInt32.ofNat text.length

/-- Memory with a text that ends before `e`. -/
def putText (mem : Memory) (e : UInt32) (text : List UInt8) : Memory :=
  Block.write mem (textStart e text) text.length (text.getD · 0)

theorem textStart_nil (e : UInt32) : textStart e [] = e := UInt32.sub_zero e

theorem putText_nil (mem : Memory) (e : UInt32) : putText mem e [] = mem := Block.write_zero

theorem textStart_snoc (e : UInt32) (text : List UInt8) (c : UInt8) :
    textStart e (text ++ [c]) = textStart (e - 1) text := by
  unfold textStart
  rw [List.length_append, List.length_singleton, UInt32.ofNat_add, show UInt32.ofNat 1 = 1 from rfl]
  grind

theorem textStart_add (e : UInt32) (text : List UInt8) :
    textStart e text + UInt32.ofNat text.length = e := UInt32.sub_add_cancel _ _

theorem getD_snoc (text : List UInt8) (c : UInt8) : (text ++ [c]).getD text.length 0 = c := by
  rw [List.getD_eq_getElem?_getD, List.getElem?_append_right (Nat.le_refl _), Nat.sub_self]
  rfl

/-- The text before a character that has been stored. -/
theorem putText_snoc (mem : Memory) (e : UInt32) {text : List UInt8} (c : UInt8)
    (h : text.length < 2 ^ 32) :
    putText (Function.update mem (e - 1) c) (e - 1) text = putText mem e (text ++ [c]) := by
  have hlast := @Block.write_last _ mem (textStart (e - 1) text) _ ((text ++ [c]).getD · 0) h
  rw [textStart_add, getD_snoc] at hlast
  unfold putText
  rw [textStart_snoc, List.length_append, List.length_singleton, ← hlast]
  refine Block.write_congr fun i hi => ?_
  rw [List.getD_eq_getElem?_getD, List.getD_eq_getElem?_getD, List.getElem?_append_left hi]

/-! ## The loop -/

section
variable {base : UInt32} {table : List UInt8}

theorem length_numeralText (base : Nat) (table : List UInt8) (n : Nat) :
    (numeralText base table n).length = (Numeral.digits base n).length := List.length_map _

theorem length_numeralText_le (table : List UInt8) {base n k : Nat} (hb : 1 < base)
    (hn : n < base ^ (k + 1)) : (numeralText base table n).length ≤ k + 1 := by
  rw [length_numeralText]
  exact (Numeral.length_digits_le_iff hb).2 hn

theorem div_ne_zero_iff {val base : UInt32} (hb : 1 < base.toNat) :
    val / base ≠ 0 ↔ base.toNat ≤ val.toNat := by
  rw [Ne, ← UInt32.toNat_inj, UInt32.toNat_div]
  exact (Nat.div_pos_iff.trans (and_iff_right (by omega))).symm.trans Nat.pos_iff_ne_zero |>.symm

/-- The pass for the first digit. -/
theorem fillDigit_first (hb : 1 < base.toNat) (mem : Memory) (e : UInt32) {val : UInt32}
    (h : val.toNat < base.toNat) : fillDigit base table (mem, e, val) =
      .inr (putText mem e (numeralText base.toNat table val.toNat),
        textStart e (numeralText base.toNat table val.toNat)) := by
  have htext : numeralText base.toNat table val.toNat = [] ++ [table.getD val.toNat 0] := by
    rw [numeralText, Numeral.digits_of_lt h]
    rfl
  unfold fillDigit
  dsimp only
  rw [if_neg (mt (div_ne_zero_iff hb).1 (Nat.not_le.2 h)), UInt32.toNat_mod, Nat.mod_eq_of_lt h, htext,
    ← putText_snoc mem e _ (by decide), putText_nil, textStart_snoc, textStart_nil]

/-- The pass for another digit. -/
theorem fillDigit_next (hb : 1 < base.toNat) (mem : Memory) (e : UInt32) {val : UInt32}
    (h : base.toNat ≤ val.toNat) : fillDigit base table (mem, e, val) =
      .inl (Function.update mem (e - 1) (table.getD (val.toNat % base.toNat) 0), e - 1, val / base) := by
  unfold fillDigit
  dsimp only
  rw [if_pos ((div_ne_zero_iff hb).2 h), UInt32.toNat_mod]

theorem numeralText_step {base n : Nat} (hb : 1 < base) (h : base ≤ n) :
    numeralText base table n = numeralText base table (n / base) ++ [table.getD (n % base) 0] := by
  unfold numeralText
  rw [Numeral.digits_step hb h, List.map_append]
  rfl

/-- The loop of `fill_numbuf`, for a number of at most `k + 1` digits. -/
theorem fillDigit_run (hb : 1 < base.toNat) {k : Nat} (hk : k < 32) (mem : Memory) (e val : UInt32)
    (hval : val.toNat < base.toNat ^ (k + 1)) :
    Loop.run (fillDigit base table) (k + 1) (mem, e, val) =
      some (putText mem e (numeralText base.toNat table val.toNat),
        textStart e (numeralText base.toNat table val.toNat)) := by
  induction k generalizing mem e val with
  | zero =>
    rw [Nat.zero_add, Nat.pow_one] at hval
    exact Loop.run_succ_inr (fillDigit_first hb mem e hval)
  | succ k ih =>
    rcases Nat.lt_or_ge val.toNat base.toNat with hlt | hge
    · exact Loop.run_succ_inr (fillDigit_first hb mem e hlt)
    · have hdiv : (val / base).toNat < base.toNat ^ (k + 1) := by
        rw [UInt32.toNat_div]
        exact Nat.div_lt_of_lt_mul (by rwa [Nat.pow_succ'] at hval)
      have hlen := length_numeralText_le table hb hdiv
      rw [Loop.run_succ_inl (fillDigit_next hb mem e hge), ih (by omega) _ _ _ hdiv,
        putText_snoc mem e _ (by omega), UInt32.toNat_div, numeralText_step hb hge, textStart_snoc]

theorem length_numberText_le (table : List UInt8) {base n k : Nat} (hb : 1 < base)
    (hn : n < base ^ (k + 1)) (precision : Int) : (numberText base table precision n).length ≤ k + 1 := by
  unfold numberText
  split
  · exact Nat.zero_le _
  · exact length_numeralText_le table hb hn

/-- What `fill_numbuf` leaves: the number's text and a NUL before the buffer's end. -/
theorem fillNumbuf_eq (hb : 1 < base.toNat) (mem : Memory) (e val : UInt32) (precision : Int) :
    fillNumbuf mem e val base table precision =
      .ok (putText mem e (numberText base.toNat table precision val.toNat ++ [0]),
        textStart e (numberText base.toNat table precision val.toNat ++ [0])) := by
  have hval : val.toNat < base.toNat ^ (31 + 1) :=
    Nat.lt_of_lt_of_le val.toNat_lt (Nat.pow_le_pow_left hb 32)
  have hlen := length_numberText_le table hb hval precision
  rw [← putText_snoc mem e _ (by omega), textStart_snoc]
  have hzero : val.toNat = 0 ↔ val = 0 := UInt32.toNat_inj (b := 0)
  unfold fillNumbuf numberText
  dsimp only
  by_cases hnone : val.toNat = 0 ∧ precision = 0
  · have hno : ¬ (precision ≠ 0 ∨ val ≠ 0) := by
      rintro (hp | hv)
      · exact hp hnone.2
      · exact hv (hzero.1 hnone.1)
    rw [if_pos hnone, if_neg hno, putText_nil, textStart_nil]
  · have hsome : precision ≠ 0 ∨ val ≠ 0 := by
      by_contra hno
      exact hnone ⟨hzero.2 (by tauto), by tauto⟩
    rw [if_neg hnone, if_pos hsome, fillDigit_run hb (by decide) _ _ _ hval]

/-! ## What a text is read as -/

theorem putText_string {mem : Memory} {e : UInt32} {text : List UInt8} (h : text.length < 2 ^ 31) :
    StringAt (putText mem e (text ++ [0])) (textStart e (text ++ [0])) text := by
  intro i hi
  have hoffset : (textStart e (text ++ [0]) + UInt32.ofNat i - textStart e (text ++ [0])).toNat = i := by
    rw [UInt32.add_comm, UInt32.add_sub_cancel, UInt32.toNat_ofNat_of_lt' (by
      show i < 2 ^ 32
      omega)]
  unfold putText
  rw [Block.write_of_lt (by rw [hoffset, List.length_append]; exact Nat.lt_succ_of_le hi), hoffset]
  rcases Nat.lt_or_eq_of_le hi with hlt | rfl
  · rw [List.getD_eq_getElem?_getD, List.getD_eq_getElem?_getD, List.getElem?_append_left hlt]
  · rw [getD_snoc, List.getD_eq_getElem?_getD, List.getElem?_eq_none (Nat.le_refl _)]
    rfl

/-- The text ends with the buffer, so it changes nothing but the buffer. -/
theorem putText_outside {mem : Memory} {numbuf x : UInt32} {text : List UInt8}
    (h : text.length ≤ NUMBUFSIZ.toNat) (hx : NUMBUFSIZ.toNat ≤ (x - numbuf).toNat) :
    putText mem (numbuf + NUMBUFSIZ) text x = mem x := by
  refine Block.write_of_le ?_
  have hsize : NUMBUFSIZ.toNat = 20 := rfl
  have hlt := (x - numbuf).toNat_lt
  have hoffset : x - textStart (numbuf + NUMBUFSIZ) text =
      x - numbuf - (NUMBUFSIZ - UInt32.ofNat text.length) := by
    unfold textStart
    grind
  rw [hoffset, UInt32.toNat_sub, UInt32.toNat_sub, UInt32.toNat_ofNat_of_lt' (by
    show _ < 2 ^ 32
    omega)]
  omega

theorem textStart_offset (numbuf : UInt32) {text : List UInt8} (h : text.length ≤ NUMBUFSIZ.toNat) :
    (textStart (numbuf + NUMBUFSIZ) text - numbuf).toNat + text.length = NUMBUFSIZ.toNat := by
  have hsize : NUMBUFSIZ.toNat = 20 := rfl
  have hoffset : textStart (numbuf + NUMBUFSIZ) text - numbuf =
      NUMBUFSIZ - UInt32.ofNat text.length := by
    unfold textStart
    grind
  rw [hoffset, UInt32.toNat_sub, UInt32.toNat_ofNat_of_lt' (by
    show _ < 2 ^ 32
    omega)]
  omega

theorem numeralText_ne_nil {base n : Nat} : numeralText base table n ≠ [] :=
  mt List.map_eq_nil_iff.1 Numeral.digits_ne_nil

section
variable {base n : Nat} (hb : 1 < base) (htable : base ≤ table.length)
include hb htable

theorem mem_numeralText {c : UInt8} (hc : c ∈ numeralText base table n) : c ∈ table.take base := by
  obtain ⟨d, hd, rfl⟩ := List.mem_map.1 hc
  have hlt := Numeral.digits_lt hb hd
  rw [List.getD_eq_getElem?_getD, List.getElem?_eq_getElem (by omega), Option.getD_some]
  exact List.mem_take_iff_getElem.2 ⟨d, by omega, rfl⟩

variable (hnodup : table.Nodup)
include hnodup

/-- The digits of a text. -/
theorem numeralText_idxOf : (numeralText base table n).map (table.idxOf ·) = Numeral.digits base n := by
  unfold numeralText
  rw [List.map_map]
  refine (List.map_congr_left fun d hd => ?_).trans (List.map_id _)
  have hlt := Numeral.digits_lt hb hd
  show table.idxOf (table.getD d 0) = d
  rw [List.getD_eq_getElem?_getD, List.getElem?_eq_getElem (by omega), Option.getD_some]
  exact hnodup.idxOf_getElem d (by omega)

theorem numeralText_head (h : (numeralText base table n).head? = table.head?) :
    n = 0 ∧ (numeralText base table n).length = 1 := by
  have hdigits := numeralText_idxOf (n := n) hb htable hnodup
  cases htext : numeralText base table n with
  | nil => exact absurd htext numeralText_ne_nil
  | cons c text =>
    cases table with
    | nil => exact absurd (Nat.le_zero.1 htable) (by omega)
    | cons zero table =>
      rw [htext] at h hdigits
      cases Option.some.inj h
      rw [List.map_cons, List.idxOf_cons_self] at hdigits
      have hn := Numeral.eq_zero_of_head hdigits.symm
      rw [hn, Numeral.digits_zero] at hdigits
      exact ⟨hn, by rw [List.map_eq_nil_iff.1 (List.cons.inj hdigits).2]; rfl⟩

end

/-- **`fill_numbuf`**: with a table of digits for a base from 10 to 16 it returns a string in the
buffer, which it does not leave. The string is the number in that base, with no zero before it; for 0
and precision 0 it is empty. -/
theorem fillNumbuf_encodes (mem : Memory) (numbuf val base : UInt32) (digits : List UInt8)
    (precision : Int) (hbase : 10 ≤ base.toNat ∧ base.toNat ≤ 16)
    (hdigits : digits.Nodup ∧ base.toNat ≤ digits.length) :
    ∃ mem' data text,
      fillNumbuf mem (numbuf + NUMBUFSIZ) val base digits precision = .ok (mem', data) ∧
      StringAt mem' data text ∧ (data - numbuf).toNat + (text.length + 1) = NUMBUFSIZ.toNat ∧
      (∀ x, NUMBUFSIZ.toNat ≤ (x - numbuf).toNat → mem' x = mem x) ∧
      (val = 0 ∧ precision = 0 → text = []) ∧
      (val ≠ 0 ∨ precision ≠ 0 → text ≠ [] ∧ (∀ c ∈ text, c ∈ digits.take base.toNat) ∧
        Numeral.value base.toNat (text.map (digits.idxOf ·)) = val.toNat ∧
        (text.head? = digits.head? → val = 0 ∧ text.length = 1)) := by
  have hb : 1 < base.toNat := by omega
  have hval : val.toNat < base.toNat ^ (9 + 1) :=
    Nat.lt_of_lt_of_le (Nat.lt_trans val.toNat_lt (by decide)) (Nat.pow_le_pow_left hbase.1 10)
  have hlen := length_numberText_le digits hb hval precision
  have hfit : (numberText base.toNat digits precision val.toNat ++ [0]).length ≤ NUMBUFSIZ.toNat := by
    rw [List.length_append]
    exact Nat.le_trans (Nat.succ_le_succ hlen) (by decide)
  have hoffset := textStart_offset numbuf hfit
  rw [List.length_append] at hoffset
  refine ⟨_, _, numberText base.toNat digits precision val.toNat, fillNumbuf_eq hb _ _ _ _,
    putText_string (by omega), hoffset, fun x hx => putText_outside hfit hx, ?_, ?_⟩
  · rintro ⟨rfl, rfl⟩
    rfl
  · intro hsome
    have htext : numberText base.toNat digits precision val.toNat =
        numeralText base.toNat digits val.toNat := by
      refine if_neg ?_
      rintro ⟨hv, hp⟩
      rcases hsome with hv' | hp'
      · exact hv' (UInt32.toNat_inj.1 hv)
      · exact hp' hp
    rw [htext, numeralText_idxOf hb hdigits.2 hdigits.1, Numeral.value_digits]
    refine ⟨numeralText_ne_nil, fun c hc => mem_numeralText hb hdigits.2 hc, rfl, fun hhead => ?_⟩
    obtain ⟨hn, hone⟩ := numeralText_head hb hdigits.2 hdigits.1 hhead
    exact ⟨UInt32.toNat_inj.1 hn, hone⟩

/-- The largest number, in decimal. -/
theorem fillNumbuf_encodes_max : ∃ mem' data text,
    fillNumbuf (fun _ => 1) (0x1000 + NUMBUFSIZ) 0xFFFFFFFF 10 upperDigits (-1) = .ok (mem', data) ∧
      StringAt mem' data text ∧ Numeral.value 10 (text.map (upperDigits.idxOf ·)) = 0xFFFFFFFF := by
  obtain ⟨mem', data, text, hrun, hstring, -, -, -, hvalue⟩ := fillNumbuf_encodes (fun _ => 1) 0x1000
    0xFFFFFFFF 10 upperDigits (-1) (by decide) (by decide)
  exact ⟨mem', data, text, hrun, hstring, (hvalue (.inr (by decide))).2.2.1⟩

end

end SchedOS
