import Mathlib.Data.Nat.Bitwise
import SchedOS.Console.Format

/-!
# Reading a directive

The loops over the flags and the digits read what `parseDirective` reads, and take the arguments
that the directive takes (`processFlags_eq`, `processCount_eq`, `processPrecision_eq`). Where they
are in the format is said by `At`: the index is that of what is left of the format, so it is never
behind the NUL. The bit of a flag is set if its character is among the flags (`and_flagBits`).
-/

namespace SchedOS

/-! ## `int` -/

theorem int_of_fits {x : Int} (h1 : -0x80000000 ≤ x) (h2 : x < 0x80000000) : int x = x := by
  unfold int
  omega

theorem int_bounds (x : Int) : -0x80000000 ≤ int x ∧ int x < 0x80000000 := by
  unfold int
  omega

theorem int_int (x : Int) : int (int x) = int x := int_of_fits (int_bounds x).1 (int_bounds x).2

theorem int_digit (n c : Int) : int (10 * int n + c - '0'.toNat) = int (10 * n + c - '0'.toNat) := by
  unfold int
  omega

/-! ## Indices into the format -/

/-- The format goes on with `rest` from an index on. -/
def At (format : List UInt8) (i : Nat) (rest : List UInt8) : Prop :=
  ∃ pre, format = pre ++ rest ∧ pre.length = i

section
variable {format rest : List UInt8} {i : Nat}

theorem At.start (format : List UInt8) : At format 0 format := ⟨[], rfl, rfl⟩

theorem At.skip (xs : List UInt8) (h : At format i (xs ++ rest)) : At format (i + xs.length) rest := by
  obtain ⟨pre, rfl, rfl⟩ := h
  exact ⟨pre ++ xs, by rw [List.append_assoc], List.length_append⟩

theorem At.next {c : UInt8} (h : At format i (c :: rest)) : At format (i + 1) rest := At.skip [c] h

theorem At.length_eq (h : At format i rest) : format.length = i + rest.length := by
  obtain ⟨pre, rfl, rfl⟩ := h
  exact List.length_append

theorem formatFrom_at (h : At format i rest) : formatFrom format i = .ok rest := by
  have hle : i ≤ format.length := by
    rw [h.length_eq]
    exact Nat.le_add_right _ _
  obtain ⟨pre, rfl, rfl⟩ := h
  unfold formatFrom
  rw [if_pos hle, List.drop_left]

/-! ## The flags -/

/-- `flags` for the characters of the flags. -/
def flagBits (fs : List UInt8) : Nat := fs.foldl (fun flags c => flags ||| 1 <<< flagChars.idxOf c) 0

theorem isFlag_iff {c : UInt8} : isFlag c = true ↔ c ∈ flagChars := List.contains_iff_mem

theorem processFlags_eq (rest : List UInt8) (flags i : Nat) :
    processFlags flags i rest =
      ((rest.takeWhile isFlag).foldl (fun flags c => flags ||| 1 <<< flagChars.idxOf c) flags,
        i + (rest.takeWhile isFlag).length) := by
  induction rest generalizing flags i with
  | nil => rfl
  | cons c rest ih =>
    unfold processFlags
    dsimp only
    by_cases hc : c ∈ flagChars
    · -- one of the flags, which are not the NUL
      have hflag : ¬ (c = 0 ∨ flagChars.idxOf c = flagChars.length) := by
        rintro (rfl | hidx)
        · exact absurd hc (by decide)
        · exact absurd (List.idxOf_lt_length_iff.2 hc) (by omega)
      rw [if_neg hflag, ih, List.takeWhile_cons_of_pos (isFlag_iff.2 hc), List.foldl_cons,
        List.length_cons, Nat.add_assoc, Nat.add_comm 1]
    · rw [if_pos (.inr (List.idxOf_eq_length_iff.2 hc)),
        List.takeWhile_cons_of_neg (mt isFlag_iff.1 hc)]
      rfl

theorem testBit_foldl (fs : List UInt8) (flags k : Nat) :
    (fs.foldl (fun flags c => flags ||| 1 <<< flagChars.idxOf c) flags).testBit k =
      (flags.testBit k || fs.any fun c => flagChars.idxOf c == k) := by
  induction fs generalizing flags with
  | nil => simp
  | cons c fs ih =>
    rw [List.foldl_cons, ih, Nat.testBit_or, Nat.one_shiftLeft, Nat.testBit_two_pow, List.any_cons,
      Bool.or_assoc]
    rfl

theorem testBit_flagBits {c : UInt8} (hc : c ∈ flagChars) (fs : List UInt8) :
    (flagBits fs).testBit (flagChars.idxOf c) = decide (c ∈ fs) := by
  unfold flagBits
  rw [testBit_foldl, Nat.zero_testBit, Bool.false_or, Bool.eq_iff_iff, List.any_eq_true,
    decide_eq_true_iff]
  constructor
  · rintro ⟨c', hmem, hidx⟩
    -- the index of a character that is found says which one it is
    have heq := eq_of_beq hidx
    have hlt := List.idxOf_lt_length_iff.2 hc
    have hlt' : flagChars.idxOf c' < flagChars.length := by omega
    have hchar := List.getElem_idxOf hlt'
    have hchar' := List.getElem_idxOf hlt
    simp only [heq] at hchar
    rwa [← hchar', hchar]
  · exact fun hmem => ⟨c, hmem, beq_self_eq_true _⟩

theorem and_bit (n k : Nat) : n &&& 1 <<< k = if n.testBit k then 1 <<< k else 0 := by
  rw [Nat.one_shiftLeft, Nat.and_two_pow]
  cases n.testBit k <;> simp

theorem and_flagBits {c : UInt8} (hc : c ∈ flagChars) (fs : List UInt8) :
    flagBits fs &&& 1 <<< flagChars.idxOf c ≠ 0 ↔ c ∈ fs := by
  rw [and_bit, testBit_flagBits hc]
  by_cases hmem : c ∈ fs <;> simp [hmem]

/-- "0 flag, and no - flag". -/
theorem and_zeroFlag (fs : List UInt8) :
    flagBits fs &&& (FLAG_ZERO ||| FLAG_LEFTJUSTIFY) = FLAG_ZERO ↔
      '0'.toUInt8 ∈ fs ∧ '-'.toUInt8 ∉ fs := by
  have hzero := testBit_flagBits (c := '0'.toUInt8) (by decide) fs
  have hleft := testBit_flagBits (c := '-'.toUInt8) (by decide) fs
  rw [show flagChars.idxOf '0'.toUInt8 = 1 by decide] at hzero
  rw [show flagChars.idxOf '-'.toUInt8 = 2 by decide] at hleft
  rw [Nat.and_or_distrib_left, and_bit, and_bit, hzero, hleft]
  by_cases h0 : '0'.toUInt8 ∈ fs <;> by_cases h1 : '-'.toUInt8 ∈ fs <;> simp [h0, h1, FLAG_ZERO]

/-! ## Widths and precisions -/

theorem isDigit_iff {c : UInt8} : isDigit c = true ↔ '0'.toUInt8 ≤ c ∧ c ≤ '9'.toUInt8 :=
  decide_eq_true_iff

theorem processDigits_eq (rest : List UInt8) (n : Int) (i : Nat) :
    processDigits (int n) i rest =
      (int ((rest.takeWhile isDigit).foldl (fun n c => 10 * n + c.toNat - '0'.toNat) n),
        i + (rest.takeWhile isDigit).length) := by
  induction rest generalizing n i with
  | nil => rfl
  | cons c rest ih =>
    unfold processDigits
    by_cases hc : '0'.toUInt8 ≤ c ∧ c ≤ '9'.toUInt8
    · rw [if_pos hc, int_digit, ih, List.takeWhile_cons_of_pos (isDigit_iff.2 hc), List.foldl_cons,
        List.length_cons, Nat.add_assoc, Nat.add_comm 1]
    · rw [if_neg hc, List.takeWhile_cons_of_neg (mt isDigit_iff.1 hc)]
      rfl

/-- The arguments of a count are there. -/
theorem processCount_eq (low : Char) (h : At format i rest) (args : List UInt32)
    (hargs : (parseCount low rest).1.stars ≤ args.length) :
    ∃ i', At format i' (parseCount low rest).2 ∧ i ≤ i' ∧
      processCount low format i args = .ok (int ((parseCount low rest).1.value args), i',
        args.drop (parseCount low rest).1.stars) := by
  have hspell := parseCount_spell low rest
  have hat : At format i ((parseCount low rest).1.spell ++ (parseCount low rest).2) := by
    rwa [← hspell]
  refine ⟨_, At.skip _ hat, Nat.le_add_right _ _, ?_⟩
  unfold processCount
  rw [formatFrom_at h]
  show (if _ then _ else _) = _
  clear hat hspell
  revert hargs
  unfold parseCount
  split
  · intro _
    have hdigits := processDigits_eq rest 0 i
    rw [show int 0 = 0 from rfl] at hdigits
    rw [hdigits]
    rfl
  · split
    · intro hargs
      cases args with
      | nil => exact absurd hargs (Nat.not_succ_le_zero 0)
      | cons x args =>
        show Except.ok (int x.toNat, i + 1, args) = Except.ok (int (int x.toNat), i + 1, args)
        rw [int_int]
    · intro _
      rfl

theorem processPrecision_eq (h : At format i rest) (args : List UInt32)
    (hargs : (parsePrecision rest).1.elim 0 Count.stars ≤ args.length) :
    ∃ i', At format i' (parsePrecision rest).2 ∧ i ≤ i' ∧
      processPrecision format i args = .ok ((parsePrecision rest).1.elim (-1)
        (fun c => max 0 (int (c.value args))), i',
        args.drop ((parsePrecision rest).1.elim 0 Count.stars)) := by
  unfold processPrecision
  rw [formatFrom_at h]
  revert hargs
  unfold parsePrecision
  split
  · rename_i hdot
    intro hargs
    rw [cons_tail_of_headD hdot (by decide)] at h
    obtain ⟨i', hat, hle, hcount⟩ := processCount_eq '0' h.next args hargs
    refine ⟨i', hat, by omega, ?_⟩
    show (if rest.headD 0 = '.'.toUInt8 then processCount '0' format (i + 1) args >>= _ else _) = _
    rw [if_pos hdot, hcount]
    have hmax : ∀ n : Int, (if n < 0 then 0 else n) = max 0 n := by omega
    show Except.ok (if int _ < 0 then 0 else int _, _, _) = _
    rw [hmax]
    rfl
  · rename_i hdot
    intro _
    refine ⟨i, h, Nat.le_refl _, ?_⟩
    show (if rest.headD 0 = '.'.toUInt8 then _ else _) = _
    rw [if_neg hdot]
    rfl

end

end SchedOS
