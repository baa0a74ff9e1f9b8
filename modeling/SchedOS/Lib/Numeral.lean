import Mathlib.Data.Nat.Digits.Lemmas

/-!
# Numerals

`Numeral.digits b n`: the digits of `n` in base `b`, the first one first; 0 has one. `value` reads
digits. A numeral is the one of `n / b` and the digit `n % b` (`digits_step`), it is read as what it
was made of (`value_digits`), begins with 0 only if it is 0 (`eq_zero_of_head`), and its length is
bounded by powers of the base (`length_digits_le_iff`).
-/

namespace Numeral

/-- The digits of a number, the first one first. -/
def digits (b n : Nat) : List Nat := if n = 0 then [0] else (Nat.digits b n).reverse

/-- The number that digits are. -/
def value (b : Nat) (ds : List Nat) : Nat := ds.foldl (fun n d => n * b + d) 0

variable {b n : Nat}

theorem digits_zero : digits b 0 = [0] := if_pos rfl

theorem digits_of_pos (hn : n ≠ 0) : digits b n = (Nat.digits b n).reverse := if_neg hn

theorem digits_of_lt (h : n < b) : digits b n = [n] := by
  by_cases hn : n = 0
  · rw [hn, digits_zero]
  · rw [digits_of_pos hn, Nat.digits_of_lt b n hn h]
    rfl

/-- The last digit. -/
theorem digits_step (hb : 1 < b) (h : b ≤ n) : digits b n = digits b (n / b) ++ [n % b] := by
  have hdiv : n / b ≠ 0 := (Nat.div_pos h (by omega)).ne'
  rw [digits_of_pos hdiv, digits_of_pos (by omega), Nat.digits_def' hb (by omega), List.reverse_cons]

theorem digits_ne_nil : digits b n ≠ [] := by
  by_cases hn : n = 0
  · rw [hn, digits_zero]
    exact List.cons_ne_nil _ _
  · rw [digits_of_pos hn]
    exact mt List.reverse_eq_nil_iff.1 (Nat.digits_ne_nil_iff_ne_zero.2 hn)

theorem digits_lt (hb : 1 < b) {d : Nat} (hd : d ∈ digits b n) : d < b := by
  by_cases hn : n = 0
  · rw [hn, digits_zero, List.mem_singleton] at hd
    omega
  · rw [digits_of_pos hn, List.mem_reverse] at hd
    exact Nat.digits_lt_base hb hd

theorem value_append (ds : List Nat) (d : Nat) : value b (ds ++ [d]) = value b ds * b + d := by
  unfold value
  rw [List.foldl_append]
  rfl

theorem value_reverse (ds : List Nat) : value b ds.reverse = Nat.ofDigits b ds := by
  induction ds with
  | nil => rfl
  | cons d ds ih =>
    rw [List.reverse_cons, value_append, ih, Nat.ofDigits_cons, Nat.add_comm, Nat.mul_comm]

/-- A numeral is read as what it was made of. -/
theorem value_digits (b n : Nat) : value b (digits b n) = n := by
  by_cases hn : n = 0
  · rw [hn, digits_zero]
    exact Nat.zero_mul b
  · rw [digits_of_pos hn, value_reverse, Nat.ofDigits_digits]

theorem value_replicate_append (k : Nat) (ds : List Nat) :
    value b (List.replicate k 0 ++ ds) = value b ds := by
  have hzeros : (List.replicate k 0).foldl (fun n d => n * b + d) 0 = 0 := by
    induction k with
    | zero => rfl
    | succ k ih =>
      rw [List.replicate_succ, List.foldl_cons, Nat.zero_mul]
      exact ih
  unfold value
  rw [List.foldl_append, hzeros]

/-- No numeral begins with 0, but the one of 0. -/
theorem eq_zero_of_head {ds : List Nat} (h : digits b n = 0 :: ds) : n = 0 := by
  by_contra hn
  refine Nat.getLast_digit_ne_zero b hn ?_
  rw [digits_of_pos hn] at h
  have hlast := List.head_reverse (l := Nat.digits b n) (by rw [h]; exact List.cons_ne_nil _ _)
  rw [← hlast]
  simp only [h, List.head_cons]

theorem length_digits_le_iff (hb : 1 < b) {k : Nat} :
    (digits b n).length ≤ k + 1 ↔ n < b ^ (k + 1) := by
  by_cases hn : n = 0
  · rw [hn, digits_zero]
    exact iff_of_true (Nat.le_add_left 1 k) (Nat.pow_pos (by omega))
  · rw [digits_of_pos hn, List.length_reverse, Nat.digits_length_le_iff hb]

end Numeral
