import Mathlib.Data.Int.CardIntervalMod
import Mathlib.Data.Nat.Count
import SchedOS.Lib.Exec

/-!
# Masked xor-shifts

`x ^^^ (x >>> a &&& m)` and `x ^^^ (x <<< a &&& m)` lose nothing, whatever the mask: each bit of `x`
is a bit of the result xored with a bit of `x` that is `a` places further on, so the bits are found
again one after the other from the end that the shift leaves alone. A permutation of the numbers
below `N` does not change how many of them satisfy a predicate (`Window.count_perm`), and the
residues modulo `t` are met `N / t` times each, or once more (`Window.count_mod`).
-/

namespace XorShift

variable {w : Nat}

def right (a : Nat) (m x : BitVec w) : BitVec w := x ^^^ (x >>> a &&& m)

def left (a : Nat) (m x : BitVec w) : BitVec w := x ^^^ (x <<< a &&& m)

theorem getLsbD_right (a : Nat) (m x : BitVec w) (i : Nat) :
    (right a m x).getLsbD i = (x.getLsbD i ^^ (x.getLsbD (a + i) && m.getLsbD i)) := by
  rw [right, BitVec.getLsbD_xor, BitVec.getLsbD_and, BitVec.getLsbD_ushiftRight]

theorem getLsbD_left (a : Nat) (m x : BitVec w) (i : Nat) :
    (left a m x).getLsbD i =
      (x.getLsbD i ^^ ((decide (i < w) && !decide (i < a) && x.getLsbD (i - a)) &&
        m.getLsbD i)) := by
  rw [left, BitVec.getLsbD_xor, BitVec.getLsbD_and, BitVec.getLsbD_shiftLeft]

/-- From the highest bit down. -/
theorem right_injective {a : Nat} (ha : 0 < a) (m : BitVec w) :
    Function.Injective (right a m) := by
  intro x y h
  have key : ∀ k i, w - i ≤ k → x.getLsbD i = y.getLsbD i := by
    intro k
    induction k with
    | zero =>
      intro i hi
      rw [BitVec.getLsbD_of_ge x i (by omega), BitVec.getLsbD_of_ge y i (by omega)]
    | succ k ih =>
      intro i hi
      have hbit := congrArg (fun z : BitVec w => z.getLsbD i) h
      by_cases hw : w ≤ i
      · rw [BitVec.getLsbD_of_ge x i hw, BitVec.getLsbD_of_ge y i hw]
      · simp only [getLsbD_right, ih (a + i) (by omega)] at hbit
        exact Bool.xor_left_inj.1 hbit
  exact BitVec.eq_of_getLsbD_eq fun i _ => key (w - i) i (Nat.le_refl _)

/-- From the lowest bit up. -/
theorem left_injective {a : Nat} (ha : 0 < a) (m : BitVec w) :
    Function.Injective (left a m) := by
  intro x y h
  have key : ∀ i, x.getLsbD i = y.getLsbD i := by
    intro i
    induction i using Nat.strong_induction_on with
    | _ i ih =>
      have hbit := congrArg (fun z : BitVec w => z.getLsbD i) h
      by_cases hi : i < a
      · simpa [getLsbD_left, hi] using hbit
      · simp only [getLsbD_left, ih (i - a) (by omega)] at hbit
        exact Bool.xor_left_inj.1 hbit
  exact BitVec.eq_of_getLsbD_eq fun i _ => key i

end XorShift

namespace Window

/-- A permutation of the numbers below `N` does not change a count. -/
theorem count_perm {p : Nat → Prop} [DecidablePred p] {f : Nat → Nat} {N : Nat}
    (hlt : ∀ n, n < N → f n < N) (hinj : ∀ m n, m < N → n < N → f m = f n → m = n) :
    count (fun n => p (f n)) 0 N = count p 0 N := by
  have hsurj : ∀ n, n < N → ∃ m, m < N ∧ f m = n := by
    intro n hn
    have hs := Finset.surjOn_of_injOn_of_card_le (s := Finset.range N) (t := Finset.range N) f
      (fun m hm => Finset.mem_coe.2 (Finset.mem_range.2 (hlt m (Finset.mem_range.1 hm))))
      (fun m hm n hn => hinj m n (Finset.mem_range.1 hm) (Finset.mem_range.1 hn)) (Nat.le_refl _)
    obtain ⟨m, hm, he⟩ := hs (Finset.mem_coe.2 (Finset.mem_range.2 hn))
    exact ⟨m, Finset.mem_range.1 hm, he⟩
  unfold count
  refine Finset.card_nbij f (fun n hn => ?_) (fun m hm n hn he => ?_) fun n hn => ?_
  · obtain ⟨hn, hp⟩ := Finset.mem_filter.1 hn
    have hn := (Finset.mem_Ico.1 hn).2
    exact Finset.mem_filter.2 ⟨Finset.mem_Ico.2 ⟨Nat.zero_le _, hlt n hn⟩, hp⟩
  · have hm := (Finset.mem_Ico.1 (Finset.mem_filter.1 hm).1).2
    have hn := (Finset.mem_Ico.1 (Finset.mem_filter.1 hn).1).2
    exact hinj m n hm hn he
  · obtain ⟨hn, hp⟩ := Finset.mem_filter.1 hn
    obtain ⟨m, hm, rfl⟩ := hsurj n (Finset.mem_Ico.1 hn).2
    exact ⟨m, Finset.mem_coe.2 (Finset.mem_filter.2
      ⟨Finset.mem_Ico.2 ⟨Nat.zero_le _, hm⟩, hp⟩), rfl⟩

/-- Every residue modulo `t` is met `N / t` times below `N`, or once more. -/
theorem count_mod {t r : Nat} (h : r < t) (N : Nat) :
    count (fun n => n % t = r) 0 N = N / t ∨ count (fun n => n % t = r) 0 N = N / t + 1 := by
  have hcount : count (fun n => n % t = r) 0 N = Nat.count (· ≡ r [MOD t]) N := by
    rw [Nat.count_eq_card_filter_range, count, Nat.Ico_zero_eq_range]
    congr 1
    refine Finset.filter_congr fun n _ => ?_
    rw [Nat.ModEq, Nat.mod_eq_of_lt h]
  rw [hcount, Nat.count_modEq_card N (by omega)]
  split
  · exact .inr rfl
  · exact .inl rfl

end Window
