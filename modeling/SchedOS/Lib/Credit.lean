import Mathlib.Algebra.BigOperators.Group.Finset.Basic
import Mathlib.Algebra.Order.BigOperators.Group.Finset
import SchedOS.Lib.Exec

/-!
# Serving by credit

Every place has a credit `left`, refilled to `amt`. A service spends one unit of a ready place
(`Spend`); when no ready place has credit left, it first refills every place (`Refill`).

* `round`: from a refill to the next, a ready place that keeps its `amt` is served `amt` times.
* `wait`: a ready place with a positive `amt` waits for what the others have left, for one refill of
  them at most, and for what they are given in between. The potential is `load`: it falls with every
  service of another place (`Serve.load_lt`).
-/

/-- What every place may be served, and what is left of it. -/
structure Credit (ι : Type*) where
  ready : ι → Prop
  amt : ι → Nat
  left : ι → Nat

namespace Credit

variable {ι : Type*} [DecidableEq ι]

/-- A service of `k` out of its credit. -/
structure Spend (x : Credit ι) (k : ι) (y : Credit ι) : Prop where
  ready : x.ready k
  pos : 0 < x.left k
  amt : y.amt = x.amt
  left : y.left = Function.update x.left k (x.left k - 1)

/-- A service of `k` out of a new credit of every place. -/
structure Refill (x : Credit ι) (k : ι) (y : Credit ι) : Prop where
  empty : ∀ q, x.ready q → x.left q = 0
  ready : x.ready k
  pos : 0 < x.amt k
  amt : y.amt = x.amt
  left : y.left = Function.update x.amt k (x.amt k - 1)

/-- A service of `k`. -/
def Serve (x : Credit ι) (k : ι) (y : Credit ι) : Prop := x.Spend k y ∨ x.Refill k y

theorem Serve.amt {x y : Credit ι} {k : ι} (h : x.Serve k y) : y.amt = x.amt :=
  h.elim Spend.amt Refill.amt

/-! ## Rounds -/

section
variable {x y : Nat → Credit ι} {k : Nat → ι} {a b : Nat} {p : ι}

/-- A place whose credit nobody else changes is served `amt` times from a refill until its credit is
used up. -/
theorem round (hab : a < b) (ha : (x a).Refill (k a) (y a))
    (hs : ∀ i, a < i → i < b → (x i).Spend (k i) (y i))
    (hleft : ∀ i, a ≤ i → i < b → (x (i + 1)).left p = (y i).left p)
    (hb : (x b).left p = 0) :
    Window.count (fun i => k i = p) a b = (x a).amt p := by
  -- what `p` has left once the refill of `a` is done
  have hfall := Window.count_add_of_fall (fun i => k i = p)
    (f := fun i => if i = a then (x a).amt p else (x i).left p) (Nat.le_of_lt hab) fun i h1 h2 => by
      rw [if_neg (show ¬ i + 1 = a by omega), hleft i h1 h2]
      rcases Nat.eq_or_lt_of_le h1 with rfl | h1
      · rw [if_pos rfl, ha.left]
        by_cases hk : k a = p
        · have := ha.pos
          subst hk
          rw [Function.update_self, if_pos rfl]
          omega
        · rw [Function.update_of_ne (Ne.symm hk), if_neg hk, Nat.add_zero]
      · have h := hs i h1 h2
        rw [if_neg (show ¬ i = a by omega), h.left]
        by_cases hk : k i = p
        · have := h.pos
          subst hk
          rw [Function.update_self, if_pos rfl]
          omega
        · rw [Function.update_of_ne (Ne.symm hk), if_neg hk, Nat.add_zero]
  rw [if_neg (show ¬ b = a by omega), hb, if_pos rfl] at hfall
  exact hfall

end

/-! ## Bounded waiting -/

section
variable (T : Finset ι) (A : Nat)

/-- The ready places are in `T`, and no credit is above `A`. -/
structure Bounded (x : Credit ι) : Prop where
  mem : ∀ q, x.ready q → q ∈ T
  amt_le : ∀ q ∈ T, x.amt q ≤ A
  left_le : ∀ q ∈ T, x.left q ≤ A

/-- How many services of others can come before one of `p`. -/
def load (p : ι) (x : Credit ι) : Nat :=
  (∑ q ∈ T.erase p, x.left q) + if x.left p = 0 then (T.card - 1) * A else 0

variable {T A} {x y : Credit ι} {k p : ι}

theorem sum_le_of_mem (hp : p ∈ T) {f : ι → Nat} (h : ∀ q ∈ T, f q ≤ A) :
    ∑ q ∈ T.erase p, f q ≤ (T.card - 1) * A := by
  rw [← Finset.card_erase_of_mem hp]
  exact Finset.sum_le_card_nsmul _ _ _ fun q hq => h q (Finset.mem_of_mem_erase hq)

/-- A unit less at one place. -/
theorem sum_update_pred {S : Finset ι} {f : ι → Nat} (hk : k ∈ S) (hpos : 0 < f k) :
    ∑ q ∈ S, Function.update f k (f k - 1) q + 1 = ∑ q ∈ S, f q := by
  rw [← Finset.add_sum_erase S f hk, ← Finset.add_sum_erase S _ hk, Function.update_self]
  have hrest : ∑ q ∈ S.erase k, Function.update f k (f k - 1) q = ∑ q ∈ S.erase k, f q :=
    Finset.sum_congr rfl fun q hq => Function.update_of_ne (Finset.ne_of_mem_erase hq) _ _
  omega

theorem load_congr {x' : Credit ι} (h : ∀ q, x'.left q = x.left q) :
    x'.load T A p = x.load T A p := by
  unfold load
  rw [funext h]

theorem load_le (hx : x.Bounded T A) (hp : p ∈ T) : x.load T A p ≤ 2 * ((T.card - 1) * A) := by
  have hsum := sum_le_of_mem hp hx.left_le
  unfold load
  split <;> omega

theorem Serve.left_le (h : x.Serve k y) {q : ι} (hamt : x.amt q ≤ A) (hleft : x.left q ≤ A) :
    y.left q ≤ A := by
  rcases h with h | h <;> rw [h.left] <;> by_cases hq : q = k
  · subst hq
    rw [Function.update_self]
    omega
  · rwa [Function.update_of_ne hq]
  · subst hq
    rw [Function.update_self]
    omega
  · rwa [Function.update_of_ne hq]

/-- A service of another place takes from the load of a ready place. -/
theorem Serve.load_lt (h : x.Serve k y) (hx : x.Bounded T A) (hp : x.ready p) (hamt : 0 < x.amt p)
    (hne : k ≠ p) : y.load T A p < x.load T A p := by
  have hpT := hx.mem p hp
  rcases h with h | h
  · have hk : k ∈ T.erase p := Finset.mem_erase.2 ⟨hne, hx.mem k h.ready⟩
    have hsum := sum_update_pred hk h.pos
    unfold load
    rw [h.left, Function.update_of_ne (Ne.symm hne)]
    omega
  · have hk : k ∈ T.erase p := Finset.mem_erase.2 ⟨hne, hx.mem k h.ready⟩
    have hsum := sum_update_pred hk h.pos
    have hle := sum_le_of_mem hpT hx.amt_le
    unfold load
    rw [h.left, Function.update_of_ne (Ne.symm hne), if_neg (Nat.pos_iff_ne_zero.1 hamt),
      if_pos (h.empty p hp)]
    omega

/-- A gift to another place adds at most `A`. -/
theorem load_gift {x' : Credit ι} {q : ι} (hq : ∀ j, j ≠ q → x'.left j = x.left j)
    (hle : x'.left q ≤ A) (hne : q ≠ p) : x'.load T A p ≤ x.load T A p + A := by
  have hsum : ∑ j ∈ T.erase p, x'.left j ≤ (∑ j ∈ T.erase p, x.left j) + A := by
    by_cases hm : q ∈ T.erase p
    · have hrest : ∑ j ∈ (T.erase p).erase q, x'.left j = ∑ j ∈ (T.erase p).erase q, x.left j :=
        Finset.sum_congr rfl fun j hj => hq j (Finset.ne_of_mem_erase hj)
      rw [← Finset.add_sum_erase _ _ hm, ← Finset.add_sum_erase _ x.left hm]
      omega
    · have : ∑ j ∈ T.erase p, x'.left j = ∑ j ∈ T.erase p, x.left j :=
        Finset.sum_congr rfl fun j hj => hq j fun he => hm (he ▸ hj)
      omega
  unfold load
  rw [hq p (Ne.symm hne)]
  omega

end

section
variable {T : Finset ι} {A : Nat} {x y : Nat → Credit ι} {k : Nat → ι} {a n : Nat} {p : ι}
  {g : Nat → Prop} [DecidablePred g]

/-- As long as a ready place with a positive `amt` is not served, every service takes from its load,
and only gifts add to it. -/
theorem wait (hx : ∀ i, a ≤ i → i ≤ a + n → (x i).Bounded T A)
    (hp : ∀ i, a ≤ i → i ≤ a + n → (x i).ready p ∧ 0 < (x i).amt p)
    (hs : ∀ i, a ≤ i → i ≤ a + n → (x i).Serve (k i) (y i) ∧ k i ≠ p)
    (hgift : ∀ i, a ≤ i → i < a + n →
      (x (i + 1)).load T A p ≤ (y i).load T A p + if g (i + 1) then A else 0) :
    n < 2 * ((T.card - 1) * A) + A * Window.count g (a + 1) (a + 1 + n) := by
  have key : ∀ m, m ≤ n → m + (x (a + m)).load T A p ≤
      (x a).load T A p + A * Window.count g (a + 1) (a + 1 + m) := by
    intro m
    induction m with
    | zero => simp
    | succ m ih =>
      intro hm
      have ih := ih (by omega)
      obtain ⟨hserve, hne⟩ := hs (a + m) (by omega) (by omega)
      obtain ⟨hr, hamt⟩ := hp (a + m) (by omega) (by omega)
      have hlt := hserve.load_lt (hx (a + m) (by omega) (by omega)) hr hamt hne
      have hg := hgift (a + m) (by omega) (by omega)
      rw [show a + 1 + (m + 1) = a + 1 + m + 1 by omega, Window.count_succ g (by omega),
        Nat.mul_add, show a + 1 + m = a + m + 1 by omega]
      rw [show a + 1 + m = a + m + 1 by omega] at ih
      rw [show a + (m + 1) = a + m + 1 by omega]
      split at hg
      · rw [if_pos (by assumption)]
        omega
      · rw [if_neg (by assumption)]
        omega
  have hn := key n (Nat.le_refl n)
  obtain ⟨hserve, hne⟩ := hs (a + n) (by omega) (by omega)
  obtain ⟨hr, hamt⟩ := hp (a + n) (by omega) (by omega)
  have hlt := hserve.load_lt (hx (a + n) (by omega) (by omega)) hr hamt hne
  have hle := load_le (hx a (by omega) (by omega)) ((hx a (by omega) (by omega)).mem p
    (hp a (by omega) (by omega)).1)
  omega

end

end Credit
