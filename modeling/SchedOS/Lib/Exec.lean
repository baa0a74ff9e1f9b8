import Mathlib.Order.Interval.Finset.Nat
import Mathlib.Data.Finset.Card
import Mathlib.Tactic.TypeStar

/-!
# Finite runs of a labelled transition relation

`Exec step init`: a run of `len` steps, its states and labels indexed by `Nat`, so that a window of
the run is a pair of indices. The invariant rules (`Exec.invariant`, `Exec.keeps`) turn a fact about
one step into one about the whole run, and the progress rule (`Exec.len_le_of_work`) a quantity that
every step takes from into a bound on its length. `Window.count p a b` counts the indices of a
window; a quantity that falls by one exactly at these indices counts them
(`Window.count_add_of_fall`). `Exec.ofNext` builds a run from a function for the next state,
`Exec.snoc` from a run and one more step.
-/

variable {σ ε : Type*}

/-- A finite run of `step` from a state of `init`. `event len` is not part of the run. -/
structure Exec (step : σ → ε → σ → Prop) (init : σ → Prop) where
  len : Nat
  state : Nat → σ
  event : Nat → ε
  start : init (state 0)
  steps : ∀ i, i < len → step (state i) (event i) (state (i + 1))

namespace Exec

variable {step : σ → ε → σ → Prop} {init : σ → Prop}

/-- An invariant of `step` holds in every state of a run. -/
theorem invariant (r : Exec step init) {I : σ → Prop} (h0 : ∀ s, init s → I s)
    (hs : ∀ s e s', I s → step s e s' → I s') {i : Nat} (hi : i ≤ r.len) : I (r.state i) := by
  induction i with
  | zero => exact h0 _ r.start
  | succ i ih => exact hs _ _ _ (ih (by omega)) (r.steps i (by omega))

/-- What every step of a window keeps holds from its first state on. -/
theorem keeps (r : Exec step init) {P : σ → Prop} {a b : Nat} (hab : a ≤ b) (hb : b ≤ r.len)
    (ha : P (r.state a))
    (hs : ∀ i, a ≤ i → i < b → P (r.state i) → P (r.state (i + 1))) : P (r.state b) := by
  induction b, hab using Nat.le_induction with
  | base => exact ha
  | succ b hab ih =>
    exact hs b hab (Nat.lt_succ_self b)
      (ih (by omega) fun i h1 h2 => hs i h1 (Nat.lt_succ_of_lt h2))

/-- The progress rule: every step takes from the work that is left or, leaving that alone, from a
slack below `B`. -/
theorem len_le_of_work (r : Exec step init) (work slack : Nat → Nat) {B : Nat}
    (hB : ∀ i, i ≤ r.len → slack i < B)
    (hs : ∀ i, i < r.len → work (i + 1) < work i ∨
      work (i + 1) = work i ∧ slack (i + 1) < slack i) :
    r.len ≤ work 0 * B + slack 0 := by
  have key : ∀ i, i ≤ r.len → i + (work i * B + slack i) ≤ work 0 * B + slack 0 := by
    intro i hi
    induction i with
    | zero => omega
    | succ i ih =>
      have hprev := ih (Nat.le_of_lt hi)
      rcases hs i hi with hw | ⟨hw, hsl⟩
      · have hmul : (work (i + 1) + 1) * B ≤ work i * B := Nat.mul_le_mul_right B hw
        rw [Nat.succ_mul] at hmul
        have := hB (i + 1) hi
        omega
      · rw [hw]
        omega
  have := key r.len (Nat.le_refl _)
  omega

/-- The states of `next` along the labels `event`. -/
def states (next : σ → ε → σ) (event : Nat → ε) (s : σ) : Nat → σ
  | 0 => s
  | i + 1 => next (states next event s i) (event i)

theorem states_inv {next : σ → ε → σ} {event : Nat → ε} {s : σ} {I : σ → Prop} (h0 : I s)
    (hs : ∀ s i, I s → I (next s (event i))) : ∀ i, I (states next event s i)
  | 0 => h0
  | i + 1 => hs _ i (states_inv h0 hs i)

/-- The run of a function for the next state, of any length along which it gives steps. -/
def ofNext (next : σ → ε → σ) (event : Nat → ε) (s : σ) (len : Nat) (h0 : init s)
    (hs : ∀ i, i < len →
      step (states next event s i) (event i) (states next event s (i + 1))) : Exec step init where
  len := len
  state := states next event s
  event := event
  start := h0
  steps := hs

/-- The run with one more step. -/
def snoc (r : Exec step init) {e : ε} {s : σ} (h : step (r.state r.len) e s) : Exec step init where
  len := r.len + 1
  state i := if i ≤ r.len then r.state i else s
  event i := if i < r.len then r.event i else e
  start := r.start
  steps i hi := by
    rw [if_pos (Nat.le_of_lt_succ hi)]
    rcases Nat.eq_or_lt_of_le (Nat.le_of_lt_succ hi) with rfl | hlt
    · rwa [if_neg (Nat.lt_irrefl _), if_neg (Nat.not_succ_le_self _)]
    · rw [if_pos hlt, if_pos (Nat.succ_le_of_lt hlt)]
      exact r.steps i hlt

/-- A run that begins with another one. -/
structure Extends (r' r : Exec step init) : Prop where
  len : r.len ≤ r'.len
  state : ∀ i, i ≤ r.len → r'.state i = r.state i
  event : ∀ i, i < r.len → r'.event i = r.event i

theorem Extends.refl (r : Exec step init) : r.Extends r :=
  ⟨Nat.le_refl _, fun _ _ => rfl, fun _ _ => rfl⟩

theorem Extends.trans {r r' r'' : Exec step init} (h : r''.Extends r') (h' : r'.Extends r) :
    r''.Extends r :=
  ⟨Nat.le_trans h'.len h.len,
    fun i hi => (h.state i (Nat.le_trans hi h'.len)).trans (h'.state i hi),
    fun i hi => (h.event i (Nat.lt_of_lt_of_le hi h'.len)).trans (h'.event i hi)⟩

section
variable (r : Exec step init) {e : ε} {s : σ} (h : step (r.state r.len) e s)

@[simp] theorem snoc_len : (r.snoc h).len = r.len + 1 := rfl

theorem snoc_event_last : (r.snoc h).event r.len = e := if_neg (Nat.lt_irrefl _)

theorem snoc_extends : (r.snoc h).Extends r :=
  ⟨Nat.le_succ _, fun _ hi => if_pos hi, fun _ hi => if_pos hi⟩

end

end Exec

/-! ## Counting in a window -/

namespace Window

/-- The number of indices `a ≤ i < b` with `p i`. -/
def count (p : Nat → Prop) [DecidablePred p] (a b : Nat) : Nat := ((Finset.Ico a b).filter p).card

section
variable (p : Nat → Prop) [DecidablePred p]

@[simp] theorem count_self (a : Nat) : count p a a = 0 := by simp [count]

theorem count_succ {a b : Nat} (h : a ≤ b) :
    count p a (b + 1) = count p a b + if p b then 1 else 0 := by
  unfold count
  rw [Nat.Ico_succ_right_eq_insert_Ico h, Finset.filter_insert]
  split
  · rw [Finset.card_insert_of_notMem (by simp)]
  · rfl

theorem count_congr {p q : Nat → Prop} [DecidablePred p] [DecidablePred q] {a b : Nat}
    (h : ∀ i, a ≤ i → i < b → (p i ↔ q i)) : count p a b = count q a b := by
  unfold count
  congr 1
  refine Finset.filter_congr fun i hi => ?_
  obtain ⟨h1, h2⟩ := Finset.mem_Ico.1 hi
  exact h i h1 h2

theorem count_add_count {a b c : Nat} (hab : a ≤ b) (hbc : b ≤ c) :
    count p a b + count p b c = count p a c := by
  induction c, hbc using Nat.le_induction with
  | base => rw [count_self, Nat.add_zero]
  | succ c hbc ih => rw [count_succ p hbc, count_succ p (Nat.le_trans hab hbc), ← ih, Nat.add_assoc]

variable {p} in
theorem count_eq_zero {a b : Nat} (h : ∀ i, a ≤ i → i < b → ¬ p i) : count p a b = 0 := by
  rw [count, Finset.card_eq_zero, Finset.filter_eq_empty_iff]
  exact fun i hi => h i (Finset.mem_Ico.1 hi).1 (Finset.mem_Ico.1 hi).2

variable {p} in
theorem count_eq_length {a b : Nat} (h : ∀ i, a ≤ i → i < b → p i) : count p a b = b - a := by
  rw [count, Finset.filter_true_of_mem, Nat.card_Ico]
  exact fun i hi => h i (Finset.mem_Ico.1 hi).1 (Finset.mem_Ico.1 hi).2

theorem count_le_count {a b c d : Nat} (ha : c ≤ a) (hb : b ≤ d) : count p a b ≤ count p c d :=
  Finset.card_le_card (Finset.filter_subset_filter _ (Finset.Ico_subset_Ico ha hb))

/-- A quantity that falls by one exactly at the indices with `p`. -/
theorem count_add_of_fall {f : Nat → Nat} {a b : Nat} (hab : a ≤ b)
    (h : ∀ i, a ≤ i → i < b → f i = f (i + 1) + if p i then 1 else 0) :
    count p a b + f b = f a := by
  induction b, hab using Nat.le_induction with
  | base => simp
  | succ b hab ih =>
    have hb := h b hab (Nat.lt_succ_self b)
    have := ih fun i h1 h2 => h i h1 (Nat.lt_succ_of_lt h2)
    rw [count_succ p hab]
    omega

end

end Window
