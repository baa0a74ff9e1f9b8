import Mathlib.Data.Finset.Card
import Mathlib.Order.Interval.Finset.Nat
import Mathlib.Tactic.SplitIfs
import Mathlib.Tactic.TypeStar

/-!
# Rotations

A `Rotation ι` is a cyclic order on `ι`, given by the distance walked from one place to the next
arrival at another. A walker that goes to the first ready place each time (`First`) passes no ready
place, so:

* `arrives`: a place that stays ready is reached within as many steps as there are places ahead of
  it, up to it, that may be ready (`rank`);
* `arrives_once`: between two consecutive arrivals at a ready place, every other place that stays
  ready is reached exactly once;
* `arrives_each`: a window as long as a fixed set of places, in which each is reached, reaches each
  exactly once.

`Rotation.up n` and `Rotation.down n` are the two rotations of `Fin n`.
-/

/-- A cyclic order, by the distance from `c` on to the next arrival at `p`; a whole turn from a
place to itself. -/
structure Rotation (ι : Type*) where
  size : Nat
  dist : ι → ι → Nat
  dist_pos : ∀ c p, 0 < dist c p
  dist_le : ∀ c p, dist c p ≤ size
  dist_self : ∀ c, dist c c = size
  dist_inj : ∀ c p q, dist c p = dist c q → p = q
  dist_add : ∀ c k p, dist c k < dist c p → dist c k + dist k p = dist c p

namespace Rotation

variable {ι : Type*} (C : Rotation ι)

theorem dist_lt_size {c p : ι} (h : p ≠ c) : C.dist c p < C.size := by
  refine Nat.lt_of_le_of_ne (C.dist_le c p) fun he => h ?_
  exact C.dist_inj c p c (by rw [he, C.dist_self])

/-- `k` is the first ready place after `c`, with `c` itself last. -/
def First (R : ι → Prop) (c k : ι) : Prop := R k ∧ ∀ q, R q → C.dist c k ≤ C.dist c q

variable {C} {R : ι → Prop} {c k p q : ι}

/-- The next place is nearer to every ready place. -/
theorem First.dist_add (h : C.First R c k) (hp : R p) (hne : k ≠ p) :
    C.dist c k + C.dist k p = C.dist c p :=
  C.dist_add c k p (Nat.lt_of_le_of_ne (h.2 p hp) fun he => hne (C.dist_inj c k p he))

theorem exists_first (C : Rotation ι) (c : ι) (hR : ∃ q, R q) : ∃ k, C.First R c k := by
  obtain ⟨k, hk, hmin⟩ := (measure (C.dist c)).wf.has_min {q | R q} hR
  exact ⟨k, hk, fun q hq => Nat.le_of_not_lt (hmin q hq)⟩

theorem First.dist_lt (h : C.First R c k) (hp : R p) (hne : k ≠ p) :
    C.dist k p < C.dist c p := by
  have := h.dist_add hp hne
  have := C.dist_pos c k
  omega

section
variable (C) (T : Finset ι)

/-- The number of places of `T` on the way from `c` to `p`, with `p`. -/
def rank (c p : ι) : Nat := (T.filter fun q => C.dist c q ≤ C.dist c p).card

variable {C} {T}

theorem rank_pos (hp : p ∈ T) : 0 < C.rank T c p :=
  Finset.card_pos.2 ⟨p, Finset.mem_filter.2 ⟨hp, Nat.le_refl _⟩⟩

theorem rank_le (c p : ι) : C.rank T c p ≤ T.card := Finset.card_filter_le _ _

/-- A place of `T` is not on the way to another. -/
theorem rank_lt_card (hc : c ∈ T) (hne : p ≠ c) : C.rank T c p < T.card := by
  refine Finset.card_lt_card ⟨Finset.filter_subset _ _, fun hs => ?_⟩
  have := (Finset.mem_filter.1 (hs hc)).2
  rw [C.dist_self] at this
  have := C.dist_lt_size hne
  omega

/-- A step leaves one place of `T` fewer on the way to a ready place. -/
theorem First.rank_lt (h : C.First R c k) (hT : ∀ q, R q → q ∈ T) (hp : R p) (hne : k ≠ p) :
    C.rank T k p < C.rank T c p := by
  have hlt : C.dist c k < C.dist c p :=
    Nat.lt_of_le_of_ne (h.2 p hp) fun he => hne (C.dist_inj c k p he)
  refine Finset.card_lt_card ⟨fun q hq => ?_, fun hs => ?_⟩
  · obtain ⟨hqT, hq⟩ := Finset.mem_filter.1 hq
    refine Finset.mem_filter.2 ⟨hqT, ?_⟩
    rcases Nat.lt_trichotomy (C.dist c q) (C.dist c k) with hb | he | hb
    · exact Nat.le_of_lt (Nat.lt_trans hb hlt)
    · omega
    · have h1 := C.dist_add c k q hb
      have h2 := C.dist_add c k p hlt
      omega
  · have hk := hs (Finset.mem_filter.2 ⟨hT k h.1, Nat.le_of_lt hlt⟩)
    have hk := (Finset.mem_filter.1 hk).2
    rw [C.dist_self] at hk
    have := C.dist_lt_size (c := k) (p := p) (Ne.symm hne)
    omega

end

/-! ## Walks -/

section
variable {T : Finset ι} {w : Nat → ι} {R : Nat → ι → Prop}

/-- A place that stays ready is reached within its rank. -/
theorem arrives {a n : Nat} (hT : ∀ i, a ≤ i → i < a + n → ∀ q, R i q → q ∈ T)
    (hfirst : ∀ i, a ≤ i → i < a + n → C.First (R i) (w i) (w (i + 1)))
    (hp : ∀ i, a ≤ i → i < a + n → R i p) (hn : C.rank T (w a) p ≤ n) :
    p ∈ T → ∃ i, a ≤ i ∧ i < a + n ∧ w (i + 1) = p := by
  intro hpT
  induction n generalizing a with
  | zero =>
    have := rank_pos (C := C) (c := w a) hpT
    omega
  | succ n ih =>
    by_cases he : w (a + 1) = p
    · exact ⟨a, Nat.le_refl a, by omega, he⟩
    · have hlt := (hfirst a (Nat.le_refl a) (by omega)).rank_lt
        (hT a (Nat.le_refl a) (by omega)) (hp a (Nat.le_refl a) (by omega)) he
      obtain ⟨i, h1, h2, h3⟩ := ih (a := a + 1) (fun i h1 h2 => hT i (by omega) (by omega))
        (fun i h1 h2 => hfirst i (by omega) (by omega))
        (fun i h1 h2 => hp i (by omega) (by omega)) (by omega)
      exact ⟨i, by omega, by omega, h3⟩

end

section
variable {w : Nat → ι} {R : Nat → ι → Prop} {a b : Nat}

/-- Until the walker is at `q`, it comes nearer to `q` with every step. -/
theorem dist_fall (hfirst : ∀ i, a ≤ i → i < b → C.First (R i) (w i) (w (i + 1)))
    (hq : ∀ i, a ≤ i → i < b → R i q) (hno : ∀ i, a < i → i < b → w i ≠ q) {i j : Nat}
    (hi : a ≤ i) (hij : i < j) (hj : j < b) : C.dist (w j) q < C.dist (w i) q := by
  induction j, hij using Nat.le_induction with
  | base =>
    exact (hfirst i hi (by omega)).dist_lt (hq i hi (by omega)) (hno (i + 1) (by omega) hj)
  | succ j hij ih =>
    have := (hfirst j (by omega) (by omega)).dist_lt (hq j (by omega) (by omega))
      (hno (j + 1) (by omega) hj)
    have := ih (by omega)
    omega

/-- Between two consecutive arrivals at a ready place, every other place that stays ready is reached
exactly once. -/
theorem arrives_once (hab : a < b) (ha : w a = q) (hb : w b = q)
    (hfirst : ∀ i, a ≤ i → i < b → C.First (R i) (w i) (w (i + 1)))
    (hq : ∀ i, a ≤ i → i < b → R i q) (hno : ∀ i, a < i → i < b → w i ≠ q)
    (hp : ∀ i, a ≤ i → i < b → R i p) (hne : p ≠ q) :
    ∃ i, (a < i ∧ i < b ∧ w i = p) ∧ ∀ j, a < j → j < b → w j = p → j = i := by
  -- as long as `p` is not reached, it is nearer than `q`
  have hex : ∃ i, a < i ∧ i < b ∧ w i = p := by
    apply Classical.byContradiction
    intro hnone
    have hnone : ∀ i, a < i → i < b → w i ≠ p := fun i h1 h2 h3 => hnone ⟨i, h1, h2, h3⟩
    have hnear : ∀ i, a ≤ i → i < b → C.dist (w i) p < C.dist (w i) q := by
      intro i hai
      induction i, hai using Nat.le_induction with
      | base =>
        intro _
        rw [ha, C.dist_self]
        exact C.dist_lt_size hne
      | succ i hai ih =>
        intro hib
        have hf := hfirst i hai (by omega)
        have h1 := hf.dist_add (hp i hai (by omega)) (hnone (i + 1) (by omega) hib)
        have h2 := hf.dist_add (hq i hai (by omega)) (hno (i + 1) (by omega) hib)
        have := ih (by omega)
        omega
    obtain ⟨b, rfl⟩ : ∃ k, b = k + 1 := ⟨b - 1, by omega⟩
    have hf := hfirst b (by omega) (by omega)
    have hle := hf.2 p (hp b (by omega) (by omega))
    have := hnear b (by omega) (by omega)
    rw [hb] at hle
    omega
  obtain ⟨i, hi, hib, hpi⟩ := hex
  refine ⟨i, ⟨hi, hib, hpi⟩, fun j hj hjb hpj => ?_⟩
  rcases Nat.lt_trichotomy i j with hlt | he | hlt
  · have := dist_fall hfirst hq hno (Nat.le_of_lt hi) hlt hjb
    rw [hpi, hpj] at this
    omega
  · exact he.symm
  · have := dist_fall hfirst hq hno (Nat.le_of_lt hj) hlt hib
    rw [hpi, hpj] at this
    omega

/-- A window as long as a set of places, in which each of them is reached, reaches each once. -/
theorem arrives_each [DecidableEq ι] {T : Finset ι}
    (hT : ∀ p ∈ T, ∃ i, a ≤ i ∧ i < a + T.card ∧ w (i + 1) = p) (hp : p ∈ T) :
    ∃ i, (a ≤ i ∧ i < a + T.card ∧ w (i + 1) = p) ∧
      ∀ j, a ≤ j → j < a + T.card → w (j + 1) = p → j = i := by
  have hsub : T ⊆ (Finset.Ico a (a + T.card)).image fun i => w (i + 1) := by
    intro q hq
    obtain ⟨i, h1, h2, h3⟩ := hT q hq
    exact Finset.mem_image.2 ⟨i, Finset.mem_Ico.2 ⟨h1, h2⟩, h3⟩
  have hcard : (Finset.Ico a (a + T.card)).card = T.card := by simp
  have himg : ((Finset.Ico a (a + T.card)).image fun i => w (i + 1)).card =
      (Finset.Ico a (a + T.card)).card := by
    refine Nat.le_antisymm Finset.card_image_le ?_
    rw [hcard]
    exact Finset.card_le_card hsub
  have hinj := Finset.card_image_iff.1 himg
  obtain ⟨i, h1, h2, h3⟩ := hT p hp
  refine ⟨i, ⟨h1, h2, h3⟩, fun j hj1 hj2 hj3 => ?_⟩
  exact hinj (by simp [hj1, hj2]) (by simp [h1, h2]) (hj3.trans h3.symm)

end

/-! ## The rotations of `Fin n` -/

/-- Upwards. -/
def up (n : Nat) : Rotation (Fin n) where
  size := n
  dist c p := if c.val < p.val then p.val - c.val else n + p.val - c.val
  dist_pos c p := by have := c.isLt; split <;> omega
  dist_le c p := by have := p.isLt; split <;> omega
  dist_self c := by simp
  dist_inj c p q h := by
    have := c.isLt; have := p.isLt; have := q.isLt
    apply Fin.ext
    split_ifs at h <;> omega
  dist_add c k p h := by
    have := c.isLt; have := p.isLt; have := k.isLt
    split_ifs at h ⊢ <;> omega

/-- Downwards. -/
def down (n : Nat) : Rotation (Fin n) where
  size := n
  dist c p := if p.val < c.val then c.val - p.val else n + c.val - p.val
  dist_pos c p := by have := p.isLt; split <;> omega
  dist_le c p := by have := c.isLt; split <;> omega
  dist_self c := by simp
  dist_inj c p q h := by
    have := c.isLt; have := p.isLt; have := q.isLt
    apply Fin.ext
    split_ifs at h <;> omega
  dist_add c k p h := by
    have := c.isLt; have := p.isLt; have := k.isLt
    split_ifs at h ⊢ <;> omega

end Rotation
