import SchedOS.Lib.Exec

/-!
# A tape with a write head

A memory `mem` whose cells `addr 0`, …, `addr (n - 1)` are a tape: every write goes to the head and
moves it on by one cell. `Written addr n blank mem head xs`: `xs` has been written so far, so the
first cells hold it (`Holds`). Writing appends (`Holds.append`, `Written.append`), and a value is on
the tape as often as it was written (`Written.count`).
-/

namespace Tape

variable {α β : Type*}

/-- The first cells hold `xs`. -/
def Holds (addr : Nat → α) (mem : α → β) (xs : List β) : Prop :=
  ∀ j x, xs[j]? = some x → mem (addr j) = x

/-- The first cells hold `xs`, the head is on the cell after them, and the other cells are blank. -/
structure Written (addr : Nat → α) (n : Nat) (blank : β) (mem : α → β) (head : α) (xs : List β) :
    Prop where
  head_eq : head = addr xs.length
  cells : ∀ j x, xs[j]? = some x → mem (addr j) = x
  rest : ∀ j, xs.length ≤ j → j < n → mem (addr j) = blank

variable {addr : Nat → α} {n : Nat} {blank : β} {mem : α → β} {head : α} {xs : List β}

theorem Holds.left {ys : List β} (h : Holds addr mem (xs ++ ys)) : Holds addr mem xs := by
  intro j x hx
  refine h j x ?_
  rw [List.getElem?_append_left (List.getElem?_eq_some_iff.1 hx).1]
  exact hx

/-- A write to the cell after the first ones. -/
theorem Holds.append [DecidableEq α]
    (hinj : ∀ i j, i < n → j < n → addr i = addr j → i = j)
    (h : Holds addr mem xs) (hn : xs.length < n) (x : β) :
    Holds addr (Function.update mem (addr xs.length) x) (xs ++ [x]) := by
  intro j y hy
  rcases Nat.lt_trichotomy j xs.length with hlt | rfl | hlt
  · rw [List.getElem?_append_left hlt] at hy
    rw [Function.update_of_ne fun he =>
      Nat.ne_of_lt hlt (hinj j _ (Nat.lt_trans hlt hn) hn he)]
    exact h j y hy
  · rw [List.getElem?_append_right (Nat.le_refl _), Nat.sub_self] at hy
    cases hy
    rw [Function.update_self]
  · rw [List.getElem?_eq_none (by rw [List.length_append, List.length_singleton]; omega)] at hy
    cases hy

theorem Written.append [DecidableEq α]
    (hinj : ∀ i j, i < n → j < n → addr i = addr j → i = j)
    (h : Written addr n blank mem head xs) (hn : xs.length < n) (x : β) :
    Written addr n blank (Function.update mem head x) (addr (xs.length + 1)) (xs ++ [x]) := by
  rw [h.head_eq]
  refine ⟨by rw [List.length_append, List.length_singleton], Holds.append hinj h.cells hn x,
    fun j hj hjn => ?_⟩
  rw [List.length_append, List.length_singleton] at hj
  rw [Function.update_of_ne fun he => Nat.ne_of_gt hj (hinj j _ hjn hn he)]
  exact h.rest j (Nat.le_of_lt hj) hjn

theorem count_getElem? [DecidableEq β] (xs : List β) (c : β) : ∀ m, m ≤ xs.length →
    Window.count (fun j => xs[j]? = some c) 0 m = (xs.take m).count c
  | 0, _ => by simp
  | m + 1, hm => by
    rw [Window.count_succ _ (Nat.zero_le m), count_getElem? xs c m (by omega), List.take_add_one,
      List.count_append, List.getElem?_eq_getElem hm]
    by_cases h : xs[m] = c
    · simp [h]
    · simp [h]

/-- The number of cells that hold a value. -/
theorem Written.count [DecidableEq β] (h : Written addr n blank mem head xs)
    (hn : xs.length ≤ n) {c : β} (hc : blank ≠ c) :
    Window.count (fun j => mem (addr j) = c) 0 n = xs.count c := by
  have hwritten : Window.count (fun j => mem (addr j) = c) 0 xs.length = xs.count c := by
    rw [Window.count_congr (q := fun j => xs[j]? = some c) fun j _ hj => ?_,
      count_getElem? xs c _ (Nat.le_refl _), List.take_length]
    rw [List.getElem?_eq_getElem hj, Option.some.injEq, h.cells j _ (List.getElem?_eq_getElem hj)]
  have hblank : Window.count (fun j => mem (addr j) = c) xs.length n = 0 := by
    refine Window.count_eq_zero fun j h1 h2 he => hc ?_
    rw [← h.rest j h1 h2, he]
  rw [← Window.count_add_count _ (Nat.zero_le _) hn, hwritten, hblank, Nat.add_zero]

end Tape
