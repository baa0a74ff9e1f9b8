import Mathlib.Data.List.Induction
import Mathlib.Data.Nat.ModEq
import Mathlib.Logic.Function.Basic
import Mathlib.Tactic.TypeStar

/-!
# Rings of cells

`Ring.place addr n k xs`: the stores of `xs` to the cells `addr (k % n)`, `addr ((k + 1) % n)`, … of
a ring of `n` cells, one after the other. `Ring.after` is a memory after stores: the last `n` values
are in their cells (`after_place`), and the cells that are not reached hold what they held
(`after_of_ne`).
-/

namespace Ring

variable {α β : Type*}

/-- The stores to consecutive cells from `k` on. -/
def place (addr : Nat → α) (n k : Nat) (xs : List β) : List (α × β) :=
  xs.mapIdx fun j x => (addr ((k + j) % n), x)

/-- A memory after stores. -/
def after [DecidableEq α] (stores : List (α × β)) (mem : α → β) : α → β :=
  stores.foldl (fun mem w => Function.update mem w.1 w.2) mem

variable {addr : Nat → α} {n : Nat}

theorem place_append (k : Nat) (xs ys : List β) :
    place addr n k (xs ++ ys) = place addr n k xs ++ place addr n (k + xs.length) ys := by
  unfold place
  rw [List.mapIdx_append]
  congr 1
  refine List.mapIdx_eq_mapIdx_iff.2 fun j hj => ?_
  rw [Nat.add_assoc, Nat.add_comm j]

theorem place_singleton (k : Nat) (x : β) : place addr n k [x] = [(addr (k % n), x)] := rfl

theorem mem_place (hn : 0 < n) {k : Nat} {xs : List β} {w : α × β} (hw : w ∈ place addr n k xs) :
    ∃ m, m < n ∧ w.1 = addr m := by
  obtain ⟨j, hj, rfl⟩ := List.mem_mapIdx.1 hw
  exact ⟨_, Nat.mod_lt _ hn, rfl⟩

section
variable [DecidableEq α]

theorem after_append (ws ws' : List (α × β)) (mem : α → β) :
    after (ws ++ ws') mem = after ws' (after ws mem) := List.foldl_append

theorem after_of_ne {ws : List (α × β)} {a : α} (h : ∀ w ∈ ws, w.1 ≠ a) (mem : α → β) :
    after ws mem a = mem a := by
  induction ws generalizing mem with
  | nil => rfl
  | cons w ws ih =>
    have hrest := ih (fun v hv => h v (List.mem_cons_of_mem _ hv)) (Function.update mem w.1 w.2)
    rw [Function.update_of_ne (h w List.mem_cons_self).symm] at hrest
    exact hrest

/-- Cells less than `n` apart are different. -/
theorem mod_ne {k i j : Nat} (hij : i < j) (hj : j < i + n) : (k + i) % n ≠ (k + j) % n := by
  intro h
  have hzero := Nat.sub_mod_eq_zero_of_mod_eq h.symm
  rw [Nat.add_sub_add_left, Nat.mod_eq_of_lt (by omega)] at hzero
  omega

/-- The last `n` values are in their cells. -/
theorem after_place (hinj : ∀ i j, i < n → j < n → addr i = addr j → i = j) (k : Nat)
    (xs : List β) (mem : α → β) {j : Nat} {x : β} (hx : xs[j]? = some x)
    (hlast : xs.length ≤ j + n) : after (place addr n k xs) mem (addr ((k + j) % n)) = x := by
  induction xs using List.reverseRecOn with
  | nil => cases hx
  | append_singleton xs y ih =>
    rw [List.length_append, List.length_singleton] at hlast
    rw [place_append, after_append, place_singleton]
    show Function.update (after (place addr n k xs) mem) _ _ _ = x
    rcases Nat.lt_or_ge j xs.length with hlt | hge
    · -- the store of `y` is less than `n` cells further on
      rw [List.getElem?_append_left hlt] at hx
      have hn : 0 < n := by omega
      rw [Function.update_of_ne, ih hx (by omega)]
      intro he
      exact mod_ne hlt (by omega) (hinj _ _ (Nat.mod_lt _ hn) (Nat.mod_lt _ hn) he)
    · obtain ⟨hj, rfl⟩ : j = xs.length ∧ y = x := by
        rw [List.getElem?_append_right hge, List.getElem?_singleton] at hx
        split at hx
        · exact ⟨by omega, Option.some.inj hx⟩
        · cases hx
      rw [hj, Function.update_self]

end

end Ring
