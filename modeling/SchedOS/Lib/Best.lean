import Mathlib.Tactic.TypeStar

/-!
# The best candidate of a scan

`Best.pick better b xs` goes along `xs` and keeps the last element that was better than the one kept
before, from the seed `b`. `better` need not be an order: it may also ask that a candidate is
eligible, and it decides ties by whether it is strict. For an order `le` that it respects along the
scan, the result is least (`Best.pick_le`).
-/

namespace Best

variable {α : Type*}

/-- The candidate kept after `xs`, from the seed `b`. -/
def pick (better : α → α → Prop) [DecidableRel better] (b : α) (xs : List α) : α :=
  xs.foldl (fun b x => if better x b then x else b) b

section
variable {better : α → α → Prop} [DecidableRel better]

theorem pick_cons (b x : α) (xs : List α) :
    pick better b (x :: xs) = pick better (if better x b then x else b) xs := rfl

/-- The result is the seed, or it was better than another candidate. -/
theorem pick_eq_or : ∀ (xs : List α) (b : α),
    pick better b xs = b ∨ ∃ y, better (pick better b xs) y
  | [], _ => .inl rfl
  | x :: xs, b => by
    rw [pick_cons]
    rcases pick_eq_or xs (if better x b then x else b) with h | h
    · rw [h]
      split
      · rename_i hx
        exact .inr ⟨b, hx⟩
      · exact .inl rfl
    · exact .inr h

/-- The result is least among the seed and the eligible candidates, for a preorder `le` such that a
better candidate is below the one kept before and an eligible one that is not better is above. -/
theorem pick_le (le : α → α → Prop) (ok : α → Prop) (hrefl : ∀ x, le x x)
    (htrans : ∀ x y z, le x y → le y z → le x z) : ∀ (xs : List α) (b : α),
    (b :: xs).Pairwise (fun b x => (better x b → le x b) ∧ (¬ better x b → ok x → le b x)) →
    ∀ x ∈ b :: xs, x = b ∨ ok x → le (pick better b xs) x
  | [], b, _, x, hx, _ => by
    rw [List.mem_singleton] at hx
    subst hx
    exact hrefl x
  | y :: xs, b, h, x, hx, hok => by
    obtain ⟨hb, hy⟩ := List.pairwise_cons.1 h
    obtain ⟨hyb, hby⟩ := hb y (.head _)
    rw [pick_cons]
    by_cases hbetter : better y b
    · rw [if_pos hbetter]
      have ih := pick_le le ok hrefl htrans xs y hy
      have hr := ih y (.head _) (.inl rfl)
      rcases List.mem_cons.1 hx with rfl | hx
      · exact htrans _ _ _ hr (hyb hbetter)
      · rcases hok with rfl | hok
        · exact htrans _ _ _ hr (hyb hbetter)
        · exact ih x hx (.inr hok)
    · rw [if_neg hbetter]
      have hxs : (b :: xs).Pairwise
          fun b x => (better x b → le x b) ∧ (¬ better x b → ok x → le b x) :=
        List.pairwise_cons.2
          ⟨fun z hz => hb z (.tail _ hz), (List.pairwise_cons.1 hy).2⟩
      have ih := pick_le le ok hrefl htrans xs b hxs
      have hr := ih b (.head _) (.inl rfl)
      rcases hok with rfl | hok
      · exact hr
      · rcases List.mem_cons.1 hx with rfl | hx
        · exact hr
        · rcases List.mem_cons.1 hx with rfl | hx
          · exact htrans _ _ _ hr (hby hbetter hok)
          · exact ih x (.tail _ hx) (.inr hok)

end

end Best
