import Mathlib.Data.List.Basic
import Mathlib.Order.Lattice
import Mathlib.Tactic.TypeStar

/-!
# Outputs in turn

Writers with keys `ks` in increasing order, the writer with key `q` having written `f q` so far. If
they take turns in this order, what they have written together is `ks.flatMap f`: as long as no
later writer has begun, a write appends to it (`flatMap_write`), and if the earlier ones have
finished it is a prefix of what they write in all (`flatMap_prefix`).
-/

namespace InTurn

variable {κ β : Type*} [LinearOrder κ] {ks : List κ} {k : κ} {f g : κ → List β}

theorem split (hs : ks.Pairwise (· < ·)) (hk : k ∈ ks) :
    ∃ before after, ks = before ++ k :: after ∧ (∀ q ∈ before, q < k) ∧ ∀ q ∈ after, k < q := by
  obtain ⟨before, after, rfl⟩ := List.mem_iff_append.1 hk
  obtain ⟨-, hafter, hbefore⟩ := List.pairwise_append.1 hs
  exact ⟨before, after, rfl, fun q hq => hbefore q hq k (.head _),
    (List.pairwise_cons.1 hafter).1⟩

/-- The writer `k` writes `xs`, and no later one has begun. -/
theorem flatMap_write (hs : ks.Pairwise (· < ·)) (hk : k ∈ ks) {xs : List β}
    (hself : g k = f k ++ xs) (hother : ∀ q, q ≠ k → g q = f q) (hafter : ∀ q, k < q → f q = []) :
    ks.flatMap g = ks.flatMap f ++ xs := by
  obtain ⟨before, after, rfl, hb, ha⟩ := split hs hk
  have hbefore : before.flatMap g = before.flatMap f :=
    List.flatMap_congr fun q hq => hother q (ne_of_lt (hb q hq))
  have hf : after.flatMap f = [] := List.flatMap_eq_nil_iff.2 fun q hq => hafter q (ha q hq)
  have hg : after.flatMap g = [] := List.flatMap_eq_nil_iff.2 fun q hq =>
    (hother q (ne_of_gt (ha q hq))).trans (hafter q (ha q hq))
  simp only [List.flatMap_append, List.flatMap_cons, hbefore, hself, hf, hg, List.append_nil,
    List.append_assoc]

/-- The writer `k` writes, the earlier ones have finished and the later ones have not begun. -/
theorem flatMap_prefix (hs : ks.Pairwise (· < ·)) (hk : k ∈ ks)
    (hbefore : ∀ q ∈ ks, q < k → f q = g q) (hself : f k <+: g k)
    (hafter : ∀ q ∈ ks, k < q → f q = []) : ks.flatMap f <+: ks.flatMap g := by
  obtain ⟨before, after, rfl, hb, ha⟩ := split hs hk
  have hf : before.flatMap f = before.flatMap g := List.flatMap_congr fun q hq =>
    hbefore q (List.mem_append_left _ hq) (hb q hq)
  have hnil : after.flatMap f = [] := List.flatMap_eq_nil_iff.2 fun q hq =>
    hafter q (List.mem_append_right _ (.tail _ hq)) (ha q hq)
  simp only [List.flatMap_append, List.flatMap_cons, hf, hnil, List.append_nil]
  exact (List.prefix_append_right_inj _).2 (hself.trans (List.prefix_append _ _))

end InTurn
