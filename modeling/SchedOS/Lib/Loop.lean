import Mathlib.Tactic.TypeStar

/-!
# Loops without a bound

`Loop.run body n s`: at most `n` passes of a loop from the state `s`. A pass ends the loop with a
result (`.inr`) or goes on from the next state (`.inl`). `Loop.Ends body s r`: the loop ends with
`r` after some number of passes, all the same for every larger bound (`run_mono`). The rules: an
invariant bounds the results (`run_inv`, `Ends.inv`), and a measure gives an end and counts the
passes (`run_of_measure`). A loop over a range is followed state by state (`run_count`), and one that
draws until there is a result ends exactly if some draw gives one (`exists_ends_draw`).
-/

namespace Loop

variable {σ ρ : Type*} {body : σ → σ ⊕ ρ}

/-- At most `n` passes from the state `s`. -/
def run (body : σ → σ ⊕ ρ) : Nat → σ → Option ρ
  | 0, _ => none
  | n + 1, s =>
    match body s with
    | .inl s' => run body n s'
    | .inr r => some r

/-- The loop ends with `r`. -/
def Ends (body : σ → σ ⊕ ρ) (s : σ) (r : ρ) : Prop := ∃ n, run body n s = some r

@[simp] theorem run_zero (s : σ) : run body 0 s = none := rfl

theorem run_succ_inl {n : Nat} {s s' : σ} (h : body s = .inl s') :
    run body (n + 1) s = run body n s' := by
  simp [run, h]

theorem run_succ_inr {n : Nat} {s : σ} {r : ρ} (h : body s = .inr r) :
    run body (n + 1) s = some r := by
  simp [run, h]

/-- A result stays the result for every larger bound. -/
theorem run_mono {n m : Nat} {s : σ} {r : ρ} (h : run body n s = some r) (hnm : n ≤ m) :
    run body m s = some r := by
  induction n generalizing m s with
  | zero => simp at h
  | succ n ih =>
    obtain ⟨m, rfl⟩ : ∃ k, m = k + 1 := ⟨m - 1, by omega⟩
    cases hb : body s with
    | inl s' =>
      rw [run_succ_inl hb] at h ⊢
      exact ih h (by omega)
    | inr r' =>
      rw [run_succ_inr hb] at h ⊢
      exact h

/-- The result does not depend on the bound. -/
theorem run_unique {n m : Nat} {s : σ} {r r' : ρ} (h : run body n s = some r)
    (h' : run body m s = some r') : r' = r := by
  have hmax := run_mono h (Nat.le_max_left n m)
  rw [run_mono h' (Nat.le_max_right n m)] at hmax
  exact Option.some.inj hmax

theorem Ends.inr {s : σ} {r : ρ} (h : body s = .inr r) : Ends body s r := ⟨1, run_succ_inr h⟩

/-- The first pass of a loop that ends. -/
theorem Ends.first {s : σ} {r : ρ} (h : Ends body s r) :
    body s = .inr r ∨ ∃ s', body s = .inl s' ∧ Ends body s' r := by
  obtain ⟨n, hn⟩ := h
  cases n with
  | zero => simp at hn
  | succ n =>
    cases hb : body s with
    | inl s' =>
      rw [run_succ_inl hb] at hn
      exact .inr ⟨s', rfl, n, hn⟩
    | inr r' =>
      rw [run_succ_inr hb] at hn
      cases hn
      exact .inl rfl

/-- The invariant rule: `I` is kept by a pass that goes on, and a pass that ends gives `Q`. -/
theorem run_inv {I : σ → Prop} {Q : ρ → Prop} (hstep : ∀ s s', I s → body s = .inl s' → I s')
    (hdone : ∀ s r, I s → body s = .inr r → Q r) {n : Nat} {s : σ} {r : ρ} (hI : I s)
    (h : run body n s = some r) : Q r := by
  induction n generalizing s with
  | zero => simp at h
  | succ n ih =>
    cases hb : body s with
    | inl s' =>
      rw [run_succ_inl hb] at h
      exact ih (hstep s s' hI hb) h
    | inr r' =>
      rw [run_succ_inr hb] at h
      cases h
      exact hdone s r hI hb

theorem Ends.inv {I : σ → Prop} {Q : ρ → Prop} (hstep : ∀ s s', I s → body s = .inl s' → I s')
    (hdone : ∀ s r, I s → body s = .inr r → Q r) {s : σ} {r : ρ} (hI : I s)
    (h : Ends body s r) : Q r := by
  obtain ⟨n, hn⟩ := h
  exact run_inv hstep hdone hI hn

/-- The measure rule: a loop whose measure falls with every pass that goes on ends after one pass
more than its measure. -/
theorem run_of_measure {I : σ → Prop} (μ : σ → Nat)
    (hstep : ∀ s s', I s → body s = .inl s' → I s' ∧ μ s' < μ s) {s : σ} (hI : I s) :
    ∃ r, run body (μ s + 1) s = some r := by
  suffices key : ∀ n s, I s → μ s < n → ∃ r, run body n s = some r from
    key _ s hI (Nat.lt_succ_self _)
  intro n
  induction n with
  | zero => intro s _ hn; omega
  | succ n ih =>
    intro s hI hn
    cases hb : body s with
    | inl s' =>
      obtain ⟨hI', hμ⟩ := hstep s s' hI hb
      rw [run_succ_inl hb]
      exact ih s' hI' (by omega)
    | inr r => exact ⟨r, run_succ_inr hb⟩

/-- The counting rule: a loop that goes on from the states `s 0`, …, `s (n - 1)` and ends in `s n`.
-/
theorem run_count {s : Nat → σ} {n : Nat} {r : ρ} (hstep : ∀ j, j < n → body (s j) = .inl (s (j + 1)))
    (hdone : body (s n) = .inr r) {j k : Nat} (hjk : j + k = n) : run body (k + 1) (s j) = some r := by
  induction k generalizing j with
  | zero =>
    rw [Nat.add_zero] at hjk
    rw [hjk]
    exact run_succ_inr hdone
  | succ k ih =>
    rw [run_succ_inl (hstep j (by omega))]
    exact ih (by omega)

/-- The drawing rule: a loop over `0`, `1`, … that ends at the first one with a result. -/
theorem exists_ends_draw {body : Nat → Nat ⊕ ρ} {f : Nat → Option ρ}
    (hnone : ∀ n, f n = none → body n = .inl (n + 1)) (hsome : ∀ n r, f n = some r → body n = .inr r) :
    (∃ r, Ends body 0 r) ↔ ∃ n, f n ≠ none := by
  constructor
  · rintro ⟨r, h⟩
    refine h.inv (I := fun _ => True) (Q := fun _ => ∃ n, f n ≠ none) (fun _ _ _ _ => trivial)
      (fun n r _ hn => ⟨n, fun hf => ?_⟩) trivial
    rw [hnone n hf] at hn
    cases hn
  · rintro ⟨n, hn⟩
    suffices key : ∀ k j, f (j + k) ≠ none → ∃ r, Ends body j r from
      key n 0 (by rwa [Nat.zero_add])
    intro k
    induction k with
    | zero =>
      intro j hj
      cases hf : f j with
      | none => exact absurd hf hj
      | some r => exact ⟨r, .inr (hsome j r hf)⟩
    | succ k ih =>
      intro j hj
      cases hf : f j with
      | none =>
        obtain ⟨r, m, hm⟩ := ih (j + 1) (by rwa [Nat.add_right_comm])
        exact ⟨r, m + 1, by rw [run_succ_inl (hnone j hf), hm]⟩
      | some r => exact ⟨r, .inr (hsome j r hf)⟩

end Loop
