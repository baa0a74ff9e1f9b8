import SchedOS.Lib.Loop

/-!
# Refinement of computations with a bound

A computation that takes a bound, `f : Nat → Option α`, gives no result where the bound is too
small. `Bounded.Gives f a`: `a` is its result for every bound from some on, and it has no other.
`Bounded.Refines f g R`: the results of `f` are those of `g`, up to the relation `R`; neither says
anything of the other's bounds. Both are composed along `bind` (`Gives.bind`, `Refines.bind`), and
`Refines` along loops: related passes make related loops (`Refines.loop`).
-/

namespace Bounded

variable {α β γ δ : Type*}

/-- The result of `f`, and the only one. -/
structure Gives (f : Nat → Option α) (a : α) : Prop where
  enough : ∃ n, ∀ m, n ≤ m → f m = some a
  only : ∀ n a', f n = some a' → a' = a

/-- What one of the two gives, the other gives up to `R`. -/
structure Refines (f : Nat → Option α) (g : Nat → Option β) (R : α → β → Prop) : Prop where
  sound : ∀ n a, f n = some a → ∃ b, g n = some b ∧ R a b
  complete : ∀ n b, g n = some b → ∃ a, R a b ∧ ∃ m, ∀ k, m ≤ k → f k = some a

theorem Gives.pure (a : α) : Gives (fun _ => some a) a where
  enough := ⟨0, fun _ _ => rfl⟩
  only := by
    intro n a' h
    cases h
    rfl

/-- A computation that a larger bound does not change, and that has one result. -/
theorem Gives.of_mono {f : Nat → Option α} {a : α}
    (hmono : ∀ n m a', f n = some a' → n ≤ m → f m = some a')
    (h : ∀ a', (∃ n, f n = some a') ↔ a' = a) : Gives f a where
  enough := by
    obtain ⟨n, hn⟩ := (h a).2 rfl
    exact ⟨n, fun m hm => hmono n m a hn hm⟩
  only := fun n a' ha' => (h a').1 ⟨n, ha'⟩

theorem Gives.iff {f : Nat → Option α} {a a' : α} (h : Gives f a) :
    (∃ n, f n = some a') ↔ a' = a := by
  constructor
  · rintro ⟨n, hn⟩
    exact h.only n a' hn
  · rintro rfl
    obtain ⟨n, hn⟩ := h.enough
    exact ⟨n, hn n (Nat.le_refl n)⟩

theorem Gives.bind {f : Nat → Option α} {f' : α → Nat → Option γ} {a : α} {c : γ} (h : Gives f a)
    (h' : Gives (f' a) c) : Gives (fun n => (f n).bind fun a => f' a n) c where
  enough := by
    obtain ⟨n, hn⟩ := h.enough
    obtain ⟨n', hn'⟩ := h'.enough
    refine ⟨max n n', fun m hm => ?_⟩
    rw [hn m (by omega)]
    exact hn' m (by omega)
  only := by
    intro n c' hc
    obtain ⟨x, hx, hx'⟩ := Option.bind_eq_some_iff.1 hc
    rw [h.only n x hx] at hx'
    exact h'.only n c' hx'

/-- The result of a computation whose counterpart always has one. -/
theorem Gives.refines {f : Nat → Option α} {a : α} {b : β} {R : α → β → Prop} (h : Gives f a)
    (hR : R a b) : Refines f (fun _ => some b) R where
  sound := by
    intro n a' ha'
    rw [h.only n a' ha']
    exact ⟨b, rfl, hR⟩
  complete := by
    intro n b' hb'
    cases hb'
    exact ⟨a, hR, h.enough⟩

theorem Refines.pure {a : α} {b : β} {R : α → β → Prop} (h : R a b) :
    Refines (fun _ => some a) (fun _ => some b) R :=
  (Gives.pure a).refines h

theorem Refines.bind {f : Nat → Option α} {g : Nat → Option β} {f' : α → Nat → Option γ}
    {g' : β → Nat → Option δ} {R : α → β → Prop} {S : γ → δ → Prop} (h : Refines f g R)
    (h' : ∀ a b, R a b → Refines (f' a) (g' b) S) :
    Refines (fun n => (f n).bind fun a => f' a n) (fun n => (g n).bind fun b => g' b n) S where
  sound := by
    intro n c hc
    obtain ⟨a, ha, hc⟩ := Option.bind_eq_some_iff.1 hc
    obtain ⟨b, hb, hR⟩ := h.sound n a ha
    obtain ⟨d, hd, hS⟩ := (h' a b hR).sound n c hc
    exact ⟨d, Option.bind_eq_some_iff.2 ⟨b, hb, hd⟩, hS⟩
  complete := by
    intro n d hd
    obtain ⟨b, hb, hd⟩ := Option.bind_eq_some_iff.1 hd
    obtain ⟨a, hR, m, hm⟩ := h.complete n b hb
    obtain ⟨c, hS, m', hm'⟩ := (h' a b hR).complete n d hd
    refine ⟨c, hS, max m m', fun k hk => ?_⟩
    rw [hm k (by omega)]
    exact hm' k (by omega)

/-! ## Loops -/

section
variable {σ σ' ρ ρ' : Type*}

/-- What a pass comes to: the next state or a result, unless the bound was too small for it. -/
def outcome : σ ⊕ Option ρ → Option (σ ⊕ ρ)
  | .inl s => some (.inl s)
  | .inr none => none
  | .inr (some r) => some (.inr r)

/-- A pass that needs no bound. -/
def always (body : σ → σ ⊕ ρ) (s : σ) : σ ⊕ Option ρ := (body s).map id some

/-- A loop whose passes take a bound. -/
def loop (body : Nat → σ → σ ⊕ Option ρ) (s : σ) (n : Nat) : Option ρ :=
  (Loop.run (body n) n s).join

theorem run_always (body : σ → σ ⊕ ρ) (n : Nat) (s : σ) :
    (Loop.run (always body) n s).join = Loop.run body n s := by
  induction n generalizing s with
  | zero => rfl
  | succ n ih =>
    cases hb : body s with
    | inl s' =>
      rw [Loop.run_succ_inl hb, Loop.run_succ_inl (show always body s = .inl s' by
        simp [always, hb])]
      exact ih s'
    | inr r =>
      rw [Loop.run_succ_inr hb, Loop.run_succ_inr (show always body s = .inr (some r) by
        simp [always, hb])]
      rfl

theorem outcome_eq_inl {p : σ ⊕ Option ρ} {s : σ} : outcome p = some (.inl s) ↔ p = .inl s := by
  rcases p with s' | (_ | r) <;> simp [outcome]

theorem outcome_eq_inr {p : σ ⊕ Option ρ} {r : ρ} :
    outcome p = some (.inr r) ↔ p = .inr (some r) := by
  rcases p with s' | (_ | r') <;> simp [outcome]

variable {body : Nat → σ → σ ⊕ Option ρ} {body' : Nat → σ' → σ' ⊕ Option ρ'}
  {I : σ → σ' → Prop} {R : ρ → ρ' → Prop}
  (hpass : ∀ s s', I s s' → Refines (fun n => outcome (body n s)) (fun n => outcome (body' n s'))
    (Sum.LiftRel I R))
include hpass

theorem Refines.run_sound {n k : Nat} {s : σ} {s' : σ'} (hI : I s s') {r : ρ}
    (h : Loop.run (body n) k s = some (some r)) :
    ∃ r', Loop.run (body' n) k s' = some (some r') ∧ R r r' := by
  induction k generalizing s s' with
  | zero => simp at h
  | succ k ih =>
    cases hb : body n s with
    | inl s1 =>
      rw [Loop.run_succ_inl hb] at h
      obtain ⟨p, hp, hrel⟩ := (hpass s s' hI).sound n _ (outcome_eq_inl.2 hb)
      cases hrel with
      | inl hI' =>
        rw [Loop.run_succ_inl (outcome_eq_inl.1 hp)]
        exact ih hI' h
    | inr r1 =>
      rw [Loop.run_succ_inr hb] at h
      cases h
      obtain ⟨p, hp, hrel⟩ := (hpass s s' hI).sound n _ (outcome_eq_inr.2 hb)
      cases hrel with
      | inr hR => exact ⟨_, Loop.run_succ_inr (outcome_eq_inr.1 hp), hR⟩

theorem Refines.run_complete {n k : Nat} {s : σ} {s' : σ'} (hI : I s s') {r' : ρ'}
    (h : Loop.run (body' n) k s' = some (some r')) :
    ∃ r, R r r' ∧ ∃ m, ∀ m', m ≤ m' → Loop.run (body m') k s = some (some r) := by
  induction k generalizing s s' with
  | zero => simp at h
  | succ k ih =>
    cases hb : body' n s' with
    | inl s1 =>
      rw [Loop.run_succ_inl hb] at h
      obtain ⟨p, hrel, m, hm⟩ := (hpass s s' hI).complete n _ (outcome_eq_inl.2 hb)
      cases hrel with
      | inl hI' =>
        obtain ⟨r, hR, m1, hm1⟩ := ih hI' h
        refine ⟨r, hR, max m m1, fun m' hm' => ?_⟩
        rw [Loop.run_succ_inl (outcome_eq_inl.1 (hm m' (by omega)))]
        exact hm1 m' (by omega)
    | inr r1 =>
      rw [Loop.run_succ_inr hb] at h
      cases h
      obtain ⟨p, hrel, m, hm⟩ := (hpass s s' hI).complete n _ (outcome_eq_inr.2 hb)
      cases hrel with
      | inr hR =>
        exact ⟨_, hR, m, fun m' hm' => Loop.run_succ_inr (outcome_eq_inr.1 (hm m' hm'))⟩

/-- The loop rule: `I` relates the states between the passes, `R` the results. -/
theorem Refines.loop {s : σ} {s' : σ'} (hI : I s s') : Refines (loop body s) (loop body' s') R where
  sound := by
    intro n r h
    obtain ⟨r', hr', hR⟩ := Refines.run_sound hpass hI (Option.join_eq_some_iff.1 h)
    exact ⟨r', Option.join_eq_some_iff.2 hr', hR⟩
  complete := by
    intro n r' h
    obtain ⟨r, hR, m, hm⟩ := Refines.run_complete hpass hI (Option.join_eq_some_iff.1 h)
    refine ⟨r, hR, max m n, fun k hk => Option.join_eq_some_iff.2 ?_⟩
    exact Loop.run_mono (hm k (by omega)) (by omega)

end

end Bounded
