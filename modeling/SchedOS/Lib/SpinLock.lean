import Mathlib.Tactic.TypeStar

/-!
# Mutual exclusion by a lock variable

Threads of which some are `inside` a critical section, and a lock that is `free` or not. `Exclusive`
is kept by a thread that enters while the lock is free and takes it (`Exclusive.acquire`), by one
that leaves and frees it (`Exclusive.release`) and by every step that changes neither
(`Exclusive.congr`).
-/

namespace SpinLock

variable {κ : Type*} {free free' : Prop} {inside inside' : κ → Prop} {p : κ}

/-- At most one thread is inside, and the lock is free exactly when none is. -/
structure Exclusive (free : Prop) (inside : κ → Prop) : Prop where
  unique : ∀ p q, inside p → inside q → p = q
  free_iff : free ↔ ∀ p, ¬ inside p

theorem Exclusive.congr (h : Exclusive free inside) (hfree : free' ↔ free)
    (hinside : ∀ q, inside' q ↔ inside q) : Exclusive free' inside' := by
  refine ⟨fun p q hp hq => h.unique p q ((hinside p).1 hp) ((hinside q).1 hq), ?_⟩
  rw [hfree, h.free_iff]
  exact forall_congr' fun q => not_congr (hinside q).symm

theorem Exclusive.acquire (h : Exclusive free inside) (hf : free) (htaken : ¬ free')
    (hp : inside' p) (hother : ∀ q, q ≠ p → (inside' q ↔ inside q)) :
    Exclusive free' inside' := by
  have honly : ∀ q, inside' q → q = p := fun q hq =>
    Classical.byContradiction fun hne => h.free_iff.1 hf q ((hother q hne).1 hq)
  exact ⟨fun q q' hq hq' => (honly q hq).trans (honly q' hq').symm,
    fun hf' => absurd hf' htaken, fun hno => absurd hp (hno p)⟩

theorem Exclusive.release (h : Exclusive free inside) (hin : inside p) (hfree : free')
    (hp : ¬ inside' p) (hother : ∀ q, q ≠ p → (inside' q ↔ inside q)) :
    Exclusive free' inside' := by
  have hno : ∀ q, ¬ inside' q := fun q hq => by
    by_cases hqp : q = p
    · exact hp (hqp ▸ hq)
    · exact hqp (h.unique q p ((hother q hqp).1 hq) hin)
  exact ⟨fun q _ hq _ => absurd hq (hno q), fun _ => hno, fun _ => hfree⟩

end SpinLock
