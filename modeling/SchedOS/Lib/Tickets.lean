import SchedOS.Lib.Exec

/-!
# Drawing tickets

The tickets of the places `xs` are numbered from `base` on, `w x` of them for `x`, in the order of
the list. `owner w base xs n` is the place that holds ticket `n`. `choose w ready base xs n` is the
chain of tests that gives the draw `n` to the first ready place whose tickets do not all lie below
`n`. A ready place thus also takes the tickets of the places just before it that are not ready: the
chain gives a draw to its owner or to nobody exactly if no place with tickets is before a ready one
without being ready (`Clean`, `clean_iff`). Then each ready place gets one draw for each of its
tickets (`Clean.count_choose`).
-/

namespace Tickets

variable {ι : Type*} (w : ι → Nat)

/-- The place that holds ticket `n`. -/
def owner (base : Nat) : List ι → Nat → Option ι
  | [], _ => none
  | x :: xs, n => if n < base + w x then some x else owner (base + w x) xs n

/-- The chain of tests. -/
def choose (ready : ι → Prop) [DecidablePred ready] (base : Nat) : List ι → Nat → Option ι
  | [], _ => none
  | x :: xs, n =>
    if n < base + w x ∧ ready x then some x else choose ready (base + w x) xs n

/-- The number of tickets. -/
def total : List ι → Nat
  | [] => 0
  | x :: xs => w x + total xs

variable {w} {ready : ι → Prop}

theorem owner_mem {x : ι} : ∀ {xs : List ι} {base n : Nat}, owner w base xs n = some x → x ∈ xs
  | y :: ys, base, n, h => by
    unfold owner at h
    split at h
    · cases h
      exact .head _
    · exact .tail _ (owner_mem h)

theorem owner_lt {x : ι} : ∀ {xs : List ι} {base n : Nat}, owner w base xs n = some x →
    n < base + total w xs
  | y :: ys, base, n, h => by
    unfold owner at h
    unfold total
    split at h
    · omega
    · have := owner_lt h
      omega

/-- Every place holds as many tickets as its weight says. -/
theorem count_owner [DecidableEq ι] {k : ι} : ∀ {xs : List ι} (base : Nat), xs.Nodup → k ∈ xs →
    Window.count (fun n => owner w base xs n = some k) base (base + total w xs) = w k
  | x :: xs, base, hnd, hk => by
    obtain ⟨hx, hnd⟩ := List.nodup_cons.1 hnd
    have hlow : ∀ n, base ≤ n → n < base + w x → owner w base (x :: xs) n = some x :=
      fun n _ hn => if_pos hn
    have hhigh : ∀ n, base + w x ≤ n → n < base + total w (x :: xs) →
        owner w base (x :: xs) n = owner w (base + w x) xs n :=
      fun n hn _ => if_neg (Nat.not_lt.2 hn)
    have hend : base + total w (x :: xs) = base + w x + total w xs := (Nat.add_assoc ..).symm
    rw [← Window.count_add_count _ (Nat.le_add_right base (w x))
      (show base + w x ≤ base + total w (x :: xs) by omega)]
    rcases List.mem_cons.1 hk with rfl | hkx
    · have hin := Window.count_eq_length (p := fun n => owner w base (k :: xs) n = some k) hlow
      have hout : Window.count (fun n => owner w base (k :: xs) n = some k) (base + w k)
          (base + total w (k :: xs)) = 0 := by
        refine Window.count_eq_zero fun n h1 h2 he => hx ?_
        rw [hhigh n h1 h2] at he
        exact owner_mem he
      rw [hin, hout]
      omega
    · have hin : Window.count (fun n => owner w base (x :: xs) n = some k) base
          (base + w x) = 0 := by
        refine Window.count_eq_zero fun n h1 h2 he => hx ?_
        rw [hlow n h1 h2] at he
        cases he
        exact hkx
      have hout : Window.count (fun n => owner w base (x :: xs) n = some k) (base + w x)
          (base + w x + total w xs) = w k := by
        rw [← count_owner (base + w x) hnd hkx]
        exact Window.count_congr fun n h1 h2 => by rw [hhigh n h1 (by omega)]
      rw [hend, hin, hout, Nat.zero_add]

section
variable [DecidablePred ready]

theorem choose_ready {x : ι} : ∀ {xs : List ι} {base n : Nat},
    choose w ready base xs n = some x → x ∈ xs ∧ ready x
  | y :: ys, base, n, h => by
    unfold choose at h
    split at h
    · rename_i hy
      cases h
      exact ⟨.head _, hy.2⟩
    · obtain ⟨hm, hr⟩ := choose_ready h
      exact ⟨.tail _ hm, hr⟩

/-- A ready place takes the draws below its tickets. -/
theorem choose_isSome {k : ι} (hr : ready k) : ∀ {xs : List ι} {base n : Nat}, n < base →
    k ∈ xs → (choose w ready base xs n).isSome
  | y :: ys, base, n, hn, hk => by
    unfold choose
    split
    · rfl
    · rename_i hy
      rcases List.mem_cons.1 hk with rfl | hk
      · exact absurd ⟨by omega, hr⟩ hy
      · exact choose_isSome hr (by omega) hk

end

/-- No place with tickets is before a ready one without being ready. -/
def Clean (w : ι → Nat) (ready : ι → Prop) (xs : List ι) : Prop :=
  xs.Pairwise fun z k => ready k → ¬ ready z → w z = 0

section
variable [DecidablePred ready]

/-- The draw goes to the owner of the ticket, or to nobody if the owner is not ready. -/
theorem Clean.choose_eq : ∀ {xs : List ι} {base n : Nat}, Clean w ready xs → base ≤ n →
    choose w ready base xs n = (owner w base xs n).filter ready
  | [], _, _, _, _ => rfl
  | x :: xs, base, n, h, hn => by
    obtain ⟨hx, hxs⟩ := List.pairwise_cons.1 h
    unfold choose owner
    by_cases hlt : n < base + w x
    · rw [if_pos hlt]
      by_cases hr : ready x
      · rw [if_pos ⟨hlt, hr⟩, Option.filter_some, if_pos (decide_eq_true hr)]
      · rw [if_neg fun h => hr h.2, Option.filter_some, if_neg (by simpa using hr)]
        -- `x` holds the ticket, so nothing ready comes after it
        refine Option.eq_none_iff_forall_ne_some.2 fun k hk => ?_
        obtain ⟨hm, hrk⟩ := choose_ready hk
        have := hx k hm hrk hr
        omega
    · rw [if_neg hlt, if_neg fun h => hlt h.1]
      exact Clean.choose_eq hxs (by omega)

/-- The tickets of the places that are not ready are drawn for nobody exactly under `Clean`. -/
theorem clean_iff : ∀ {xs : List ι} (base : Nat), Clean w ready xs ↔
    ∀ n z, base ≤ n → owner w base xs n = some z → ¬ ready z → choose w ready base xs n = none
  | xs, base => by
    constructor
    · intro h n z hn ho hz
      rw [h.choose_eq hn, ho, Option.filter_some, if_neg (by simpa using hz)]
    · induction xs generalizing base with
      | nil => exact fun _ => .nil
      | cons x xs ih =>
        intro h
        refine List.pairwise_cons.2 ⟨fun k hk hrk hrx => ?_, ih (base + w x) ?_⟩
        · apply Nat.eq_zero_of_not_pos
          intro hpos
          have hnone := h base x (Nat.le_refl _) (if_pos (by omega)) hrx
          unfold choose at hnone
          rw [if_neg fun h => hrx h.2] at hnone
          have hsome := choose_isSome (w := w) hrk (show base < base + w x by omega) hk
          rw [hnone] at hsome
          cases hsome
        · intro n z hn ho hz
          have hlt : ¬ n < base + w x := by omega
          have := h n z (by omega) (by rw [owner, if_neg hlt, ho]) hz
          rwa [choose, if_neg fun h => hlt h.1] at this

theorem Clean.count_choose [DecidableEq ι] {xs : List ι} (base : Nat) (h : Clean w ready xs)
    (hnd : xs.Nodup) {k : ι} (hk : k ∈ xs) (hr : ready k) :
    Window.count (fun n => choose w ready base xs n = some k) base (base + total w xs) = w k := by
  rw [← count_owner (w := w) base hnd hk]
  refine Window.count_congr fun n h1 _ => ?_
  rw [h.choose_eq h1, Option.filter_eq_some_iff]
  exact ⟨fun h => h.1, fun h => ⟨h, decide_eq_true hr⟩⟩

end

end Tickets
