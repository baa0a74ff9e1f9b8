import Mathlib.Algebra.GroupWithZero.Nat
import Mathlib.Logic.Function.Basic
import Mathlib.Order.Interval.Finset.Nat
import Mathlib.Tactic.TypeStar

/-!
# Blocks of a memory

A memory addressed by 32-bit words. `Block.write mem a n f`: the `n` cells from `a` on hold `f 0`,
`f 1`, …, the others what they held. A loop that stores one cell after another is such a write
(`write_succ` is its step), a forward copy onto a block that may overlap its source too: what it
reads beyond the beginning of its target it has written itself (`copied_succ`). Of several writes
to a cell the last one counts (`last_write`).
-/

namespace Block

variable {β : Type*}

/-- The block of `n` cells at `a` set to `f`. -/
def write (mem : UInt32 → β) (a : UInt32) (n : Nat) (f : Nat → β) : UInt32 → β :=
  fun x => if (x - a).toNat < n then f (x - a).toNat else mem x

section
variable {mem : UInt32 → β} {a x : UInt32} {n : Nat} {f g : Nat → β}

theorem write_of_lt (h : (x - a).toNat < n) : write mem a n f x = f (x - a).toNat := if_pos h

theorem write_of_le (h : n ≤ (x - a).toNat) : write mem a n f x = mem x :=
  if_neg (Nat.not_lt.2 h)

@[simp] theorem write_zero : write mem a 0 f = mem := funext fun _ => if_neg (Nat.not_lt_zero _)

theorem write_congr (h : ∀ i, i < n → f i = g i) : write mem a n f = write mem a n g := by
  funext x
  unfold write
  split
  · rename_i hx
    exact h _ hx
  · rfl

/-- The cells of a block that does not wrap. -/
theorem mem_iff (ha : a.toNat + n ≤ 2 ^ 32) :
    (x - a).toNat < n ↔ a.toNat ≤ x.toNat ∧ x.toNat < a.toNat + n := by
  have hx := x.toNat_lt
  rw [UInt32.toNat_sub]
  omega

/-- A cell of a block, by its index. -/
theorem write_at (ha : a.toNat + n ≤ 2 ^ 32) (h1 : a.toNat ≤ x.toNat) (h2 : x.toNat < a.toNat + n) :
    write mem a n f x = f (x.toNat - a.toNat) := by
  rw [write_of_lt ((mem_iff ha).2 ⟨h1, h2⟩), UInt32.toNat_sub_of_le x a h1]

theorem write_outside (ha : a.toNat + n ≤ 2 ^ 32)
    (h : ¬ (a.toNat ≤ x.toNat ∧ x.toNat < a.toNat + n)) : write mem a n f x = mem x :=
  if_neg (mt (mem_iff ha).1 h)

theorem toNat_sub_succ (h : x ≠ a) : (x - a).toNat = (x - (a + 1)).toNat + 1 := by
  have hx := x.toNat_lt
  have ha := a.toNat_lt
  have hne : x.toNat ≠ a.toNat := fun he => h (UInt32.toNat_inj.1 he)
  rw [UInt32.toNat_sub, UInt32.toNat_sub, UInt32.toNat_add, show (1 : UInt32).toNat = 1 from rfl]
  omega

theorem toNat_sub_succ_self (a : UInt32) : (a - (a + 1)).toNat = 2 ^ 32 - 1 := by
  have ha := a.toNat_lt
  rw [UInt32.toNat_sub, UInt32.toNat_add, show (1 : UInt32).toNat = 1 from rfl]
  omega

/-- One store and a block after it. -/
theorem write_succ (hn : n < 2 ^ 32) :
    write (Function.update mem a (f 0)) (a + 1) n (fun i => f (i + 1)) = write mem a (n + 1) f := by
  funext x
  unfold write
  by_cases hx : x = a
  · have hzero : (0 : UInt32).toNat = 0 := rfl
    rw [hx, toNat_sub_succ_self, if_neg (by omega), UInt32.sub_self, hzero,
      if_pos (Nat.succ_pos n), Function.update_self]
  · rw [toNat_sub_succ hx, Function.update_of_ne hx]
    simp only [Nat.add_lt_add_iff_right]

/-- A block and one store before it, to the cell after its end. -/
theorem write_last (hn : n < 2 ^ 32) :
    write (Function.update mem (a + UInt32.ofNat n) (f n)) a n f = write mem a (n + 1) f := by
  funext x
  rcases Nat.lt_or_ge (x - a).toNat n with hlt | hge
  · rw [write_of_lt hlt, write_of_lt (Nat.lt_succ_of_lt hlt)]
  · rw [write_of_le hge]
    by_cases hx : x = a + UInt32.ofNat n
    · have hd : (x - a).toNat = n := by
        rw [hx, UInt32.add_comm, UInt32.add_sub_cancel, UInt32.toNat_ofNat_of_lt' hn]
      rw [hx, Function.update_self, ← hx, write_of_lt (by omega), hd]
    · have hne : (x - a).toNat ≠ n := by
        intro he
        refine hx ?_
        rw [← he, UInt32.ofNat_toNat, UInt32.add_comm, UInt32.sub_add_cancel]
      rw [Function.update_of_ne hx, write_of_le (by omega)]

/-- Two blocks one after the other. -/
theorem write_append {m : Nat} (h : n + m ≤ 2 ^ 32) :
    write (write mem a n f) (a + UInt32.ofNat n) m (fun i => f (n + i)) =
      write mem a (n + m) f := by
  funext x
  have hd := (x - a).toNat_lt
  have hsub : (x - (a + UInt32.ofNat n)).toNat = (2 ^ 32 - n % 2 ^ 32 + (x - a).toNat) % 2 ^ 32 := by
    rw [show x - (a + UInt32.ofNat n) = x - a - UInt32.ofNat n by grind, UInt32.toNat_sub,
      UInt32.toNat_ofNat']
  rcases Nat.lt_or_ge (x - a).toNat n with hlt | hge
  · rw [write_of_le (by omega), write_of_lt hlt, write_of_lt (by omega)]
  · have hback : (x - (a + UInt32.ofNat n)).toNat = (x - a).toNat - n := by omega
    unfold write
    rw [hback, if_neg (Nat.not_lt.2 hge)]
    dsimp only
    rw [Nat.add_sub_cancel' hge]
    exact if_congr (by omega) rfl rfl

end

/-! ## One write after another -/

/-- A cell that some of the writes `i`, …, `n - 1` overwrite, the others leaving it, keeps its value
`c` exactly if the last of them writes `c`. -/
theorem last_write {v g : Nat → β} {p : Nat → Prop} {c : β} {i n : Nat} (hin : i ≤ n) (hi : v i = c)
    (hwrite : ∀ j, i ≤ j → j < n → p j → v (j + 1) = g j)
    (hleave : ∀ j, i ≤ j → j < n → ¬ p j → v (j + 1) = v j) :
    v n = c ↔ ∀ j, i ≤ j → j < n → p j → (∀ l, j < l → l < n → ¬ p l) → g j = c := by
  induction n, hin using Nat.le_induction with
  | base =>
    refine iff_of_true hi fun j h1 h2 => ?_
    omega
  | succ n hin ih =>
    have ih := ih (fun j h1 h2 => hwrite j h1 (by omega)) fun j h1 h2 => hleave j h1 (by omega)
    by_cases hp : p n
    · -- the others are overwritten here
      rw [hwrite n hin n.lt_succ_self hp]
      constructor
      · intro hg j _ h2 _ hlast
        rcases Nat.lt_succ_iff_lt_or_eq.1 h2 with hlt | rfl
        · exact absurd hp (hlast n hlt n.lt_succ_self)
        · exact hg
      · intro h
        exact h n hin n.lt_succ_self hp fun l h1 h2 => by omega
    · rw [hleave n hin n.lt_succ_self hp, ih]
      constructor
      · intro h j h1 h2 hj hlast
        rcases Nat.lt_succ_iff_lt_or_eq.1 h2 with hlt | rfl
        · exact h j h1 hlt hj fun l h3 h4 => hlast l h3 (by omega)
        · exact absurd hj hp
      · intro h j h1 h2 hj hlast
        refine h j h1 (by omega) hj fun l h3 h4 => ?_
        rcases Nat.lt_succ_iff_lt_or_eq.1 h4 with hlt | rfl
        · exact hlast l h3 hlt
        · exact hp

/-- Cell `i` of a forward copy from `s` to a target `dist` cells further on. -/
def copied (mem : UInt32 → β) (s : UInt32) (dist : Nat) (i : Nat) : β :=
  mem (s + UInt32.ofNat (i % dist))

/-- One store of a forward copy. -/
theorem copied_succ (mem : UInt32 → β) (d s : UInt32) (i : Nat) :
    copied (Function.update mem d (mem s)) (s + 1) (d - s).toNat i =
      copied mem s (d - s).toNat (i + 1) := by
  have haddr : ∀ j, s + 1 + UInt32.ofNat j = s + UInt32.ofNat (j + 1) := by
    intro j
    rw [UInt32.ofNat_add, UInt32.add_assoc, UInt32.add_comm 1]
    rfl
  unfold copied
  rw [haddr]
  by_cases hd : d = s
  · rw [hd, UInt32.sub_self, show (0 : UInt32).toNat = 0 from rfl, Nat.mod_zero, Nat.mod_zero,
      Function.update_eq_self]
  · have hdist : (d - s).toNat < 2 ^ 32 := (d - s).toNat_lt
    have hpos : 0 < (d - s).toNat := by
      refine Nat.pos_of_ne_zero fun h0 => hd ?_
      have hz : d - s = 0 := UInt32.toNat_inj.1 h0
      rw [← UInt32.sub_add_cancel d s, hz, UInt32.zero_add]
    have hlt := Nat.mod_lt i hpos
    rw [← Nat.mod_add_mod i]
    by_cases hlast : i % (d - s).toNat + 1 = (d - s).toNat
    · rw [hlast, Nat.mod_self, UInt32.ofNat_toNat, UInt32.add_comm s, UInt32.sub_add_cancel,
        Function.update_self]
      exact congrArg mem (UInt32.add_zero s).symm
    · rw [Nat.mod_eq_of_lt (Nat.lt_of_le_of_ne hlt hlast), Function.update_of_ne]
      intro he
      have hsub := UInt32.add_sub_cancel (UInt32.ofNat (i % (d - s).toNat + 1)) s
      rw [UInt32.add_comm, he] at hsub
      have hnat := congrArg UInt32.toNat hsub
      rw [UInt32.toNat_ofNat_of_lt' (Nat.lt_of_le_of_lt hlt hdist)] at hnat
      exact hlast hnat.symm

end Block
