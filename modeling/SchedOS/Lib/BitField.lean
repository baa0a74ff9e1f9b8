import Mathlib.Data.List.Basic
import SchedOS.Lib.Block

/-!
# Bit fields and their bytes

`BitField.pack`: a number made of fields, the first one lowest, each cut to its width; `bits` is a
field read back (`bits_pack`), a value that lies in two fields comes together again (`bits_add`).
`store` puts the bytes of a number into a memory addressed by 32-bit words, the lowest one first, and
`load` reads it (`load_store`, `load_store_of_le`).
-/

namespace BitField

/-- The `w` bits of `n` from bit `off` on. -/
def bits (n off w : Nat) : Nat := n / 2 ^ off % 2 ^ w

/-- The fields `(width, value)`. -/
def pack : List (Nat × Nat) → Nat
  | [] => 0
  | (w, v) :: fs => v % 2 ^ w + 2 ^ w * pack fs

def width (fs : List (Nat × Nat)) : Nat := (fs.map Prod.fst).sum

theorem bits_lt (n off w : Nat) : bits n off w < 2 ^ w := Nat.mod_lt _ (Nat.two_pow_pos w)

@[simp] theorem width_nil : width [] = 0 := rfl

@[simp] theorem width_cons (w v : Nat) (fs : List (Nat × Nat)) :
    width ((w, v) :: fs) = w + width fs := rfl

theorem pack_lt (fs : List (Nat × Nat)) : pack fs < 2 ^ width fs := by
  induction fs with
  | nil => simp [pack]
  | cons f fs ih =>
    obtain ⟨w, v⟩ := f
    have hv : v % 2 ^ w < 2 ^ w := Nat.mod_lt _ (Nat.two_pow_pos w)
    rw [pack, width_cons, Nat.pow_add]
    calc v % 2 ^ w + 2 ^ w * pack fs < 2 ^ w + 2 ^ w * pack fs := Nat.add_lt_add_right hv _
      _ = 2 ^ w * (pack fs + 1) := by rw [Nat.mul_succ, Nat.add_comm]
      _ ≤ 2 ^ w * 2 ^ width fs := Nat.mul_le_mul_left _ ih

theorem pack_append (fs gs : List (Nat × Nat)) :
    pack (fs ++ gs) = pack fs + 2 ^ width fs * pack gs := by
  induction fs with
  | nil => simp [pack]
  | cons f fs ih =>
    obtain ⟨w, v⟩ := f
    rw [List.cons_append, pack, pack, ih, width_cons, Nat.pow_add, Nat.mul_add, Nat.mul_assoc,
      Nat.add_assoc]

/-- A field is what was put there. -/
theorem bits_pack (fs gs : List (Nat × Nat)) (w v : Nat) :
    bits (pack (fs ++ (w, v) :: gs)) (width fs) w = v % 2 ^ w := by
  have hlow := Nat.div_eq_of_lt (pack_lt fs)
  unfold bits
  rw [pack_append, Nat.add_mul_div_left _ _ (Nat.two_pow_pos _), hlow, Nat.zero_add, pack,
    Nat.add_mul_mod_self_left, Nat.mod_mod]

/-- Another value in one field. -/
theorem pack_change (fs gs : List (Nat × Nat)) (w v v' : Nat) :
    pack (fs ++ (w, v') :: gs) + 2 ^ width fs * (v % 2 ^ w) =
      pack (fs ++ (w, v) :: gs) + 2 ^ width fs * (v' % 2 ^ w) := by
  rw [pack_append, pack_append, pack, pack, Nat.mul_add, Nat.mul_add]
  omega

/-- Two fields one after the other. -/
theorem bits_add (n off w k : Nat) :
    bits n off (w + k) = bits n off w + 2 ^ w * bits n (off + w) k := by
  unfold bits
  rw [Nat.pow_add, Nat.mod_mul, Nat.pow_add, Nat.div_div_eq_div_mul]

/-! ## Bytes -/

/-- The `k` bytes at `a`. -/
def load (mem : UInt32 → UInt8) (a : UInt32) (k : Nat) : Nat :=
  pack ((List.range k).map fun i => (8, (mem (a + UInt32.ofNat i)).toNat))

/-- The `k` bytes at `a` set to those of `n`. -/
def store (mem : UInt32 → UInt8) (a : UInt32) (k n : Nat) : UInt32 → UInt8 :=
  Block.write mem a k fun i => UInt8.ofNat (bits n (8 * i) 8)

theorem width_bytes (f : Nat → Nat) (k : Nat) :
    width ((List.range k).map fun i => (8, f i)) = 8 * k := by
  unfold width
  rw [List.map_map]
  induction k with
  | zero => rfl
  | succ k ih =>
    rw [List.range_succ, List.map_append, List.sum_append, ih, Nat.mul_succ]
    rfl

/-- A number from its bytes. -/
theorem pack_bytes (n k : Nat) :
    pack ((List.range k).map fun i => (8, bits n (8 * i) 8)) = n % 2 ^ (8 * k) := by
  induction k with
  | zero => simp [pack, Nat.mod_one]
  | succ k ih =>
    have hlast : pack [(8, bits n (8 * k) 8)] = bits n (8 * k) 8 := by
      rw [pack, pack, Nat.mul_zero, Nat.add_zero, Nat.mod_eq_of_lt (bits_lt _ _ _)]
    rw [List.range_succ, List.map_append, pack_append, ih, width_bytes, List.map_cons, List.map_nil,
      hlast, Nat.mul_succ, Nat.pow_add, Nat.mod_mul]
    rfl

theorem load_congr {mem mem' : UInt32 → UInt8} {a : UInt32} {k : Nat}
    (h : ∀ i, i < k → mem (a + UInt32.ofNat i) = mem' (a + UInt32.ofNat i)) :
    load mem a k = load mem' a k := by
  refine congrArg pack (List.map_congr_left fun i hi => ?_)
  rw [h i (List.mem_range.1 hi)]

/-- What is stored is loaded. -/
theorem load_store (mem : UInt32 → UInt8) (a : UInt32) {k : Nat} (hk : k ≤ 2 ^ 32) (n : Nat) :
    load (store mem a k n) a k = n % 2 ^ (8 * k) := by
  rw [← pack_bytes]
  refine congrArg pack (List.map_congr_left fun i hi => ?_)
  have hlt : i < k := List.mem_range.1 hi
  have hindex : (a + UInt32.ofNat i - a).toNat = i := by
    rw [UInt32.add_comm, UInt32.add_sub_cancel,
      UInt32.toNat_ofNat_of_lt' (Nat.lt_of_lt_of_le hlt hk)]
  unfold store
  rw [Block.write_of_lt (hindex.symm ▸ hlt), hindex, UInt8.toNat_ofNat_of_lt' (bits_lt _ _ _)]

/-- A store to bytes before or behind. -/
theorem load_store_of_le {mem : UInt32 → UInt8} {a b : UInt32} {k l n : Nat}
    (ha : a.toNat + k ≤ 2 ^ 32) (hb : b.toNat + l ≤ 2 ^ 32)
    (h : a.toNat + k ≤ b.toNat ∨ b.toNat + l ≤ a.toNat) :
    load (store mem b l n) a k = load mem a k := by
  refine load_congr fun i hi => Block.write_outside hb ?_
  have haddr : (a + UInt32.ofNat i).toNat = a.toNat + i := by
    rw [UInt32.toNat_add, UInt32.toNat_ofNat']
    omega
  omega

end BitField
