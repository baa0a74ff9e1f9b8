import SchedOS.Lib.Block
import SchedOS.Load.Memory

/-!
# The memory of the loaders

The loops over the bytes are block writes (`memcpy_eq`, `clearBss_eq`, `clearBss_end`), `memmove` is
the one of the original bytes under any overlap (`memmove_eq`), the masks round down (`and_mask`),
and the headers depend on the bytes that hold them (`Agree`).
-/

namespace SchedOS

/-! ## The loops are block writes -/

theorem memcpy_eq (mem : Memory) (d s : UInt32) {n : Nat} (hn : n ≤ 2 ^ 32) :
    memcpy mem d s n = Block.write mem d n (Block.copied mem s (d - s).toNat) := by
  induction n generalizing mem d s with
  | zero => exact Block.write_zero.symm
  | succ n ih =>
    have hdist : d + 1 - (s + 1) = d - s := by grind
    have hfirst : Block.copied mem s (d - s).toNat 0 = mem s := by
      unfold Block.copied
      rw [Nat.zero_mod]
      exact congrArg mem (UInt32.add_zero s)
    rw [memcpy, ih _ _ _ (Nat.le_of_lt hn), hdist, ← Block.write_succ hn, hfirst]
    exact Block.write_congr fun i _ => Block.copied_succ mem d s i

theorem clearBss_eq (mem : Memory) (endVa : UInt32) {n : Nat} (hn : n ≤ 2 ^ 32) :
    clearBss mem endVa n = Block.write mem endVa n fun _ => 0 := by
  induction n generalizing mem endVa with
  | zero => exact Block.write_zero.symm
  | succ n ih => rw [clearBss, ih _ _ (Nat.le_of_lt hn), ← Block.write_succ hn]

/-! ## `memmove` -/

theorem memmoveDown_eq (mem : Memory) (d s : UInt32) {n : Nat} (hn : (d - s).toNat + n ≤ 2 ^ 32) :
    memmoveDown mem (d + UInt32.ofNat n) (s + UInt32.ofNat n) n =
      Block.write mem d n fun i => mem (s + UInt32.ofNat i) := by
  induction n generalizing mem with
  | zero => exact Block.write_zero.symm
  | succ n ih =>
    have hback : ∀ a : UInt32, a + UInt32.ofNat (n + 1) - 1 = a + UInt32.ofNat n := by
      intro a
      rw [UInt32.ofNat_add, ← UInt32.add_assoc]
      exact UInt32.add_sub_cancel _ 1
    have hlast := @Block.write_last _ mem d n (fun i => mem (s + UInt32.ofNat i)) (by omega)
    rw [memmoveDown, hback, hback, ih _ (by omega), ← hlast]
    -- the cell that has been written is not a source any more
    refine Block.write_congr fun i hi => Function.update_of_ne (fun he => ?_) _ _
    have hdist : UInt32.ofNat i = d - s + UInt32.ofNat n := by grind
    have hnat := congrArg UInt32.toNat hdist
    rw [UInt32.toNat_add, UInt32.toNat_ofNat', UInt32.toNat_ofNat'] at hnat
    omega

section
variable {dst src n : UInt32} (hsrc : src.toNat + n.toNat ≤ 2 ^ 32)
  (hdst : dst.toNat + n.toNat ≤ 2 ^ 32)
include hsrc hdst

/-- `memmove` goes down exactly if it has to. -/
theorem memmove_eq (mem : Memory) :
    memmove mem dst src n = Block.write mem dst n.toNat fun i => mem (src + UInt32.ofNat i) := by
  have hn := n.toNat_lt
  have hdist : (dst - src).toNat = (2 ^ 32 - src.toNat + dst.toNat) % 2 ^ 32 := UInt32.toNat_sub _ _
  unfold memmove
  split
  · rename_i hover
    have hlow := UInt32.lt_iff_toNat_lt.1 hover.1
    have hdown := memmoveDown_eq mem dst src (n := n.toNat) (by omega)
    rwa [UInt32.ofNat_toNat] at hdown
  · rename_i hover
    have hfar : (dst - src).toNat = 0 ∨ n.toNat ≤ (dst - src).toNat := by
      rw [UInt32.lt_iff_toNat_lt, gt_iff_lt, UInt32.lt_iff_toNat_lt, UInt32.toNat_add] at hover
      omega
    rw [memcpy_eq _ _ _ (Nat.le_of_lt hn)]
    refine Block.write_congr fun i hi => ?_
    unfold Block.copied
    rcases hfar with hzero | hfar
    · rw [hzero, Nat.mod_zero]
    · rw [Nat.mod_eq_of_lt (Nat.lt_of_lt_of_le hi hfar)]

end

/-- The bytes that were at `src` are at `dst`, and nothing else has changed. -/
def Moved (mem final : Memory) (dst src n : UInt32) : Prop :=
  (∀ i, i < n.toNat → final (dst + UInt32.ofNat i) = mem (src + UInt32.ofNat i)) ∧
    ∀ x : UInt32, ¬ (dst.toNat ≤ x.toNat ∧ x.toNat < dst.toNat + n.toNat) → final x = mem x

/-- **`memmove` under any overlap.** -/
theorem memmove_moves (mem : Memory) (dst src n : UInt32) (hsrc : src.toNat + n.toNat ≤ 2 ^ 32)
    (hdst : dst.toNat + n.toNat ≤ 2 ^ 32) : Moved mem (memmove mem dst src n) dst src n := by
  have hn := n.toNat_lt
  rw [memmove_eq hsrc hdst]
  refine ⟨fun i hi => ?_, fun x hx => Block.write_outside hdst hx⟩
  have hindex : (dst + UInt32.ofNat i - dst).toNat = i := by
    rw [UInt32.add_comm, UInt32.add_sub_cancel, UInt32.toNat_ofNat_of_lt' (Nat.lt_trans hi hn)]
  rw [Block.write_of_lt (hindex.symm ▸ hi), hindex]

/-- Two moves up by one byte, at the two ends of the memory. -/
theorem memmove_moves_up :
    Moved (fun x => x.toUInt8) (memmove (fun x => x.toUInt8) 1 0 8) 1 0 8 ∧
    Moved (fun x => x.toUInt8) (memmove (fun x => x.toUInt8) 0xFFFFFFF8 0xFFFFFFF7 8) 0xFFFFFFF8
      0xFFFFFFF7 8 :=
  ⟨memmove_moves _ _ _ _ (by decide) (by decide), memmove_moves _ _ _ _ (by decide) (by decide)⟩

/-! ## The end of a segment -/

section
variable {va filesz memsz : UInt32} (hle : filesz ≤ memsz)
  (hfit : va.toNat + memsz.toNat < 2 ^ 32)
include hle hfit

theorem toNat_end : (va + filesz).toNat = va.toNat + filesz.toNat := by
  have hle' := UInt32.le_iff_toNat_le.1 hle
  rw [UInt32.toNat_add]
  omega

/-- The zeros behind the data of a segment. -/
theorem clearBss_end (mem : Memory) :
    clearBss mem (va + filesz) ((memsz + va).toNat - (va + filesz).toNat) =
      Block.write mem (va + filesz) (memsz.toNat - filesz.toNat) fun _ => 0 := by
  have hmemsz := memsz.toNat_lt
  have hbss : (memsz + va).toNat - (va + filesz).toNat = memsz.toNat - filesz.toNat := by
    rw [toNat_end hle hfit, UInt32.toNat_add]
    omega
  rw [hbss, clearBss_eq _ _ (by omega)]

end

/-! ## Rounding down -/

theorem and_mask {x s : Nat} (hx : x < 2 ^ 32) (hs : s ≤ 32) :
    x &&& (2 ^ 32 - 2 ^ s) = x / 2 ^ s * 2 ^ s := by
  have hmask : 2 ^ 32 - 2 ^ s = (2 ^ (32 - s) - 1) * 2 ^ s := by
    rw [Nat.sub_mul, ← Nat.pow_add, Nat.sub_add_cancel hs, Nat.one_mul]
  apply Nat.eq_of_testBit_eq
  intro j
  simp only [hmask, Nat.testBit_and, Nat.testBit_mul_two_pow, Nat.testBit_two_pow_sub_one,
    Nat.testBit_div_two_pow]
  rcases Nat.lt_or_ge j s with hlow | hhigh
  · simp [Nat.not_le.2 hlow]
  · rcases Nat.lt_or_ge j 32 with hj | hj
    · simp [hhigh, Nat.sub_add_cancel hhigh, show j - s < 32 - s by omega]
    · have hzero := Nat.testBit_lt_two_pow
        (Nat.lt_of_lt_of_le hx (Nat.pow_le_pow_right (by decide) hj))
      simp [Nat.sub_add_cancel hhigh, hzero]

/-! ## Reading the headers -/

/-- Two memories hold the same `n` bytes at `a`. -/
def Agree (m m' : Memory) (a : UInt32) (n : Nat) : Prop := ∀ x, (x - a).toNat < n → m x = m' x

section
variable {m m' : Memory} {a : UInt32} {n : Nat}

theorem Agree.sub (h : Agree m m' a n) {k : UInt32} {l : Nat} (hk : k.toNat + l ≤ n)
    (hn : n ≤ 2 ^ 32) : Agree m m' (a + k) l := by
  intro x hx
  refine h x ?_
  have hsum : x - a = x - (a + k) + k := by grind
  rw [hsum, UInt32.toNat_add, Nat.mod_eq_of_lt (by omega)]
  omega

theorem Agree.load16 (h : Agree m m' a 2) : load16 m a = load16 m' a := by
  unfold SchedOS.load16
  rw [h a (by rw [UInt32.sub_self]; decide),
    h (a + 1) (by rw [UInt32.add_comm, UInt32.add_sub_cancel]; decide)]

theorem Agree.load32 (h : Agree m m' a 4) : load32 m a = load32 m' a := by
  have h0 := (h.sub (k := 0) (l := 2) (by decide) (by decide)).load16
  rw [UInt32.add_zero] at h0
  unfold SchedOS.load32
  rw [h0, (h.sub (k := 2) (l := 2) (by decide) (by decide)).load16]

theorem Agree.proghdrAt (h : Agree m m' a 32) : proghdrAt m a = proghdrAt m' a := by
  have h0 := (h.sub (k := 0) (l := 4) (by decide) (by decide)).load32
  rw [UInt32.add_zero] at h0
  unfold SchedOS.proghdrAt
  rw [h0, (h.sub (k := 4) (l := 4) (by decide) (by decide)).load32,
    (h.sub (k := 8) (l := 4) (by decide) (by decide)).load32,
    (h.sub (k := 16) (l := 4) (by decide) (by decide)).load32,
    (h.sub (k := 20) (l := 4) (by decide) (by decide)).load32]

theorem Agree.elfAt (h : Agree m m' a 52) : elfAt m a = elfAt m' a := by
  have h0 := (h.sub (k := 0) (l := 4) (by decide) (by decide)).load32
  rw [UInt32.add_zero] at h0
  unfold SchedOS.elfAt
  rw [h0, (h.sub (k := 24) (l := 4) (by decide) (by decide)).load32,
    (h.sub (k := 28) (l := 4) (by decide) (by decide)).load32,
    (h.sub (k := 44) (l := 2) (by decide) (by decide)).load16]

end

/-! ## Program headers -/

/-- The address of program header `j` of the image at `b`. -/
def phAddr (mem : Memory) (b : UInt32) (j : Nat) : UInt32 :=
  b + (elfAt mem b).ePhoff + PROGHDR_SIZE * UInt32.ofNat j

/-- Program header `j`. -/
def phdr (mem : Memory) (b : UInt32) (j : Nat) : Proghdr := proghdrAt mem (phAddr mem b j)

section
variable {mem : Memory} {b : UInt32} {j : Nat}

theorem toNat_phAddr (h : b.toNat + (elfAt mem b).ePhoff.toNat + 32 * j < 2 ^ 32) :
    (phAddr mem b j).toNat = b.toNat + (elfAt mem b).ePhoff.toNat + 32 * j := by
  unfold phAddr
  rw [UInt32.toNat_add, UInt32.toNat_add, UInt32.toNat_mul, UInt32.toNat_ofNat_of_lt' (by
    show j < 2 ^ 32
    omega), show PROGHDR_SIZE.toNat = 32 from rfl]
  omega

theorem phAddr_zero : phAddr mem b 0 = b + (elfAt mem b).ePhoff := by
  unfold phAddr
  rw [show UInt32.ofNat 0 = 0 from rfl, UInt32.mul_zero, UInt32.add_zero]

theorem phAddr_end : b + (elfAt mem b).ePhoff + PROGHDR_SIZE * (elfAt mem b).ePhnum.toUInt32 =
    phAddr mem b (elfAt mem b).ePhnum.toNat := by
  unfold phAddr
  congr 2
  exact UInt32.toNat_inj.1 (by simp)

theorem phAddr_succ : phAddr mem b j + PROGHDR_SIZE = phAddr mem b (j + 1) := by
  unfold phAddr
  rw [UInt32.ofNat_add]
  grind

theorem phAddr_lt {n : Nat} (h : b.toNat + (elfAt mem b).ePhoff.toNat + 32 * n < 2 ^ 32)
    (hj : j < n) : phAddr mem b j < phAddr mem b n := by
  rw [UInt32.lt_iff_toNat_lt, toNat_phAddr h, toNat_phAddr (by omega)]
  omega

end

end SchedOS
