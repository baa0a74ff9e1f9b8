import SchedOS.Kern.Descriptors
import SchedOS.Kern.Proof.Context
import SchedOS.Kern.Proof.Gates

/-!
# What the CPU finds in the tables

A descriptor is read as it was written (`decodeGate_setgate`, `decodeSegment_seg`), and the stores of
`segments_init` leave the gates of `segmentsInit`, the initialized segments and the task descriptor
(`Linked.init_gate`, `Linked.init_segment`).
-/

namespace SchedOS

open BitField

/-! ## Descriptors -/

theorem decodeGate_fields (d : GateDescriptor) : decodeGate (pack d.fields) =
    ⟨d.gdOff150 % 2 ^ 16 + 2 ^ 16 * (d.gdOff3116 % 2 ^ 16), d.gdSs % 2 ^ 16, d.gdType % 2 ^ 4,
      d.gdS % 2 ^ 1, d.gdDpl % 2 ^ 2, d.gdP % 2 ^ 1⟩ := by
  have hlow : bits (pack d.fields) 0 16 = d.gdOff150 % 2 ^ 16 := bits_pack [] _ _ _
  have hss : bits (pack d.fields) 16 16 = d.gdSs % 2 ^ 16 := bits_pack (d.fields.take 1) _ _ _
  have htype : bits (pack d.fields) 40 4 = d.gdType % 2 ^ 4 := bits_pack (d.fields.take 4) _ _ _
  have hs : bits (pack d.fields) 44 1 = d.gdS % 2 ^ 1 := bits_pack (d.fields.take 5) _ _ _
  have hdpl : bits (pack d.fields) 45 2 = d.gdDpl % 2 ^ 2 := bits_pack (d.fields.take 6) _ _ _
  have hp : bits (pack d.fields) 47 1 = d.gdP % 2 ^ 1 := bits_pack (d.fields.take 7) _ _ _
  have hhigh : bits (pack d.fields) 48 16 = d.gdOff3116 % 2 ^ 16 :=
    bits_pack (d.fields.take 8) _ _ _
  unfold decodeGate
  rw [hlow, hss, htype, hs, hdpl, hp, hhigh]

theorem decodeSegment_fields (d : SegmentDescriptor) : decodeSegment (pack d.fields) =
    ⟨d.sdBase150 % 2 ^ 16 + 2 ^ 16 * (d.sdBase2316 % 2 ^ 8) + 2 ^ 24 * (d.sdBase3124 % 2 ^ 8),
      if d.sdG % 2 ^ 1 = 1 then 4096 * (d.sdLim150 % 2 ^ 16 + 2 ^ 16 * (d.sdLim1916 % 2 ^ 4)) + 4095
        else d.sdLim150 % 2 ^ 16 + 2 ^ 16 * (d.sdLim1916 % 2 ^ 4),
      d.sdType % 2 ^ 4, d.sdS % 2 ^ 1, d.sdDpl % 2 ^ 2, d.sdP % 2 ^ 1, d.sdDb % 2 ^ 1⟩ := by
  have hlim : bits (pack d.fields) 0 16 = d.sdLim150 % 2 ^ 16 := bits_pack [] _ _ _
  have hbase : bits (pack d.fields) 16 16 = d.sdBase150 % 2 ^ 16 :=
    bits_pack (d.fields.take 1) _ _ _
  have hmid : bits (pack d.fields) 32 8 = d.sdBase2316 % 2 ^ 8 := bits_pack (d.fields.take 2) _ _ _
  have htype : bits (pack d.fields) 40 4 = d.sdType % 2 ^ 4 := bits_pack (d.fields.take 3) _ _ _
  have hs : bits (pack d.fields) 44 1 = d.sdS % 2 ^ 1 := bits_pack (d.fields.take 4) _ _ _
  have hdpl : bits (pack d.fields) 45 2 = d.sdDpl % 2 ^ 2 := bits_pack (d.fields.take 5) _ _ _
  have hp : bits (pack d.fields) 47 1 = d.sdP % 2 ^ 1 := bits_pack (d.fields.take 6) _ _ _
  have hlim' : bits (pack d.fields) 48 4 = d.sdLim1916 % 2 ^ 4 := bits_pack (d.fields.take 7) _ _ _
  have hdb : bits (pack d.fields) 54 1 = d.sdDb % 2 ^ 1 := bits_pack (d.fields.take 10) _ _ _
  have hg : bits (pack d.fields) 55 1 = d.sdG % 2 ^ 1 := bits_pack (d.fields.take 11) _ _ _
  have hhigh : bits (pack d.fields) 56 8 = d.sdBase3124 % 2 ^ 8 :=
    bits_pack (d.fields.take 12) _ _ _
  have hsplit : bits (pack d.fields) 16 24 = _ := bits_add _ 16 16 8
  unfold decodeSegment
  rw [hsplit, hlim, hbase, hmid, htype, hs, hdpl, hp, hlim', hdb, hg, hhigh]

/-- A mask of the lowest bits. -/
theorem toNat_and_mask (x m : UInt32) {w : Nat} (hm : m.toNat = 2 ^ w - 1) :
    (x &&& m).toNat = x.toNat % 2 ^ w := by
  rw [UInt32.toNat_and, hm, Nat.and_two_pow_sub_one_eq_mod]

theorem toNat_shiftRight (x s : UInt32) {k : Nat} (hs : s.toNat = k) (hk : k < 32) :
    (x >>> s).toNat = x.toNat / 2 ^ k := by
  rw [UInt32.toNat_shiftRight, hs, Nat.mod_eq_of_lt hk, Nat.shiftRight_eq_div_pow]

/-- A gate is read as it was set. -/
theorem decodeGate_setgate (istrap : Bool) (sel : UInt16) (off : UInt32) {dpl : Nat}
    (hdpl : dpl < 4) :
    decodeGate (pack (setgate istrap sel off dpl).fields) =
      ⟨off.toNat, sel.toNat, if istrap then STS_TG32 else STS_IG32, 0, dpl, 1⟩ := by
  have hoff := off.toNat_lt
  have hlow := toNat_and_mask off 0xffff (w := 16) rfl
  have hhigh := toNat_shiftRight off 16 (k := 16) rfl (by decide)
  have hsel : sel.toNat % 2 ^ 16 = sel.toNat := Nat.mod_eq_of_lt sel.toNat_lt
  have hdpl' : dpl % 2 ^ 2 = dpl := Nat.mod_eq_of_lt hdpl
  have htype : (if istrap then STS_TG32 else STS_IG32) % 2 ^ 4 =
      if istrap then STS_TG32 else STS_IG32 := by
    cases istrap <;> rfl
  rw [decodeGate_fields]
  unfold setgate
  dsimp only
  rw [hlow, hhigh, hsel, hdpl', htype]
  congr 1
  omega

theorem base_bytes (base : UInt32) :
    (base &&& 0xFFFF).toNat % 2 ^ 16 + 2 ^ 16 * (((base >>> 16) &&& 0xFF).toNat % 2 ^ 8) +
      2 ^ 24 * (((base >>> 24) &&& 0xFF).toNat % 2 ^ 8) = base.toNat := by
  have hbase := base.toNat_lt
  rw [toNat_and_mask base 0xFFFF (w := 16) rfl, toNat_and_mask _ 0xFF (w := 8) rfl,
    toNat_and_mask _ 0xFF (w := 8) rfl, toNat_shiftRight base 16 (k := 16) rfl (by decide),
    toNat_shiftRight base 24 (k := 24) rfl (by decide)]
  omega

/-- A segment is read as it was set, its limit up to the end of a page. -/
theorem decodeSegment_seg {type dpl : Nat} (htype : type < 16) (hdpl : dpl < 4)
    (base lim : UInt32) :
    decodeSegment (pack (seg type base lim dpl).fields) =
      ⟨base.toNat, lim.toNat / 4096 * 4096 + 4095, type, 1, dpl, 1, 1⟩ := by
  have hlim := lim.toNat_lt
  have hdpl' : dpl % 2 ^ 2 = dpl := Nat.mod_eq_of_lt hdpl
  have htype' : type % 2 ^ 4 = type := Nat.mod_eq_of_lt htype
  rw [decodeSegment_fields]
  unfold seg
  dsimp only
  rw [base_bytes, hdpl', htype', toNat_and_mask _ 0xFFFF (w := 16) rfl,
    toNat_and_mask _ 0xF (w := 4) rfl, toNat_shiftRight lim 12 (k := 12) rfl (by decide),
    toNat_shiftRight lim 28 (k := 28) rfl (by decide), if_pos (by decide)]
  congr 1
  omega

theorem decodeSegment_seg16 {type dpl : Nat} (htype : type < 16) (hdpl : dpl < 4)
    (base lim : UInt32) :
    decodeSegment (pack { seg16 type base lim dpl with sdS := 0 }.fields) =
      ⟨base.toNat, lim.toNat % 2 ^ 20, type, 0, dpl, 1, 1⟩ := by
  have hdpl' : dpl % 2 ^ 2 = dpl := Nat.mod_eq_of_lt hdpl
  have htype' : type % 2 ^ 4 = type := Nat.mod_eq_of_lt htype
  rw [decodeSegment_fields]
  unfold seg16
  dsimp only
  rw [base_bytes, hdpl', htype', toNat_and_mask _ 0xFFFF (w := 16) rfl,
    toNat_and_mask _ 0xF (w := 4) rfl, toNat_shiftRight lim 16 (k := 16) rfl (by decide),
    if_neg (by decide)]
  congr 1
  omega

/-! ## The memory of the tables -/

/-- The tables are apart, and `segments` is initialized. -/
structure Linked (l : Link) (mem : Memory) : Prop where
  segments : ∀ k, k < 6 → load mem (l.segment k) 8 = pack (initialSegments.getD k segNull).fields
  segmentsFit : l.segments.toNat + 48 ≤ 2 ^ 32
  gatesFit : l.interruptDescriptors.toNat + 2048 ≤ 2 ^ 32
  taskFits : l.kernelTaskDescriptor.toNat + 104 ≤ 2 ^ 32
  segmentsGates : l.segments.toNat + 48 ≤ l.interruptDescriptors.toNat ∨
    l.interruptDescriptors.toNat + 2048 ≤ l.segments.toNat
  segmentsTask : l.segments.toNat + 48 ≤ l.kernelTaskDescriptor.toNat ∨
    l.kernelTaskDescriptor.toNat + 104 ≤ l.segments.toNat
  gatesTask : l.interruptDescriptors.toNat + 2048 ≤ l.kernelTaskDescriptor.toNat ∨
    l.kernelTaskDescriptor.toNat + 104 ≤ l.interruptDescriptors.toNat

/-- The descriptor of a gate. -/
def Link.gateOf (l : Link) (g : Gate) : GateDescriptor :=
  setgate g.istrap g.sel (l.handler g.off) g.dpl.val

section
variable {l : Link} {mem m : Memory} (h : Linked l mem)
include h

theorem Linked.toNat_segment {k : Nat} (hk : k < 6) :
    (l.segment k).toNat = l.segments.toNat + 8 * k := by
  have hfit := h.segmentsFit
  have height : (8 : UInt32).toNat = 8 := rfl
  unfold Link.segment
  rw [UInt32.toNat_add, UInt32.toNat_mul, UInt32.toNat_ofNat', height]
  omega

theorem Linked.toNat_gate (v : Vector) :
    (l.gate v).toNat = l.interruptDescriptors.toNat + 8 * v.val := by
  have hfit := h.gatesFit
  have hv := v.isLt
  have height : (8 : UInt32).toNat = 8 := rfl
  unfold Link.gate
  rw [UInt32.toNat_add, UInt32.toNat_mul, UInt32.toNat_ofNat', height]
  omega

/-! ### Gates -/

theorem Linked.load_setGate (m : Memory) (v w : Vector) (d : GateDescriptor) :
    load (l.setGate m v d) (l.gate w) 8 = if v = w then pack d.fields else load m (l.gate w) 8 := by
  have hv := h.toNat_gate v
  have hw := h.toNat_gate w
  have hfit := h.gatesFit
  have hvlt := v.isLt
  have hwlt := w.isLt
  unfold Link.setGate
  split
  · rename_i he
    rw [he, load_store _ _ (by decide)]
    exact Nat.mod_eq_of_lt (pack_lt d.fields)
  · rename_i hne
    have hval : v.val ≠ w.val := fun he => hne (Fin.ext he)
    exact load_store_of_le (by omega) (by omega) (by omega)

/-- The gates do not reach other memory. -/
theorem Linked.load_setGate_other (m : Memory) (v : Vector) (d : GateDescriptor) {a : UInt32}
    {k : Nat} (hk : a.toNat + k ≤ 2 ^ 32) (ha : a.toNat + k ≤ l.interruptDescriptors.toNat ∨
      l.interruptDescriptors.toNat + 2048 ≤ a.toNat) : load (l.setGate m v d) a k = load m a k := by
  have hv := h.toNat_gate v
  have hfit := h.gatesFit
  have hvlt := v.isLt
  exact load_store_of_le hk (by omega) (by omega)

variable {ι : Type}

theorem Linked.load_setGates_other (is : List ι) (v : ι → Vector) (d : ι → GateDescriptor)
    {a : UInt32} {k : Nat} (hk : a.toNat + k ≤ 2 ^ 32)
    (ha : a.toNat + k ≤ l.interruptDescriptors.toNat ∨
      l.interruptDescriptors.toNat + 2048 ≤ a.toNat) :
    load (is.foldl (fun m i => l.setGate m (v i) (d i)) m) a k = load m a k := by
  induction is generalizing m with
  | nil => rfl
  | cons i is ih => rw [List.foldl_cons, ih, h.load_setGate_other m _ _ hk ha]

/-- Setting gates in memory and in the table. -/
theorem Linked.load_setGates (is : List ι) (v : ι → Vector) (g : ι → Gate) {idt : Vector → Gate}
    (hm : ∀ w, load m (l.gate w) 8 = pack (l.gateOf (idt w)).fields) (w : Vector) :
    load (is.foldl (fun m i => l.setGate m (v i) (l.gateOf (g i))) m) (l.gate w) 8 =
      pack (l.gateOf (is.foldl (fun idt i => Function.update idt (v i) (g i)) idt w)).fields := by
  induction is generalizing m idt with
  | nil => exact hm w
  | cons i is ih =>
    have hnext : ∀ w, load (l.setGate m (v i) (l.gateOf (g i))) (l.gate w) 8 =
        pack (l.gateOf (Function.update idt (v i) (g i) w)).fields := by
      intro w
      rw [h.load_setGate]
      split
      · rename_i he
        rw [← he, Function.update_self]
      · rename_i hne
        rw [Function.update_of_ne (Ne.symm hne), hm w]
    exact ih hnext

theorem Linked.load_setAll (is : List Vector) (d : GateDescriptor) (w : Vector)
    (hw : w ∈ is ∨ load m (l.gate w) 8 = pack d.fields) :
    load (is.foldl (fun m i => l.setGate m i d) m) (l.gate w) 8 = pack d.fields := by
  induction is generalizing m with
  | nil => exact hw.resolve_left List.not_mem_nil
  | cons i is ih =>
    refine ih ?_
    rw [h.load_setGate]
    by_cases he : i = w
    · exact .inr (if_pos he)
    · rw [if_neg he]
      rcases hw with hmem | hm
      · exact .inl ((List.mem_cons.1 hmem).resolve_left (Ne.symm he))
      · exact .inr hm

/-- The gates are those of `segmentsInit`. -/
theorem Linked.init_gate (m : Memory) (w : Vector) :
    load (segmentsInitMem l m) (l.gate w) 8 = pack (l.gateOf (segmentsInit w)).fields := by
  have hdefault : ∀ w, load (l.initGates (l.initTask m)) (l.gate w) 8 =
      pack (l.gateOf ⟨false, SEGSEL_KERN_CODE, .default, 0⟩).fields :=
    fun w => h.load_setAll _ _ w (.inl (List.mem_finRange w))
  have hclock : ∀ w, load (l.setGate (l.initGates (l.initTask m)) INT_CLOCK
      (l.gateOf ⟨false, SEGSEL_KERN_CODE, .clock, 0⟩)) (l.gate w) 8 =
        pack (l.gateOf (Function.update (fun _ => Gate.mk false SEGSEL_KERN_CODE .default 0) INT_CLOCK
          (Gate.mk false SEGSEL_KERN_CODE .clock 0) w)).fields := by
    intro w
    rw [h.load_setGate, Function.update_apply]
    by_cases he : INT_CLOCK = w
    · rw [if_pos he, if_pos he.symm]
    · rw [if_neg he, if_neg (Ne.symm he)]
      exact hdefault w
  have hsys := h.load_setGates (List.finRange 10)
    (fun i => INT_SYS_YIELD + i.castAdd 246) (fun i => ⟨false, SEGSEL_KERN_CODE, .sys i, 3⟩)
      hclock w
  unfold segmentsInitMem segmentsInit
  exact hsys

/-! ### Segments -/

/-- Setting the gates leaves the rest of memory alone. -/
theorem Linked.init_other (m : Memory) {a : UInt32} {k : Nat} (hk : a.toNat + k ≤ 2 ^ 32)
    (ha : a.toNat + k ≤ l.interruptDescriptors.toNat ∨
      l.interruptDescriptors.toNat + 2048 ≤ a.toNat) :
    load (segmentsInitMem l m) a k = load (l.initTask m) a k := by
  unfold segmentsInitMem
  rw [h.load_setGates_other _ _ _ hk ha, h.load_setGate_other _ _ _ hk ha]
  exact h.load_setGates_other (List.finRange 256) id _ hk ha

theorem Linked.toNat_task {k : UInt32} (hk : k.toNat < 104) :
    (l.kernelTaskDescriptor + k).toNat = l.kernelTaskDescriptor.toNat + k.toNat := by
  have hfits := h.taskFits
  rw [UInt32.toNat_add]
  omega

/-- The segments and the task descriptor that `segments_init` leaves. -/
theorem Linked.init_rest :
    (∀ k, k < 5 → load (segmentsInitMem l mem) (l.segment k) 8 =
      pack (initialSegments.getD k segNull).fields) ∧
    load (segmentsInitMem l mem) (l.segment 5) 8 =
      pack { seg16 STS_T32A l.kernelTaskDescriptor TASKSTATE_SIZE 0 with sdS := 0 }.fields ∧
    load (segmentsInitMem l mem) (l.kernelTaskDescriptor + 4) 4 = KERNEL_STACK_TOP.toNat ∧
    load (segmentsInitMem l mem) (l.kernelTaskDescriptor + 8) 2 = SEGSEL_KERN_DATA.toNat := by
  have hfit := h.segmentsFit
  have hgates := h.segmentsGates
  have htask := h.segmentsTask
  have hgatesTask := h.gatesTask
  have hfits := h.taskFits
  have hlast := h.toNat_segment (k := 5) (by decide)
  have h4 : (l.kernelTaskDescriptor + 4).toNat = l.kernelTaskDescriptor.toNat + 4 :=
    h.toNat_task (by decide)
  have h8 : (l.kernelTaskDescriptor + 8).toNat = l.kernelTaskDescriptor.toNat + 8 :=
    h.toNat_task (by decide)
  have hindex : (SEGSEL_TASKSTATE >>> 3).toNat = 5 := by decide
  have hpack := pack_lt
    { seg16 STS_T32A l.kernelTaskDescriptor TASKSTATE_SIZE 0 with sdS := 0 }.fields
  refine ⟨fun k hk => ?_, ?_, ?_, ?_⟩
  · have hseg := h.toNat_segment (k := k) (by omega)
    rw [h.init_other mem (by omega) (by omega), ← h.segments k (by omega)]
    unfold Link.initTask
    dsimp only
    rw [hindex, load_store_of_le (by omega) (by omega) (by omega),
      load_store_of_le (by omega) (by omega) (by omega),
      load_store_of_le (by omega) (by omega) (by omega)]
  · rw [h.init_other mem (by omega) (by omega)]
    unfold Link.initTask
    dsimp only
    rw [hindex, load_store_of_le (by omega) (by omega) (by omega),
      load_store_of_le (by omega) (by omega) (by omega), load_store _ _ (by decide)]
    exact Nat.mod_eq_of_lt hpack
  · rw [h.init_other mem (by omega) (by omega)]
    unfold Link.initTask
    dsimp only
    rw [load_store_of_le (by omega) (by omega) (by omega), load_store _ _ (by decide)]
    rfl
  · rw [h.init_other mem (by omega) (by omega)]
    unfold Link.initTask
    dsimp only
    rw [load_store _ _ (by decide)]
    rfl

end

end SchedOS
