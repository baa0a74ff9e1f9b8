import SchedOS.Kern.Proof.Descriptors

/-!
# Level 3 and level 0

With the tables of `segments_init` the CPU has five segments (`Linked.segmentAt_eq`). An interrupt
of an application ends in the handler that `segmentsInit` gives for its vector, with the kernel's
segments, its stack and `IF` cleared, except that `int` is a fault below the level of the gate
(`Linked.deliver_eq`). What an application can have in its segment registers is loaded again without
a fault when `run` goes back to it (`Linked.returns_of_app`).
-/

namespace SchedOS

open BitField

/-- The memory when the tables have been loaded. -/
def Link.loaded (l : Link) (mem : Memory) : Memory := ltr (segmentsInitMem l mem) l.tables

/-- A segment of the whole address space. -/
def flat (type dpl : Nat) : CpuSegment := ⟨0, 0xFFFFFFFF, type, 1, dpl, 1, 1⟩

/-- The segments by index. -/
def Link.cpuSegment (l : Link) : Nat → CpuSegment
  | 1 => flat (STA_X ||| STA_R) 0
  | 2 => flat STA_W 0
  | 3 => flat (STA_X ||| STA_R) 3
  | 4 => flat STA_W 3
  | _ => ⟨l.kernelTaskDescriptor.toNat, 104, 0xB, 0, 0, 1, 1⟩

theorem decodeSegment_flat {type dpl : Nat} (htype : type < 16) (hdpl : dpl < 4) :
    decodeSegment (pack (seg type 0 0xFFFFFFFF dpl).fields) = flat type dpl :=
  decodeSegment_seg htype hdpl 0 0xFFFFFFFF

/-- A task state segment that is busy. -/
theorem pack_busy (base lim : UInt32) :
    pack { seg16 0xB base lim 0 with sdS := 0 }.fields =
      pack { seg16 STS_T32A base lim 0 with sdS := 0 }.fields + 2 ^ 41 := by
  have hchange := pack_change ({ seg16 0xB base lim 0 with sdS := 0 }.fields.take 3)
    ({ seg16 0xB base lim 0 with sdS := 0 }.fields.drop 4) 4 STS_T32A 0xB
  have hwidth : width ({ seg16 0xB base lim 0 with sdS := 0 }.fields.take 3) = 40 := rfl
  rw [hwidth] at hchange
  have hbusy : pack { seg16 0xB base lim 0 with sdS := 0 }.fields + 2 ^ 40 * 9 =
    pack { seg16 STS_T32A base lim 0 with sdS := 0 }.fields + 2 ^ 40 * 11 := hchange
  omega

section
variable {l : Link} {mem : Memory} (h : Linked l mem)
include h

/-- `ltr` changes the last descriptor. -/
theorem Linked.loaded_eq : l.loaded mem = store (segmentsInitMem l mem) (l.segment 5) 8
    (pack { seg16 0xB l.kernelTaskDescriptor TASKSTATE_SIZE 0 with sdS := 0 }.fields) := by
  obtain ⟨-, htask, -, -⟩ := h.init_rest
  have hindex : l.tables.tr.toNat / 8 = 5 := by
    show SEGSEL_TASKSTATE.toNat / 8 = 5
    decide
  have haddr : l.tables.gdtBase + 8 * UInt32.ofNat 5 = l.segment 5 := rfl
  have htype : (decodeSegment (pack
      { seg16 STS_T32A l.kernelTaskDescriptor TASKSTATE_SIZE 0 with sdS := 0 }.fields)).type =
        STS_T32A := by
    rw [decodeSegment_seg16 (by decide) (by decide)]
  unfold Link.loaded ltr
  dsimp only
  rw [hindex, haddr, htask, if_pos htype, pack_busy]

theorem Linked.loaded_other {a : UInt32} {k : Nat} (hk : a.toNat + k ≤ 2 ^ 32)
    (ha : a.toNat + k ≤ (l.segment 5).toNat ∨ (l.segment 5).toNat + 8 ≤ a.toNat) :
    load (l.loaded mem) a k = load (segmentsInitMem l mem) a k := by
  have hfit := h.segmentsFit
  have hlast := h.toNat_segment (k := 5) (by decide)
  rw [h.loaded_eq]
  exact load_store_of_le hk (by omega) ha

theorem Linked.loaded_gate (w : Vector) :
    load (l.loaded mem) (l.gate w) 8 = pack (l.gateOf (segmentsInit w)).fields := by
  have hgates := h.segmentsGates
  have hfit := h.gatesFit
  have hgate := h.toNat_gate w
  have hlast := h.toNat_segment (k := 5) (by decide)
  have hw := w.isLt
  rw [h.loaded_other (by omega) (by omega), h.init_gate]

theorem Linked.loaded_segment {k : Nat} (h1 : 1 ≤ k) (hk : k < 6) :
    decodeSegment (load (l.loaded mem) (l.segment k) 8) = l.cpuSegment k := by
  obtain ⟨hsegments, -, -, -⟩ := h.init_rest
  have hfit := h.segmentsFit
  have hseg := h.toNat_segment hk
  have hlast := h.toNat_segment (k := 5) (by decide)
  rcases Nat.lt_succ_iff_lt_or_eq.1 hk with hlt | rfl
  · rw [h.loaded_other (by omega) (by omega), hsegments k hlt]
    match k, h1, hlt with
    | 1, _, _ => exact decodeSegment_flat (by decide) (by decide)
    | 2, _, _ => exact decodeSegment_flat (by decide) (by decide)
    | 3, _, _ => exact decodeSegment_flat (by decide) (by decide)
    | 4, _, _ => exact decodeSegment_flat (by decide) (by decide)
  · have hpack := pack_lt
      { seg16 0xB l.kernelTaskDescriptor TASKSTATE_SIZE 0 with sdS := 0 }.fields
    rw [h.loaded_eq, load_store _ _ (by decide)]
    refine (congrArg decodeSegment (Nat.mod_eq_of_lt hpack)).trans ?_
    exact decodeSegment_seg16 (by decide) (by decide) l.kernelTaskDescriptor TASKSTATE_SIZE

/-- The selectors of the five segments, at any level. -/
theorem Linked.segmentAt_eq (sel : UInt16) : segmentAt (l.loaded mem) l.tables sel =
    if sel.toNat < 4 ∨ sel.toNat / 4 % 2 = 1 ∨ 6 ≤ sel.toNat / 8 then none
    else some (l.cpuSegment (sel.toNat / 8)) := by
  have hlimit : l.tables.gdtLimit = 47 := rfl
  unfold segmentAt
  rw [hlimit]
  by_cases hnone : sel.toNat < 4 ∨ sel.toNat / 4 % 2 = 1 ∨ 6 ≤ sel.toNat / 8
  · rw [if_pos hnone, if_pos (by omega)]
  · rw [if_neg hnone, if_neg (by omega)]
    exact congrArg some (h.loaded_segment (k := sel.toNat / 8) (by omega) (by omega))

theorem Linked.loaded_task :
    load (l.loaded mem) (l.kernelTaskDescriptor + 4) 4 = KERNEL_STACK_TOP.toNat ∧
    load (l.loaded mem) (l.kernelTaskDescriptor + 8) 2 = SEGSEL_KERN_DATA.toNat := by
  obtain ⟨-, -, hesp, hss⟩ := h.init_rest
  have htask := h.segmentsTask
  have hfits := h.taskFits
  have hlast := h.toNat_segment (k := 5) (by decide)
  have h4 : (l.kernelTaskDescriptor + 4).toNat = l.kernelTaskDescriptor.toNat + 4 :=
    h.toNat_task (by decide)
  have h8 : (l.kernelTaskDescriptor + 8).toNat = l.kernelTaskDescriptor.toNat + 8 :=
    h.toNat_task (by decide)
  rw [h.loaded_other (by omega) (by omega), h.loaded_other (by omega) (by omega)]
  exact ⟨hesp, hss⟩

/-! ## Loading segment registers -/

/-- What the checks ask of the five segments. -/
structure CpuSegment.Has (d : CpuSegment) (k : Nat) : Prop where
  readable : d.isReadable = decide (k ≠ 5)
  writable : d.isWritable = decide (k = 2 ∨ k = 4)
  code : d.isCode = decide (k = 1 ∨ k = 3)
  conforming : d.isConforming = false
  p : d.p = 1
  dpl : d.dpl = if k = 3 ∨ k = 4 then 3 else 0

omit h in
theorem flat_has : (flat (STA_X ||| STA_R) 0).Has 1 ∧ (flat STA_W 0).Has 2 ∧
    (flat (STA_X ||| STA_R) 3).Has 3 ∧ (flat STA_W 3).Has 4 := by
  refine ⟨?_, ?_, ?_, ?_⟩ <;> constructor <;> decide

omit h in
theorem Link.cpuSegment_has (l : Link) {k : Nat} (h1 : 1 ≤ k) (hk : k < 6) :
    (l.cpuSegment k).Has k := by
  match k, h1, hk with
  | 1, _, _ => exact flat_has.1
  | 2, _, _ => exact flat_has.2.1
  | 3, _, _ => exact flat_has.2.2.1
  | 4, _, _ => exact flat_has.2.2.2
  | 5, _, _ => exact ⟨rfl, rfl, rfl, rfl, rfl, rfl⟩

/-- A selector is about one of the five segments, or about none. -/
theorem Linked.segmentAt_cases (sel : UInt16) :
    ((sel.toNat < 4 ∨ sel.toNat / 4 % 2 = 1 ∨ 6 ≤ sel.toNat / 8) ∧
      segmentAt (l.loaded mem) l.tables sel = none) ∨
    ∃ k d, sel.toNat / 4 = 2 * k ∧ 1 ≤ k ∧ k < 6 ∧ d = l.cpuSegment k ∧ d.Has k ∧
      segmentAt (l.loaded mem) l.tables sel = some d := by
  rw [h.segmentAt_eq]
  by_cases hnone : sel.toNat < 4 ∨ sel.toNat / 4 % 2 = 1 ∨ 6 ≤ sel.toNat / 8
  · exact .inl ⟨hnone, if_pos hnone⟩
  · exact .inr ⟨sel.toNat / 8, _, by omega, by omega, by omega, rfl,
      l.cpuSegment_has (by omega) (by omega), if_neg hnone⟩

/-- The selectors that data can be read through at level 3, all of which can be loaded at level 0. -/
theorem Linked.loadsData_iff (sel : UInt16) :
    (loadsData (l.loaded mem) l.tables 3 sel = true ↔
      sel.toNat / 4 = 0 ∨ sel.toNat / 4 = 6 ∨ sel.toNat / 4 = 8) ∧
    (loadsData (l.loaded mem) l.tables 3 sel = true →
      loadsData (l.loaded mem) l.tables 0 sel = true) := by
  unfold loadsData
  rcases h.segmentAt_cases sel with ⟨hnone, hseg⟩ | ⟨k, d, hk, h1, h6, -, hd, hseg⟩
  · rw [hseg]
    simp
    omega
  · rw [hseg]
    simp only [hd.readable, hd.conforming, hd.p, hd.dpl, Bool.or_eq_true, Bool.and_eq_true,
      decide_eq_true_eq, beq_iff_eq, Bool.false_or, Nat.max_le, and_true]
    split <;> refine ⟨⟨fun hl => ?_, fun hl => ?_⟩, fun hl => ?_⟩ <;> omega

/-- The selectors of a stack. -/
theorem Linked.loadsStack_iff (cpl : Nat) (sel : UInt16) :
    loadsStack (l.loaded mem) l.tables cpl sel = true ↔
      (cpl = 0 ∧ sel.toNat = 0x10) ∨ (cpl = 3 ∧ sel.toNat = 0x23) := by
  unfold loadsStack
  rcases h.segmentAt_cases sel with ⟨hnone, hseg⟩ | ⟨k, d, hk, h1, h6, -, hd, hseg⟩
  · rw [hseg]
    simp
    omega
  · rw [hseg]
    simp only [hd.writable, hd.p, hd.dpl, Bool.and_eq_true, decide_eq_true_eq, beq_iff_eq,
      and_true]
    split <;> refine ⟨fun hl => ?_, fun hl => ?_⟩ <;> omega

/-! ## Interrupts -/

omit h in
/-- All the gates are interrupt gates into the kernel's code. -/
theorem segmentsInit_gate : ∀ v : Vector,
    (segmentsInit v).istrap = false ∧ (segmentsInit v).sel = SEGSEL_KERN_CODE := by
  decide +kernel

theorem Linked.decodeGate_loaded (v : Vector) : decodeGate (load (l.loaded mem) (l.gate v) 8) =
    ⟨(l.handler (segmentsInit v).off).toNat, 8, STS_IG32, 0, (segmentsInit v).dpl.val, 1⟩ := by
  obtain ⟨htrap, hsel⟩ := segmentsInit_gate v
  rw [h.loaded_gate]
  unfold Link.gateOf
  rw [decodeGate_setgate _ _ _ (segmentsInit v).dpl.isLt, htrap, hsel]
  rfl

/-- An interrupt at level 3. -/
theorem Linked.deliver_eq (software : Bool) (v : Vector) :
    deliver (l.loaded mem) l.tables 3 software v =
      if software ∧ (segmentsInit v).dpl.val < 3 then none
      else some ⟨8, (l.handler (segmentsInit v).off).toNat, SEGSEL_KERN_DATA,
        KERNEL_STACK_TOP.toNat, true⟩ := by
  have hcode : segmentAt (l.loaded mem) l.tables (UInt16.ofNat 8) =
      some (flat (STA_X ||| STA_R) 0) := h.segmentAt_eq 8
  have htss : segmentAt (l.loaded mem) l.tables l.tables.tr =
      some ⟨l.kernelTaskDescriptor.toNat, 104, 0xB, 0, 0, 1, 1⟩ := h.segmentAt_eq 0x28
  obtain ⟨hesp, hss⟩ := h.loaded_task
  have hgate : l.tables.idtBase + 8 * UInt32.ofNat v.val = l.gate v := rfl
  have hlimit : l.tables.idtLimit = 2047 := rfl
  have hv := v.isLt
  have hoff := (l.handler (segmentsInit v).off).toNat_lt
  have hstack : loadsStack (l.loaded mem) l.tables 0 0x10 = true :=
    (h.loadsStack_iff 0 0x10).2 (.inl ⟨rfl, rfl⟩)
  obtain ⟨hflat, -⟩ := flat_has
  have hdpl : (flat (STA_X ||| STA_R) 0).dpl = 0 := rfl
  have hreach : (flat (STA_X ||| STA_R) 0).limit = 2 ^ 32 - 1 := rfl
  have hesp' : UInt32.ofNat l.kernelTaskDescriptor.toNat + 8 * UInt32.ofNat 0 + 4 =
      l.kernelTaskDescriptor + 4 := by
    rw [UInt32.ofNat_toNat]
    exact congrArg (· + 4) (UInt32.add_zero _)
  have hss' : UInt32.ofNat l.kernelTaskDescriptor.toNat + 8 * UInt32.ofNat 0 + 8 =
      l.kernelTaskDescriptor + 8 := by
    rw [UInt32.ofNat_toNat]
    exact congrArg (· + 8) (UInt32.add_zero _)
  have hsel : UInt16.ofNat SEGSEL_KERN_DATA.toNat = 0x10 := rfl
  unfold deliver
  dsimp only
  rw [hgate, hlimit, h.decodeGate_loaded]
  dsimp only
  by_cases hfault : software ∧ (segmentsInit v).dpl.val < 3
  · rw [if_pos hfault, if_pos (by tauto)]
  · rw [if_neg hfault, if_neg (by
      rintro (h1 | h1 | h1 | h1 | h1)
      · omega
      · exact h1 rfl
      · exact h1 (.inl rfl)
      · exact hfault h1
      · exact h1 rfl), hcode, htss]
    dsimp only
    rw [hdpl, if_neg (by
      rw [hflat.code, hflat.conforming, hflat.p, hreach]
      rintro (h1 | h1 | h1 | h1 | h1 | h1)
      · cases h1
      · cases h1
      · omega
      · exact h1 rfl
      · omega
      · omega), hesp', hss', hesp, hss, hsel, if_pos hstack]
    rfl

/-! ## Going back -/

theorem Linked.runsCode_iff (sel : UInt16) (eip : UInt32) :
    runsCode (l.loaded mem) l.tables 3 sel eip = true ↔ sel.toNat = 0x1B := by
  have heip := eip.toNat_lt
  unfold runsCode
  rcases h.segmentAt_cases sel with ⟨hnone, hseg⟩ | ⟨k, d, hk, h1, h6, hd, hhas, hseg⟩
  · rw [hseg]
    simp
    omega
  · rw [hseg]
    dsimp only
    by_cases hcode : k = 1 ∨ k = 3
    · have hlimit : d.limit = 2 ^ 32 - 1 := by
        rw [hd]
        rcases hcode with rfl | rfl <;> rfl
      have hin : decide (eip.toNat ≤ d.limit) = true := decide_eq_true (by omega)
      rw [hhas.code, hhas.conforming, hhas.p, hhas.dpl, hin]
      simp
      omega
    · rw [hhas.code, decide_eq_false hcode]
      simp
      omega

/-- The segment registers of level 3. -/
theorem Linked.level3_iff (c : Context) : Level3 (l.loaded mem) l.tables c ↔
    c.cs.toNat = 0x1B ∧ c.ss.toNat = 0x23 ∧
      (c.es.toNat / 4 = 0 ∨ c.es.toNat / 4 = 6 ∨ c.es.toNat / 4 = 8) ∧
      (c.ds.toNat / 4 = 0 ∨ c.ds.toNat / 4 = 6 ∨ c.ds.toNat / 4 = 8) := by
  have hcs := h.runsCode_iff c.cs c.eip
  have hss := h.loadsStack_iff 3 c.ss
  have hes := (h.loadsData_iff c.es).1
  have hds := (h.loadsData_iff c.ds).1
  constructor
  · intro h3
    have hstack := hss.1 h3.ss
    exact ⟨hcs.1 h3.cs, by omega, hes.1 h3.es, hds.1 h3.ds⟩
  · rintro ⟨h1, h2, h3, h4⟩
    exact ⟨hcs.2 h1, hss.2 (.inr ⟨rfl, h2⟩), hes.2 h3, hds.2 h4⟩

/-- The kernel can go back to whatever level 3 had. -/
theorem Linked.returns_of_level3 {c : Context} (h3 : Level3 (l.loaded mem) l.tables c) :
    returns (l.loaded mem) l.tables c = true := by
  obtain ⟨hcs, -, -, -⟩ := (h.level3_iff c).1 h3
  have hes := (h.loadsData_iff c.es).2 h3.es
  have hds := (h.loadsData_iff c.ds).2 h3.ds
  unfold returns
  rw [hes, hds, hcs, h3.ss, h3.cs]
  rfl

/-- The segments of level 3 are flat. -/
theorem Linked.flat_of_level3 {c : Context} (h3 : Level3 (l.loaded mem) l.tables c) {sel : UInt16}
    (hsel : sel ∈ [c.cs, c.ss, c.es, c.ds]) :
    sel.toNat < 4 ∨ ∃ type, segmentAt (l.loaded mem) l.tables sel = some (flat type 3) := by
  obtain ⟨hcs, hss, hes, hds⟩ := (h.level3_iff c).1 h3
  have hcases : sel.toNat / 4 = 0 ∨ sel.toNat / 4 = 6 ∨ sel.toNat / 4 = 8 := by
    simp only [List.mem_cons, List.not_mem_nil, or_false] at hsel
    rcases hsel with rfl | rfl | rfl | rfl
    · omega
    · omega
    · exact hes
    · exact hds
  rw [h.segmentAt_eq]
  rcases hcases with h0 | h6 | h8
  · exact .inl (by omega)
  · have hindex : sel.toNat / 8 = 3 := by omega
    rw [if_neg (by omega), hindex]
    exact .inr ⟨_, rfl⟩
  · have hindex : sel.toNat / 8 = 4 := by omega
    rw [if_neg (by omega), hindex]
    exact .inr ⟨_, rfl⟩

/-- The processes begin at level 3. -/
theorem Linked.startContext_level3 (boot : Boot) (p : Pid) :
    Level3 (l.loaded mem) l.tables (startContext boot p) := by
  have hcs : (startContext boot p).cs = SEGSEL_APP_CODE ||| 3 := rfl
  have hss : (startContext boot p).ss = SEGSEL_APP_DATA ||| 3 := rfl
  have hes : (startContext boot p).es = SEGSEL_APP_DATA ||| 3 := rfl
  have hds : (startContext boot p).ds = SEGSEL_APP_DATA ||| 3 := rfl
  rw [h.level3_iff, hcs, hss, hes, hds]
  decide

section
variable {alg : Int} {boot : Boot} (r : Run alg boot)
  (hev : ∀ i, i < r.len → Level3 (l.loaded mem) l.tables (r.event i).cpu)
include hev

theorem Linked.lastContext_level3 (p : Pid) {i : Nat} (hi : i ≤ r.len) :
    Level3 (l.loaded mem) l.tables (r.lastContext p i) := by
  induction i with
  | zero => exact h.startContext_level3 boot p
  | succ i ih =>
    rw [Run.lastContext]
    split
    · exact hev i hi
    · exact ih (Nat.le_of_lt hi)

end

end

/-- **How an application gets into the kernel**: with the tables in memory as `segments_init` leaves
them, an interrupt from outside takes the CPU from level 3 to the handler of its vector, and so does
`int` for the vectors 48 to 57 alone: with the kernel's code and stack segments, the stack of the
task descriptor, and interrupts off. -/
theorem interrupt_enters {l : Link} {mem : Memory} (h : Linked l mem) (v : Vector) :
    deliver (l.loaded mem) l.tables 3 false v =
      some ⟨8, (l.handler (segmentsInit v).off).toNat, SEGSEL_KERN_DATA, KERNEL_STACK_TOP.toNat, true⟩ ∧
    deliver (l.loaded mem) l.tables 3 true v = if 48 ≤ v.val ∧ v.val ≤ 57 then
      some ⟨8, (l.handler (segmentsInit v).off).toNat, SEGSEL_KERN_DATA, KERNEL_STACK_TOP.toNat, true⟩
    else none := by
  have hdpl := dpl_eq_three_iff v
  have hlt := (segmentsInit v).dpl.isLt
  refine ⟨(h.deliver_eq false v).trans (if_neg fun hf => Bool.false_ne_true hf.1), ?_⟩
  rw [h.deliver_eq]
  by_cases hin : 48 ≤ v.val ∧ v.val ≤ 57
  · rw [if_pos hin, if_neg]
    rw [hdpl.2 hin]
    exact fun hf => absurd hf.2 (by decide)
  · rw [if_neg hin, if_pos]
    refine ⟨rfl, ?_⟩
    have hne : (segmentsInit v).dpl.val ≠ 3 := fun he => hin (hdpl.1 (Fin.ext he))
    omega

/-- **No application can make `run` fault**: as long as the applications have in their segment
registers what level 3 can have, every context that `run` restores passes the checks of the CPU, and
its segments are the whole address space. -/
theorem run_returns {l : Link} {mem : Memory} (h : Linked l mem) {alg : Int} {boot : Boot}
    (r : Run alg boot) (hev : ∀ i, i < r.len → Level3 (l.loaded mem) l.tables (r.event i).cpu) :
    ∀ i, i ≤ r.len → ∀ s c, r.state i = .user s c → returns (l.loaded mem) l.tables c = true ∧
      ∀ sel ∈ [c.cs, c.ss, c.es, c.ds],
        sel.toNat < 4 ∨ ∃ type, segmentAt (l.loaded mem) l.tables sel = some (flat type 3) := by
  intro i hi s c hs
  have h3 : Level3 (l.loaded mem) l.tables c := by
    rw [r.cpu_last hi hs]
    exact h.lastContext_level3 r hev s.current hi
  exact ⟨h.returns_of_level3 h3, fun sel hsel => h.flat_of_level3 h3 hsel⟩

/-! ## Tables one after the other -/

/-- The handlers are where they are, and the tables are a page from each other. -/
def pageLink : Link where
  segments := 0x1000
  interruptDescriptors := 0x2000
  kernelTaskDescriptor := 0x3000
  handler
    | .clock => 0x100100
    | .sys i => 0x100200 + 16 * UInt32.ofNat i.val
    | .default => 0x100300

/-- Memory with the initialized segments. -/
def pageMem : Memory := fun x =>
  UInt8.ofNat (bits (pack (initialSegments.getD ((x.toNat - 0x1000) / 8) segNull).fields)
    (8 * ((x.toNat - 0x1000) % 8)) 8)

theorem page_linked : Linked pageLink pageMem := by
  have hsegments : ∀ k, k < 6 → load pageMem (pageLink.segment k) 8 =
      pack (initialSegments.getD k segNull).fields := by decide +kernel
  constructor
  · exact hsegments
  all_goals decide

/-- `int $48` and `int $32` of an application. -/
theorem page_enters :
    deliver (pageLink.loaded pageMem) pageLink.tables 3 true 48 =
      some ⟨8, 0x100200, SEGSEL_KERN_DATA, 0x180000, true⟩ ∧
    deliver (pageLink.loaded pageMem) pageLink.tables 3 true 32 = none := by
  have hyield := (interrupt_enters page_linked 48).2
  have hclock := (interrupt_enters page_linked 32).2
  have hoff : (pageLink.handler (segmentsInit 48).off).toNat = 0x100200 := by decide +kernel
  rw [hoff] at hyield
  exact ⟨hyield, hclock⟩

/-- A process yields with its code segment in `%ds`. -/
theorem page_returns : ∃ r : Run 0 .zero, r.len = 1 ∧ (r.event 0).cpu.ds = 0x1B ∧
    ∀ s c, r.state 1 = .user s c → returns (pageLink.loaded pageMem) pageLink.tables c = true := by
  obtain ⟨e, he⟩ : ∃ e : Event, e.cpu = { startContext .zero 1 with ds := 0x1B } :=
    ⟨⟨.sysYield, _, fun _ => 0⟩, rfl⟩
  obtain ⟨m, hstep⟩ := Step.exists_of_running (m := (noInterrupt 0 .zero).state 0) rfl e
  have hlast := (noInterrupt 0 .zero).snoc_event_last hstep
  have hev : ∀ i, i < (Exec.snoc (noInterrupt 0 .zero) hstep).len →
      Level3 (pageLink.loaded pageMem) pageLink.tables
        ((Exec.snoc (noInterrupt 0 .zero) hstep).event i).cpu := by
    intro i hi
    obtain rfl : i = 0 := Nat.lt_one_iff.1 hi
    have hcpu := congrArg Event.cpu hlast
    rw [he] at hcpu
    have h3 : Level3 (pageLink.loaded pageMem) pageLink.tables
        { startContext .zero 1 with ds := 0x1B } :=
      (page_linked.level3_iff _).2 ⟨rfl, rfl, .inr (.inr rfl), .inr (.inl rfl)⟩
    exact hcpu ▸ h3
  refine ⟨Exec.snoc (noInterrupt 0 .zero) hstep, rfl, ?_, fun s c hs => ?_⟩
  · exact (congrArg (fun e : Event => e.cpu.ds) hlast).trans (by rw [he])
  · exact (run_returns page_linked (Exec.snoc (noInterrupt 0 .zero) hstep) hev 1 (Nat.le_refl 1) s c
      hs).1

end SchedOS
