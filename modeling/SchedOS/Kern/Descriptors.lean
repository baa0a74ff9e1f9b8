import SchedOS.Kern.Frame
import SchedOS.Lib.BitField
import SchedOS.Load.Memory

/-!
# The descriptors in memory (`segments_init`)

The descriptors of `x86.h` bit by bit, and the memory that `segments_init` leaves (`segmentsInitMem`):
the segments, the task descriptor and the 256 gates, at the addresses that the linker gives them
(`Link`). Then what the CPU makes of it: an interrupt of an application (`deliver`), the loads of
segment registers (`loadsData`, `loadsStack`) and the way back to it (`returns`).

Assumed of the CPU: the places of the fields in a descriptor; the checks of an interrupt through a
32-bit gate to a more privileged level, and the stack it takes from the task state segment; the
checks of `mov` to a segment register and of `iret` to a less privileged level; `ltr` sets bit 1 of
the type. There is no local descriptor table, and interrupts of the kernel are not modelled.
-/

namespace SchedOS

open BitField

abbrev SEGSEL_KERN_DATA : UInt16 := 0x10
abbrev SEGSEL_TASKSTATE : UInt16 := 0x28

abbrev STA_X : Nat := 0x8
abbrev STA_W : Nat := 0x2
abbrev STA_R : Nat := 0x2
abbrev STS_T32A : Nat := 0x9
abbrev STS_IG32 : Nat := 0xE
abbrev STS_TG32 : Nat := 0xF

/-! ## Descriptors (`x86.h`) -/

/-- `gatedescriptor_t`. -/
structure GateDescriptor where
  gdOff150 : Nat
  gdSs : Nat
  gdArgs : Nat
  gdRsv1 : Nat
  gdType : Nat
  gdS : Nat
  gdDpl : Nat
  gdP : Nat
  gdOff3116 : Nat

/-- The members with their widths. -/
def GateDescriptor.fields (d : GateDescriptor) : List (Nat × Nat) :=
  [(16, d.gdOff150), (16, d.gdSs), (5, d.gdArgs), (3, d.gdRsv1), (4, d.gdType), (1, d.gdS),
    (2, d.gdDpl), (1, d.gdP), (16, d.gdOff3116)]

/-- `SETGATE`. -/
def setgate (istrap : Bool) (sel : UInt16) (off : UInt32) (dpl : Nat) : GateDescriptor where
  gdOff150 := (off &&& 0xffff).toNat
  gdSs := sel.toNat
  gdArgs := 0
  gdRsv1 := 0
  gdType := if istrap then STS_TG32 else STS_IG32
  gdS := 0
  gdDpl := dpl
  gdP := 1
  gdOff3116 := (off >>> 16).toNat

/-- `segmentdescriptor_t`. -/
structure SegmentDescriptor where
  sdLim150 : Nat
  sdBase150 : Nat
  sdBase2316 : Nat
  sdType : Nat
  sdS : Nat
  sdDpl : Nat
  sdP : Nat
  sdLim1916 : Nat
  sdAvl : Nat
  sdRsv1 : Nat
  sdDb : Nat
  sdG : Nat
  sdBase3124 : Nat

/-- The members with their widths. -/
def SegmentDescriptor.fields (d : SegmentDescriptor) : List (Nat × Nat) :=
  [(16, d.sdLim150), (16, d.sdBase150), (8, d.sdBase2316), (4, d.sdType), (1, d.sdS), (2, d.sdDpl),
    (1, d.sdP), (4, d.sdLim1916), (1, d.sdAvl), (1, d.sdRsv1), (1, d.sdDb), (1, d.sdG),
    (8, d.sdBase3124)]

/-- `SEG_NULL`. -/
def segNull : SegmentDescriptor := ⟨0, 0, 0, 0, 0, 0, 0, 0, 0, 0, 0, 0, 0⟩

/-- `SEG`. -/
def seg (type : Nat) (base lim : UInt32) (dpl : Nat) : SegmentDescriptor :=
  ⟨((lim >>> 12) &&& 0xFFFF).toNat, (base &&& 0xFFFF).toNat, ((base >>> 16) &&& 0xFF).toNat,
    type, 1, dpl, 1, ((lim >>> 28) &&& 0xF).toNat, 0, 0, 1, 1, ((base >>> 24) &&& 0xFF).toNat⟩

/-- `SEG16`. -/
def seg16 (type : Nat) (base lim : UInt32) (dpl : Nat) : SegmentDescriptor :=
  ⟨(lim &&& 0xFFFF).toNat, (base &&& 0xFFFF).toNat, ((base >>> 16) &&& 0xFF).toNat,
    type, 1, dpl, 1, ((lim >>> 16) &&& 0xF).toNat, 0, 0, 1, 0, ((base >>> 24) &&& 0xFF).toNat⟩

/-! ## The tables -/

/-- Where the linker puts `segments`, `interrupt_descriptors`, `kernel_task_descriptor` and the
handlers. -/
structure Link where
  segments : UInt32
  interruptDescriptors : UInt32
  kernelTaskDescriptor : UInt32
  handler : Handler → UInt32

/-- The initializer of `segments`. -/
def initialSegments : List SegmentDescriptor :=
  [segNull, seg (STA_X ||| STA_R) 0 0xFFFFFFFF 0, seg STA_W 0 0xFFFFFFFF 0,
    seg (STA_X ||| STA_R) 0 0xFFFFFFFF 3, seg STA_W 0 0xFFFFFFFF 3, segNull]

/-- `sizeof(taskstate_t)`. -/
abbrev TASKSTATE_SIZE : UInt32 := 104

/-- `&segments[k]`. -/
def Link.segment (l : Link) (k : Nat) : UInt32 := l.segments + 8 * UInt32.ofNat k

/-- `&interrupt_descriptors[v]`. -/
def Link.gate (l : Link) (v : Vector) : UInt32 := l.interruptDescriptors + 8 * UInt32.ofNat v.val

/-- `interrupt_descriptors[v] = d`. -/
def Link.setGate (l : Link) (mem : Memory) (v : Vector) (d : GateDescriptor) : Memory :=
  store mem (l.gate v) 8 (pack d.fields)

/-- The task state segment and the kernel's task descriptor. -/
def Link.initTask (l : Link) (mem : Memory) : Memory :=
  let d := seg16 STS_T32A l.kernelTaskDescriptor TASKSTATE_SIZE 0
  let mem := store mem (l.segment (SEGSEL_TASKSTATE >>> 3).toNat) 8 (pack { d with sdS := 0 }.fields)
  -- `ts_esp0` and `ts_ss0`
  let mem := store mem (l.kernelTaskDescriptor + 4) 4 KERNEL_STACK_TOP.toNat
  store mem (l.kernelTaskDescriptor + 8) 2 SEGSEL_KERN_DATA.toNat

/-- The loop that sets all the gates. -/
def Link.initGates (l : Link) (mem : Memory) : Memory :=
  (List.finRange 256).foldl (fun mem i =>
    l.setGate mem i (setgate false SEGSEL_KERN_CODE (l.handler .default) 0)) mem

/-- `segments_init` up to the instructions that load the tables. -/
def segmentsInitMem (l : Link) (mem : Memory) : Memory :=
  let mem := l.initGates (l.initTask mem)
  let mem := l.setGate mem INT_CLOCK (setgate false SEGSEL_KERN_CODE (l.handler .clock) 0)
  (List.finRange 10).foldl (fun mem i =>
    l.setGate mem (INT_SYS_YIELD + i.castAdd 246)
      (setgate false SEGSEL_KERN_CODE (l.handler (.sys i)) 3)) mem

/-! ## The CPU -/

/-- A gate as the CPU reads it. -/
structure CpuGate where
  offset : Nat
  selector : Nat
  type : Nat
  s : Nat
  dpl : Nat
  p : Nat
deriving DecidableEq, Repr

def decodeGate (n : Nat) : CpuGate where
  offset := bits n 0 16 + 2 ^ 16 * bits n 48 16
  selector := bits n 16 16
  type := bits n 40 4
  s := bits n 44 1
  dpl := bits n 45 2
  p := bits n 47 1

/-- A segment as the CPU reads it. -/
structure CpuSegment where
  base : Nat
  limit : Nat
  type : Nat
  s : Nat
  dpl : Nat
  p : Nat
  db : Nat
deriving DecidableEq, Repr

def decodeSegment (n : Nat) : CpuSegment where
  base := bits n 16 24 + 2 ^ 24 * bits n 56 8
  limit :=
    let limit := bits n 0 16 + 2 ^ 16 * bits n 48 4
    if bits n 55 1 = 1 then 4096 * limit + 4095 else limit
  type := bits n 40 4
  s := bits n 44 1
  dpl := bits n 45 2
  p := bits n 47 1
  db := bits n 54 1

def CpuSegment.isCode (d : CpuSegment) : Bool := d.s = 1 ∧ d.type.testBit 3

def CpuSegment.isConforming (d : CpuSegment) : Bool := d.isCode ∧ d.type.testBit 2

def CpuSegment.isReadable (d : CpuSegment) : Bool :=
  d.s = 1 ∧ (d.type.testBit 3 = false ∨ d.type.testBit 1)

def CpuSegment.isWritable (d : CpuSegment) : Bool :=
  d.s = 1 ∧ d.type.testBit 3 = false ∧ d.type.testBit 1

/-- The registers of `lgdt`, `lidt` and `ltr`. -/
structure Tables where
  gdtBase : UInt32
  gdtLimit : Nat
  idtBase : UInt32
  idtLimit : Nat
  tr : UInt16

/-- The tables that `segments_init` loads. -/
def Link.tables (l : Link) : Tables where
  gdtBase := l.segments
  gdtLimit := 8 * initialSegments.length - 1
  idtBase := l.interruptDescriptors
  idtLimit := 8 * 256 - 1
  tr := SEGSEL_TASKSTATE

section
variable (mem : Memory) (t : Tables)

/-- The descriptor that a selector is about. -/
def segmentAt (sel : UInt16) : Option CpuSegment :=
  if sel.toNat < 4 ∨ sel.toNat / 4 % 2 = 1 ∨ t.gdtLimit < 8 * (sel.toNat / 8) + 7 then none
  else some (decodeSegment (load mem (t.gdtBase + 8 * UInt32.ofNat (sel.toNat / 8)) 8))

/-- `ltr` marks the task state segment as busy. -/
def ltr : Memory :=
  let a := t.gdtBase + 8 * UInt32.ofNat (t.tr.toNat / 8)
  if (decodeSegment (load mem a 8)).type = STS_T32A then store mem a 8 (load mem a 8 + 2 ^ 41)
  else mem

/-- A selector can be loaded into `%ds` or `%es`. -/
def loadsData (cpl : Nat) (sel : UInt16) : Bool :=
  sel.toNat < 4 ||
    match segmentAt mem t sel with
    | none => false
    | some d => d.isReadable && d.p == 1 && (d.isConforming || max cpl (sel.toNat % 4) ≤ d.dpl)

/-- A selector can be loaded into `%ss`. -/
def loadsStack (cpl : Nat) (sel : UInt16) : Bool :=
  match segmentAt mem t sel with
  | none => false
  | some d => d.isWritable && d.p == 1 && sel.toNat % 4 == cpl && d.dpl == cpl

/-- Where an interrupt takes the CPU: with `%cs` and `%ss`, and `IF` cleared or not. -/
structure Entry where
  cs : Nat
  eip : Nat
  ss : UInt16
  esp : Nat
  clearsIf : Bool
deriving DecidableEq, Repr

/-- The interrupt `v` at level `cpl`, by `int` or from outside; `none` if it is a fault instead. -/
def deliver (cpl : Nat) (software : Bool) (v : Vector) : Option Entry :=
  let gate := decodeGate (load mem (t.idtBase + 8 * UInt32.ofNat v.val) 8)
  if t.idtLimit < 8 * v.val + 7 ∨ gate.s ≠ 0 ∨ ¬ (gate.type = STS_IG32 ∨ gate.type = STS_TG32) ∨
    (software ∧ gate.dpl < cpl) ∨ gate.p ≠ 1 then none
  else
    match segmentAt mem t (UInt16.ofNat gate.selector), segmentAt mem t t.tr with
    | some code, some tss =>
      if !code.isCode ∨ code.isConforming ∨ cpl ≤ code.dpl ∨ code.p ≠ 1 ∨ code.limit < gate.offset ∨
        tss.limit < 8 * code.dpl + 9 then none
      else
        let esp := load mem (UInt32.ofNat tss.base + 8 * UInt32.ofNat code.dpl + 4) 4
        let ss := UInt16.ofNat (load mem (UInt32.ofNat tss.base + 8 * UInt32.ofNat code.dpl + 8) 2)
        if loadsStack mem t code.dpl ss then
          some
            { cs := gate.selector / 4 * 4 + code.dpl, eip := gate.offset, ss, esp
              clearsIf := gate.type = STS_IG32 }
        else none
    | _, _ => none

/-- The CPU can be at `eip` in the segment `sel` at a level. -/
def runsCode (cpl : Nat) (sel : UInt16) (eip : UInt32) : Bool :=
  match segmentAt mem t sel with
  | none => false
  | some d => d.isCode && d.p == 1 && sel.toNat % 4 == cpl &&
      (if d.isConforming then d.dpl ≤ cpl else d.dpl == cpl) && eip.toNat ≤ d.limit

/-- `popl` of `%es` and `%ds` and `iret` in the kernel, to the level that `%cs` says. -/
def returns (c : Context) : Bool :=
  loadsData mem t 0 c.es && loadsData mem t 0 c.ds && loadsStack mem t (c.cs.toNat % 4) c.ss &&
    runsCode mem t (c.cs.toNat % 4) c.cs c.eip

/-- The segment registers are ones that level 3 can have. -/
structure Level3 (c : Context) : Prop where
  cs : runsCode mem t 3 c.cs c.eip = true
  ss : loadsStack mem t 3 c.ss = true
  es : loadsData mem t 3 c.es = true
  ds : loadsData mem t 3 c.ds = true

end

end SchedOS
