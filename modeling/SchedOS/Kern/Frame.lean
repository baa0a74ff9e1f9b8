import SchedOS.Kern.Types

/-!
# Entering and leaving the kernel

An interrupt from an application: the CPU switches to the kernel stack and pushes the task status
(`cpuInterrupt`), the gate's handler pushes the rest of a `registers_t` (`Handler.enter`,
`genericIntHandler`, `schedos-int.S`) and passes its address to `interrupt` (`interruptFrame`).
`loadContext` is the way back, the instructions of `run` (`schedos-x86.c`). The gates are those of
`segments_init`.

Assumed of the CPU: the order in which `int`, `pushal`, `popal` and `iret` push and pop, that
`pushl` of a segment register zero-extends it, and the error code of exceptions 8, 10-14 and 17.
Assumed of the compiler: the copy of `*reg` in `interrupt` does not depend on the direction flag,
which is the application's, since no handler executes `cld`.
-/

namespace SchedOS

/-- What an application can see of the CPU: the registers an interrupt saves. -/
structure Context where
  edi : UInt32
  esi : UInt32
  ebp : UInt32
  ebx : UInt32
  edx : UInt32
  ecx : UInt32
  eax : UInt32
  es : UInt16
  ds : UInt16
  eip : UInt32
  cs : UInt16
  eflags : UInt32
  esp : UInt32
  ss : UInt16
deriving DecidableEq, Repr

/-- `KERNEL_STACK_TOP`, the `ts_esp0` of the kernel's task descriptor. -/
abbrev KERNEL_STACK_TOP : UInt32 := 0x180000

/-- The kernel stack: the stack pointer and the words of memory from there up. -/
structure KernelStack where
  esp : UInt32
  words : List UInt32

def KernelStack.pushl (k : KernelStack) (w : UInt32) : KernelStack :=
  { esp := k.esp - 4, words := w :: k.words }

/-! ## Segments and gates (`segments_init`) -/

abbrev SEGSEL_KERN_CODE : UInt16 := 0x8
abbrev SEGSEL_APP_CODE : UInt16 := 0x18
abbrev SEGSEL_APP_DATA : UInt16 := 0x20

/-- An interrupt vector. -/
abbrev Vector := Fin 256

abbrev INT_CLOCK : Vector := 32
abbrev INT_SYS_YIELD : Vector := 48
abbrev INT_SYS_EXIT : Vector := 49
abbrev INT_SYS_PRIORITY : Vector := 50
abbrev INT_SYS_SHARE : Vector := 51
abbrev INT_SYS_LOTTERY : Vector := 52
abbrev INT_SYS_PRINT : Vector := 53

/-- The handlers of `schedos-int.S`: `clock_int_handler`, the ten of `sys_int_handlers` and
`default_int_handler`. -/
inductive Handler
  | clock
  | sys (i : Fin 10)
  | default
deriving DecidableEq, Repr

/-- A gate of the interrupt descriptor table, by the arguments of `SETGATE`. -/
structure Gate where
  istrap : Bool
  sel : UInt16
  off : Handler
  dpl : Fin 4
deriving DecidableEq, Repr

/-- The interrupt descriptor table that `segments_init` fills. -/
def segmentsInit : Vector → Gate :=
  let idt : Vector → Gate := fun _ => ⟨false, SEGSEL_KERN_CODE, .default, 0⟩
  let idt := Function.update idt INT_CLOCK ⟨false, SEGSEL_KERN_CODE, .clock, 0⟩
  (List.finRange 10).foldl
    (fun idt i => Function.update idt (INT_SYS_YIELD + i.castLE (by decide))
      ⟨false, SEGSEL_KERN_CODE, .sys i, 3⟩) idt

/-! ## Into the kernel -/

/-- The exceptions for which the CPU pushes an error code. -/
def hasErrorCode (v : Vector) : Bool := v == 8 || (10 ≤ v && v ≤ 14) || v == 17

/-- An interrupt from level 3: the stack of the task descriptor, over the words `above`. -/
def cpuInterrupt (v : Vector) (err : UInt32) (above : List UInt32) (c : Context) : KernelStack :=
  let k : KernelStack := { esp := KERNEL_STACK_TOP, words := above }
  let k := k.pushl c.ss.toUInt32
  let k := k.pushl c.esp
  let k := k.pushl c.eflags
  let k := k.pushl c.cs.toUInt32
  let k := k.pushl c.eip
  if hasErrorCode v then k.pushl err else k

/-- What a handler pushes before it jumps to `_generic_int_handler`. -/
def Handler.enter : Handler → KernelStack → KernelStack
  | .clock, k => (k.pushl 0).pushl 32
  | .sys i, k => (k.pushl 0).pushl (48 + i.val.toUInt32)
  | .default, k => k.pushl 0

def pushal (c : Context) (k : KernelStack) : KernelStack :=
  let originalEsp := k.esp
  let k := k.pushl c.eax
  let k := k.pushl c.ecx
  let k := k.pushl c.edx
  let k := k.pushl c.ebx
  let k := k.pushl originalEsp
  let k := k.pushl c.ebp
  let k := k.pushl c.esi
  k.pushl c.edi

/-- `_generic_int_handler` up to `pushl %esp`. -/
def genericIntHandler (c : Context) (k : KernelStack) : KernelStack :=
  let k := k.pushl c.ds.toUInt32
  let k := k.pushl c.es.toUInt32
  pushal c k

/-- The kernel stack when `interrupt` is called: its `esp` is the argument. -/
def enterKernel (v : Vector) (err : UInt32) (above : List UInt32) (c : Context) : KernelStack :=
  genericIntHandler c ((segmentsInit v).off.enter (cpuInterrupt v err above c))

/-- The `registers_t` at an address, from the words there. The first member of two that share a
word is its low half. -/
def Registers.ofWords (ws : List UInt32) : Registers where
  regEdi := ws.getD 0 0
  regEsi := ws.getD 1 0
  regEbp := ws.getD 2 0
  regOriginalEsp := ws.getD 3 0
  regEbx := ws.getD 4 0
  regEdx := ws.getD 5 0
  regEcx := ws.getD 6 0
  regEax := ws.getD 7 0
  regEs := (ws.getD 8 0).toUInt16
  regPadding1 := (ws.getD 8 0 >>> 16).toUInt16
  regDs := (ws.getD 9 0).toUInt16
  regPadding2 := (ws.getD 9 0 >>> 16).toUInt16
  regIntno := ws.getD 10 0
  regErr := ws.getD 11 0
  regEip := ws.getD 12 0
  regCs := (ws.getD 13 0).toUInt16
  regPadding3 := (ws.getD 13 0 >>> 16).toUInt16
  regEflags := ws.getD 14 0
  regEsp := ws.getD 15 0
  regSs := (ws.getD 16 0).toUInt16
  regPadding4 := (ws.getD 16 0 >>> 16).toUInt16

/-- `*reg` for the frame of an interrupt on vector `v`. -/
def interruptFrame (v : Vector) (err : UInt32) (above : List UInt32) (c : Context) : Registers :=
  .ofWords (enterKernel v err above c).words

/-! ## Back to the application -/

/-- The word of a 16-bit member and the padding after it. -/
def halves (lo hi : UInt16) : UInt32 := lo.toUInt32 ||| hi.toUInt32 <<< 16

/-- The words of a `registers_t` in memory. -/
def Registers.words (r : Registers) : List UInt32 :=
  [r.regEdi, r.regEsi, r.regEbp, r.regOriginalEsp, r.regEbx, r.regEdx, r.regEcx, r.regEax,
    halves r.regEs r.regPadding1, halves r.regDs r.regPadding2, r.regIntno, r.regErr, r.regEip,
    halves r.regCs r.regPadding3, r.regEflags, r.regEsp, halves r.regSs r.regPadding4]

/-- `popl`: the word at `%esp` and the words above it. -/
def popl : List UInt32 → UInt32 × List UInt32
  | [] => (0, [])
  | w :: ws => (w, ws)

/-- The instructions of `run`: `popal`, `popl %es`, `popl %ds`, `addl $8, %esp` and `iret` with the
words of `p_registers` at `%esp`. -/
def loadContext (ws : List UInt32) : Context :=
  let (edi, ws) := popl ws
  let (esi, ws) := popl ws
  let (ebp, ws) := popl ws
  -- `popal` skips the `%esp` that `pushal` pushed
  let (_, ws) := popl ws
  let (ebx, ws) := popl ws
  let (edx, ws) := popl ws
  let (ecx, ws) := popl ws
  let (eax, ws) := popl ws
  let (es, ws) := popl ws
  let (ds, ws) := popl ws
  let ws := ws.drop 2
  let (eip, ws) := popl ws
  let (cs, ws) := popl ws
  let (eflags, ws) := popl ws
  let (esp, ws) := popl ws
  let (ss, _) := popl ws
  { edi, esi, ebp, ebx, edx, ecx, eax, es := es.toUInt16, ds := ds.toUInt16, eip
    cs := cs.toUInt16, eflags, esp, ss := ss.toUInt16 }

end SchedOS
