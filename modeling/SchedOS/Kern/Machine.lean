import SchedOS.Kern.Frame
import SchedOS.Kern.Schedule
import SchedOS.Lib.Exec

/-!
# The kernel as a state machine

`start()` (`start`), the interrupt handler (`interrupt`) and the runs of the machine. Between two
interrupts the machine is with an application (`Machine.user`): what the application does to its
registers is left open, so the next `Event` carries any `Context`. `Step` is one interrupt: either
`interrupt` ends in `run`, or it spins and nothing happens any more (`Machine.stuck`), since no
interrupt is taken in the kernel.
-/

namespace SchedOS

/-! ## `start` -/

abbrev PROC1_START : UInt32 := 0x200000
abbrev PROC_SIZE : UInt32 := 0x100000
abbrev EFLAGS_IF : UInt32 := 0x200

/-- `registers_t` set to zero. -/
def Registers.zero : Registers := .ofWords []

/-- `special_registers_init`. -/
def specialRegistersInit : Registers :=
  { Registers.zero with
    regCs := SEGSEL_APP_CODE ||| 3
    regDs := SEGSEL_APP_DATA ||| 3
    regEs := SEGSEL_APP_DATA ||| 3
    regSs := SEGSEL_APP_DATA ||| 3
    regEflags := EFLAGS_IF }

/-- The descriptor of an empty slot. -/
def emptyProc (i : Pid) : Process where
  pPid := i
  pRegisters := .zero
  pPriority := 0
  pShareAmt := 0
  pShareLeft := 0
  pLotteryAmt := 0
  pState := .empty
  pExitStatus := 0

/-- What is there before `start()`: the entry points that `program_loader` stores and the cells of
memory. -/
structure Boot where
  entryPoint : Nat → UInt32
  cells : UInt32 → UInt16

/-- Memory set to zero. -/
def Boot.zero : Boot := ⟨fun _ => 0, fun _ => 0⟩

/-- The descriptor of application `i`, loaded as program `i - 1`. -/
def startProc (boot : Boot) (i : Pid) : Process :=
  { emptyProc i with
    pRegisters := { specialRegistersInit with
      regEsp := PROC1_START + i.val.toUInt32 * PROC_SIZE
      regEip := boot.entryPoint (i.val - 1) }
    pState := .runnable
    pShareAmt := 1
    pShareLeft := 1
    pLotteryAmt := 1 }

/-- The address of cell `k` of the console. -/
def cell (k : Nat) : UInt32 := CONSOLE_BEGIN + 2 * k.toUInt32

/-- `' ' | 0x0700`. -/
abbrev BLANK : UInt16 := 0x20 ||| 0x0700

/-- `console_clear`. -/
def consoleClear (cells : UInt32 → UInt16) : UInt32 → UInt16 :=
  (List.range CONSOLE_CELLS).foldl (fun cells i => Function.update cells (cell i) BLANK) cells

/-- The machine: an application has the CPU (`user`), or the kernel never leaves `interrupt`
(`stuck`, with the state in which it called `schedule()`). -/
inductive Machine
  | user (kern : Kernel) (cpu : Context)
  | stuck (kern : Kernel)

def Machine.kern : Machine → Kernel
  | .user s _ => s
  | .stuck s => s

@[simp] theorem Machine.kern_user (s : Kernel) (c : Context) : (Machine.user s c).kern = s := rfl
@[simp] theorem Machine.kern_stuck (s : Kernel) : (Machine.stuck s).kern = s := rfl

/-- The process that has the CPU. -/
def Machine.running : Machine → Option Pid
  | .user s _ => some s.current
  | .stuck _ => none

theorem Machine.current_of_running {m : Machine} {k : Pid} (h : m.running = some k) :
    m.kern.current = k := by
  cases m <;> cases h
  rfl

/-- `run(&proc_array[proc])`. -/
def run (s : Kernel) (proc : Pid) : Machine :=
  .user { s with current := proc } (loadContext (s.procArray proc).pRegisters.words)

/-- The kernel's variables when `start()` calls `run`. -/
def startKernel (schedulingAlgorithm : Int) (boot : Boot) : Kernel where
  procArray := fun i => if 1 ≤ i.val then startProc boot i else emptyProc i
  current := 0
  schedulingAlgorithm := schedulingAlgorithm
  cursorpos := CONSOLE_BEGIN
  cursorposLock := 0
  cells := consoleClear boot.cells

/-- `start()`, for any value of `scheduling_algorithm`. -/
def start (schedulingAlgorithm : Int) (boot : Boot) : Machine :=
  run (startKernel schedulingAlgorithm boot) 1

/-! ## `interrupt` -/

/-- `current->p_registers = *reg`. -/
def saveRegisters (reg : Registers) (s : Kernel) : Kernel :=
  s.modifyCurrent fun p => { p with pRegisters := reg }

def caseSysExit (reg : Registers) (s : Kernel) : Kernel :=
  s.modifyCurrent fun p => { p with pState := .zombie, pExitStatus := reg.regEax.toInt32 }

def caseSysPriority (reg : Registers) (s : Kernel) : Kernel :=
  s.modifyCurrent fun p => { p with pPriority := reg.regEax }

def caseSysShare (reg : Registers) (s : Kernel) : Kernel :=
  s.modifyCurrent fun p => { p with pShareAmt := reg.regEax, pShareLeft := reg.regEax }

def caseSysLottery (reg : Registers) (s : Kernel) : Kernel :=
  s.modifyCurrent fun p => { p with pLotteryAmt := reg.regEax }

/-- `*cursorpos++ = reg->reg_eax`. -/
def caseSysPrint (reg : Registers) (s : Kernel) : Kernel :=
  { s with
    cells := Function.update s.cells s.cursorpos reg.regEax.toUInt16
    cursorpos := s.cursorpos + 2 }

/-- The word that a handler pushes for its vector. -/
def intno (v : Vector) : UInt32 := v.val.toUInt32

/-- The `switch` of `interrupt`: the state in which the case of `reg->reg_intno` calls `schedule()`,
which does not return. The default case spins (`none`). -/
def interruptCase (reg : Registers) (s : Kernel) : Option Kernel :=
  let s := saveRegisters reg s
  if reg.regIntno = intno INT_SYS_YIELD then some s
  else if reg.regIntno = intno INT_SYS_EXIT then some (caseSysExit reg s)
  else if reg.regIntno = intno INT_SYS_PRIORITY then some (caseSysPriority reg s)
  else if reg.regIntno = intno INT_SYS_SHARE then some (caseSysShare reg s)
  else if reg.regIntno = intno INT_SYS_LOTTERY then some (caseSysLottery reg s)
  else if reg.regIntno = intno INT_SYS_PRINT then some (caseSysPrint reg s)
  else if reg.regIntno = intno INT_CLOCK then some s
  else none

/-- `interrupt(reg)`: the machine after `run`, if that is reached within `fuel` passes of the
scheduler's loop. -/
def interrupt (tsc : Nat → UInt64) (fuel : Nat) (reg : Registers) (s : Kernel) : Option Machine :=
  match interruptCase reg s with
  | none => none
  | some s =>
    match schedule tsc fuel s with
    | some (.run procArray proc) => some (run { s with procArray } proc)
    | _ => none

/-! ## Runs -/

/-- The interrupts an application or the clock can cause. -/
inductive Trap
  | clock
  | sysYield
  | sysExit
  | sysPriority
  | sysShare
  | sysLottery
  | sysPrint
deriving DecidableEq, Repr

def Trap.vector : Trap → Vector
  | .clock => INT_CLOCK
  | .sysYield => INT_SYS_YIELD
  | .sysExit => INT_SYS_EXIT
  | .sysPriority => INT_SYS_PRIORITY
  | .sysShare => INT_SYS_SHARE
  | .sysLottery => INT_SYS_LOTTERY
  | .sysPrint => INT_SYS_PRINT

/-- An interrupt: what causes it, the registers of the application at that moment and the values of
the cycle counter that the scheduler will read. -/
structure Event where
  trap : Trap
  cpu : Context
  tsc : Nat → UInt64

/-- The system call `trap` with that argument. -/
def Event.ofCall (trap : Trap) (eax : UInt32) : Event where
  trap := trap
  cpu := { loadContext Registers.zero.words with eax }
  tsc := fun _ => 0

/-- The frame that is passed to `interrupt`. -/
def Event.registers (e : Event) : Registers := interruptFrame e.trap.vector 0 [] e.cpu

/-- The state in which the interrupt `e` calls `schedule()`. -/
def Event.call (e : Event) (s : Kernel) : Kernel := (interruptCase e.registers s).getD s

/-- One interrupt. -/
inductive Step : Machine → Event → Machine → Prop
  | dispatch {s : Kernel} {c : Context} {e : Event} {fuel : Nat} {m : Machine} :
      interrupt e.tsc fuel e.registers s = some m → Step (.user s c) e m
  | spin {s : Kernel} {c : Context} {e : Event} :
      (∀ fuel, interrupt e.tsc fuel e.registers s = none) → Step (.user s c) e (.stuck (e.call s))

/-- A run of the machine under one scheduling algorithm, from `start()`. -/
abbrev Run (schedulingAlgorithm : Int) (boot : Boot) :=
  Exec Step (· = start schedulingAlgorithm boot)

/-- Before any interrupt. -/
def noInterrupt (alg : Int) (boot : Boot) : Run alg boot where
  len := 0
  state _ := start alg boot
  event _ := .ofCall .sysYield 0
  start := rfl
  steps i hi := absurd hi (Nat.not_lt_zero i)

section
variable {alg : Int} {boot : Boot} (r : Run alg boot) (i : Nat)

/-- The kernel's variables before interrupt `i`. -/
def Run.kern : Kernel := (r.state i).kern

/-- The kernel's variables when interrupt `i` calls `schedule()`. -/
def Run.call : Kernel := (r.event i).call (r.kern i)

/-- The process that `schedule()` runs at the end of interrupt `i`, if it runs one. -/
def Run.dispatched : Option Pid := (r.state (i + 1)).running

theorem Run.current_of_dispatched {k : Pid} (h : r.dispatched i = some k) :
    (r.kern (i + 1)).current = k := Machine.current_of_running h

end

end SchedOS
