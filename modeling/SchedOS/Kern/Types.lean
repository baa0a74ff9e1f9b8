import Mathlib.Logic.Function.Basic
import Mathlib.Data.Fintype.Basic
import Mathlib.Algebra.GroupWithZero.Nat

/-!
# The kernel's data

The structures of `x86.h` and `schedos-kern.h`: the saved registers (`Registers`), the process
descriptor (`Process`) and the kernel's variables (`Kernel`). A `process_t *` is always
`&proc_array[pid]`, so it is modelled by the `pid`; the `uint16_t` cells that `cursorpos` can point
at are a map by address.

Assumed: the descriptors are objects of their own, so that a store through `cursorpos` never changes
them. In memory this holds up to the kernel's first byte, `0x100000`, which `cursorpos` comes to
after 147456 `sys_print` calls.
-/

namespace SchedOS

/-- `registers_t`, in the order of the structure's members. -/
structure Registers where
  regEdi : UInt32
  regEsi : UInt32
  regEbp : UInt32
  regOriginalEsp : UInt32
  regEbx : UInt32
  regEdx : UInt32
  regEcx : UInt32
  regEax : UInt32
  regEs : UInt16
  regPadding1 : UInt16
  regDs : UInt16
  regPadding2 : UInt16
  regIntno : UInt32
  regErr : UInt32
  regEip : UInt32
  regCs : UInt16
  regPadding3 : UInt16
  regEflags : UInt32
  regEsp : UInt32
  regSs : UInt16
  regPadding4 : UInt16
deriving DecidableEq, Repr

/-- `procstate_t`. -/
inductive ProcState
  | empty
  | runnable
  | blocked
  | zombie
deriving DecidableEq, Repr

/-- `NPROCS`. Slot 0 of `proc_array` is never used. -/
abbrev NPROCS : Nat := 5

instance : NeZero NPROCS := ⟨Nat.succ_ne_zero 4⟩

/-- A `pid_t` that indexes `proc_array`. -/
abbrev Pid := Fin NPROCS

/-- `(pid + 1) % NPROCS`. -/
def next (pid : Pid) : Pid := ⟨(pid.val + 1) % NPROCS, Nat.mod_lt _ (by decide)⟩

theorem one_le_val {pid : Pid} (h : pid ≠ 0) : 1 ≤ pid.val :=
  Nat.one_le_iff_ne_zero.2 fun h0 => h (Fin.ext h0)

/-- `process_t`. -/
structure Process where
  pPid : Pid
  pRegisters : Registers
  pPriority : UInt32
  pShareAmt : UInt32
  pShareLeft : UInt32
  pLotteryAmt : UInt32
  pState : ProcState
  pExitStatus : Int32
deriving DecidableEq, Repr

abbrev ProcArray := Pid → Process

/-- `CONSOLE_BEGIN`. -/
abbrev CONSOLE_BEGIN : UInt32 := 0xB8000

/-- The number of cells of the screen, 80 columns by 25 rows. -/
abbrev CONSOLE_CELLS : Nat := 80 * 25

/-- `CONSOLE_END`, two bytes a cell. -/
abbrev CONSOLE_END : UInt32 := CONSOLE_BEGIN + 2 * (80 * 25)

/-- The kernel's variables: `proc_array`, `current` (the pid of the descriptor it points at),
`scheduling_algorithm`, `cursorpos`, `cursorposLock` and the cells `cursorpos` can point at. -/
structure Kernel where
  procArray : ProcArray
  current : Pid
  schedulingAlgorithm : Int
  cursorpos : UInt32
  cursorposLock : UInt32
  cells : UInt32 → UInt16

/-- The descriptor `*current`. -/
def Kernel.currentProc (s : Kernel) : Process := s.procArray s.current

/-- `*current` replaced by `f *current`. -/
def Kernel.modifyCurrent (s : Kernel) (f : Process → Process) : Kernel :=
  { s with procArray := Function.update s.procArray s.current (f s.currentProc) }

section
variable (s : Kernel) (f : Process → Process)

@[simp] theorem Kernel.modifyCurrent_current : (s.modifyCurrent f).current = s.current := rfl

@[simp] theorem Kernel.modifyCurrent_procArray :
    (s.modifyCurrent f).procArray =
      Function.update s.procArray s.current (f (s.procArray s.current)) := rfl

end

end SchedOS
