import SchedOS.Kern.Machine
import SchedOS.Load.Loader

/-!
# The loop of `start()` that loads the programs

For each process `start()` sets the descriptor up and calls `program_loader`, which stores the entry
point into it. `start` (`SchedOS.Kern.Machine`) takes the entry points from its `Boot`.
-/

namespace SchedOS

/-- How the loop is left: the processes are ready to run, or `loader_panic` spins. -/
inductive StartExit
  | ready (procArray : ProcArray) (mem : Memory)
  | panic (mem : Memory)

/-- The descriptor of process `i` after its pass, `program_loader` having stored `eip`. -/
def setUpProc (proc : Process) (i : Pid) (eip : UInt32) : Process :=
  { proc with
    pRegisters := { specialRegistersInit with
      regEsp := PROC1_START + i.val.toUInt32 * PROC_SIZE
      regEip := eip }
    pState := .runnable
    pShareAmt := 1
    pShareLeft := 1
    pLotteryAmt := 1 }

/-- The loop over the processes that are left, with at most `fuel` passes of each loop of
`program_loader`. -/
def startLoop (ramimages : Fin nprograms → UInt32) (fuel : Nat) :
    List Pid → ProcArray → Memory → Option StartExit
  | [], procArray, mem => some (.ready procArray mem)
  | i :: is, procArray, mem => do
    match ← programLoader ramimages fuel (i.val - 1) mem with
    | .done mem eip =>
      startLoop ramimages fuel is
        (Function.update procArray i (setUpProc (procArray i) i eip)) mem
    | .panic mem => some (.panic mem)

/-- From the empty descriptors to the call of `run`. -/
def startPrograms (ramimages : Fin nprograms → UInt32) (fuel : Nat) (mem : Memory) :
    Option StartExit :=
  startLoop ramimages fuel [1, 2, 3, 4] emptyProc mem

end SchedOS
