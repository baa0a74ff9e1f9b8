import SchedOS.Kern.Types
import SchedOS.Lib.Loop

/-!
# The scheduler (`schedule`)

The five algorithms of `schedule()`. Each is a loop without a bound (`Loop.run`) whose pass calls
`run(&proc_array[pid])`, which does not return, or goes on; the `for` loops inside a pass count down
the iterations that are left. `Sched` is how `schedule()` is left.
-/

namespace SchedOS

/-- `proc_array[pid].p_state == P_RUNNABLE`. -/
def Runnable (procArray : ProcArray) (pid : Pid) : Prop := (procArray pid).pState = .runnable

instance (procArray : ProcArray) (pid : Pid) : Decidable (Runnable procArray pid) :=
  inferInstanceAs (Decidable (_ = _))

/-- How `schedule()` is left: the call `run(&proc_array[pid])` with the descriptors at that moment,
the divide error of `seed % lotteryTotal`, or the end of the function. -/
inductive Sched
  | run (procArray : ProcArray) (pid : Pid)
  | divideError
  | unknown

/-! ## Algorithm 0 -/

def roundRobinPass (procArray : ProcArray) (pid : Pid) : Pid ⊕ Pid :=
  let pid := next pid
  if Runnable procArray pid then .inr pid else .inl pid

/-! ## Algorithm 2 (`__EXERCISE_2__`) -/

def strictPass (procArray : ProcArray) (pid : Pid) : Pid ⊕ Pid :=
  if Runnable procArray pid then .inr pid else .inl (next pid)

/-! ## Algorithm 41 (`__EXERCISE_4A__`) -/

/-- The locals of a scan: `pid`, `firstPid` and `firstPriority`. -/
structure Scan where
  pid : Pid
  firstPid : Pid
  firstPriority : UInt32

/-- The `for` loop, with that many iterations left. -/
def priorityScan (procArray : ProcArray) : Nat → Scan → Scan
  | 0, st => st
  | i + 1, st =>
    let pid := next st.pid
    if Runnable procArray pid ∧ (procArray pid).pPriority ≤ st.firstPriority then
      priorityScan procArray i ⟨pid, pid, (procArray pid).pPriority⟩
    else
      priorityScan procArray i { st with pid }

/-- A pass of the `do`-`while` loop. It leaves `pid` where the scan stopped. -/
def priorityPass (procArray : ProcArray) (pid : Pid) : Pid ⊕ Pid :=
  let st := priorityScan procArray (NPROCS - 1) ⟨pid, pid, (procArray pid).pPriority⟩
  if Runnable procArray st.firstPid then .inr st.firstPid else .inl st.pid

/-! ## Algorithm 42 (`__EXERCISE_4B__`) -/

/-- Runnable with share left. -/
def HasShare (procArray : ProcArray) (pid : Pid) : Prop :=
  Runnable procArray pid ∧ 0 < (procArray pid).pShareLeft

instance (procArray : ProcArray) (pid : Pid) : Decidable (HasShare procArray pid) :=
  inferInstanceAs (Decidable (_ ∧ _))

/-- The first `for` loop: stop at the first process with share left. -/
def shareFind (procArray : ProcArray) : Nat → Pid → Pid
  | 0, pid => pid
  | i + 1, pid =>
    let pid := next pid
    if HasShare procArray pid then pid else shareFind procArray i pid

/-- The second `for` loop: look for a larger `p_share_amt`. -/
def shareScan (procArray : ProcArray) : Nat → Scan → Scan
  | 0, st => st
  | i + 1, st =>
    let pid := next st.pid
    if HasShare procArray pid ∧ st.firstPriority < (procArray pid).pShareAmt then
      shareScan procArray i ⟨pid, pid, (procArray pid).pShareAmt⟩
    else
      shareScan procArray i { st with pid }

/-- `proc_array[pid].p_share_left--`. -/
def takeShare (procArray : ProcArray) (pid : Pid) : ProcArray :=
  Function.update procArray pid
    { procArray pid with pShareLeft := (procArray pid).pShareLeft - 1 }

/-- `proc_array[i].p_share_left = proc_array[i].p_share_amt` for every `i` from 1. -/
def resetShares (procArray : ProcArray) : ProcArray := fun i =>
  if 1 ≤ i.val then { procArray i with pShareLeft := (procArray i).pShareAmt } else procArray i

/-- A pass of `while (1)`: it runs a process or resets every `p_share_left`. -/
def sharePass (st : ProcArray × Pid) : (ProcArray × Pid) ⊕ (ProcArray × Pid) :=
  let procArray := st.1
  let pid := shareFind procArray (NPROCS - 1) st.2
  if HasShare procArray pid then
    let sc := shareScan procArray (NPROCS - 1) ⟨pid, pid, (procArray pid).pShareAmt⟩
    .inr (takeShare procArray sc.firstPid, sc.firstPid)
  else
    .inl (resetShares procArray, pid)

/-! ## Algorithm 7 (`__EXERCISE_7__`) -/

/-- The sum of `p_lottery_amt` over `proc_array`, in 32 bits. -/
def lotteryTotal (procArray : ProcArray) : UInt32 :=
  (List.finRange NPROCS).foldl (fun total i => total + (procArray i).pLotteryAmt) 0

/-- The four steps on `seed`; C shifts before it masks. -/
def scramble (seed : UInt32) : UInt32 :=
  let seed := seed ^^^ (seed >>> 11 &&& 0x9908b0df)
  let seed := seed ^^^ (seed <<< 7 &&& 0xffffffff)
  let seed := seed ^^^ (seed <<< 15 &&& 0x9d2c5680)
  seed ^^^ (seed >>> 18 &&& 0xefc60000)

/-- The chain of tests on `lotteryNum`; `none` goes on to another draw. -/
def lotteryChoice (procArray : ProcArray) (lotteryNum : UInt32) : Option Pid :=
  let procLottery := fun i => (procArray i).pLotteryAmt
  if lotteryNum < procLottery 1 ∧ Runnable procArray 1 then some 1
  else if lotteryNum < procLottery 1 + procLottery 2 ∧ Runnable procArray 2 then some 2
  else if lotteryNum < procLottery 1 + procLottery 2 + procLottery 3 ∧ Runnable procArray 3 then
    some 3
  else if Runnable procArray 4 then some 4
  else none

/-- A pass of `while (1)`, the `n`-th reading of the cycle counter being `tsc n`. -/
def lotteryPass (procArray : ProcArray) (tsc : Nat → UInt64) (n : Nat) : Nat ⊕ Sched :=
  let seed := scramble (tsc n).toUInt32
  if lotteryTotal procArray = 0 then .inr .divideError
  else
    match lotteryChoice procArray (seed % lotteryTotal procArray) with
    | some pid => .inr (.run procArray pid)
    | none => .inl (n + 1)

/-! ## `schedule` -/

/-- `schedule()` with at most `fuel` passes of its loop and the cycle counter `tsc`. -/
def schedule (tsc : Nat → UInt64) (fuel : Nat) (s : Kernel) : Option Sched :=
  let pid := s.currentProc.pPid
  if s.schedulingAlgorithm = 0 then
    (Loop.run (roundRobinPass s.procArray) fuel pid).map (.run s.procArray)
  else if s.schedulingAlgorithm = 2 then
    (Loop.run (strictPass s.procArray) fuel 1).map (.run s.procArray)
  else if s.schedulingAlgorithm = 41 then
    (Loop.run (priorityPass s.procArray) fuel pid).map (.run s.procArray)
  else if s.schedulingAlgorithm = 42 then
    if HasShare s.procArray pid then
      some (.run (takeShare s.procArray pid) pid)
    else
      (Loop.run sharePass fuel (s.procArray, pid)).map fun r => .run r.1 r.2
  else if s.schedulingAlgorithm = 7 then
    Loop.run (lotteryPass s.procArray tsc) fuel 0
  else
    some .unknown

end SchedOS
