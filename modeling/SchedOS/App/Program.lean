import SchedOS.Kern.Proof.Context

/-!
# The applications (`schedos-1.c` to `schedos-4.c`)

`start()` of the four applications, which differ in `PRINTCHAR` alone, compiled with
`__EXERCISE_8__`: `App.step` is one statement. Whether the local state is in registers or on the
stack is up to the compiler: `view p c mem` is the state that process `p` has with the context `c`
and its own memory `mem`. In a run of the applications (`Run.Apps`) the process that has the CPU
goes on from the context it was given, does statements of its own, and then the clock interrupts it
or it makes a system call.
-/

namespace SchedOS

/-- The points of `start()` and, at the end, of `sys_exit`. -/
inductive AppPc
  | init
  | test
  | print
  | yield
  | incr
  | exit
  | loop
deriving DecidableEq, Repr

/-- The local state of an application. `i` does not go beyond `RUNCOUNT`. -/
structure AppState where
  pc : AppPc
  i : Nat
deriving DecidableEq, Repr

/-- `PRINTCHAR` and `RUNCOUNT`. -/
structure App where
  printchar : UInt16
  runcount : Nat

/-- What a statement does: nothing but change the local state, or a system call. -/
inductive AppAction
  | silent
  | sysPrint (c : UInt16)
  | sysYield
  | sysExit (status : UInt32)
deriving DecidableEq, Repr

/-- One statement of `start()`. -/
def App.step (a : App) (st : AppState) : AppAction × AppState :=
  match st.pc with
  | .init => (.silent, ⟨.test, 0⟩)
  | .test => if st.i < a.runcount then (.silent, ⟨.print, st.i⟩) else (.silent, ⟨.exit, st.i⟩)
  | .print => (.sysPrint a.printchar, ⟨.yield, st.i⟩)
  | .yield => (.sysYield, ⟨.incr, st.i⟩)
  | .incr => (.silent, ⟨.test, st.i + 1⟩)
  | .exit => (.sysExit 0, ⟨.loop, st.i⟩)
  | .loop => (.silent, ⟨.loop, st.i⟩)

/-- `PRINTCHAR` of the program that process `p` runs. -/
def printchar : Pid → UInt16
  | 1 => 0x31 ||| 0x0C00
  | 2 => 0x32 ||| 0x0A00
  | 3 => 0x33 ||| 0x0900
  | 4 => 0x34 ||| 0x0E00
  | _ => 0

/-- The program that process `p` runs. -/
def app (runcount : Nat) (p : Pid) : App := ⟨printchar p, runcount⟩

/-! ## Runs of the applications -/

/-- Some statements that change the local state alone. -/
inductive App.Locals (a : App) : AppState → AppState → Prop
  | refl (st : AppState) : Locals a st st
  | step {st st' : AppState} : (a.step st).1 = .silent → Locals a (a.step st).2 st' →
    Locals a st st'

/-- The interrupt that a system call causes. `sys_print` sets the low half of `%eax`. -/
def AppAction.Causes : AppAction → Event → Prop
  | .silent, _ => False
  | .sysPrint c, e => e.trap = .sysPrint ∧ e.cpu.eax.toUInt16 = c
  | .sysYield, e => e.trap = .sysYield
  | .sysExit status, e => e.trap = .sysExit ∧ e.cpu.eax = status

/-- From its local state `st` the application comes to the interrupt `e`, which it leaves with the
local state `st'`. -/
inductive App.Interrupted (a : App) (st : AppState) (e : Event) : AppState → Prop
  | clock {st' : AppState} : a.Locals st st' → e.trap = .clock → Interrupted a st e st'
  | call {st' : AppState} : a.Locals st st' → (a.step st').1.Causes e →
    Interrupted a st e (a.step st').2

/-- The processes of the run are the four applications, `mem i p` being the memory of process `p`
before interrupt `i` has reached it: no other process changes it. -/
structure Run.Apps {alg : Int} {boot : Boot} (r : Run alg boot) (runcount : Nat) {μ : Type}
    (view : Pid → Context → μ → AppState) (mem : Nat → Pid → μ) : Prop where
  start : ∀ p, p ≠ 0 → (view p (startContext boot p) (mem 0 p)).pc = .init
  own : ∀ i, i < r.len → ∀ p, p ≠ (r.kern i).current → mem (i + 1) p = mem i p
  event : ∀ i, i < r.len → ∀ s c, r.state i = .user s c →
    (app runcount s.current).Interrupted (view s.current c (mem i s.current)) (r.event i)
      (view s.current (r.event i).cpu (mem (i + 1) s.current))

end SchedOS
