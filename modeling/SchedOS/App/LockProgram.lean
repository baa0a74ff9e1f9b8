import SchedOS.App.Program

/-!
# The applications with the lock (`schedos-1.c` without `__EXERCISE_8__`)

Without `__EXERCISE_8__` the applications write the screen themselves, through `cursorpos` and under
`cursorposLock`. A statement is one access to these variables (`App.lockStep`), so that
`*cursorpos++ = PRINTCHAR` is three: `cursorpos` is read, the incremented one is written and the
cell is written. In a run (`LockRun`) statements of the process that has the CPU and interrupts come
in any order, the clock interrupt between any two statements; `view p c mem` is the local state of
process `p`, as in `Run.Apps`.

Assumed: the compiler keeps the order of the accesses, and the cells are objects of their own.
-/

namespace SchedOS

/-- The points of `start()` and, at the end, of `sys_exit`. -/
inductive LockPc
  | init
  | test
  | swap
  | read
  | write
  | store
  | release
  | yield
  | incr
  | exit
  | loop
deriving DecidableEq, Repr

/-- The local state of an application; `temp` is the `cursorpos` it has read. -/
structure LockState where
  pc : LockPc
  i : Nat
  temp : UInt32
deriving DecidableEq, Repr

/-- `atomic_swap(&cursorposLock, val)`. -/
def atomicSwap (val : UInt32) (s : Kernel) : UInt32 × Kernel :=
  (s.cursorposLock, { s with cursorposLock := val })

/-- One statement of `start()`: what it does, to the shared variables and to the local state. -/
def App.lockStep (a : App) (s : Kernel) (st : LockState) : AppAction × Kernel × LockState :=
  match st.pc with
  | .init => (.silent, s, { st with pc := .test, i := 0 })
  | .test => (.silent, s, { st with pc := if st.i < a.runcount then .swap else .exit })
  | .swap =>
    let (oldval, s) := atomicSwap 1 s
    (.silent, s, { st with pc := if oldval = 0 then .read else .swap })
  | .read => (.silent, s, { st with pc := .write, temp := s.cursorpos })
  | .write => (.silent, { s with cursorpos := st.temp + 2 }, { st with pc := .store })
  | .store =>
    (.silent, { s with cells := Function.update s.cells st.temp a.printchar },
      { st with pc := .release })
  | .release => (.silent, (atomicSwap 0 s).2, { st with pc := .yield })
  | .yield => (.sysYield, s, { st with pc := .incr })
  | .incr => (.silent, s, { st with pc := .test, i := st.i + 1 })
  | .exit => (.sysExit 0, s, { st with pc := .loop })
  | .loop => (.silent, s, st)

/-- Between its successful swap and its releasing swap. -/
def LockState.Inside (st : LockState) : Prop :=
  st.pc ∈ [LockPc.read, .write, .store, .release]

/-! ## Runs -/

/-- The context of process `p`: in the CPU, or saved. -/
def Machine.contextOf (m : Machine) (p : Pid) : Context :=
  match m with
  | .user s c => if s.current = p then c else (s.procArray p).pRegisters.context
  | .stuck s => (s.procArray p).pRegisters.context

/-- The machine and the memory of each process. -/
structure LockSys (μ : Type) where
  machine : Machine
  mem : Pid → μ

section
variable {μ : Type} (view : Pid → Context → μ → LockState)

/-- The local state of process `p`. -/
def LockSys.app (sys : LockSys μ) (p : Pid) : LockState :=
  view p (sys.machine.contextOf p) (sys.mem p)

/-- What happens: a statement of process `p` at a point of its program, or an interrupt. -/
inductive LockEvent
  | stmt (p : Pid) (pc : LockPc)
  | interrupt (e : Event)

/-- The process that completes a critical section. -/
def LockEvent.completed : LockEvent → List Pid
  | .stmt p .release => [p]
  | _ => []

/-- A statement of the process that has the CPU, a clock interrupt of it, or its system call. -/
inductive LockStep (runcount : Nat) : LockSys μ → LockEvent → LockSys μ → Prop
  | stmt {s s' : Kernel} {c c' : Context} {mem : Pid → μ} {own : μ} :
      (app runcount s.current).lockStep s (view s.current c (mem s.current)) =
        (.silent, s', view s.current c' own) →
      LockStep runcount ⟨.user s c, mem⟩ (.stmt s.current (view s.current c (mem s.current)).pc)
        ⟨.user s' c', Function.update mem s.current own⟩
  | clock {s : Kernel} {c : Context} {mem : Pid → μ} {e : Event} {m : Machine} :
      e.trap = .clock → e.cpu = c → Step (.user s c) e m →
      LockStep runcount ⟨.user s c, mem⟩ (.interrupt e) ⟨m, mem⟩
  | call {s : Kernel} {c : Context} {mem : Pid → μ} {own : μ} {e : Event} {m : Machine}
      {act : AppAction} :
      (app runcount s.current).lockStep s (view s.current c (mem s.current)) =
        (act, s, view s.current e.cpu own) →
      act.Causes e → Step (.user s c) e m →
      LockStep runcount ⟨.user s c, mem⟩ (.interrupt e)
        ⟨m, Function.update mem s.current own⟩

/-- After `start()`, with every application at its beginning. -/
def LockStart (alg : Int) (boot : Boot) (sys : LockSys μ) : Prop :=
  sys.machine = start alg boot ∧
    ∀ p, p ≠ 0 → (view p (startContext boot p) (sys.mem p)).pc = .init

/-- A run of the applications with the lock. -/
abbrev LockRun (alg : Int) (boot : Boot) (runcount : Nat) :=
  Exec (LockStep view runcount) (LockStart view alg boot)

variable {view} {alg : Int} {boot : Boot} {runcount : Nat} (r : LockRun view alg boot runcount)

/-- The kernel's variables before event `i`. -/
def LockRun.kern (i : Nat) : Kernel := (r.state i).machine.kern

/-- The local state of process `p` before event `i`. -/
def LockRun.app (i : Nat) (p : Pid) : LockState := (r.state i).app view p

/-- Who has completed the critical sections before event `i`, in the order of the sections. -/
def LockRun.completed : Nat → List Pid
  | 0 => []
  | i + 1 => LockRun.completed i ++ (r.event i).completed

end

end SchedOS
