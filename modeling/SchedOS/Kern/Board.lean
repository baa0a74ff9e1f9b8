import SchedOS.Kern.Clock

/-!
# The clock behind its ports

What `interrupt_controller_init` programs besides the masks of `Kern/Clock.lean`: counter 0 of the
8253 (`Timer`) and the requests of the master 8259A (`Master`), whose line 0 is the output of that
counter. `Board.outb` is a write of the kernel, and nothing happens between the writes of
`interrupt_controller_init`. A run (`BoardRun`) begins after the last of them, and in it anything of
`BoardStep` can happen: a clock of the 8253, a change of another line, an interrupt that the CPU
takes.

Assumed of the 8253: a control word begins with the counter's number and how its count is written,
then comes the mode; the rate generator (mode 2) loads the count at the next clock, has its output
low for the last clock of every period, and starts over. Assumed of the 8259A besides: ICW1 clears
the requests and the services; a line's rise is a request until the CPU takes it or the line falls;
a service ends at once under automatic EOI, and otherwise it holds back the lines from its own on.
The CPU takes an interrupt in one step: no request falls between its two acknowledge cycles, so the
8259A never answers with its default, line 7.
-/

namespace SchedOS

/-! ## The 8253 -/

abbrev IO_TIMER1 : UInt16 := 0x40
abbrev TIMER_MODE : UInt16 := IO_TIMER1 + 3

/-- The counter waits for its count, loads it at the next clock, or counts down. -/
inductive Phase
  | wait
  | load
  | count (n : Nat)

/-- Counter 0: the mode, how its count is written, the first byte of a count of which the second one
is to come, the count of a period, and the output. -/
structure Timer where
  mode : UInt8
  access : UInt8
  lsb : Option UInt8
  initial : Nat
  phase : Phase
  out : Bool

/-- A count from its bytes; zero stands for 65536. -/
def countOf (lsb msb : UInt8) : Nat :=
  if lsb = 0 ∧ msb = 0 then 65536 else lsb.toNat + 256 * msb.toNat

/-- A write to `TIMER_MODE`. A word for another counter and the one that latches the count leave the
counter alone. -/
def Timer.control (t : Timer) (data : UInt8) : Timer :=
  let mode := data >>> 1 &&& 7
  let access := data >>> 4 &&& 3
  if data >>> 6 ≠ 0 ∨ access = 0 then t
  else { t with mode, access, lsb := none, phase := .wait, out := mode != 0 }

/-- A new count; a counter that counts down uses it from the next period on. -/
def Timer.setCount (t : Timer) (n : Nat) : Timer :=
  { t with
    lsb := none
    initial := n
    phase := match t.phase with
      | .count m => .count m
      | _ => .load }

/-- A write to `IO_TIMER1`. -/
def Timer.data (t : Timer) (data : UInt8) : Timer :=
  if t.access = 1 then t.setCount (countOf data 0)
  else if t.access = 2 then t.setCount (countOf 0 data)
  else
    match t.lsb with
    | none => { t with lsb := some data }
    | some lsb => t.setCount (countOf lsb data)

/-- A clock of the rate generator. The other modes are left out. -/
def Timer.tick (t : Timer) : Timer :=
  if t.mode &&& 3 ≠ 2 then t
  else
    match t.phase with
    | .wait => t
    | .load => { t with phase := .count t.initial }
    | .count n =>
      if n ≤ 1 then { t with phase := .count t.initial, out := true }
      else { t with phase := .count (n - 1), out := n != 2 }

/-! ## The master 8259A -/

/-- The controller with what ICW1, ICW4 and OCW3 select and its eight lines: their levels, requests
and services. -/
structure Master extends Pic where
  level : Bool
  aeoi : Bool
  specialMask : Bool
  line : Fin 8 → Bool
  irr : Fin 8 → Bool
  isr : Fin 8 → Bool

/-- A write to the even port: ICW1, OCW3 with a special mask bit, or another command. -/
def Master.command (p : Master) (data : UInt8) : Master :=
  let q := { p with toPic := p.toPic.command data }
  if data &&& 0x10 ≠ 0 then
    { q with
      level := data &&& 0x08 != 0
      aeoi := false
      specialMask := false
      irr := fun _ => false
      isr := fun _ => false }
  else if data &&& 0x48 = 0x48 then { q with specialMask := data &&& 0x20 != 0 }
  else q

/-- A write to the odd port. -/
def Master.data (p : Master) (data : UInt8) : Master :=
  let q := { p with toPic := p.toPic.data data }
  match p.expects with
  | .icw4 :: _ => { q with aeoi := data &&& 0x02 != 0 }
  | _ => q

def Master.setLine (p : Master) (l : Fin 8) (high : Bool) : Master :=
  { p with
    line := Function.update p.line l high
    irr := Function.update p.irr l (high && (p.level || p.irr l || !p.line l)) }

def Master.masked (p : Master) (l : Fin 8) : Bool := p.mask.toNat.testBit l.val

/-- A line behind one in service; in special mask mode a masked one holds nothing back. -/
def Master.blocked (p : Master) (l : Fin 8) : Bool :=
  (List.finRange 8).any fun l' => decide (l' ≤ l) && p.isr l' && !(p.specialMask && p.masked l')

/-- The line for which the controller interrupts the CPU. -/
def Master.pending (p : Master) : Option (Fin 8) :=
  (List.finRange 8).find? fun l => p.irr l && !p.masked l && !p.blocked l

def Master.vector (p : Master) (l : Fin 8) : Vector := (p.offset ||| UInt8.ofNat l.val).toFin

/-- The CPU takes the interrupt of a line. -/
def Master.inta (p : Master) (l : Fin 8) : Master :=
  { p with
    irr := Function.update p.irr l (p.level && p.line l)
    isr := Function.update p.isr l !p.aeoi }

/-! ## The board -/

structure Board where
  master : Master
  slave : Pic
  timer : Timer

/-- The controllers of `Kern/Clock.lean`. -/
def Board.pics (b : Board) : Pics := ⟨b.master.toPic, b.slave⟩

/-- The output of the counter is line 0. -/
def Board.setTimer (b : Board) (t : Timer) : Board :=
  { b with master := b.master.setLine 0 t.out, timer := t }

def Board.outb (b : Board) (port : UInt16) (data : UInt8) : Board :=
  if port = IO_PIC1 then { b with master := b.master.command data }
  else if port = IO_PIC1 + 1 then { b with master := b.master.data data }
  else if port = IO_PIC2 then { b with slave := b.slave.command data }
  else if port = IO_PIC2 + 1 then { b with slave := b.slave.data data }
  else if port = TIMER_MODE then b.setTimer (b.timer.control data)
  else if port = IO_TIMER1 then b.setTimer (b.timer.data data)
  else b

def Board.outbs (b : Board) (writes : List (UInt16 × UInt8)) : Board :=
  writes.foldl (fun b w => b.outb w.1 w.2) b

/-- A request for the clock that the CPU has not taken. -/
def Board.requests (b : Board) : Nat := if b.master.irr 0 then 1 else 0

/-- What happens on the board: a clock of the 8253, a new level of one of the lines from 1 on, or an
interrupt that the CPU takes, with its vector. -/
inductive BoardEvent
  | tick
  | line (l : Fin 7) (high : Bool)
  | ack (v : Vector)

namespace BoardEvent

def isTick : BoardEvent → Bool
  | .tick => true
  | _ => false

def isAck : BoardEvent → Bool
  | .ack _ => true
  | _ => false

end BoardEvent

inductive BoardStep : Board → BoardEvent → Board → Prop
  | tick (b : Board) : BoardStep b .tick (b.setTimer b.timer.tick)
  | line (b : Board) (l : Fin 7) (high : Bool) :
      BoardStep b (.line l high) { b with master := b.master.setLine l.succ high }
  | ack {b : Board} {l : Fin 8} (h : b.master.pending = some l) :
      BoardStep b (.ack (b.master.vector l)) { b with master := b.master.inta l }

/-- A run of the board from `interrupt_controller_init` on. -/
abbrev BoardRun (b : Board) (allowClockInterrupt : Bool) :=
  Exec BoardStep (· = b.outbs (interruptControllerInit allowClockInterrupt))

section
variable {b : Board} {allow : Bool} (r : BoardRun b allow)

/-- The clocks of the 8253 in a window. -/
def BoardRun.ticks (i j : Nat) : Nat := Window.count (fun i => (r.event i).isTick) i j

/-- The interrupts that the CPU takes in a window. -/
def BoardRun.acks (i j : Nat) : Nat := Window.count (fun i => (r.event i).isAck) i j

/-- The CPU takes every request of the clock before its line falls. -/
def BoardRun.Prompt : Prop :=
  ∀ i, i < r.len → (r.event i).isTick → (r.state (i + 1)).timer.out = false →
    (r.state i).requests = 0

end

end SchedOS
