import SchedOS.Kern.Machine

/-!
# The interrupt controller (`interrupt_controller_init`)

The writes of `interrupt_controller_init` to the ports (`interruptControllerInit`) and the two 8259A
that they reach (`Pics.outb`). The clock interrupts the CPU through line 0 of the master, so in a
run under the controllers (`Run.Under`) a clock interrupt needs that line open;
`interrupt_controller_init(0)` leaves it masked (`clock_interruptControllerInit`).

Assumed of the 8259A: a command with bit 4 is ICW1, which clears the mask and announces ICW2, ICW3
without bit 1 and ICW4 with bit 0; another write to the odd port sets the mask; line 0 raises the
vector that ICW2 gave, unless it is masked.
-/

namespace SchedOS

abbrev IO_PIC1 : UInt16 := 0x20
abbrev IO_PIC2 : UInt16 := 0xA0
abbrev IRQ_SLAVE : UInt8 := 2
abbrev INT_HARDWARE : UInt8 := 32

/-- `HZ`. -/
abbrev HZ : Nat := 1000

/-- `TIMER_DIV`. -/
def timerDiv (x : Nat) : Nat := (1193182 + x / 2) / x

/-- The calls of `outb` in `interrupt_controller_init`. -/
def interruptControllerInit (allowClockInterrupt : Bool) : List (UInt16 × UInt8) :=
  [(IO_PIC1 + 1, 0xFF), (IO_PIC2 + 1, 0xFF),
    -- the master
    (IO_PIC1, 0x11), (IO_PIC1 + 1, INT_HARDWARE), (IO_PIC1 + 1, 1 <<< IRQ_SLAVE),
    (IO_PIC1 + 1, 0x3),
    -- the slave
    (IO_PIC2, 0x11), (IO_PIC2 + 1, INT_HARDWARE + 8), (IO_PIC2 + 1, IRQ_SLAVE),
    (IO_PIC2 + 1, 0x01),
    (IO_PIC1, 0x68), (IO_PIC1, 0x0a), (IO_PIC2, 0x68), (IO_PIC2, 0x0a),
    (IO_PIC1 + 1, if allowClockInterrupt then 0xFE else 0xFF), (IO_PIC2 + 1, 0xFF)] ++
  if allowClockInterrupt then
    [(0x43, 0x00 ||| 0x04 ||| 0x30), (0x40, (timerDiv HZ % 256).toUInt8),
      (0x40, (timerDiv HZ / 256).toUInt8)]
  else []

/-- The initialization words that follow ICW1. -/
inductive Icw
  | icw2
  | icw3
  | icw4
deriving DecidableEq, Repr

/-- An 8259A: the interrupt mask, the vector of line 0 and the initialization words it expects. -/
structure Pic where
  mask : UInt8
  offset : UInt8
  expects : List Icw

/-- A write to the even port. The commands other than ICW1 leave the mask alone. -/
def Pic.command (p : Pic) (data : UInt8) : Pic :=
  if data &&& 0x10 = 0 then p
  else
    { p with
      mask := 0
      expects := [.icw2] ++ (if data &&& 0x02 = 0 then [.icw3] else []) ++
        if data &&& 0x01 = 0 then [] else [.icw4] }

/-- A write to the odd port. -/
def Pic.data (p : Pic) (data : UInt8) : Pic :=
  match p.expects with
  | [] => { p with mask := data }
  | .icw2 :: ws => { p with offset := data &&& 0xF8, expects := ws }
  | _ :: ws => { p with expects := ws }

/-- The two controllers. -/
structure Pics where
  master : Pic
  slave : Pic

/-- `outb`; the other ports are not the controllers'. -/
def Pics.outb (pics : Pics) (port : UInt16) (data : UInt8) : Pics :=
  if port = IO_PIC1 then { pics with master := pics.master.command data }
  else if port = IO_PIC1 + 1 then { pics with master := pics.master.data data }
  else if port = IO_PIC2 then { pics with slave := pics.slave.command data }
  else if port = IO_PIC2 + 1 then { pics with slave := pics.slave.data data }
  else pics

section
variable (pics : Pics) (data : UInt8)

theorem Pics.outb_pic1 :
    pics.outb IO_PIC1 data = { pics with master := pics.master.command data } := rfl

theorem Pics.outb_pic1_data :
    pics.outb (IO_PIC1 + 1) data = { pics with master := pics.master.data data } := rfl

theorem Pics.outb_pic2 :
    pics.outb IO_PIC2 data = { pics with slave := pics.slave.command data } := rfl

theorem Pics.outb_pic2_data :
    pics.outb (IO_PIC2 + 1) data = { pics with slave := pics.slave.data data } := rfl

theorem Pics.outb_other {port : UInt16} (h : port ∉ [IO_PIC1, IO_PIC1 + 1, IO_PIC2, IO_PIC2 + 1]) :
    pics.outb port data = pics := by
  simp only [List.mem_cons, List.not_mem_nil, not_or] at h
  obtain ⟨h1, h2, h3, h4, -⟩ := h
  unfold Pics.outb
  rw [if_neg h1, if_neg h2, if_neg h3, if_neg h4]

end

def Pics.outbs (pics : Pics) (writes : List (UInt16 × UInt8)) : Pics :=
  writes.foldl (fun pics w => pics.outb w.1 w.2) pics

/-- The vector that line 0 raises, if it is not masked. -/
def Pic.irq0 (p : Pic) : Option Vector :=
  if p.mask &&& 1 = 0 then some ⟨p.offset.toNat, p.offset.toNat_lt⟩ else none

/-- The vector with which the clock interrupts the CPU, if it can. -/
def Pics.clock (pics : Pics) : Option Vector := pics.master.irq0

/-- The initialization sets the mask and the offset, whatever state the controller was in. -/
theorem Pic.init (p : Pic) (mask : UInt8) :
    (((((((p.data 0xFF).command 0x11).data INT_HARDWARE).data (1 <<< IRQ_SLAVE)).data 0x3).command
      0x68).command 0x0a).data mask = ⟨mask, INT_HARDWARE, []⟩ := rfl

theorem master_interruptControllerInit (pics : Pics) (allowClockInterrupt : Bool) :
    (pics.outbs (interruptControllerInit allowClockInterrupt)).master =
      ⟨if allowClockInterrupt then 0xFE else 0xFF, INT_HARDWARE, []⟩ := by
  have htimer : (0x43 : UInt16) ∉ [IO_PIC1, IO_PIC1 + 1, IO_PIC2, IO_PIC2 + 1] ∧
      (0x40 : UInt16) ∉ [IO_PIC1, IO_PIC1 + 1, IO_PIC2, IO_PIC2 + 1] := by decide
  cases allowClockInterrupt <;>
    simp only [interruptControllerInit, Pics.outbs, List.foldl_append, List.foldl_cons,
      List.foldl_nil, Pics.outb_pic1, Pics.outb_pic1_data, Pics.outb_pic2, Pics.outb_pic2_data,
      Pics.outb_other _ _ htimer.1, Pics.outb_other _ _ htimer.2, Pic.init, Bool.false_eq_true,
      if_true, if_false]

/-- `interrupt_controller_init` opens the line of the clock on demand. -/
theorem clock_interruptControllerInit (pics : Pics) (allowClockInterrupt : Bool) :
    (pics.outbs (interruptControllerInit allowClockInterrupt)).clock =
      if allowClockInterrupt then some INT_CLOCK else none := by
  unfold Pics.clock
  rw [master_interruptControllerInit]
  cases allowClockInterrupt <;> decide

/-- The clock interrupts of the run come through these controllers. -/
def Run.Under {alg : Int} {boot : Boot} (r : Run alg boot) (pics : Pics) : Prop :=
  ∀ i, i < r.len → (r.event i).trap = .clock → pics.clock = some INT_CLOCK

/-- After `interrupt_controller_init(0)` there is no clock interrupt. -/
theorem Run.Under.trap_ne_clock {alg : Int} {boot : Boot} {r : Run alg boot} {pics : Pics}
    (h : r.Under (pics.outbs (interruptControllerInit false))) {i : Nat} (hi : i < r.len) :
    (r.event i).trap ≠ .clock := by
  intro ht
  have hc := h i hi ht
  rw [clock_interruptControllerInit] at hc
  cases hc

end SchedOS
