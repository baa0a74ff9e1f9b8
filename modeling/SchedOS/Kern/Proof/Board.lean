import Mathlib.Tactic.SplitIfs
import SchedOS.Kern.Board

/-!
# The clock strikes `HZ` times a second

After `interrupt_controller_init` line 0 alone is open, no service holds it back (`Clocked`), and the
counter is where its number of clocks says (`phaseAt`). So every period makes one request, and
an interrupt that the CPU takes uses up a request (`Clocked.step`): the clock interrupts of a
window are as many as its periods, if the CPU takes each before the next falls due
(`clock_strikes`).
-/

namespace SchedOS

/-! ## The writes of `interrupt_controller_init` -/

section
variable (p : Master) (data : UInt8)

@[simp] theorem Master.toPic_command : (p.command data).toPic = p.toPic.command data := by
  unfold Master.command
  split
  · rfl
  · split <;> rfl

@[simp] theorem Master.toPic_data : (p.data data).toPic = p.toPic.data data := by
  unfold Master.data
  dsimp only
  split <;> rfl

end

theorem Board.pics_outb (b : Board) (port : UInt16) (data : UInt8) :
    (b.outb port data).pics = b.pics.outb port data := by
  unfold Board.outb Pics.outb
  split_ifs <;> simp [Board.pics, Board.setTimer, Master.setLine]

/-- The writes reach the controllers of `Kern/Clock.lean` as they do there. -/
theorem Board.pics_outbs (b : Board) (writes : List (UInt16 × UInt8)) :
    (b.outbs writes).pics = b.pics.outbs writes := by
  induction writes generalizing b with
  | nil => rfl
  | cons w writes ih => exact (ih _).trans (by rw [Board.pics_outb]; rfl)

section
variable (b : Board) (data : UInt8)

theorem Board.outb_pic1 : b.outb IO_PIC1 data = { b with master := b.master.command data } := rfl

theorem Board.outb_pic1_data :
    b.outb (IO_PIC1 + 1) data = { b with master := b.master.data data } := rfl

theorem Board.outb_pic2 : b.outb IO_PIC2 data = { b with slave := b.slave.command data } := rfl

theorem Board.outb_pic2_data :
    b.outb (IO_PIC2 + 1) data = { b with slave := b.slave.data data } := rfl

theorem Board.outb_mode : b.outb 0x43 data = b.setTimer (b.timer.control data) := rfl

theorem Board.outb_timer : b.outb 0x40 data = b.setTimer (b.timer.data data) := rfl

end

/-- The master after its initialization words, from any state it was in. -/
theorem Master.init (p : Master) (mask : UInt8) :
    ((((((p.command 0x11).data INT_HARDWARE).data (1 <<< IRQ_SLAVE)).data 0x3).command
      0x68).command 0x0a).data mask =
    { mask, offset := INT_HARDWARE, expects := [], level := false, aeoi := true, specialMask := true,
      line := p.line, irr := fun _ => false, isr := fun _ => false } := rfl

theorem timerDiv_HZ : timerDiv HZ = 1193 := by decide

/-- The counter after its control word and its count. -/
theorem Timer.init (t : Timer) :
    ((t.control (0x00 ||| 0x04 ||| 0x30)).data (timerDiv HZ % 256).toUInt8).data
      (timerDiv HZ / 256).toUInt8 = ⟨2, 3, none, timerDiv HZ, .load, true⟩ := rfl

/-! ## The counter -/

/-- Where the counter is after `k` clocks. -/
def phaseAt : Nat → Phase
  | 0 => .load
  | k + 1 => .count (timerDiv HZ - k % timerDiv HZ)

/-- Its output is low for the last clock of a period. -/
def outAt : Nat → Bool
  | 0 => true
  | k + 1 => timerDiv HZ - k % timerDiv HZ != 1

def timerAt (k : Nat) : Timer := ⟨2, 3, none, timerDiv HZ, phaseAt k, outAt k⟩

theorem Timer.tick_load {t : Timer} (hm : t.mode = 2) (hp : t.phase = .load) :
    t.tick = { t with phase := .count t.initial } := by
  unfold Timer.tick
  rw [hm, hp]
  exact if_neg (not_not_intro rfl)

theorem Timer.tick_count {t : Timer} {n : Nat} (hm : t.mode = 2) (hp : t.phase = .count n) :
    t.tick = if n ≤ 1 then { t with phase := .count t.initial, out := true }
      else { t with phase := .count (n - 1), out := n != 2 } := by
  unfold Timer.tick
  rw [hm, hp]
  exact if_neg (not_not_intro rfl)

/-- The last clock of a period, and the others. -/
theorem period_last {k : Nat} (h : timerDiv HZ - k % timerDiv HZ ≤ 1) :
    (k + 1) % timerDiv HZ = 0 ∧ (k + 1) / timerDiv HZ = k / timerDiv HZ + 1 := by
  rw [timerDiv_HZ] at h ⊢
  omega

theorem period_next {k : Nat} (h : ¬ timerDiv HZ - k % timerDiv HZ ≤ 1) :
    (k + 1) % timerDiv HZ = k % timerDiv HZ + 1 ∧ (k + 1) / timerDiv HZ = k / timerDiv HZ := by
  rw [timerDiv_HZ] at h ⊢
  omega

theorem tick_timerAt (k : Nat) : (timerAt k).tick = timerAt (k + 1) := by
  cases k with
  | zero => exact Timer.tick_load rfl rfl
  | succ k =>
    rw [Timer.tick_count rfl rfl]
    split
    next hlast =>
      simp only [timerAt, phaseAt, outAt, (period_last hlast).1]
      rfl
    next hnext =>
      have hout : ∀ n : Nat, (n != 2) = (n - 1 != 1) := by
        intro n
        rcases n with _ | _ | n <;> simp
      simp only [timerAt, phaseAt, outAt, (period_next hnext).1, hout, Nat.sub_sub]

/-- The periods that have ended after `k` clocks. -/
def periodsAt (k : Nat) : Nat := (k - 1) / timerDiv HZ

theorem periodsAt_high {k : Nat} (h : outAt k = true) : periodsAt (k + 1) = periodsAt k := by
  cases k with
  | zero => rfl
  | succ k =>
    have hne : timerDiv HZ - k % timerDiv HZ ≠ 1 := by simpa [outAt] using h
    have hmod := Nat.mod_lt k (show 0 < timerDiv HZ by simp [timerDiv_HZ])
    exact (period_next (by omega)).2

theorem periodsAt_low {k : Nat} (h : outAt k = false) :
    outAt (k + 1) = true ∧ periodsAt (k + 1) = periodsAt k + 1 := by
  cases k with
  | zero => cases h
  | succ k =>
    have heq : timerDiv HZ - k % timerDiv HZ = 1 := by simpa [outAt] using h
    obtain ⟨hmod, hdiv⟩ := period_last (Nat.le_of_eq heq)
    refine ⟨?_, hdiv⟩
    show (timerDiv HZ - (k + 1) % timerDiv HZ != 1) = true
    rw [hmod]
    rfl

/-! ## The requests of line 0 -/

/-- The controllers and the counter after `k` clocks. -/
structure Clocked (b : Board) (k : Nat) : Prop where
  timer : b.timer = timerAt k
  pic : b.master.toPic = ⟨0xFE, INT_HARDWARE, []⟩
  level : b.master.level = false
  aeoi : b.master.aeoi = true
  isr : ∀ l, b.master.isr l = false
  line : b.master.line 0 = outAt k
  low : outAt k = false → b.master.irr 0 = false

theorem Pic.init_slave (p : Pic) : ((((((((p.data 0xFF).command 0x11).data (INT_HARDWARE + 8)).data
    IRQ_SLAVE).data 0x01).command 0x68).command 0x0a).data 0xFF) = ⟨0xFF, INT_HARDWARE + 8, []⟩ := rfl

theorem clocked_init (b : Board) : Clocked (b.outbs (interruptControllerInit true)) 0 := by
  simp only [interruptControllerInit, Board.outbs, List.foldl_append, List.foldl_cons,
      List.foldl_nil, Board.outb_pic1, Board.outb_pic1_data, Board.outb_pic2, Board.outb_pic2_data,
      Board.outb_mode, Board.outb_timer, Master.init, Pic.init_slave, if_true, Board.setTimer,
      Timer.init]
  constructor
  · rfl
  · rfl
  · rfl
  · rfl
  · intro l; rfl
  · simp [Master.setLine, outAt]
  · intro h; cases h

theorem masked_of_ne_zero : ∀ l : Fin 8, l ≠ 0 → (0xFE : UInt8).toNat.testBit l.val = true := by
  decide

theorem masked_all : ∀ l : Fin 8, (0xFF : UInt8).toNat.testBit l.val = true := by
  decide

/-- The controller interrupts the CPU for the clock alone, and only if that is allowed. -/
theorem Master.pending_clock {p : Master} {allow : Bool}
    (hp : p.toPic = ⟨if allow then 0xFE else 0xFF, INT_HARDWARE, []⟩) {l : Fin 8}
    (h : p.pending = some l) : allow = true ∧ l = 0 ∧ p.irr l = true ∧ p.vector l = INT_CLOCK := by
  have htest := List.find?_some h
  simp only [Bool.and_eq_true, Bool.not_eq_true', Master.masked] at htest
  obtain ⟨⟨hirr, hmask⟩, -⟩ := htest
  have hm : p.mask = if allow then 0xFE else 0xFF := congrArg Pic.mask hp
  have ho : p.offset = INT_HARDWARE := congrArg Pic.offset hp
  rw [hm] at hmask
  cases allow with
  | false => cases (masked_all l).symm.trans hmask
  | true =>
    have hl : l = 0 := by
      by_contra hne
      cases (masked_of_ne_zero l hne).symm.trans hmask
    subst hl
    refine ⟨rfl, rfl, hirr, ?_⟩
    unfold Master.vector
    rw [ho]
    rfl

theorem Master.setLine_other (p : Master) {l l' : Fin 8} (h : l' ≠ l) (high : Bool) :
    (p.setLine l high).line l' = p.line l' ∧ (p.setLine l high).irr l' = p.irr l' :=
  ⟨Function.update_of_ne h _ _, Function.update_of_ne h _ _⟩

/-- Nothing on the board changes what the ports have set. -/
theorem BoardStep.toPic {b b' : Board} {e : BoardEvent} (h : BoardStep b e b') :
    b'.master.toPic = b.master.toPic := by
  cases h <;> rfl

theorem BoardStep.pending {b b' : Board} {v : Vector} (h : BoardStep b (.ack v) b') :
    ∃ l, b.master.pending = some l ∧ v = b.master.vector l := by
  cases h with
  | ack hl => exact ⟨_, hl, rfl⟩

section
variable {b b' : Board} {k : Nat} (h : Clocked b k)
include h

theorem Clocked.irr_tick : (b.setTimer b.timer.tick).master.irr 0 =
    (outAt (k + 1) && (b.master.irr 0 || !outAt k)) := by
  have hout : b.timer.tick.out = outAt (k + 1) := by
    rw [h.timer, tick_timerAt]
    rfl
  simp [Board.setTimer, Master.setLine, hout, h.level, h.line]

theorem Clocked.tick : Clocked (b.setTimer b.timer.tick) (k + 1) := by
  have htick : b.timer.tick = timerAt (k + 1) := by rw [h.timer, tick_timerAt]
  constructor
  · exact htick
  · exact h.pic
  · exact h.level
  · exact h.aeoi
  · exact h.isr
  · simp [Board.setTimer, Master.setLine, htick, timerAt]
  · intro hout
    rw [h.irr_tick, hout]
    rfl

theorem Clocked.changed (l : Fin 7) (high : Bool) :
    Clocked { b with master := b.master.setLine l.succ high } k := by
  obtain ⟨hline, hirr⟩ := b.master.setLine_other (Fin.succ_ne_zero l).symm high
  constructor
  · exact h.timer
  · exact h.pic
  · exact h.level
  · exact h.aeoi
  · exact h.isr
  · exact hline.trans h.line
  · exact fun hout => hirr.trans (h.low hout)

theorem Clocked.taken : Clocked { b with master := b.master.inta 0 } k := by
  constructor
  · exact h.timer
  · exact h.pic
  · exact h.level
  · exact h.aeoi
  · intro l
    have hisr := h.isr l
    simp [Master.inta, h.aeoi, Function.update_apply, hisr]
  · exact h.line
  · simp [Master.inta, h.level]

/-- A clock that ends a period makes a request; the one that begins its last clock takes back a
request that the CPU has not taken. -/
theorem Clocked.requests_tick : (b.setTimer b.timer.tick).requests + periodsAt k ≤
      b.requests + periodsAt (k + 1) ∧
    (((b.setTimer b.timer.tick).timer.out = false → b.requests = 0) →
      (b.setTimer b.timer.tick).requests + periodsAt k = b.requests + periodsAt (k + 1)) := by
  have hirr := h.irr_tick
  have hnext : (b.setTimer b.timer.tick).timer.out = outAt (k + 1) := congrArg Timer.out h.tick.timer
  rw [hnext]
  unfold Board.requests
  rw [hirr]
  cases hout : outAt k with
  | true =>
    rw [periodsAt_high hout]
    cases outAt (k + 1) <;> cases b.master.irr 0 <;> simp
  | false =>
    obtain ⟨hhigh, hperiods⟩ := periodsAt_low hout
    rw [hhigh, hperiods, h.low hout]
    simp
    omega

/-- The controller interrupts the CPU for every request. -/
theorem Clocked.pending (hr : b.requests ≠ 0) : b.master.pending = some 0 := by
  have hirr : b.master.irr 0 = true := by
    by_contra hirr
    exact hr (if_neg hirr)
  have hm : b.master.mask = 0xFE := congrArg Pic.mask h.pic
  have hmasked : b.master.masked 0 = false := by
    unfold Master.masked
    rw [hm]
    rfl
  have hblocked : b.master.blocked 0 = false := by
    simp [Master.blocked, h.isr]
  simp [Master.pending, List.finRange_succ, hirr, hmasked, hblocked]

/-- One step: an interrupt that the CPU takes uses up a request. -/
theorem Clocked.step {e : BoardEvent} (hs : BoardStep b e b') :
    Clocked b' (k + if e.isTick then 1 else 0) ∧
    (if e.isAck then 1 else 0) + b'.requests + periodsAt k ≤
      b.requests + periodsAt (k + if e.isTick then 1 else 0) ∧
    ((e.isTick → b'.timer.out = false → b.requests = 0) →
      (if e.isAck then 1 else 0) + b'.requests + periodsAt k =
        b.requests + periodsAt (k + if e.isTick then 1 else 0)) := by
  cases hs with
  | tick =>
    obtain ⟨hle, heq⟩ := h.requests_tick
    refine ⟨h.tick, by simpa [BoardEvent.isTick, BoardEvent.isAck] using hle, fun hprompt => ?_⟩
    simpa [BoardEvent.isTick, BoardEvent.isAck] using heq (hprompt rfl)
  | line l high =>
    have hirr : Board.requests { b with master := b.master.setLine l.succ high } = b.requests := by
      unfold Board.requests
      rw [(b.master.setLine_other (Fin.succ_ne_zero l).symm high).2]
    simp [BoardEvent.isTick, BoardEvent.isAck, hirr, h.changed l high]
  | ack hl =>
    obtain ⟨-, rfl, hirr, -⟩ := @Master.pending_clock _ true h.pic _ hl
    have htaken : Board.requests { b with master := b.master.inta 0 } = 0 := by
      simp [Board.requests, Master.inta, h.level]
    have hone : b.requests = 1 := if_pos hirr
    simp [BoardEvent.isTick, BoardEvent.isAck, htaken, hone, h.taken]

end

/-! ## Runs -/

section
variable {b : Board}

theorem Board.requests_le (b : Board) : b.requests ≤ 1 := by
  unfold Board.requests
  split <;> simp

theorem periodsAt_window (k n : Nat) : periodsAt (k + n) ≤ periodsAt k + n / timerDiv HZ + 1 ∧
    periodsAt k + (n - 1) / timerDiv HZ ≤ periodsAt (k + n) := by
  unfold periodsAt
  rw [timerDiv_HZ]
  omega

variable {r : BoardRun b true}

theorem BoardRun.ticks_succ (i : Nat) :
    r.ticks 0 (i + 1) = r.ticks 0 i + if (r.event i).isTick then 1 else 0 :=
  Window.count_succ _ (Nat.zero_le i)

theorem BoardRun.clocked {i : Nat} (hi : i ≤ r.len) : Clocked (r.state i) (r.ticks 0 i) := by
  induction i with
  | zero =>
    have hinit := clocked_init b
    rw [← r.start] at hinit
    exact hinit
  | succ i ih =>
    have hstep := ((ih (Nat.le_of_lt hi)).step (r.steps i hi)).1
    rwa [← BoardRun.ticks_succ] at hstep

theorem BoardRun.acks_le {i j : Nat} (hij : i ≤ j) (hj : j ≤ r.len) :
    r.acks i j + (r.state j).requests + periodsAt (r.ticks 0 i) ≤
      (r.state i).requests + periodsAt (r.ticks 0 j) := by
  induction j, hij using Nat.le_induction with
  | base => simp [BoardRun.acks]
  | succ j hij ih =>
    have hprev := ih (Nat.le_of_lt hj)
    have hstep := ((BoardRun.clocked (Nat.le_of_lt hj)).step (r.steps j hj)).2.1
    have hacks : r.acks i (j + 1) = r.acks i j + if (r.event j).isAck then 1 else 0 :=
      Window.count_succ _ hij
    rw [← BoardRun.ticks_succ] at hstep
    omega

theorem BoardRun.acks_eq (h : r.Prompt) {i j : Nat} (hij : i ≤ j) (hj : j ≤ r.len) :
    r.acks i j + (r.state j).requests + periodsAt (r.ticks 0 i) =
      (r.state i).requests + periodsAt (r.ticks 0 j) := by
  induction j, hij using Nat.le_induction with
  | base => simp [BoardRun.acks]
  | succ j hij ih =>
    have hprev := ih (Nat.le_of_lt hj)
    have hstep := ((BoardRun.clocked (Nat.le_of_lt hj)).step (r.steps j hj)).2.2 (h j hj)
    have hacks : r.acks i (j + 1) = r.acks i j + if (r.event j).isAck then 1 else 0 :=
      Window.count_succ _ hij
    rw [← BoardRun.ticks_succ] at hstep
    omega

end

/-- The controllers keep what `interrupt_controller_init` has set. -/
theorem BoardRun.toPic {b : Board} {allow : Bool} (r : BoardRun b allow) {i : Nat} (hi : i ≤ r.len) :
    (r.state i).master.toPic = ⟨if allow then 0xFE else 0xFF, INT_HARDWARE, []⟩ := by
  refine r.invariant (I := fun b => b.master.toPic = _) ?_ ?_ hi
  · rintro _ rfl
    have hmaster := master_interruptControllerInit b.pics allow
    rwa [← Board.pics_outbs] at hmaster
  · exact fun s e s' hs hstep => hstep.toPic.trans hs

section
variable {b : Board} {r : BoardRun b true}

theorem BoardRun.Prompt.snoc (h : r.Prompt) {e : BoardEvent} {s : Board}
    (hs : BoardStep (r.state r.len) e s)
    (he : e.isTick → s.timer.out = false → (r.state r.len).requests = 0) :
    BoardRun.Prompt (Exec.snoc r hs) := by
  have hext := r.snoc_extends hs
  intro i hi
  rcases Nat.eq_or_lt_of_le (Nat.le_of_lt_succ hi) with rfl | hlt
  · have hlast : (Exec.snoc r hs).state (r.len + 1) = s := if_neg (Nat.not_succ_le_self _)
    rw [r.snoc_event_last, hlast, hext.state _ (Nat.le_refl _)]
    exact he
  · rw [hext.event i hlt, hext.state _ hlt, hext.state _ (Nat.le_of_lt hlt)]
    exact h i hlt

theorem BoardRun.ticks_snoc {e : BoardEvent} {s : Board} (hs : BoardStep (r.state r.len) e s) :
    BoardRun.ticks (Exec.snoc r hs) 0 (Exec.snoc r hs).len =
      r.ticks 0 r.len + if e.isTick then 1 else 0 := by
  have hext := r.snoc_extends hs
  have hprev : BoardRun.ticks (Exec.snoc r hs) 0 r.len = r.ticks 0 r.len :=
    Window.count_congr fun i _ hi => by rw [hext.event i hi]
  rw [Exec.snoc_len, BoardRun.ticks_succ, hprev, r.snoc_event_last]

/-- The CPU can take what is requested. -/
theorem BoardRun.Prompt.settle (h : r.Prompt) : ∃ r' : BoardRun b true, r'.Prompt ∧
    r'.ticks 0 r'.len = r.ticks 0 r.len ∧ (r'.state r'.len).requests = 0 := by
  have hclocked := BoardRun.clocked (Nat.le_refl r.len)
  by_cases hr : (r.state r.len).requests = 0
  · exact ⟨r, h, rfl, hr⟩
  · have hstep := BoardStep.ack (hclocked.pending hr)
    refine ⟨Exec.snoc r hstep, h.snoc hstep nofun, BoardRun.ticks_snoc hstep, ?_⟩
    have hlast : (Exec.snoc r hstep).state (r.len + 1) = _ := if_neg (Nat.not_succ_le_self _)
    rw [Exec.snoc_len, hlast]
    simp [Board.requests, Master.inta, hclocked.level]

theorem BoardRun.exists_prompt (b : Board) (n : Nat) : ∃ r : BoardRun b true, r.Prompt ∧
    r.ticks 0 r.len = n ∧ (r.state r.len).requests = 0 := by
  induction n with
  | zero =>
    let r : BoardRun b true := ⟨0, fun _ => b.outbs (interruptControllerInit true), fun _ => .tick,
      rfl, fun i hi => absurd hi (Nat.not_lt_zero i)⟩
    have h0 : r.Prompt := fun i hi => absurd hi (Nat.not_lt_zero i)
    exact h0.settle
  | succ n ih =>
    obtain ⟨r, hprompt, hticks, hr⟩ := ih
    have hstep := BoardStep.tick (r.state r.len)
    obtain ⟨r', hprompt', hticks', hr'⟩ := (hprompt.snoc hstep fun _ _ => hr).settle
    refine ⟨r', hprompt', ?_, hr'⟩
    rw [hticks', BoardRun.ticks_snoc, hticks]
    rfl

end

/-- **The clock strikes `HZ` times a second**: after `interrupt_controller_init` the CPU gets no
interrupt but the clock's (`Pics.clock`), and none at all if that is not allowed. While the 8253 has
`n` clocks it gets at most two more than `n / TIMER_DIV(HZ)`, and if it takes each one before the
next falls due, at most one less than the periods that end; and it can do so for any number of
clocks. -/
theorem clock_strikes (b : Board) :
    (∀ (allow : Bool) (r : BoardRun b allow) i, i < r.len → ∀ v, r.event i = .ack v →
      allow = true ∧ v = INT_CLOCK ∧
        (b.pics.outbs (interruptControllerInit allow)).clock = some v) ∧
    (∀ (r : BoardRun b true) i j, i ≤ j → j ≤ r.len →
      r.acks i j ≤ r.ticks i j / timerDiv HZ + 2 ∧
      (r.Prompt → (r.ticks i j - 1) / timerDiv HZ ≤ r.acks i j + 1)) ∧
    ∀ n, ∃ r : BoardRun b true, r.Prompt ∧ r.ticks 0 r.len = n := by
  refine ⟨fun allow r i hi v hv => ?_, fun r i j hij hj => ?_, fun n => ?_⟩
  · have hstep := r.steps i hi
    rw [hv] at hstep
    obtain ⟨l, hl, rfl⟩ := hstep.pending
    obtain ⟨rfl, -, -, hvector⟩ := Master.pending_clock (r.toPic (Nat.le_of_lt hi)) hl
    rw [hvector]
    exact ⟨rfl, rfl, clock_interruptControllerInit b.pics true⟩
  · obtain ⟨hhigh, hlow⟩ := periodsAt_window (r.ticks 0 i) (r.ticks i j)
    have hticks : r.ticks 0 i + r.ticks i j = r.ticks 0 j :=
      Window.count_add_count _ (Nat.zero_le i) hij
    have hi := (r.state i).requests_le
    have hj' := (r.state j).requests_le
    rw [hticks] at hhigh hlow
    have hle := BoardRun.acks_le hij hj
    refine ⟨by omega, fun hprompt => ?_⟩
    have heq := BoardRun.acks_eq hprompt hij hj
    omega
  · obtain ⟨r, hprompt, hticks, -⟩ := BoardRun.exists_prompt b n
    exact ⟨r, hprompt, hticks⟩

/-- A board with its lines low and its counter not programmed. -/
def quietBoard : Board where
  master :=
    { mask := 0
      offset := 0
      expects := []
      level := false
      aeoi := false
      specialMask := false
      line := fun _ => false
      irr := fun _ => false
      isr := fun _ => false }
  slave := ⟨0, 0, []⟩
  timer := ⟨0, 0, none, 0, .wait, false⟩

/-- A second is 1193182 clocks. -/
theorem quietBoard_strikes : ∃ r : BoardRun quietBoard true, r.ticks 0 r.len = 1193182 ∧
    (∀ i, i < r.len → ∀ v, r.event i = .ack v → v = INT_CLOCK) ∧
    HZ ≤ r.acks 0 r.len + 1 ∧ r.acks 0 r.len ≤ HZ + 2 := by
  obtain ⟨hvector, hcount, hruns⟩ := clock_strikes quietBoard
  obtain ⟨r, hprompt, hticks⟩ := hruns 1193182
  obtain ⟨hhigh, hlow⟩ := hcount r 0 r.len (Nat.zero_le _) (Nat.le_refl _)
  have hlow := hlow hprompt
  have hdiv : 1193182 / timerDiv HZ = HZ ∧ (1193182 - 1) / timerDiv HZ = HZ := by decide
  rw [hticks] at hhigh hlow
  rw [hdiv.1] at hhigh
  rw [hdiv.2] at hlow
  exact ⟨r, hticks, fun i hi v hv => (hvector true r i hi v hv).2.1, hlow, hhigh⟩

end SchedOS
