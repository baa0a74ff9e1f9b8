import Mathlib.Algebra.BigOperators.Fin
import SchedOS.Kern.Proof.Table
import SchedOS.Lib.Tickets

/-!
# Algorithm 7

The draws `lotteryNum` are tickets, numbered in the order of the pids (`lotteryChoice_eq`). The
chain of tests gives a runnable process the tickets of the exited processes just before it, so the
lottery is fair (`LotteryFair`) only in the states where every exited process with tickets comes
after all the runnable ones (`lotteryFair_iff`).
-/

namespace SchedOS

/-- `p_lottery_amt`. -/
def tickets (pa : ProcArray) (q : Pid) : Nat := (pa q).pLotteryAmt.toNat

/-- The exact sum of `p_lottery_amt` over `proc_array`. -/
def exactTotal (pa : ProcArray) : Nat := ∑ q, tickets pa q

/-- The number of values of `lotteryNum` for which a pass of the chain runs `k`. -/
def draws (pa : ProcArray) (k : Pid) : Nat :=
  Window.count (fun n => lotteryChoice pa (.ofNat n) = some k) 0 (lotteryTotal pa).toNat

/-- The process that holds ticket `n`, the tickets being numbered in the order of the pids. -/
def ticketOwner (pa : ProcArray) (n : Nat) : Option Pid :=
  Tickets.owner (tickets pa) 0 [1, 2, 3, 4] n

/-- The draws of the runnable processes are in the proportion of their tickets, no process without
tickets is run while another has some, and the tickets of exited processes are drawn again. -/
structure LotteryFair (pa : ProcArray) : Prop where
  proportional : ∀ p q, Runnable pa p → Runnable pa q →
    draws pa p * tickets pa q = draws pa q * tickets pa p
  zero : ∀ p q, Runnable pa p → Runnable pa q → tickets pa p = 0 → 0 < tickets pa q →
    draws pa p = 0
  redrawn : ∀ n z, n < exactTotal pa → ticketOwner pa n = some z → (pa z).pState = .zombie →
    lotteryChoice pa (.ofNat n) = none

/-! ## The chain as a draw of tickets -/

section
variable {pa : ProcArray} (ht : Table pa)
include ht

theorem exactTotal_eq :
    exactTotal pa = tickets pa 1 + tickets pa 2 + tickets pa 3 + tickets pa 4 := by
  have h0 : tickets pa 0 = 0 := by
    unfold tickets
    rw [ht.slot0]
    rfl
  unfold exactTotal
  rw [Fin.sum_univ_five, h0, Nat.zero_add]

theorem lotteryTotal_toNat (h : exactTotal pa < 2 ^ 32) :
    (lotteryTotal pa).toNat = exactTotal pa := by
  have hsum := exactTotal_eq ht
  have hfold : lotteryTotal pa = 0 + (pa 0).pLotteryAmt + (pa 1).pLotteryAmt +
    (pa 2).pLotteryAmt + (pa 3).pLotteryAmt + (pa 4).pLotteryAmt := rfl
  unfold tickets at hsum
  rw [hfold, ht.slot0]
  simp only [UInt32.toNat_add, emptyProc, UInt32.toNat_zero]
  omega

theorem lotteryChoice_eq (h : exactTotal pa < 2 ^ 32) {n : Nat} (hn : n < exactTotal pa) :
    lotteryChoice pa (.ofNat n) =
      Tickets.choose (tickets pa) (Runnable pa) 0 [1, 2, 3, 4] n := by
  have hsum := exactTotal_eq ht
  have hlast : (n < tickets pa 1 + tickets pa 2 + tickets pa 3 + tickets pa 4 ∧ Runnable pa 4) ↔
      Runnable pa 4 := and_iff_right (hsum ▸ hn)
  have hn' : (UInt32.ofNat n).toNat = n := UInt32.toNat_ofNat_of_lt' (show n < 2 ^ 32 by omega)
  have h2 : (tickets pa 1 + tickets pa 2) % 2 ^ 32 = tickets pa 1 + tickets pa 2 :=
    Nat.mod_eq_of_lt (by omega)
  have h3 : (tickets pa 1 + tickets pa 2 + tickets pa 3) % 2 ^ 32 =
      tickets pa 1 + tickets pa 2 + tickets pa 3 := Nat.mod_eq_of_lt (by omega)
  unfold tickets at h2 h3 hlast
  unfold lotteryChoice
  simp only [Tickets.choose, tickets, UInt32.lt_iff_toNat_lt, UInt32.toNat_add, hn', Nat.zero_add,
    h2, h3, hlast]

/-- No exited process with tickets comes before a runnable one. -/
theorem clean_iff_zombie :
    Tickets.Clean (tickets pa) (Runnable pa) [1, 2, 3, 4] ↔
      ∀ z k, (pa z).pState = .zombie → 0 < (pa z).pLotteryAmt → Runnable pa k → k < z := by
  constructor
  · intro h z k hz hpos hk
    have hz0 : z ≠ 0 := by
      rintro rfl
      rw [ht.slot0] at hz
      cases hz
    have hzk : ¬ Runnable pa z := not_runnable_of_zombie hz
    have hsub : ∀ z k : Pid, z ≠ 0 → z < k → [z, k].Sublist [1, 2, 3, 4] := by decide
    rcases Nat.lt_trichotomy k.val z.val with hlt | heq | hlt
    · exact hlt
    · exact absurd (Fin.ext heq ▸ hk) hzk
    · have := List.pairwise_iff_forall_sublist.1 h (hsub z k hz0 hlt) hk hzk
      exact absurd (UInt32.lt_iff_toNat_lt.1 hpos) (by unfold tickets at this; omega)
  · intro h
    have hsorted : [(1 : Pid), 2, 3, 4].Pairwise (· < ·) := by decide
    refine hsorted.imp_of_mem fun {z k} hz _ hzk hk hr => ?_
    have hz0 : ∀ z ∈ [(1 : Pid), 2, 3, 4], z ≠ 0 := by decide
    have hzombie : (pa z).pState = .zombie := (ht.state z (hz0 z hz)).resolve_left hr
    apply Nat.eq_zero_of_not_pos
    intro hpos
    have hkz := h z k hzombie (UInt32.lt_iff_toNat_lt.2 hpos) hk
    exact absurd hkz (Nat.lt_asymm hzk)

/-- When the lottery is fair. -/
theorem lotteryFair_iff (h : exactTotal pa < 2 ^ 32) :
    LotteryFair pa ↔
      ∀ z k, (pa z).pState = .zombie → 0 < (pa z).pLotteryAmt → Runnable pa k → k < z := by
  have htotal : exactTotal pa = 0 + Tickets.total (tickets pa) [1, 2, 3, 4] := by
    rw [exactTotal_eq ht]
    simp only [Tickets.total]
    omega
  rw [← clean_iff_zombie ht]
  constructor
  · intro hfair
    refine (Tickets.clean_iff 0).2 fun n z hn ho hz => ?_
    have hmem : ∀ z ∈ [(1 : Pid), 2, 3, 4], z ≠ 0 := by decide
    have hlt : n < exactTotal pa := by
      rw [htotal]
      exact Tickets.owner_lt ho
    rw [← lotteryChoice_eq ht h hlt]
    exact hfair.redrawn n z hlt ho
      ((ht.state z (hmem z (Tickets.owner_mem ho))).resolve_left hz)
  · intro hclean
    have hdraws : ∀ k, Runnable pa k → draws pa k = tickets pa k := by
      intro k hk
      have hmem : ∀ k : Pid, k ≠ 0 → k ∈ [(1 : Pid), 2, 3, 4] := by decide
      unfold draws
      rw [lotteryTotal_toNat ht h,
        Window.count_congr fun n _ hn => by rw [lotteryChoice_eq ht h hn], htotal]
      exact hclean.count_choose 0 (by decide) (hmem k (ht.ne_zero hk)) hk
    refine ⟨fun p q hp hq => ?_, fun p q hp hq hz _ => ?_, fun n z hn ho hz => ?_⟩
    · rw [hdraws p hp, hdraws q hq, Nat.mul_comm]
    · rw [hdraws p hp, hz]
    · rw [lotteryChoice_eq ht h hn]
      exact (Tickets.clean_iff 0).1 hclean n z (Nat.zero_le n) ho (not_runnable_of_zombie hz)

end

/-! ## Runs -/

/-- **When the lottery is fair**: in every state of a run, and at every call of `schedule()`, in
which the tickets add up to a 32-bit number, the lottery is fair exactly if every exited process
that still has tickets has a larger pid than every runnable one. -/
theorem lottery_fair_iff {boot : Boot} (r : Run 7 boot) :
    (∀ i, i ≤ r.len → 1 ≤ exactTotal (r.kern i).procArray →
      exactTotal (r.kern i).procArray < 2 ^ 32 →
      (LotteryFair (r.kern i).procArray ↔ ∀ z k, ((r.kern i).procArray z).pState = .zombie →
        0 < ((r.kern i).procArray z).pLotteryAmt → Runnable (r.kern i).procArray k → k < z)) ∧
    (∀ i, i < r.len → 1 ≤ exactTotal (r.call i).procArray →
      exactTotal (r.call i).procArray < 2 ^ 32 →
      (LotteryFair (r.call i).procArray ↔ ∀ z k, ((r.call i).procArray z).pState = .zombie →
        0 < ((r.call i).procArray z).pLotteryAmt → Runnable (r.call i).procArray k → k < z)) :=
  ⟨fun _ hi _ h => lotteryFair_iff (r.inv hi).table h,
    fun _ hi _ h => lotteryFair_iff (r.call_inv (Nat.le_of_lt hi)).table h⟩

/-- The process table once process 1 has exited. -/
def oneExited : Kernel := (Event.ofCall .sysExit 0).call (start 7 .zero).kern

theorem oneExited_schedules : Schedules (fun _ => 0) oneExited oneExited.procArray 2 := by
  have hchoice : lotteryChoice oneExited.procArray
      (scramble 0 % lotteryTotal oneExited.procArray) = some 2 := by decide
  have htotal : lotteryTotal oneExited.procArray ≠ 0 := by decide
  rw [schedules_lottery (call_schedulingAlgorithm _ _)]
  refine .inr ?_
  unfold lotteryPass
  dsimp only
  rw [if_neg htotal, show scramble (0 : UInt64).toUInt32 = scramble 0 from rfl, hchoice]

theorem oneExited_step : Step (start 7 .zero) (.ofCall .sysExit 0) (run oneExited 2) := by
  obtain ⟨s, c, hs⟩ : ∃ s c, start 7 .zero = .user s c := ⟨_, _, rfl⟩
  have hcall : oneExited = (Event.ofCall .sysExit 0).call s := by rw [oneExited, hs]; rfl
  have hstep := oneExited_schedules
  rw [hcall] at hstep ⊢
  rw [hs]
  exact Step.of_schedules hstep

/-- Process 1 exits, and process 2 gets the CPU. -/
def exitFirst : Run 7 .zero where
  len := 1
  state i := if i = 0 then start 7 .zero else run oneExited 2
  event _ := .ofCall .sysExit 0
  start := rfl
  steps i hi := by
    obtain rfl : i = 0 := by omega
    exact oneExited_step

/-- The tickets of an exited process go to the next runnable one. -/
theorem lottery_unfair :
    ¬ ∀ (boot : Boot) (r : Run 7 boot) i, i ≤ r.len → 1 ≤ exactTotal (r.kern i).procArray →
      exactTotal (r.kern i).procArray < 2 ^ 32 → LotteryFair (r.kern i).procArray := by
  intro hclaim
  have ht : Table oneExited.procArray := (exitFirst.inv (Nat.le_refl 1)).table
  have hamt : ∀ q : Pid, q ≠ 0 → tickets oneExited.procArray q = 1 := by decide
  have htotal : exactTotal oneExited.procArray = 4 := by
    rw [exactTotal_eq ht, hamt 1 (by decide), hamt 2 (by decide), hamt 3 (by decide),
      hamt 4 (by decide)]
  have hfair : LotteryFair oneExited.procArray :=
    hclaim _ exitFirst 1 (Nat.le_refl 1) (show 1 ≤ exactTotal oneExited.procArray by omega)
      (show exactTotal oneExited.procArray < 2 ^ 32 by omega)
  have hlt := (lotteryFair_iff ht (by omega)).1 hfair 1 2 (by decide) (by decide) (by decide)
  exact absurd hlt (by decide)

end SchedOS
