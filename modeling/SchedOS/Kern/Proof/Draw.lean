import SchedOS.Kern.Proof.Lottery
import SchedOS.Kern.Proof.Safety
import SchedOS.Lib.XorShift

/-!
# The draw of algorithm 7

The four steps on `seed` are masked xor-shifts, so `scramble` permutes the 32-bit words and the draw
`seed % lotteryTotal` meets every ticket equally often, up to one time (`draw_unbiased`). The sum of
the tickets is a sum of 32-bit words, each of them any argument of `sys_lottery`: it is exact and
not zero only as long as these add up to a positive 32-bit number (`lottery_safe_iff`).
-/

namespace SchedOS

/-! ## The scrambling -/

theorem scramble_toBitVec (seed : UInt32) :
    (scramble seed).toBitVec = XorShift.right 18 0xefc60000 (XorShift.left 15 0x9d2c5680
      (XorShift.left 7 0xffffffff (XorShift.right 11 0x9908b0df seed.toBitVec))) := rfl

theorem scramble_injective : Function.Injective scramble := by
  intro x y h
  have hb := congrArg UInt32.toBitVec h
  rw [scramble_toBitVec, scramble_toBitVec] at hb
  have h3 := XorShift.right_injective (by decide) _ hb
  have h2 := XorShift.left_injective (by decide) _ h3
  have h1 := XorShift.left_injective (by decide) _ h2
  exact UInt32.toBitVec_inj.1 (XorShift.right_injective (by decide) _ h1)

/-- Of the 32-bit words as many are scrambled to words with a property as have it. -/
theorem count_scramble (p : UInt32 → Prop) [DecidablePred p] :
    Window.count (fun n => p (scramble (.ofNat n))) 0 (2 ^ 32) =
      Window.count (fun n => p (.ofNat n)) 0 (2 ^ 32) := by
  rw [← Window.count_perm (p := fun n => p (.ofNat n)) (f := fun n => (scramble (.ofNat n)).toNat)
    (fun n _ => (scramble (.ofNat n)).toNat_lt) fun m n hm hn h => ?_]
  · simp only [UInt32.ofNat_toNat]
  · have he := congrArg UInt32.toNat (scramble_injective (UInt32.toNat_inj.1 h))
    rwa [UInt32.toNat_ofNat_of_lt' hm, UInt32.toNat_ofNat_of_lt' hn] at he

/-- **The draw is unbiased**: the scrambling permutes the 32-bit words, so each ticket below the
total is drawn by `2 ^ 32 / total` of the seeds, or by one more. -/
theorem draw_unbiased :
    Function.Bijective scramble ∧ ∀ t r : UInt32, r < t →
      Window.count (fun s => scramble (.ofNat s) % t = r) 0 (2 ^ 32) = 2 ^ 32 / t.toNat ∨
        Window.count (fun s => scramble (.ofNat s) % t = r) 0 (2 ^ 32) = 2 ^ 32 / t.toNat + 1 := by
  refine ⟨?_, fun t r hr => ?_⟩
  · have : Finite UInt32 := Finite.of_injective UInt32.toFin fun _ _ => UInt32.toFin_inj.1
    exact Finite.injective_iff_bijective.1 scramble_injective
  · have hmod : ∀ n, 0 ≤ n → n < 2 ^ 32 →
        (UInt32.ofNat n % t = r ↔ n % t.toNat = r.toNat) := by
      intro n _ hn
      rw [← UInt32.toNat_inj, UInt32.toNat_mod, UInt32.toNat_ofNat_of_lt' hn]
    rw [count_scramble fun x => x % t = r, Window.count_congr hmod]
    exact Window.count_mod (UInt32.lt_iff_toNat_lt.1 hr) _

/-! ## The sums -/

/-- The sums of tickets that `schedule()` forms are exact, and it does not divide by zero. -/
structure LotterySafe (s : Kernel) : Prop where
  total : (lotteryTotal s.procArray).toNat = exactTotal s.procArray
  two : ((s.procArray 1).pLotteryAmt + (s.procArray 2).pLotteryAmt).toNat =
    tickets s.procArray 1 + tickets s.procArray 2
  three : ((s.procArray 1).pLotteryAmt + (s.procArray 2).pLotteryAmt +
      (s.procArray 3).pLotteryAmt).toNat =
    tickets s.procArray 1 + tickets s.procArray 2 + tickets s.procArray 3
  nonzero : lotteryTotal s.procArray ≠ 0
  noDivideError : ∀ tsc fuel, schedule tsc fuel s ≠ some .divideError

theorem lotteryPass_ne_divideError {pa : ProcArray} (h : lotteryTotal pa ≠ 0)
    (tsc : Nat → UInt64) (n : Nat) : lotteryPass pa tsc n ≠ .inr .divideError := by
  unfold lotteryPass
  dsimp only
  rw [if_neg h]
  split <;> exact nofun

theorem schedule_ne_divideError {s : Kernel} (halg : s.schedulingAlgorithm = 7)
    (h : lotteryTotal s.procArray ≠ 0) (tsc : Nat → UInt64) (fuel : Nat) :
    schedule tsc fuel s ≠ some .divideError := by
  intro hs
  simp only [schedule, halg, ↓reduceIte, show ¬ (7 : Int) = 0 by decide,
    show ¬ (7 : Int) = 2 by decide, show ¬ (7 : Int) = 41 by decide,
    show ¬ (7 : Int) = 42 by decide] at hs
  refine Loop.run_inv (I := fun _ => True) (Q := fun q => q ≠ .divideError)
    (fun _ _ _ _ => trivial) (fun n q _ hb hq => ?_) trivial hs rfl
  subst hq
  exact lotteryPass_ne_divideError h tsc n hb

theorem lotterySafe_iff {s : Kernel} (hI : KernInv 7 s) :
    LotterySafe s ↔ 1 ≤ exactTotal s.procArray ∧ exactTotal s.procArray < 2 ^ 32 := by
  constructor
  · intro h
    have hlt := (lotteryTotal s.procArray).toNat_lt
    refine ⟨Nat.one_le_iff_ne_zero.2 fun hz => h.nonzero (UInt32.toNat_inj.1 ?_), ?_⟩
    · rw [h.total, hz]
      rfl
    · rw [← h.total]
      exact hlt
  · rintro ⟨hpos, hlt⟩
    have htotal := lotteryTotal_toNat hI.table hlt
    have hsum := exactTotal_eq hI.table
    have hne : lotteryTotal s.procArray ≠ 0 := by
      intro hz
      rw [hz, UInt32.toNat_zero] at htotal
      omega
    unfold tickets at hsum
    refine ⟨htotal, ?_, ?_, hne, fun tsc => schedule_ne_divideError hI.algorithm hne tsc⟩
    · simp only [UInt32.toNat_add, tickets]
      omega
    · simp only [UInt32.toNat_add, tickets]
      omega

/-! ## Runs -/

section
variable {alg : Int} {boot : Boot} (r : Run alg boot)

/-- The argument of the last `sys_lottery` of process `p` before interrupt `i`. -/
def Run.lastLottery (p : Pid) : Nat → UInt32
  | 0 => 1
  | i + 1 =>
    if (r.event i).trap = .sysLottery ∧ (r.kern i).current = p then (r.event i).cpu.eax
    else Run.lastLottery p i

theorem procEffect_pLotteryAmt {t : Trap} (ht : t ≠ .sysLottery) (reg : Registers) (p : Process) :
    (t.procEffect reg p).pLotteryAmt = p.pLotteryAmt := by
  cases t <;> first | rfl | exact absurd rfl ht

theorem Run.call_pLotteryAmt {i : Nat} {p : Pid}
    (h : ((r.kern i).procArray p).pLotteryAmt = r.lastLottery p i) :
    ((r.call i).procArray p).pLotteryAmt = r.lastLottery p (i + 1) := by
  rw [Run.lastLottery, Run.call]
  by_cases hp : (r.kern i).current = p
  · subst hp
    rw [call_self]
    split
    · rename_i ht
      rw [ht.1, ← registers_eax]
      rfl
    · rename_i ht
      rw [procEffect_pLotteryAmt fun he => ht ⟨he, rfl⟩, h]
  · rw [call_of_ne _ _ (Ne.symm hp), h, if_neg fun hc => hp hc.2]

/-- The tickets of a process are those that it last asked for, or one. -/
theorem Run.pLotteryAmt_eq {i : Nat} (hi : i ≤ r.len) {p : Pid} (hp : p ≠ 0) :
    ((r.kern i).procArray p).pLotteryAmt = r.lastLottery p i := by
  induction i with
  | zero =>
    rw [r.kern_zero, start_procArray alg boot hp]
    rfl
  | succ i ih =>
    have hf := ((r.steps i hi).frame (r.inv (Nat.le_of_lt hi))).1
    exact (hf.pLotteryAmt p).trans (r.call_pLotteryAmt (ih (Nat.le_of_lt hi)))

/-- The exact sum of the tickets, from what the processes last asked for. -/
theorem exactTotal_eq_sum {pa : ProcArray} (ht : Table pa) {f : Pid → UInt32}
    (hf : ∀ p, p ≠ 0 → (pa p).pLotteryAmt = f p) :
    exactTotal pa = ∑ p ∈ livePids, (f p).toNat := by
  unfold livePids
  rw [exactTotal_eq ht, Finset.sum_insert (by decide), Finset.sum_insert (by decide),
    Finset.sum_insert (by decide), Finset.sum_singleton]
  unfold tickets
  rw [hf 1 (by decide), hf 2 (by decide), hf 3 (by decide), hf 4 (by decide)]
  omega

end

/-- **When the arithmetic of the lottery is safe**: in a run, the sums of tickets are exact and no
division by zero comes up exactly if the last arguments of `sys_lottery` of the four processes, 1
for a process that has made no such call, add up to at least 1 and to less than `2 ^ 32`. -/
theorem lottery_safe_iff {boot : Boot} (r : Run 7 boot) :
    (∀ i, i ≤ r.len → (LotterySafe (r.kern i) ↔
      1 ≤ ∑ p ∈ livePids, (r.lastLottery p i).toNat ∧
        ∑ p ∈ livePids, (r.lastLottery p i).toNat < 2 ^ 32)) ∧
    (∀ i, i < r.len → (LotterySafe (r.call i) ↔
      1 ≤ ∑ p ∈ livePids, (r.lastLottery p (i + 1)).toNat ∧
        ∑ p ∈ livePids, (r.lastLottery p (i + 1)).toNat < 2 ^ 32)) := by
  refine ⟨fun i hi => ?_, fun i hi => ?_⟩
  · have hI : KernInv 7 (r.kern i) := (r.inv hi).toKernInv
    rw [lotterySafe_iff hI, exactTotal_eq_sum hI.table fun p hp => r.pLotteryAmt_eq hi hp]
  · have hI := r.call_inv (Nat.le_of_lt hi)
    rw [lotterySafe_iff hI, exactTotal_eq_sum hI.table fun p hp =>
      r.call_pLotteryAmt (r.pLotteryAmt_eq (Nat.le_of_lt hi) hp)]

/-- `sys_lottery(2^32 - 3)`. -/
def lotteryWrap : Event := .ofCall .sysLottery 4294967293

/-- With the one ticket of each other process these add up to `2 ^ 32`, which is zero in 32 bits. -/
theorem lottery_divides_by_zero :
    ¬ ∀ (boot : Boot) (r : Run 7 boot) i, i < r.len →
      (∃ q, Runnable (r.call i).procArray q) → LotterySafe (r.call i) := by
  intro hclaim
  obtain ⟨m, hstep⟩ := Step.exists_of_running
    (m := (noInterrupt 7 .zero).state (noInterrupt 7 .zero).len) rfl lotteryWrap
  have hcall := (noInterrupt 7 .zero).call_snoc hstep
  have hlen : (noInterrupt 7 .zero).len < (Exec.snoc (noInterrupt 7 .zero) hstep).len :=
    Nat.one_pos
  have hrun : Runnable (lotteryWrap.call
      ((noInterrupt 7 .zero).kern (noInterrupt 7 .zero).len)).procArray 2 := by decide +kernel
  have hzero : lotteryTotal (lotteryWrap.call
      ((noInterrupt 7 .zero).kern (noInterrupt 7 .zero).len)).procArray = 0 := by decide +kernel
  have hne := (hclaim _ (Exec.snoc (noInterrupt 7 .zero) hstep) _ hlen
    ⟨2, by rw [hcall]; exact hrun⟩).nonzero
  rw [hcall] at hne
  exact hne hzero

end SchedOS
