import SchedOS.Kern.Proof.Cycle
import SchedOS.Kern.Proof.Safety
import SchedOS.Lib.Credit

/-!
# Algorithm 42

`p_share_left` is credit (`shares`). A call of `schedule()` that resets it (`Resets`) does so
exactly when no runnable process has share left (`resets_iff`), although the search skips the pid it
starts from and starts again one pid lower: three passes are enough (`exists_sharePass`). So each
dispatch is a service of the credit scheduler (`Schedules.spend`, `Schedules.refill`), which gives
exact rounds (`share_rounds_exact`) and a bound on the waiting as long as the other processes do not
refill their own share (`share_bounded_wait`).
-/

namespace SchedOS

/-- The shares of a process table. -/
def shares (pa : ProcArray) : Credit Pid where
  ready := Runnable pa
  amt q := (pa q).pShareAmt.toNat
  left q := (pa q).pShareLeft.toNat

/-- The call of `schedule()` goes through a reset of `p_share_left`: the process that gives up the
CPU has no share left, and the first pass of the loop finds no process to run. -/
def Resets (s : Kernel) : Prop :=
  ¬ HasShare s.procArray s.currentProc.pPid ∧
    ∃ st, sharePass (s.procArray, s.currentProc.pPid) = .inl st

/-! ## One pass -/

theorem shareFind_eq (pa : ProcArray) : ∀ (n : Nat) (c : Pid),
    shareFind pa n c = ((visits n c).find? (HasShare pa)).getD (next^[n] c)
  | 0, _ => rfl
  | n + 1, c => by
    unfold shareFind
    rw [visits, List.find?_cons, Function.iterate_succ_apply]
    dsimp only
    by_cases h : HasShare pa (next c)
    · rw [if_pos h, decide_eq_true h]
      rfl
    · rw [if_neg h, decide_eq_false h]
      exact shareFind_eq pa n (next c)

/-- A pass goes on exactly if no process has share left, the one it starts from aside; the next pass
starts from the pid below. -/
theorem sharePass_inl_iff {pa : ProcArray} {c : Pid} {st : ProcArray × Pid} :
    sharePass (pa, c) = .inl st ↔
      (∀ q ∈ visits (NPROCS - 1) c, ¬ HasShare pa q) ∧
        st = (resetShares pa, next^[NPROCS - 1] c) := by
  have hfind := shareFind_eq pa (NPROCS - 1) c
  unfold sharePass
  dsimp only
  cases hf : (visits (NPROCS - 1) c).find? (HasShare pa) with
  | none =>
    have hno : ∀ q ∈ visits (NPROCS - 1) c, ¬ HasShare pa q := by
      simpa using List.find?_eq_none.1 hf
    rw [hf, Option.getD_none] at hfind
    rw [hfind, if_neg (hno _ (iterate_next_mem_visits c)), Sum.inl.injEq]
    exact ⟨fun h => ⟨hno, h.symm⟩, fun h => h.2.symm⟩
  | some k =>
    have hk : HasShare pa k := by simpa using List.find?_some hf
    rw [hf, Option.getD_some] at hfind
    rw [hfind, if_pos hk]
    exact ⟨nofun, fun h => absurd hk (h.1 k (List.mem_of_find?_eq_some hf))⟩

/-- The reset comes exactly when no process is left to run. -/
theorem resets_iff (s : Kernel) : Resets s ↔ ∀ q, ¬ HasShare s.procArray q := by
  constructor
  · rintro ⟨hc, st, hst⟩ q hq
    rcases List.mem_cons.1 (mem_visits s.currentProc.pPid q) with rfl | hv
    · exact hc hq
    · exact (sharePass_inl_iff.1 hst).1 q hv hq
  · intro h
    exact ⟨h _, _, sharePass_inl_iff.2 ⟨fun q _ => h q, rfl⟩⟩

/-! ## The loop -/

theorem iterate_next_ne : ∀ c : Pid, next^[NPROCS - 1] c ≠ c := by decide

/-- A runnable process with a positive share ends the loop within three passes: after the reset a
pass misses it only if it starts from it, and the next one starts from another. -/
theorem exists_sharePass {pa : ProcArray} {q : Pid} (h0 : q ≠ 0) (hq : Runnable pa q)
    (hamt : 0 < (pa q).pShareAmt) (c : Pid) : ∃ r, Loop.run sharePass 3 (pa, c) = some r := by
  have hq1 : HasShare (resetShares pa) q := by
    refine ⟨((resetShares_frame pa).runnable q).2 hq, ?_⟩
    unfold resetShares
    rwa [if_pos (one_le_val h0)]
  have hmiss : ∀ c' st, sharePass (resetShares pa, c') = .inl st →
      q = c' ∧ st = (resetShares pa, next^[NPROCS - 1] c') := by
    intro c' st h
    obtain ⟨hv, rfl⟩ := sharePass_inl_iff.1 h
    rw [resetShares_idem]
    exact ⟨(List.mem_cons.1 (mem_visits c' q)).resolve_right fun hm => hv q hm hq1, rfl⟩
  cases h1 : sharePass (pa, c) with
  | inr r => exact ⟨r, Loop.run_succ_inr h1⟩
  | inl st1 =>
    obtain ⟨-, rfl⟩ := sharePass_inl_iff.1 h1
    rw [Loop.run_succ_inl h1]
    cases h2 : sharePass (resetShares pa, next^[NPROCS - 1] c) with
    | inr r => exact ⟨r, Loop.run_succ_inr h2⟩
    | inl st2 =>
      obtain ⟨hc2, rfl⟩ := hmiss _ _ h2
      rw [Loop.run_succ_inl h2]
      cases h3 : sharePass (resetShares pa, next^[NPROCS - 1] (next^[NPROCS - 1] c)) with
      | inr r => exact ⟨r, Loop.run_succ_inr h3⟩
      | inl st3 =>
        obtain ⟨hc3, -⟩ := hmiss _ _ h3
        exact absurd (hc3.symm.trans hc2) (iterate_next_ne _)

/-! ## A dispatch as a service -/

theorem pos_of_hasShare {pa : ProcArray} {q : Pid} (h : HasShare pa q) :
    0 < (pa q).pShareLeft.toNat :=
  UInt32.lt_iff_toNat_lt.1 h.2

theorem left_of_not_hasShare {pa : ProcArray} {q : Pid} (hq : Runnable pa q)
    (h : ¬ HasShare pa q) : (pa q).pShareLeft.toNat = 0 :=
  Nat.eq_zero_of_not_pos fun hp => h ⟨hq, UInt32.lt_iff_toNat_lt.2 hp⟩

theorem takeShare_left {pa : ProcArray} {k : Pid} (h : HasShare pa k) :
    (shares (takeShare pa k)).left =
      Function.update (shares pa).left k ((shares pa).left k - 1) := by
  have hle : (1 : UInt32) ≤ (pa k).pShareLeft := UInt32.le_iff_toNat_le.2 (pos_of_hasShare h)
  funext q
  by_cases hq : q = k
  · subst hq
    simp only [shares, takeShare, Function.update_self]
    exact UInt32.toNat_sub_of_le _ _ hle
  · simp only [shares, takeShare, Function.update_of_ne hq]

theorem takeShare_amt (pa : ProcArray) (k : Pid) :
    (shares (takeShare pa k)).amt = (shares pa).amt := by
  funext q
  by_cases hq : q = k
  · subst hq
    simp only [shares, takeShare, Function.update_self]
  · simp only [shares, takeShare, Function.update_of_ne hq]

theorem resetShares_left {pa : ProcArray} (h : Table pa) :
    (shares (resetShares pa)).left = (shares pa).amt := by
  funext q
  simp only [shares, resetShares]
  split
  · rfl
  · rename_i hq
    obtain rfl : q = 0 := Fin.ext (Nat.eq_zero_of_not_pos hq)
    rw [h.slot0]
    rfl

section
variable {tsc : Nat → UInt64} {s : Kernel} {pa : ProcArray} {k : Pid}

theorem Schedules.share_cases (hI : KernInv 42 s) (h : Schedules tsc s pa k) :
    (HasShare s.procArray k ∧ pa = takeShare s.procArray k) ∨
      (Resets s ∧ HasShare (resetShares s.procArray) k ∧
        pa = takeShare (resetShares s.procArray) k) := by
  rw [schedules_share hI.algorithm] at h
  split at h
  · rename_i hc
    obtain ⟨rfl, rfl⟩ := h
    exact .inl ⟨hc, rfl⟩
  · rename_i hc
    rcases ends_sharePass h with ⟨hk, rfl, -⟩ | ⟨hk, rfl, hst⟩
    · exact .inl ⟨hk, rfl⟩
    · exact .inr ⟨⟨hc, hst⟩, hk, rfl⟩

/-- Without a reset the dispatch spends share that the process has left. -/
theorem Schedules.spend (hI : KernInv 42 s) (h : Schedules tsc s pa k) (hr : ¬ Resets s) :
    (shares s.procArray).Spend k (shares pa) := by
  rcases h.share_cases hI with ⟨hk, rfl⟩ | ⟨hr', -⟩
  · exact ⟨hk.1, pos_of_hasShare hk, takeShare_amt _ _, takeShare_left hk⟩
  · exact absurd hr' hr

/-- With a reset every runnable process gets its share again. -/
theorem Schedules.refill (hI : KernInv 42 s) (h : Schedules tsc s pa k) (hr : Resets s) :
    (shares s.procArray).Refill k (shares pa) := by
  have hno := (resets_iff s).1 hr
  rcases h.share_cases hI with ⟨hk, -⟩ | ⟨-, hk, rfl⟩
  · exact absurd hk (hno k)
  · have hf := resetShares_frame s.procArray
    have hamt : (shares (resetShares s.procArray)).amt = (shares s.procArray).amt := by
      funext q
      simp only [shares, hf.pShareAmt]
    have hleft := resetShares_left hI.table
    refine ⟨fun q hq => left_of_not_hasShare hq (hno q), (hf.runnable k).1 hk.1, ?_, ?_, ?_⟩
    · rw [← hleft]
      exact pos_of_hasShare hk
    · rw [takeShare_amt, hamt]
    · rw [takeShare_left hk, hleft]

theorem Schedules.serve (hI : KernInv 42 s) (h : Schedules tsc s pa k) :
    (shares s.procArray).Serve k (shares pa) := by
  by_cases hr : Resets s
  · exact .inr (h.refill hI hr)
  · exact .inl (h.spend hI hr)

end

/-! ## Runs -/

theorem procEffect_share {t : Trap} (ht : t ≠ .sysShare) (reg : Registers) (p : Process) :
    (t.procEffect reg p).pShareAmt = p.pShareAmt ∧
      (t.procEffect reg p).pShareLeft = p.pShareLeft := by
  cases t <;> first | exact ⟨rfl, rfl⟩ | exact absurd rfl ht

/-- Only the `sys_share` of a process changes its share. -/
theorem call_share (e : Event) {s : Kernel} {q : Pid} (h : q = s.current → e.trap ≠ .sysShare) :
    (shares (e.call s).procArray).amt q = (shares s.procArray).amt q ∧
      (shares (e.call s).procArray).left q = (shares s.procArray).left q := by
  by_cases hq : q = s.current
  · obtain ⟨ha, hl⟩ := procEffect_share (h hq) e.registers (s.procArray s.current)
    simp only [shares]
    rw [hq, call_self, ha, hl]
    exact ⟨rfl, rfl⟩
  · simp only [shares]
    rw [call_of_ne e s hq]
    exact ⟨rfl, rfl⟩

theorem call_sysShare {e : Event} (he : e.trap = .sysShare) (s : Kernel) :
    (shares (e.call s).procArray).amt s.current = e.cpu.eax.toNat ∧
      (shares (e.call s).procArray).left s.current = e.cpu.eax.toNat := by
  simp only [shares]
  rw [call_self, he, ← registers_eax]
  exact ⟨rfl, rfl⟩

section
variable {boot : Boot} (r : Run 42 boot)

/-- A dispatch that another interrupt follows. -/
theorem Run.dispatched_of_lt {alg : Int} {boot : Boot} (r : Run alg boot) {i : Nat}
    (hi : i + 1 < r.len) : r.dispatched i = some (r.kern (i + 1)).current :=
  (r.steps (i + 1) hi).running_current

theorem Run.share_dispatched {i : Nat} (hi : i < r.len) {q : Pid}
    (hq : Runnable (r.call i).procArray q) (hamt : 0 < ((r.call i).procArray q).pShareAmt) :
    ∃ k, r.dispatched i = some k := by
  have hc := r.call_inv (Nat.le_of_lt hi)
  have hs : ∃ pa k, Schedules (r.event i).tsc (r.call i) pa k := by
    simp only [schedules_share hc.algorithm]
    split
    · exact ⟨_, _, rfl, rfl⟩
    · obtain ⟨⟨pa, k⟩, hend⟩ := exists_sharePass (hc.table.ne_zero hq) hq hamt _
      exact ⟨pa, k, 3, hend⟩
  obtain ⟨pa, k, hs⟩ := hs
  refine ⟨k, ?_⟩
  rw [Run.dispatched, r.state_of_schedules hi hs]
  rfl

/-- **Algorithm 42 gives exact shares per round**: the reset comes exactly when no runnable process
has share left, and from the call with one reset to the call with the next, a process that stays
runnable and does not change its share runs `p_share_amt` times. -/
theorem share_rounds_exact :
    (∀ i, i < r.len → (Resets (r.call i) ↔ ∀ q, ¬ HasShare (r.call i).procArray q)) ∧
    (∀ a b p, a < b → b < r.len → Resets (r.call a) → Resets (r.call b) →
      (∀ i, a < i → i < b → ¬ Resets (r.call i)) →
      (∀ i, a ≤ i → i ≤ b → Runnable (r.call i).procArray p) →
      (∀ i, a < i → i ≤ b → p = (r.kern i).current → (r.event i).trap ≠ .sysShare) →
      Window.count (fun i => r.dispatched i = some p) a b =
        ((r.call a).procArray p).pShareAmt.toNat) := by
  refine ⟨fun i _ => resets_iff _, fun a b p hab hb ha hrb hno hp hsteady => ?_⟩
  have hsched : ∀ i, a ≤ i → i < b → Schedules (r.event i).tsc (r.call i)
      (r.kern (i + 1)).procArray (r.kern (i + 1)).current := fun i _ h2 =>
    r.schedules_of_dispatched (by omega) (r.dispatched_of_lt (by omega))
  have hinv : ∀ i, i < b → KernInv 42 (r.call i) := fun i h => r.call_inv (by omega)
  have hround := Credit.round (x := fun i => shares (r.call i).procArray)
    (y := fun i => shares (r.kern (i + 1)).procArray) (k := fun i => (r.kern (i + 1)).current)
    (p := p) hab ((hsched a (Nat.le_refl a) hab).refill (hinv a hab) ha)
    (fun i h1 h2 => (hsched i (Nat.le_of_lt h1) h2).spend (hinv i h2) (hno i h1 h2))
    (fun i h1 h2 => (call_share _ (hsteady (i + 1) (by omega) (by omega))).2)
    (left_of_not_hasShare (hp b (Nat.le_of_lt hab) (Nat.le_refl b)) ((resets_iff _).1 hrb p))
  rw [← show _ = ((r.call a).procArray p).pShareAmt.toNat from hround]
  refine Window.count_congr fun i h1 h2 => ?_
  rw [r.dispatched_of_lt (by omega), Option.some.injEq]

end

/-- Process 1 asks for a share of 2, and processes 2 and 3 exit before their shares are refilled. -/
def twoShares : Run 42 .zero :=
  .ofEvents 42 (fun i => if i = 0 then .ofCall .sysShare 2
    else if i = 3 ∨ i = 4 then .ofCall .sysExit 0 else yieldCall) 9 (by decide +kernel)

/-- The round of processes 1 and 4. -/
theorem twoShares_round : Resets (twoShares.call 5) ∧ Resets (twoShares.call 8) ∧
    Window.count (fun i => twoShares.dispatched i = some 1) 5 8 = 2 := by
  obtain ⟨hresets, hround⟩ := share_rounds_exact twoShares
  have hempty : (∀ q, ¬ HasShare (twoShares.call 5).procArray q) ∧
      ∀ q, ¬ HasShare (twoShares.call 8).procArray q := by decide +kernel
  have hfirst := (hresets 5 (by decide)).2 hempty.1
  have hlast := (hresets 8 (by decide)).2 hempty.2
  have hleft : ∀ i, i < 8 → 5 < i → ∃ q, HasShare (twoShares.call i).procArray q := by
    decide +kernel
  have hrun : ∀ i, i ≤ 8 → 5 ≤ i → Runnable (twoShares.call i).procArray 1 := by decide +kernel
  have hsteady : ∀ i, i ≤ 8 → 5 < i → (twoShares.event i).trap ≠ .sysShare := by decide +kernel
  have hcount := hround 5 8 1 (by decide) (by decide) hfirst hlast
    (fun i h1 h2 hr => (hleft i h2 h1).elim ((hresets i (show i < 9 by omega)).1 hr))
    (fun i h1 h2 => hrun i h2 h1) fun i h1 h2 _ => hsteady i h2 h1
  exact ⟨hfirst, hlast, hcount.trans (by decide +kernel)⟩

/-! ## Waiting -/

section
variable {boot : Boot} (r : Run 42 boot)

/-- Every `sys_share` of the run asks for 1 to `A`. -/
def Run.SharesWithin (A : Nat) : Prop :=
  ∀ i, i < r.len → (r.event i).trap = .sysShare →
    1 ≤ (r.event i).cpu.eax.toNat ∧ (r.event i).cpu.eax.toNat ≤ A

end

/-- The shares of the four processes are within bounds. -/
structure ShareInv (A : Nat) (pa : ProcArray) : Prop where
  amt_pos : ∀ q, q ≠ 0 → 0 < (shares pa).amt q
  amt_le : ∀ q, q ≠ 0 → (shares pa).amt q ≤ A
  left_le : ∀ q, q ≠ 0 → (shares pa).left q ≤ A

theorem ShareInv.bounded {A : Nat} {pa : ProcArray} (h : ShareInv A pa) (ht : Table pa) :
    (shares pa).Bounded livePids A :=
  ⟨fun _ hq => ht.mem_livePids hq, fun q hq => h.amt_le q ((mem_livePids q).1 hq),
    fun q hq => h.left_le q ((mem_livePids q).1 hq)⟩

theorem ShareInv.call {A : Nat} {s : Kernel} (h : ShareInv A s.procArray) {e : Event}
    (he : e.trap = .sysShare → 1 ≤ e.cpu.eax.toNat ∧ e.cpu.eax.toNat ≤ A) :
    ShareInv A (e.call s).procArray := by
  have key : ∀ q, q ≠ 0 → 0 < (shares (e.call s).procArray).amt q ∧
      (shares (e.call s).procArray).amt q ≤ A ∧ (shares (e.call s).procArray).left q ≤ A := by
    intro q hq
    by_cases hqs : q = s.current ∧ e.trap = .sysShare
    · obtain ⟨rfl, ht⟩ := hqs
      obtain ⟨ha, hl⟩ := call_sysShare ht s
      obtain ⟨h1, h2⟩ := he ht
      rw [ha, hl]
      exact ⟨h1, h2, h2⟩
    · obtain ⟨ha, hl⟩ := call_share e (s := s) (q := q) fun h1 h2 => hqs ⟨h1, h2⟩
      rw [ha, hl]
      exact ⟨h.amt_pos q hq, h.amt_le q hq, h.left_le q hq⟩
  exact ⟨fun q hq => (key q hq).1, fun q hq => (key q hq).2.1, fun q hq => (key q hq).2.2⟩

theorem ShareInv.serve {A : Nat} {pa pa' : ProcArray} {k : Pid} (h : ShareInv A pa)
    (hs : (shares pa).Serve k (shares pa')) : ShareInv A pa' := by
  refine ⟨fun q hq => ?_, fun q hq => ?_, fun q hq => hs.left_le (h.amt_le q hq) (h.left_le q hq)⟩
  · rw [hs.amt]
    exact h.amt_pos q hq
  · rw [hs.amt]
    exact h.amt_le q hq

/-- One interrupt keeps the shares within bounds. -/
theorem Step.shareInv {A : Nat} {m m' : Machine} {e : Event} (hI : Inv 42 m) (h : Step m e m')
    (hA : ShareInv A m.kern.procArray)
    (he : e.trap = .sysShare → 1 ≤ e.cpu.eax.toNat ∧ e.cpu.eax.toNat ≤ A) :
    ShareInv A m'.kern.procArray := by
  have hcall := hA.call he
  obtain ⟨s, c, rfl, ⟨pa, k, hs, rfl⟩ | ⟨-, rfl⟩⟩ := h.inv
  · exact hcall.serve (hs.serve (hI.toKernInv.call e))
  · exact hcall

section
variable {boot : Boot} (r : Run 42 boot)

theorem Run.shareInv {A : Nat} (hA : 1 ≤ A) (h : r.SharesWithin A) {i : Nat} (hi : i < r.len) :
    ShareInv A (r.call i).procArray := by
  have h0 : ShareInv A (r.state 0).kern.procArray := by
    have hone : ∀ q : Pid, q ≠ 0 → (shares (start 42 boot).kern.procArray).amt q = 1 ∧
        (shares (start 42 boot).kern.procArray).left q = 1 := by
      intro q hq
      simp only [shares]
      rw [start_procArray 42 boot hq]
      exact ⟨rfl, rfl⟩
    rw [r.start]
    refine ⟨fun q hq => ?_, fun q hq => ?_, fun q hq => ?_⟩
    · rw [(hone q hq).1]
      exact Nat.one_pos
    · rwa [(hone q hq).1]
    · rwa [(hone q hq).2]
  have hk := r.keeps (P := fun m => ShareInv A m.kern.procArray) (Nat.zero_le i)
    (Nat.le_of_lt hi) h0 fun j _ hj hP =>
      (r.steps j (by omega)).shareInv (r.inv (by omega)) hP (h j (by omega))
  exact ShareInv.call hk (h i hi)

/-- **A bounded number of `sys_share` calls delays a process by a bounded time**: with every
argument of `sys_share` in 1 to `A`, a process that stays runnable runs in every window of a length
that depends only on `A` and on the number of `sys_share` calls that other processes make in it. -/
theorem share_bounded_wait (A N : Nat) : ∃ B, ∀ (boot : Boot) (r : Run 42 boot), r.SharesWithin A →
    ∀ a p, a + B ≤ r.len → (∀ i, a ≤ i → i < a + B → Runnable (r.call i).procArray p) →
      Window.count (fun i => (r.event i).trap = .sysShare ∧ (r.kern i).current ≠ p) a (a + B) ≤ N →
      ∃ i, a ≤ i ∧ i < a + B ∧ r.dispatched i = some p := by
  obtain ⟨M, hM⟩ : ∃ M, M = max A 1 := ⟨_, rfl⟩
  refine ⟨2 * (3 * M) + M * N + 1, fun boot r hA a p ha hp hN => ?_⟩
  obtain ⟨n, hn⟩ : ∃ n, n = 2 * (3 * M) + M * N := ⟨_, rfl⟩
  rw [← hn] at ha hp hN ⊢
  have hA' : r.SharesWithin M := fun i hi ht => by
    have := hA i hi ht
    omega
  have hinv : ∀ i, a ≤ i → i ≤ a + n → ShareInv M (r.call i).procArray ∧ KernInv 42 (r.call i) :=
    fun i _ h2 => ⟨r.shareInv (by omega) hA' (by omega), r.call_inv (by omega)⟩
  have hready : ∀ i, a ≤ i → i ≤ a + n → Runnable (r.call i).procArray p ∧
      0 < (shares (r.call i).procArray).amt p := fun i h1 h2 =>
    ⟨hp i h1 (by omega), (hinv i h1 h2).1.amt_pos p
      ((hinv i h1 h2).2.table.ne_zero (hp i h1 (by omega)))⟩
  apply Classical.byContradiction
  intro hnone
  -- the dispatches are services of other processes
  have hserve : ∀ i, a ≤ i → i ≤ a + n → (shares (r.call i).procArray).Serve
      (r.kern (i + 1)).current (shares (r.kern (i + 1)).procArray) ∧
        (r.kern (i + 1)).current ≠ p := by
    intro i h1 h2
    obtain ⟨hr, hamt⟩ := hready i h1 h2
    obtain ⟨k, hd⟩ := r.share_dispatched (by omega) hr (UInt32.lt_iff_toNat_lt.2 hamt)
    rw [r.current_of_dispatched i hd]
    exact ⟨(r.schedules_of_dispatched (by omega) hd).serve (hinv i h1 h2).2,
      fun hk => hnone ⟨i, h1, by omega, hk ▸ hd⟩⟩
  have hwait := Credit.wait (x := fun i => shares (r.call i).procArray)
    (y := fun i => shares (r.kern (i + 1)).procArray) (k := fun i => (r.kern (i + 1)).current)
    (g := fun i => (r.event i).trap = .sysShare ∧ (r.kern i).current ≠ p)
    (T := livePids) (A := M)
    (fun i h1 h2 => (hinv i h1 h2).1.bounded (hinv i h1 h2).2.table) hready hserve ?_
  · have hcount := Window.count_le_count
      (fun i => (r.event i).trap = .sysShare ∧ (r.kern i).current ≠ p)
      (a := a + 1) (b := a + 1 + n) (c := a) (d := a + (n + 1)) (by omega) (by omega)
    have hmul := Nat.mul_le_mul_left M (Nat.le_trans hcount hN)
    rw [card_livePids] at hwait
    omega
  · intro i h1 h2
    have hne := (hserve i h1 (Nat.le_of_lt h2)).2
    have hother : ∀ q, (q = (r.kern (i + 1)).current → (r.event (i + 1)).trap ≠ .sysShare) →
        (shares (r.call (i + 1)).procArray).left q =
          (shares (r.kern (i + 1)).procArray).left q := fun q hq => (call_share _ hq).2
    by_cases ht : (r.event (i + 1)).trap = .sysShare
    · rw [if_pos ⟨ht, hne⟩]
      refine Credit.load_gift (fun q hq => hother q fun he => absurd he hq)
        ((hinv (i + 1) (by omega) (by omega)).1.left_le _ ?_) hne
      exact (r.inv (by omega)).current
    · rw [if_neg fun h => ht h.1, Nat.add_zero]
      refine Nat.le_of_eq (Credit.load_congr fun q => hother q fun _ => ht)

end

/-- The processes can yield for ever. -/
theorem exists_yields (boot : Boot) (n : Nat) : ∃ r : Run 42 boot, r.len = n ∧
    (∀ i, i < n → r.event i = yieldCall) ∧ (r.state n).running.isSome ∧
      ∀ i, i ≤ n → ∀ p, p ≠ 0 → Runnable (r.kern i).procArray p := by
  induction n with
  | zero =>
    refine ⟨noInterrupt 42 boot, rfl, fun i hi => absurd hi (Nat.not_lt_zero i), rfl,
      fun _ _ p hp => ?_⟩
    show Runnable (start 42 boot).kern.procArray p
    unfold Runnable
    rw [start_procArray 42 boot hp]
    rfl
  | succ n ih =>
    obtain ⟨r, rfl, hyield, hrunning, hall⟩ := ih
    obtain ⟨m, hstep⟩ := Step.exists_of_running hrunning yieldCall
    have hext := r.snoc_extends hstep
    have hyield' : ∀ i, i < r.len + 1 → (Exec.snoc r hstep).event i = yieldCall := by
      intro i hi
      rcases Nat.eq_or_lt_of_le (Nat.le_of_lt_succ hi) with rfl | hlt
      · exact r.snoc_event_last hstep
      · rw [hext.event i hlt]
        exact hyield i hlt
    have hwithin : Run.SharesWithin (Exec.snoc r hstep) 1 := by
      intro i hi ht
      rw [hyield' i hi] at ht
      cases ht
    -- a `sys_yield` leaves every process runnable, so the next call of `schedule()` runs one
    have hcall : ∀ p, p ≠ 0 → Runnable (Run.call (Exec.snoc r hstep) r.len).procArray p := by
      intro p hp
      rw [r.call_snoc hstep]
      exact (runnable_call_iff (by decide) _ p).2 (hall _ (Nat.le_refl _) p hp)
    have hlen : r.len < (Exec.snoc r hstep).len := Nat.lt_succ_self _
    have hamt := (Run.shareInv _ (Nat.le_refl 1) hwithin hlen).amt_pos 1 (by decide)
    obtain ⟨k, hk⟩ := Run.share_dispatched _ hlen (hcall 1 (by decide))
      (UInt32.lt_iff_toNat_lt.2 hamt)
    refine ⟨Exec.snoc r hstep, rfl, hyield', Option.isSome_iff_exists.2 ⟨k, hk⟩, fun i hi p hp => ?_⟩
    rcases Nat.eq_or_lt_of_le hi with rfl | hlt
    · have hframe := ((Exec.snoc r hstep).steps r.len hlen).frame (Run.inv _ (Nat.le_of_lt hlen))
      exact (hframe.1.runnable p).2 (hcall p hp)
    · unfold Run.kern
      rw [hext.state i (Nat.le_of_lt_succ hlt)]
      exact hall i (Nat.le_of_lt_succ hlt) p hp

/-- Process 2 runs before long if all of them yield. -/
theorem yields_dispatch : ∃ B, ∃ r : Run 42 .zero, r.len = B ∧
    (∀ i, i < B → r.event i = yieldCall) ∧ ∃ i, i < B ∧ r.dispatched i = some 2 := by
  obtain ⟨B, hB⟩ := share_bounded_wait 1 0
  obtain ⟨r, hlen, hyield, -, hall⟩ := exists_yields .zero B
  have hshare : ∀ i, i < B → (r.event i).trap ≠ .sysShare := fun i hi => by
    rw [hyield i hi]
    decide
  have hrun : ∀ i, i < B → Runnable (r.call i).procArray 2 := fun i hi =>
    (runnable_call_iff (by rw [hyield i hi]; decide) _ 2).2 (hall i (Nat.le_of_lt hi) 2 (by decide))
  have hcount : Window.count (fun i => (r.event i).trap = .sysShare ∧ (r.kern i).current ≠ 2)
      0 (0 + B) = 0 := Window.count_eq_zero fun i _ hi ht => hshare i (by omega) ht.1
  obtain ⟨i, -, hi, hd⟩ := hB .zero r (fun i hi ht => absurd ht (hshare i (by omega))) 0 2 (by omega)
    (fun i _ hi => hrun i (by omega)) (Nat.le_of_eq hcount)
  exact ⟨B, r, hlen, hyield, i, by omega, hd⟩

/-! ## A monopoly -/

/-- `sys_share(1)`. -/
def shareOne : Event := .ofCall .sysShare 1

/-- Process 1 after an interrupt that leaves it share. -/
def takeOne (m : Machine) (e : Event) : Machine :=
  run { e.call m.kern with procArray := takeShare (e.call m.kern).procArray 1 } 1

/-- Process 1 has the CPU, and process 2 waits. -/
structure TwoWaits (m : Machine) : Prop extends OneRuns 42 m where
  two : Runnable m.kern.procArray 2

theorem TwoWaits.call_two {m : Machine} (h : TwoWaits m) (e : Event) :
    Runnable (e.call m.kern).procArray 2 := by
  unfold Runnable
  rw [call_of_ne _ _ (by rw [h.current]; decide)]
  exact h.two

/-- A process that refills its own share runs again. -/
theorem TwoWaits.step {m : Machine} (h : TwoWaits m) :
    Step m shareOne (takeOne m shareOne) ∧ TwoWaits (takeOne m shareOne) := by
  have ht : shareOne.trap ≠ .sysExit := by decide
  have hone : HasShare (shareOne.call m.kern).procArray 1 := by
    refine ⟨h.call_runnable ht, ?_⟩
    rw [h.call_one]
    show (0 : UInt32) < 1
    decide
  have hs : Schedules shareOne.tsc (shareOne.call m.kern)
      (takeShare (shareOne.call m.kern).procArray 1) 1 := by
    rw [schedules_share (h.inv.call shareOne).algorithm, h.pPid, if_pos hone]
    exact ⟨rfl, rfl⟩
  obtain ⟨hstep, hruns⟩ := h.toOneRuns.step hs
  have hf := takeShare_frame (shareOne.call m.kern).procArray (k := 1) (by decide)
  exact ⟨hstep, hruns, (hf.runnable 2).2 (h.call_two shareOne)⟩

theorem start_twoWaits (boot : Boot) : TwoWaits (start 42 boot) := ⟨start_oneRuns 42 boot, rfl⟩

/-- Process 1 calls `sys_share(1)` that many times, and nobody else runs. -/
def shareMonopoly (boot : Boot) (n : Nat) : Run 42 boot :=
  .ofNext takeOne (fun _ => shareOne) (start 42 boot) n rfl fun i _ =>
    (Exec.states_inv (start_twoWaits boot) (fun _ _ h => h.step.2) i).step.1

theorem shareMonopoly_twoWaits (boot : Boot) (n i : Nat) :
    TwoWaits ((shareMonopoly boot n).state i) :=
  Exec.states_inv (start_twoWaits boot) (fun _ _ h => h.step.2) i

/-- Without a bound on the `sys_share` calls of the others there is no bound on the waiting. -/
theorem share_monopoly :
    ¬ ∀ A, 1 ≤ A → ∃ B, ∀ (boot : Boot) (r : Run 42 boot), r.SharesWithin A →
      ∀ a p, a + B ≤ r.len → (∀ i, a ≤ i → i < a + B → Runnable (r.call i).procArray p) →
        ∃ i, a ≤ i ∧ i < a + B ∧ r.dispatched i = some p := by
  intro hclaim
  obtain ⟨B, hB⟩ := hclaim 1 (Nat.le_refl 1)
  have hruns := shareMonopoly_twoWaits .zero B
  obtain ⟨i, -, -, hi⟩ := hB _ (shareMonopoly .zero B)
    (fun i _ _ => ⟨Nat.le_refl 1, Nat.le_refl 1⟩) 0 2 (Nat.le_of_eq (Nat.zero_add B))
    fun i _ _ => (hruns i).call_two _
  have hcur := (hruns (i + 1)).current
  rw [Machine.current_of_running hi] at hcur
  exact absurd hcur (by decide)

end SchedOS
