import SchedOS.Kern.Proof.Share
import SchedOS.Lib.Best

/-!
# What algorithm 42 selects

A pass that finds a process with share left runs one with the largest `p_share_amt` among all that
have share left (`sharePass_largest`), so a call of `schedule()` follows the plain rule
(`share_selects`). It comes to an end exactly if some runnable process has a share at all: a share
of 0, which `sys_share` accepts, stays 0 when it is reset (`share_dispatches_iff`).
-/

namespace SchedOS

/-! ## One pass -/

/-- The test of the second scan: `x` replaces `b`. -/
def ShareBetter (pa : ProcArray) (x b : Pid) : Prop :=
  HasShare pa x ∧ (pa b).pShareAmt < (pa x).pShareAmt

instance (pa : ProcArray) : DecidableRel (ShareBetter pa) := fun _ _ =>
  inferInstanceAs (Decidable (_ ∧ _))

theorem shareScan_eq (pa : ProcArray) : ∀ (n : Nat) (c b : Pid),
    shareScan pa n ⟨c, b, (pa b).pShareAmt⟩ =
      let k := Best.pick (ShareBetter pa) b (visits n c)
      ⟨next^[n] c, k, (pa k).pShareAmt⟩
  | 0, _, _ => rfl
  | n + 1, c, b => by
    rw [visits, Best.pick_cons, Function.iterate_succ_apply]
    unfold shareScan
    dsimp only
    by_cases h : HasShare pa (next c) ∧ (pa b).pShareAmt < (pa (next c)).pShareAmt
    · rw [if_pos h, if_pos (show ShareBetter pa (next c) b from h)]
      exact shareScan_eq pa n (next c) (next c)
    · rw [if_neg h, if_neg (show ¬ ShareBetter pa (next c) b from h)]
      exact shareScan_eq pa n (next c) b

/-- The pick of the second scan is largest among its seed and the processes with share left. -/
theorem shareScan_largest (pa : ProcArray) (c : Pid) {q : Pid} (hq : HasShare pa q) :
    (pa q).pShareAmt ≤
      (pa (shareScan pa (NPROCS - 1) ⟨c, c, (pa c).pShareAmt⟩).firstPid).pShareAmt := by
  rw [shareScan_eq]
  refine Best.pick_le (fun x y => (pa y).pShareAmt ≤ (pa x).pShareAmt) (HasShare pa)
    (fun x => UInt32.le_refl _) (fun _ _ _ h h' => UInt32.le_trans h' h) _ _
    ((visits_pairwise c).imp fun _ => ?_) q (mem_visits c q) (.inr hq)
  exact ⟨fun h => UInt32.le_of_lt h.2, fun h hx => UInt32.not_lt.1 fun hlt => h ⟨hx, hlt⟩⟩

/-- A pass that runs a process runs one with the largest share. -/
theorem sharePass_largest {st : ProcArray × Pid} {pa : ProcArray} {k : Pid}
    (h : sharePass st = .inr (pa, k)) {q : Pid} (hq : HasShare st.1 q) :
    (st.1 q).pShareAmt ≤ (st.1 k).pShareAmt := by
  unfold sharePass at h
  dsimp only at h
  split at h
  · cases h
    exact shareScan_largest st.1 _ hq
  · cases h

/-! ## One call -/

section
variable (tsc : Nat → UInt64) {s : Kernel}

theorem schedule_share (h : s.schedulingAlgorithm = 42) (fuel : Nat) :
    schedule tsc fuel s =
      if HasShare s.procArray s.currentProc.pPid then
        some (.run (takeShare s.procArray s.currentProc.pPid) s.currentProc.pPid)
      else
        (Loop.run sharePass fuel (s.procArray, s.currentProc.pPid)).map fun r => .run r.1 r.2 := by
  simp only [schedule, h, ↓reduceIte, show ¬ (42 : Int) = 0 by decide,
    show ¬ (42 : Int) = 2 by decide, show ¬ (42 : Int) = 41 by decide]

/-- With share left to some process, but not to the one that gives up the CPU, the first pass runs
one with the largest share. -/
theorem schedule_largest (h : s.schedulingAlgorithm = 42)
    (hc : ¬ HasShare s.procArray s.currentProc.pPid) (hq : ∃ q, HasShare s.procArray q) :
    ∃ k, schedule tsc 3 s = some (.run (takeShare s.procArray k) k) ∧ HasShare s.procArray k ∧
      ∀ q, HasShare s.procArray q →
        (s.procArray q).pShareAmt ≤ (s.procArray k).pShareAmt := by
  rw [schedule_share tsc h, if_neg hc]
  cases hb : sharePass (s.procArray, s.currentProc.pPid) with
  | inl st =>
    obtain ⟨q, hq⟩ := hq
    have hres : Resets s := ⟨hc, st, hb⟩
    exact absurd hq ((resets_iff s).1 hres q)
  | inr x =>
    obtain ⟨pa, k⟩ := x
    obtain ⟨hk, rfl⟩ := sharePass_inr hb
    rw [Loop.run_succ_inr hb]
    exact ⟨k, rfl, hk, fun q => sharePass_largest hb⟩

/-- With share left to no process, the loop runs one with the largest share after the reset. -/
theorem schedule_reset (h : s.schedulingAlgorithm = 42)
    (hno : ∀ q, ¬ HasShare s.procArray q) {p : Pid} (h0 : p ≠ 0) (hp : Runnable s.procArray p)
    (hamt : 0 < (s.procArray p).pShareAmt) :
    ∃ k, schedule tsc 3 s = some (.run (takeShare (resetShares s.procArray) k) k) ∧
      HasShare (resetShares s.procArray) k ∧ ∀ q, HasShare (resetShares s.procArray) q →
        (s.procArray q).pShareAmt ≤ (s.procArray k).pShareAmt := by
  have hf := resetShares_frame s.procArray
  rw [schedule_share tsc h, if_neg (hno _)]
  obtain ⟨⟨pa, k⟩, hrun⟩ := exists_sharePass h0 hp hamt s.currentProc.pPid
  rw [hrun]
  -- the first pass resets, and a later reset does nothing
  have hfirst : sharePass (s.procArray, s.currentProc.pPid) = .inl _ :=
    sharePass_inl_iff.2 ⟨fun q _ => hno q, rfl⟩
  rw [Loop.run_succ_inl hfirst] at hrun
  have hinv := Loop.run_inv (I := fun st => st.1 = resetShares s.procArray)
    (Q := fun x => HasShare (resetShares s.procArray) x.2 ∧
      x.1 = takeShare (resetShares s.procArray) x.2 ∧ ∀ q, HasShare (resetShares s.procArray) q →
        (resetShares s.procArray q).pShareAmt ≤ (resetShares s.procArray x.2).pShareAmt)
    (fun st st' hI hb => by rw [sharePass_inl hb, hI, resetShares_idem])
    (fun st x hI hb => ?_) rfl hrun
  · dsimp only at hinv
    obtain ⟨hk, rfl, hmax⟩ := hinv
    refine ⟨k, rfl, hk, fun q hq => ?_⟩
    have hle := hmax q hq
    rwa [hf.pShareAmt, hf.pShareAmt] at hle
  · obtain ⟨hk, hpa⟩ := sharePass_inr hb
    rw [hI] at hk hpa
    refine ⟨hk, hpa, fun q hq => ?_⟩
    have hle := sharePass_largest hb (q := q) (hI ▸ hq)
    rwa [hI] at hle

end

theorem hasShare_resetShares {pa : ProcArray} {q : Pid} (h0 : q ≠ 0) :
    HasShare (resetShares pa) q ↔ Runnable pa q ∧ 0 < (pa q).pShareAmt := by
  have hleft : (resetShares pa q).pShareLeft = (pa q).pShareAmt := by
    unfold resetShares
    rw [if_pos (one_le_val h0)]
  unfold HasShare
  rw [(resetShares_frame pa).runnable, hleft]

/-- **What algorithm 42 selects**: a process that gives up the CPU with share left runs again; else
one with the largest `p_share_amt` of those with share left; and if there are none, one with the
largest of all runnable ones, after the reset. The process that is run is charged one. -/
theorem share_selects (tsc : Nat → UInt64) (s : Kernel) (h : s.schedulingAlgorithm = 42)
    (h0 : (s.procArray 0).pState = .empty)
    (hp : ∃ q, Runnable s.procArray q ∧ 0 < (s.procArray q).pShareAmt) :
    (HasShare s.procArray s.currentProc.pPid → ¬ Resets s ∧
      schedule tsc 3 s =
        some (.run (takeShare s.procArray s.currentProc.pPid) s.currentProc.pPid)) ∧
    (¬ HasShare s.procArray s.currentProc.pPid → (∃ q, HasShare s.procArray q) → ¬ Resets s ∧
      ∃ k, schedule tsc 3 s = some (.run (takeShare s.procArray k) k) ∧
        HasShare s.procArray k ∧ ∀ q, HasShare s.procArray q →
          (s.procArray q).pShareAmt ≤ (s.procArray k).pShareAmt) ∧
    ((∀ q, ¬ HasShare s.procArray q) → Resets s ∧
      ∃ k, schedule tsc 3 s = some (.run (takeShare (resetShares s.procArray) k) k) ∧
        HasShare (resetShares s.procArray) k ∧ ∀ q, Runnable s.procArray q →
          (s.procArray q).pShareAmt ≤ (s.procArray k).pShareAmt) := by
  have hne : ∀ q, Runnable s.procArray q → q ≠ 0 := by
    rintro q hq rfl
    exact nomatch h0.symm.trans hq
  refine ⟨fun hc => ⟨fun hr => hr.1 hc, ?_⟩, fun hc hq => ⟨fun hr => ?_, ?_⟩,
    fun hno => ⟨(resets_iff s).2 hno, ?_⟩⟩
  · rw [schedule_share tsc h, if_pos hc]
  · obtain ⟨q, hq⟩ := hq
    exact (resets_iff s).1 hr q hq
  · exact schedule_largest tsc h hc hq
  · obtain ⟨p, hp, hamt⟩ := hp
    obtain ⟨k, hk, hshare, hmax⟩ := schedule_reset tsc h hno (hne p hp) hp hamt
    refine ⟨k, hk, hshare, fun q hq => ?_⟩
    by_cases hz : 0 < (s.procArray q).pShareAmt
    · exact hmax q ((hasShare_resetShares (hne q hq)).2 ⟨hq, hz⟩)
    · exact UInt32.le_trans (UInt32.not_lt.1 hz) UInt32.zero_le

/-- Process 2 gives up the CPU with no share left and only process 1 runnable, which the pass after
the reset starts from and so skips. -/
def oneSkipped : Kernel :=
  { startKernel 42 .zero with
    current := 2
    procArray := fun i =>
      if i = 0 then emptyProc 0
      else if i = 1 then { startProc .zero 1 with pShareLeft := 0 }
      else { startProc .zero i with pState := .zombie } }

theorem oneSkipped_selects : Resets oneSkipped ∧
    ∃ k, schedule (fun _ => 0) 3 oneSkipped =
        some (.run (takeShare (resetShares oneSkipped.procArray) k) k) ∧
      HasShare (resetShares oneSkipped.procArray) k ∧ ∀ q, Runnable oneSkipped.procArray q →
        (oneSkipped.procArray q).pShareAmt ≤ (oneSkipped.procArray k).pShareAmt :=
  (share_selects (fun _ => 0) oneSkipped rfl rfl ⟨1, rfl, by decide⟩).2.2 (by decide)

/-! ## Runs -/

/-- No process has more share left than its share. -/
def LeftLeAmt (pa : ProcArray) : Prop := ∀ q, (shares pa).left q ≤ (shares pa).amt q

theorem LeftLeAmt.call {s : Kernel} (h : LeftLeAmt s.procArray) (e : Event) :
    LeftLeAmt (e.call s).procArray := by
  intro q
  by_cases hqs : q = s.current ∧ e.trap = .sysShare
  · obtain ⟨rfl, ht⟩ := hqs
    obtain ⟨ha, hl⟩ := call_sysShare ht s
    rw [ha, hl]
  · obtain ⟨ha, hl⟩ := call_share e (s := s) (q := q) fun h1 h2 => hqs ⟨h1, h2⟩
    rw [ha, hl]
    exact h q

theorem LeftLeAmt.serve {pa pa' : ProcArray} {k : Pid} (h : LeftLeAmt pa)
    (hs : (shares pa).Serve k (shares pa')) : LeftLeAmt pa' := by
  intro q
  rw [hs.amt]
  exact hs.left_le (Nat.le_refl _) (h q)

section
variable {boot : Boot} (r : Run 42 boot)

theorem Run.leftLeAmt {i : Nat} (hi : i ≤ r.len) : LeftLeAmt (r.kern i).procArray := by
  have h0 : LeftLeAmt (r.state 0).kern.procArray := by
    intro q
    rw [r.start]
    by_cases hq : q = 0
    · rw [hq]
      exact Nat.le_refl 0
    · simp only [shares]
      rw [start_procArray 42 boot hq]
      exact Nat.le_refl 1
  refine r.keeps (P := fun m => LeftLeAmt m.kern.procArray) (Nat.zero_le i) hi h0
    fun j _ hj hP => ?_
  have hc := (r.inv (by omega : j ≤ r.len)).toKernInv.call (r.event j)
  have hcall := hP.call (r.event j)
  obtain ⟨s, c, hm, ⟨pa, k, hs, hm'⟩ | ⟨-, hm'⟩⟩ := (r.steps j (by omega)).inv
  · rw [hm] at hc hcall
    rw [hm']
    exact hcall.serve (hs.serve hc)
  · rw [hm] at hcall
    rw [hm']
    exact hcall

/-- **When algorithm 42 finds a process**: a call of `schedule()` comes to a `run` exactly if some
runnable process has a positive `p_share_amt`. -/
theorem share_dispatches_iff {i : Nat} (hi : i < r.len) :
    (∃ k, r.dispatched i = some k) ↔
      ∃ q, Runnable (r.call i).procArray q ∧ 0 < ((r.call i).procArray q).pShareAmt := by
  constructor
  · rintro ⟨k, hd⟩
    have hc := r.call_inv (Nat.le_of_lt hi)
    rcases (r.schedules_of_dispatched hi hd).share_cases hc with ⟨hk, -⟩ | ⟨-, hk, -⟩
    · have hle := (r.leftLeAmt (Nat.le_of_lt hi)).call (r.event i) k
      have hpos := pos_of_hasShare hk
      exact ⟨k, hk.1, UInt32.lt_iff_toNat_lt.2 (Nat.lt_of_lt_of_le hpos hle)⟩
    · have hrun := ((resetShares_frame _).runnable k).1 hk.1
      exact ⟨k, (hasShare_resetShares (hc.table.ne_zero hrun)).1 hk⟩
  · rintro ⟨q, hq, hamt⟩
    exact r.share_dispatched hi hq hamt

end

/-- `sys_share(0)`. -/
def shareZero : Event := .ofCall .sysShare 0

/-- Processes 1, 2 and 3 call `sys_share(0)` in turn. -/
def shareZeros : Run 42 .zero := .ofEvents 42 (fun _ => shareZero) 3 (by decide +kernel)

theorem shareZeros_dispatches : (∃ k, shareZeros.dispatched 0 = some k) ↔
    ∃ q, Runnable (shareZeros.call 0).procArray q ∧
      0 < ((shareZeros.call 0).procArray q).pShareAmt :=
  share_dispatches_iff shareZeros (by decide)

/-- When process 4 calls `sys_share(0)` as well, no process is run any more. -/
theorem share_starves :
    ¬ ∀ (boot : Boot) (r : Run 42 boot) i, i < r.len →
      (∃ q, Runnable (r.call i).procArray q) → ∃ k, r.dispatched i = some k := by
  intro hclaim
  have huser : (shareZeros.state shareZeros.len).running.isSome := by decide +kernel
  obtain ⟨m, hstep⟩ := Step.exists_of_running huser shareZero
  have hcall := shareZeros.call_snoc hstep
  have hlen : shareZeros.len < (Exec.snoc shareZeros hstep).len := Nat.lt_succ_self _
  have hrun : Runnable (shareZero.call (shareZeros.kern shareZeros.len)).procArray 1 := by
    decide +kernel
  have hzero : ∀ q,
      ¬ 0 < ((shareZero.call (shareZeros.kern shareZeros.len)).procArray q).pShareAmt := by
    decide +kernel
  obtain ⟨q, -, hq⟩ := (share_dispatches_iff (Exec.snoc shareZeros hstep) hlen).1
    (hclaim _ (Exec.snoc shareZeros hstep) _ hlen ⟨1, by rw [hcall]; exact hrun⟩)
  rw [hcall] at hq
  exact hzero q hq

end SchedOS
