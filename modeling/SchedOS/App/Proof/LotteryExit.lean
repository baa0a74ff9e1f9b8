import SchedOS.App.Proof.Exit
import SchedOS.Kern.Proof.Draw

/-!
# The applications under the lottery

The applications keep one ticket each, also after they have exited, so a call of `schedule()` draws
one of four (`draw`). A draw is lost if no runnable process has a pid above it
(`lotteryChoice_eq_none`), and the call draws on until one is not (`Run.Apps.lottery_stuck_iff`).
Each interrupt but the clock's takes one from the system calls that are left
(`App.Interrupted.calls`).
-/

namespace SchedOS

/-! ## A call of `schedule()` -/

/-- The `m`-th ticket of a call in which there are four. -/
def draw (tsc : Nat → UInt64) (m : Nat) : UInt32 := scramble (tsc m).toUInt32 % 4

theorem draw_zero : draw (fun _ => 0) 0 = 0 := by decide

/-- Every application has one ticket. -/
def OneTicket (pa : ProcArray) : Prop := ∀ p, p ≠ 0 → (pa p).pLotteryAmt = 1

section
variable {pa : ProcArray} (ht : Table pa) (h1 : OneTicket pa)
include ht h1

theorem lotteryTotal_one : lotteryTotal pa = 4 := by
  have hfold : lotteryTotal pa = 0 + (pa 0).pLotteryAmt + (pa 1).pLotteryAmt +
    (pa 2).pLotteryAmt + (pa 3).pLotteryAmt + (pa 4).pLotteryAmt := rfl
  rw [hfold, ht.slot0, h1 1 (by decide), h1 2 (by decide), h1 3 (by decide), h1 4 (by decide)]
  rfl

/-- A ticket is lost if every runnable process comes after it. -/
theorem lotteryChoice_eq_none {num : UInt32} (hnum : num < 4) :
    lotteryChoice pa num = none ↔ ∀ p, Runnable pa p → p.val ≤ num.toNat := by
  have h0 := ht.not_runnable_zero
  have hlt : num.toNat < 4 := UInt32.lt_iff_toNat_lt.1 hnum
  have hpid : ∀ p : Pid, p = 0 ∨ p = 1 ∨ p = 2 ∨ p = 3 ∨ p = 4 := by decide
  have hone : (1 : UInt32).toNat = 1 ∧ (1 + 1 : UInt32).toNat = 2 ∧ (1 + 1 + 1 : UInt32).toNat = 3 :=
    ⟨rfl, rfl, rfl⟩
  unfold lotteryChoice
  simp only [h1 1 (by decide), h1 2 (by decide), h1 3 (by decide), UInt32.lt_iff_toNat_lt, hone]
  constructor
  · intro h p hp
    split_ifs at h with c1 c2 c3 c4
    rcases hpid p with rfl | rfl | rfl | rfl | rfl
    · exact Nat.zero_le _
    · exact Nat.le_of_not_lt fun hlt => c1 ⟨hlt, hp⟩
    · exact Nat.le_of_not_lt fun hlt => c2 ⟨hlt, hp⟩
    · exact Nat.le_of_not_lt fun hlt => c3 ⟨hlt, hp⟩
    · exact absurd hp c4
  · intro h
    have hlost : ∀ p : Pid, ¬ (num.toNat < p.val ∧ Runnable pa p) :=
      fun p hp => Nat.not_lt.2 (h p hp.2) hp.1
    exact (if_neg (hlost 1)).trans <| (if_neg (hlost 2)).trans <| (if_neg (hlost 3)).trans <|
      if_neg fun hp => hlost 4 ⟨hlt, hp⟩

theorem lotteryPass_eq (tsc : Nat → UInt64) (m : Nat) : lotteryPass pa tsc m =
    match lotteryChoice pa (draw tsc m) with
    | some pid => .inr (.run pa pid)
    | none => .inl (m + 1) := by
  unfold lotteryPass draw
  rw [lotteryTotal_one ht h1]
  exact if_neg (by decide)

/-- With one ticket each the loop ends exactly if some draw is not lost. -/
theorem schedules_lottery_iff {s : Kernel} (hs : s.procArray = pa) (halg : s.schedulingAlgorithm = 7)
    (tsc : Nat → UInt64) : (∃ pa' k, Schedules tsc s pa' k) ↔
      ∃ m p, Runnable pa p ∧ (draw tsc m).toNat < p.val := by
  have hlost : ∀ m, lotteryChoice pa (draw tsc m) ≠ none ↔
      ∃ p, Runnable pa p ∧ (draw tsc m).toNat < p.val := by
    intro m
    have hlt : draw tsc m < 4 := by
      rw [UInt32.lt_iff_toNat_lt, draw, UInt32.toNat_mod]
      exact Nat.mod_lt _ (by decide)
    rw [Ne, lotteryChoice_eq_none ht h1 hlt]
    simp
  have hends : (∃ q, Loop.Ends (lotteryPass pa tsc) 0 q) ↔
      ∃ m, (lotteryChoice pa (draw tsc m)).map (Sched.run pa) ≠ none := by
    refine Loop.exists_ends_draw (fun m hm => ?_) fun m q hq => ?_
    · rw [lotteryPass_eq ht h1, Option.map_eq_none_iff.1 hm]
    · obtain ⟨k, hk, rfl⟩ := Option.map_eq_some_iff.1 hq
      rw [lotteryPass_eq ht h1, hk]
  simp only [ne_eq, Option.map_eq_none_iff] at hends
  simp only [← hlost]
  rw [← hends]
  simp only [schedules_lottery halg, hs]
  constructor
  · rintro ⟨pa', k, hk⟩
    exact ⟨_, hk⟩
  · rintro ⟨q, hq⟩
    obtain ⟨pa', k, rfl⟩ : ∃ pa' k, q = Sched.run pa' k := by
      refine hq.inv (I := fun _ => True) (Q := fun q => ∃ pa' k, q = Sched.run pa' k)
        (fun _ _ _ _ => trivial) (fun m q _ hm => ?_) trivial
      rw [lotteryPass_eq ht h1] at hm
      split at hm
      · cases hm
        exact ⟨_, _, rfl⟩
      · cases hm
    exact ⟨pa', k, hq⟩

end

/-! ## The system calls that are left -/

theorem AppAction.Causes.trap {x : AppAction} {e : Event} (h : x.Causes e) :
    x ≠ .silent ∧ e.trap ≠ .clock ∧ e.trap ≠ .sysLottery := by
  cases x with
  | silent => exact absurd h id
  | sysYield =>
    have ht : e.trap = .sysYield := h
    simp [ht]
  | _ => simp [h.1]

theorem App.Interrupted.calls {a : App} {st st' : AppState} {e : Event} (h : a.Interrupted st e st')
    (hv : st.Valid a.runcount) : e.trap ≠ .sysLottery ∧
      st.left a.runcount = st'.left a.runcount + if e.trap ≠ .clock then 1 else 0 := by
  cases h with
  | clock hl ht => simp [ht, hl.left hv]
  | call hl hc =>
    obtain ⟨hs, hclock, hlottery⟩ := hc.trap
    rw [hl.left hv, App.step_left (hl.keeps hv).1, AppAction.calls, if_neg hs, if_pos hclock]
    exact ⟨hlottery, rfl⟩

section
variable {alg : Int} {boot : Boot} {r : Run alg boot} {n : Nat} {μ : Type}
  {view : Pid → Context → μ → AppState} {mem : Nat → Pid → μ} (h : r.Apps n view mem)
include h

theorem Run.Apps.calls {i : Nat} (hi : i < r.len) : (r.event i).trap ≠ .sysLottery ∧
    (r.appState view mem (r.kern i).current i).left n =
      (r.appState view mem (r.kern i).current (i + 1)).left n +
        if (r.event i).trap ≠ .clock then 1 else 0 := by
  have hle := Nat.le_of_lt hi
  exact (r.appState_current h hi rfl).calls (r.apps_inv h hle (r.inv hle).current).1

theorem Run.Apps.lastLottery {p : Pid} {i : Nat} (hi : i ≤ r.len) : r.lastLottery p i = 1 := by
  induction i with
  | zero => rfl
  | succ i ih =>
    unfold Run.lastLottery
    rw [if_neg fun hc => (h.calls hi).1 hc.1]
    exact ih (Nat.le_of_lt hi)

theorem Run.Apps.oneTicket_call {i : Nat} (hi : i < r.len) : OneTicket (r.call i).procArray := by
  intro p hp
  rw [r.call_pLotteryAmt (r.pLotteryAmt_eq (Nat.le_of_lt hi) hp), h.lastLottery hi]

theorem Run.Apps.left_succ {i : Nat} (hi : i < r.len) :
    leftInAll n (fun p => r.appState view mem p i) =
      leftInAll n (fun p => r.appState view mem p (i + 1)) +
        if (r.event i).trap ≠ .clock then 1 else 0 := by
  have hlive : (r.kern i).current ∈ livePids :=
    (mem_livePids _).2 (r.inv (Nat.le_of_lt hi)).current
  have hother : ∀ p ∈ livePids.erase (r.kern i).current,
      (r.appState view mem p i).left n = (r.appState view mem p (i + 1)).left n := by
    intro p hp
    rw [r.appState_other h hi (Finset.ne_of_mem_erase hp).symm]
  unfold leftInAll
  dsimp only
  rw [← Finset.add_sum_erase _ _ hlive, ← Finset.add_sum_erase _ _ hlive,
    Finset.sum_congr rfl hother, (h.calls hi).2]
  omega

theorem Run.Apps.left_zero : leftInAll n (fun p => r.appState view mem p 0) = 8 * n + 4 := by
  have hinit : ∀ p ∈ livePids, (r.appState view mem p 0).left n = 2 * n + 1 := by
    intro p hp
    have hpc : (r.appState view mem p 0).pc = .init := h.start p ((mem_livePids p).1 hp)
    unfold AppState.left
    rw [hpc]
  unfold leftInAll
  rw [Finset.sum_congr rfl hinit, Finset.sum_const, card_livePids, smul_eq_mul]
  omega

/-- The applications make no more than their system calls. -/
theorem Run.Apps.count_calls :
    Window.count (fun i => (r.event i).trap ≠ .clock) 0 r.len ≤ 8 * n + 4 := by
  have hcount := Window.count_add_of_fall (fun i => (r.event i).trap ≠ .clock)
    (Nat.zero_le r.len) fun i _ hi => h.left_succ hi
  rw [h.left_zero] at hcount
  omega

end

/-! ## To the end -/

/-- Ticket 0 is drawn in every call. -/
def Run.Draws {boot : Boot} (r : Run 7 boot) : Prop :=
  ∀ i, i < r.len → ∃ m, draw (r.event i).tsc m = 0

section
variable {boot : Boot} {r : Run 7 boot} {n : Nat} {μ : Type} {view : Pid → Context → μ → AppState}
  {mem : Nat → Pid → μ} (h : r.Apps n view mem)
include h

/-- A call runs no process exactly if all of its draws are lost. -/
theorem Run.Apps.lottery_stuck_iff {i : Nat} (hi : i < r.len) : r.dispatched i = none ↔
    ∀ m p, Runnable (r.call i).procArray p → p.val ≤ (draw (r.event i).tsc m).toNat := by
  have hcall := r.call_inv (Nat.le_of_lt hi)
  have hiff := schedules_lottery_iff hcall.table (h.oneTicket_call hi) rfl hcall.algorithm
    (r.event i).tsc
  constructor
  · intro hnone m p hp
    refine Nat.le_of_not_lt fun hlt => ?_
    obtain ⟨pa, k, hs⟩ := hiff.2 ⟨m, p, hp, hlt⟩
    rw [Run.dispatched, r.state_of_schedules hi hs] at hnone
    cases hnone
  · intro hlost
    cases hd : r.dispatched i with
    | none => rfl
    | some k =>
      obtain ⟨m, p, hp, hlt⟩ := hiff.1 ⟨_, _, r.schedules_of_dispatched hi hd⟩
      exact absurd (hlost m p hp) (Nat.not_le.2 hlt)

theorem Run.Apps.zombie_of_stuck_lottery (hdraws : r.Draws) {s : Kernel}
    (hs : r.state r.len = .stuck s) {p : Pid} (hp : p ≠ 0) :
    ((r.kern r.len).procArray p).pState = .zombie := by
  have hpos : r.len ≠ 0 := by
    intro hlen
    rw [hlen, r.start] at hs
    cases hs
  obtain ⟨i, hi⟩ := Nat.exists_eq_succ_of_ne_zero hpos
  have hlt : i < r.len := by omega
  rw [hi] at hs ⊢
  refine ((r.inv hlt).table.state p hp).resolve_left fun hr => ?_
  obtain ⟨m, hm⟩ := hdraws i hlt
  have hd : r.dispatched i = none := by rw [Run.dispatched, hs]; rfl
  have hle := (h.lottery_stuck_iff hlt).1 hd m p (r.runnable_call hlt hr)
  rw [hm] at hle
  exact absurd hle (Nat.not_le.2 (one_le_val hp))

end

theorem App.Interrupted.of_tsc {a : App} {st st' : AppState} {e : Event} (h : a.Interrupted st e st')
    (tsc : Nat → UInt64) : a.Interrupted st { e with tsc } st' := by
  cases h with
  | clock hl ht => exact .clock hl ht
  | @call st1 hl hc =>
    refine .call hl ?_
    cases hx : (a.step st1).1 <;> rw [hx] at hc <;> exact hc

/-- A run in which ticket 0 is drawn can be continued until all four have exited. -/
theorem Run.Apps.exists_exit_lottery {boot : Boot} {n : Nat} {r : Run 7 boot}
    {mem : Nat → Pid → AppState} (h : r.Apps n inMemory mem) (hdraws : r.Draws) :
    ∃ (r' : Run 7 boot) (mem' : Nat → Pid → AppState), r'.Apps n inMemory mem' ∧ r'.Extends r ∧
      r'.Draws ∧ ∀ p, p ≠ 0 → ((r'.kern r'.len).procArray p).pState = .zombie := by
  induction hk : leftInAll n (mem r.len) using Nat.strong_induction_on generalizing r mem with
  | _ k ih =>
    cases hs : r.state r.len with
    | stuck s => exact ⟨r, mem, h, .refl r, hdraws, fun p hp => h.zombie_of_stuck_lottery hdraws hs hp⟩
    | user s c =>
      have hI := r.inv (Nat.le_refl r.len)
      have hrun := hI.running s.current (by rw [hs]; rfl)
      have hp : s.current ≠ 0 := hI.table.ne_zero hrun
      have hpc : (mem r.len s.current).pc ≠ .loop := fun hl =>
        not_runnable_of_zombie (Run.zombie_of_loop h (Nat.le_refl _) hp hl) hrun
      obtain ⟨e, st, hint, -, hlt⟩ := (app n s.current).exists_interrupted hpc
        (r.apps_inv h (Nat.le_refl _) hp).1
      obtain ⟨m, hstep⟩ := Step.exists_step s c { e with tsc := fun _ => 0 }
      rw [← hs] at hstep
      have hless : leftInAll n (Function.update (mem r.len) s.current st) < k :=
        hk ▸ leftInAll_update hp hlt
      have hdraws' : Run.Draws (Exec.snoc r hstep) := by
        intro i hi
        rcases Nat.eq_or_lt_of_le (Nat.le_of_lt_succ hi) with rfl | hlt'
        · rw [r.snoc_event_last]
          exact ⟨0, draw_zero⟩
        · rw [(r.snoc_extends hstep).event i hlt']
          exact hdraws i hlt'
      obtain ⟨r', mem', h', hext, hd, hz⟩ := ih _ hless (h.snoc hs hstep (hint.of_tsc _)) hdraws'
        (by rw [Exec.snoc_len, if_neg (Nat.not_succ_le_self _)])
      exact ⟨r', mem', h', hext.trans (r.snoc_extends hstep), hd, hz⟩

/-- **The applications under the lottery**: a call of `schedule()` runs no process exactly if all of
its draws are lost, no runnable process having a pid above them; the applications make no more than
their `8 * RUNCOUNT + 4` system calls; and if ticket 0 is drawn in every call, the machine stops only
when all four have exited with their output complete, and every run can be continued up to there. -/
theorem lottery_apps_exit (boot : Boot) (n : Nat) :
    (∀ (r : Run 7 boot) (μ : Type) (view : Pid → Context → μ → AppState) mem, r.Apps n view mem →
      (∀ i, i < r.len → (r.dispatched i = none ↔ ∀ m p, Runnable (r.call i).procArray p →
        p.val ≤ (draw (r.event i).tsc m).toNat)) ∧
      Window.count (fun i => (r.event i).trap ≠ .clock) 0 r.len ≤ 8 * n + 4 ∧
      (r.Draws → ∀ s, r.state r.len = .stuck s → ∀ p, p ≠ 0 →
        ((r.kern r.len).procArray p).pState = .zombie ∧ (r.printsOf p r.len).length = n)) ∧
    ∀ (r : Run 7 boot) mem, r.Apps n inMemory mem → r.Draws →
      ∃ (r' : Run 7 boot) (mem' : Nat → Pid → AppState), r'.Apps n inMemory mem' ∧ r'.Extends r ∧
        r'.Draws ∧ ∀ p, p ≠ 0 → ((r'.kern r'.len).procArray p).pState = .zombie := by
  refine ⟨fun r μ view mem h => ⟨fun i hi => h.lottery_stuck_iff hi, h.count_calls, ?_⟩,
    fun r mem h hdraws => h.exists_exit_lottery hdraws⟩
  intro hdraws s hs p hp
  have hz := h.zombie_of_stuck_lottery hdraws hs hp
  exact ⟨hz, r.length_printsOf h (Nat.le_refl _) hp hz⟩

/-- They come to their end from `start()`. -/
theorem three_prints_lottery : ∃ (r : Run 7 .zero) (mem : Nat → Pid → AppState),
    r.Apps 3 inMemory mem ∧ r.Draws ∧
      (∀ p, p ≠ 0 → ((r.kern r.len).procArray p).pState = .zombie) ∧
      Window.count (fun i => (r.event i).trap ≠ .clock) 0 r.len ≤ 28 := by
  obtain ⟨hruns, hends⟩ := lottery_apps_exit .zero 3
  obtain ⟨r, mem, h, -, hdraws, hz⟩ := hends (noInterrupt 7 .zero) _ (noInterrupt_apps 7 .zero 3)
    fun i hi => absurd hi (Nat.not_lt_zero i)
  exact ⟨r, mem, h, hdraws, hz, (hruns r _ inMemory mem h).2.1⟩

end SchedOS
