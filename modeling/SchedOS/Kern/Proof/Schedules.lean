import SchedOS.Kern.Proof.Step
import Mathlib.Tactic.SplitIfs

/-!
# What one call of the scheduler can do

`schedules_…` unfold `schedule()` for each algorithm. How it is left does not depend on the bound on
its loop (`schedule_mono`, `Schedules.unique`). Whatever the algorithm, the process that is run is
runnable and only `p_share_left` of the descriptors may change, under algorithm 42 alone
(`Schedules.frame`).
-/

namespace SchedOS

/-! ## `schedule()` by algorithm -/

section
variable {tsc : Nat → UInt64} {s : Kernel} {procArray : ProcArray} {pid : Pid}

theorem exists_run_eq_some {σ ρ : Type} {body : σ → σ ⊕ ρ} {st : σ} {f : ρ → Sched} {q : Sched} :
    (∃ fuel, (Loop.run body fuel st).map f = some q) ↔ ∃ x, Loop.Ends body st x ∧ f x = q := by
  simp only [Option.map_eq_some_iff, Loop.Ends]
  constructor
  · rintro ⟨fuel, x, h, hq⟩
    exact ⟨x, ⟨fuel, h⟩, hq⟩
  · rintro ⟨x, ⟨fuel, h⟩, hq⟩
    exact ⟨fuel, x, h, hq⟩

/-- A loop that leaves the descriptors alone. -/
theorem exists_run_pid {pa : ProcArray} {body : Pid → Pid ⊕ Pid} {c : Pid} :
    (∃ fuel, (Loop.run body fuel c).map (Sched.run pa) = some (Sched.run procArray pid)) ↔
      procArray = pa ∧ Loop.Ends body c pid := by
  rw [exists_run_eq_some]
  constructor
  · rintro ⟨k, h, hk⟩
    cases hk
    exact ⟨rfl, h⟩
  · rintro ⟨rfl, h⟩
    exact ⟨pid, h, rfl⟩

theorem schedules_roundRobin (h : s.schedulingAlgorithm = 0) :
    Schedules tsc s procArray pid ↔ procArray = s.procArray ∧
      Loop.Ends (roundRobinPass s.procArray) s.currentProc.pPid pid := by
  simp only [Schedules, schedule, h, ↓reduceIte, exists_run_pid]

theorem schedules_strict (h : s.schedulingAlgorithm = 2) :
    Schedules tsc s procArray pid ↔ procArray = s.procArray ∧
      Loop.Ends (strictPass s.procArray) 1 pid := by
  simp only [Schedules, schedule, h, ↓reduceIte, exists_run_pid, show ¬ (2 : Int) = 0 by decide]

theorem schedules_priority (h : s.schedulingAlgorithm = 41) :
    Schedules tsc s procArray pid ↔ procArray = s.procArray ∧
      Loop.Ends (priorityPass s.procArray) s.currentProc.pPid pid := by
  simp only [Schedules, schedule, h, ↓reduceIte, exists_run_pid, show ¬ (41 : Int) = 0 by decide,
    show ¬ (41 : Int) = 2 by decide]

theorem schedules_share (h : s.schedulingAlgorithm = 42) :
    Schedules tsc s procArray pid ↔
      if HasShare s.procArray s.currentProc.pPid then
        procArray = takeShare s.procArray s.currentProc.pPid ∧ pid = s.currentProc.pPid
      else Loop.Ends sharePass (s.procArray, s.currentProc.pPid) (procArray, pid) := by
  simp only [Schedules, schedule, h, ↓reduceIte, show ¬ (42 : Int) = 0 by decide,
    show ¬ (42 : Int) = 2 by decide, show ¬ (42 : Int) = 41 by decide]
  split
  · simp only [Option.some.injEq, Sched.run.injEq, exists_const]
    exact ⟨fun ⟨h1, h2⟩ => ⟨h1.symm, h2.symm⟩, fun ⟨h1, h2⟩ => ⟨h1.symm, h2.symm⟩⟩
  · rw [exists_run_eq_some]
    constructor
    · rintro ⟨x, hx, hq⟩
      cases hq
      exact hx
    · exact fun hx => ⟨_, hx, rfl⟩

theorem schedules_lottery (h : s.schedulingAlgorithm = 7) :
    Schedules tsc s procArray pid ↔
      Loop.Ends (lotteryPass s.procArray tsc) 0 (.run procArray pid) := by
  simp only [Schedules, schedule, h, ↓reduceIte, show ¬ (7 : Int) = 0 by decide,
    show ¬ (7 : Int) = 2 by decide, show ¬ (7 : Int) = 41 by decide,
    show ¬ (7 : Int) = 42 by decide, Loop.Ends]

/-- `schedule()` runs a process only under one of the five algorithms. -/
theorem Schedules.algorithm (h : Schedules tsc s procArray pid) :
    s.schedulingAlgorithm = 0 ∨ s.schedulingAlgorithm = 2 ∨ s.schedulingAlgorithm = 41 ∨
      s.schedulingAlgorithm = 42 ∨ s.schedulingAlgorithm = 7 := by
  obtain ⟨fuel, h⟩ := h
  unfold schedule at h
  dsimp only at h
  split_ifs at h with h0 h2 h41 h42 _ h7
  · exact .inl h0
  · exact .inr (.inl h2)
  · exact .inr (.inr (.inl h41))
  · exact .inr (.inr (.inr (.inl h42)))
  · exact .inr (.inr (.inr (.inl h42)))
  · exact .inr (.inr (.inr (.inr h7)))
  · cases h

/-- How `schedule()` is left does not depend on the bound. -/
theorem schedule_mono {n m : Nat} {q : Sched} (h : schedule tsc n s = some q) (hnm : n ≤ m) :
    schedule tsc m s = some q := by
  have key : ∀ {σ ρ : Type} {body : σ → σ ⊕ ρ} {st : σ} {f : ρ → Sched},
      (Loop.run body n st).map f = some q → (Loop.run body m st).map f = some q := by
    intro σ ρ body st f h
    obtain ⟨r, hr, rfl⟩ := Option.map_eq_some_iff.1 h
    rw [Loop.run_mono hr hnm]
    rfl
  unfold schedule at h ⊢
  dsimp only at h ⊢
  split_ifs at h ⊢
  · exact key h
  · exact key h
  · exact key h
  · exact h
  · exact key h
  · exact Loop.run_mono h hnm
  · exact h

theorem Schedules.unique {procArray' : ProcArray} {pid' : Pid}
    (h : Schedules tsc s procArray pid) (h' : Schedules tsc s procArray' pid') :
    procArray' = procArray ∧ pid' = pid := by
  obtain ⟨n, hn⟩ := h
  obtain ⟨m, hm⟩ := h'
  have h1 := schedule_mono hn (Nat.le_max_left n m)
  rw [schedule_mono hm (Nat.le_max_right n m)] at h1
  cases h1
  exact ⟨rfl, rfl⟩

/-- An interrupt whose `schedule()` runs a process ends with that process. -/
theorem Step.eq_run {s : Kernel} {c : Context} {e : Event} {m : Machine}
    (h : Step (.user s c) e m) (hs : Schedules e.tsc (e.call s) procArray pid) :
    m = run { e.call s with procArray } pid := by
  obtain ⟨s', c', hm, ⟨pa, k, hs', rfl⟩ | ⟨hno, -⟩⟩ := h.inv
  · cases hm
    obtain ⟨rfl, rfl⟩ := hs.unique hs'
    rfl
  · cases hm
    exact absurd hs (hno _ _)

end

/-! ## What the scheduler leaves alone -/

/-- `pa'` differs from `pa` in `p_share_left` only, and not in slot 0. -/
structure ShareFrame (pa pa' : ProcArray) : Prop where
  eq : ∀ q, pa' q = { pa q with pShareLeft := (pa' q).pShareLeft }
  slot0 : pa' 0 = pa 0

theorem ShareFrame.refl (pa : ProcArray) : ShareFrame pa pa := ⟨fun _ => rfl, rfl⟩

theorem ShareFrame.trans {pa pa' pa'' : ProcArray} (h : ShareFrame pa pa')
    (h' : ShareFrame pa' pa'') : ShareFrame pa pa'' := by
  refine ⟨fun q => ?_, h'.slot0.trans h.slot0⟩
  have h1 := h'.eq q
  rw [h.eq q] at h1
  exact h1

theorem ShareFrame.pState {pa pa' : ProcArray} (h : ShareFrame pa pa') (q : Pid) :
    (pa' q).pState = (pa q).pState := by rw [h.eq q]

theorem ShareFrame.pShareAmt {pa pa' : ProcArray} (h : ShareFrame pa pa') (q : Pid) :
    (pa' q).pShareAmt = (pa q).pShareAmt := by rw [h.eq q]

theorem ShareFrame.pLotteryAmt {pa pa' : ProcArray} (h : ShareFrame pa pa') (q : Pid) :
    (pa' q).pLotteryAmt = (pa q).pLotteryAmt := by rw [h.eq q]

theorem ShareFrame.pPid {pa pa' : ProcArray} (h : ShareFrame pa pa') (q : Pid) :
    (pa' q).pPid = (pa q).pPid := by rw [h.eq q]

theorem ShareFrame.runnable {pa pa' : ProcArray} (h : ShareFrame pa pa') (q : Pid) :
    Runnable pa' q ↔ Runnable pa q := by
  unfold Runnable
  rw [h.pState q]

theorem resetShares_frame (pa : ProcArray) : ShareFrame pa (resetShares pa) := by
  refine ⟨fun q => ?_, rfl⟩
  unfold resetShares
  split <;> rfl

theorem resetShares_idem (pa : ProcArray) : resetShares (resetShares pa) = resetShares pa := by
  funext q
  unfold resetShares
  split <;> rfl

theorem takeShare_frame (pa : ProcArray) {k : Pid} (hk : k ≠ 0) :
    ShareFrame pa (takeShare pa k) := by
  refine ⟨fun q => ?_, Function.update_of_ne hk.symm _ _⟩
  unfold takeShare
  by_cases h : q = k
  · subst h
    simp
  · simp [h]

theorem shareScan_hasShare {pa : ProcArray} : ∀ {n : Nat} {st : Scan},
    HasShare pa st.firstPid → HasShare pa (shareScan pa n st).firstPid
  | 0, _, h => h
  | n + 1, st, h => by
    unfold shareScan
    dsimp only
    split
    · rename_i hc
      exact shareScan_hasShare (n := n) hc.1
    · exact shareScan_hasShare (n := n) h

/-- The process that a pass of algorithm 42 runs has share left. -/
theorem sharePass_inr {st : ProcArray × Pid} {pa : ProcArray} {k : Pid}
    (h : sharePass st = .inr (pa, k)) : HasShare st.1 k ∧ pa = takeShare st.1 k := by
  unfold sharePass at h
  dsimp only at h
  split at h
  · rename_i hf
    cases h
    exact ⟨shareScan_hasShare hf, rfl⟩
  · cases h

theorem sharePass_inl {st st' : ProcArray × Pid} (h : sharePass st = .inl st') :
    st'.1 = resetShares st.1 := by
  unfold sharePass at h
  dsimp only at h
  split at h
  · cases h
  · cases h
    rfl

section
variable {tsc : Nat → UInt64} {s : Kernel} {procArray : ProcArray} {pid : Pid}

/-- Algorithm 42 runs a process with share left, of the table as it is or after the reset. -/
theorem ends_sharePass {st : ProcArray × Pid} (h : Loop.Ends sharePass st (procArray, pid)) :
    (HasShare st.1 pid ∧ procArray = takeShare st.1 pid ∧ ∀ st', sharePass st ≠ .inl st') ∨
      (HasShare (resetShares st.1) pid ∧ procArray = takeShare (resetShares st.1) pid ∧
        ∃ st', sharePass st = .inl st') := by
  rcases h.first with hb | ⟨st', hb, h'⟩
  · obtain ⟨hs, hp⟩ := sharePass_inr hb
    refine .inl ⟨hs, hp, fun st' hb' => ?_⟩
    rw [hb] at hb'
    cases hb'
  · refine .inr ?_
    rw [← sharePass_inl hb]
    -- every later reset does nothing
    have hrun := h'.inv (I := fun st'' => st''.1 = st'.1)
      (Q := fun r => HasShare st'.1 r.2 ∧ r.1 = takeShare st'.1 r.2)
      (fun st1 st2 hI hb2 => ?_) (fun st1 r hI hb2 => ?_) rfl
    · exact ⟨hrun.1, hrun.2, st', hb⟩
    · rw [sharePass_inl hb2, hI, sharePass_inl hb, resetShares_idem]
    · rw [← hI]
      exact sharePass_inr hb2

theorem ends_sharePass_frame {st : ProcArray × Pid} (h0 : ¬ Runnable st.1 0)
    (h : Loop.Ends sharePass st (procArray, pid)) :
    ShareFrame st.1 procArray ∧ Runnable st.1 pid := by
  have hne : ∀ pa, ShareFrame st.1 pa → HasShare pa pid → pid ≠ 0 := by
    rintro pa hf hs rfl
    exact h0 ((hf.runnable 0).1 hs.1)
  rcases ends_sharePass h with ⟨hs, rfl, -⟩ | ⟨hs, rfl, -⟩
  · exact ⟨takeShare_frame _ (hne _ (.refl _) hs), hs.1⟩
  · have hf := resetShares_frame st.1
    exact ⟨hf.trans (takeShare_frame _ (hne _ hf hs)), (hf.runnable pid).1 hs.1⟩

theorem lotteryChoice_runnable {pa : ProcArray} {num : UInt32} {k : Pid}
    (h : lotteryChoice pa num = some k) : Runnable pa k := by
  unfold lotteryChoice at h
  dsimp only at h
  split_ifs at h with h1 h2 h3 h4 <;> cases h
  · exact h1.2
  · exact h2.2
  · exact h3.2
  · exact h4

theorem ends_lotteryPass {pa : ProcArray} {n : Nat}
    (h : Loop.Ends (lotteryPass pa tsc) n (.run procArray pid)) :
    procArray = pa ∧ Runnable pa pid := by
  refine Loop.Ends.inv (I := fun _ => True)
    (Q := fun r => ∀ procArray pid, r = Sched.run procArray pid →
      procArray = pa ∧ Runnable pa pid)
    (fun _ _ _ _ => trivial) (fun n r _ hb procArray pid hr => ?_) trivial h _ _ rfl
  subst hr
  unfold lotteryPass at hb
  dsimp only at hb
  split at hb
  · cases hb
  · split at hb
    · rename_i k hk
      cases hb
      exact ⟨rfl, lotteryChoice_runnable hk⟩
    · cases hb

theorem roundRobinPass_runnable {pa : ProcArray} {c k : Pid} (h : roundRobinPass pa c = .inr k) :
    Runnable pa k := by
  unfold roundRobinPass at h
  dsimp only at h
  split_ifs at h with hr
  cases h
  exact hr

theorem strictPass_runnable {pa : ProcArray} {c k : Pid} (h : strictPass pa c = .inr k) :
    Runnable pa k := by
  unfold strictPass at h
  split_ifs at h with hr
  cases h
  exact hr

theorem priorityPass_runnable {pa : ProcArray} {c k : Pid} (h : priorityPass pa c = .inr k) :
    Runnable pa k := by
  unfold priorityPass at h
  dsimp only at h
  split_ifs at h with hr
  cases h
  exact hr

/-- A loop whose passes end at runnable processes ends at one. -/
theorem ends_runnable {pa : ProcArray} {body : Pid → Pid ⊕ Pid}
    (hb : ∀ c k, body c = .inr k → Runnable pa k) {c k : Pid} (h : Loop.Ends body c k) :
    Runnable pa k :=
  h.inv (I := fun _ => True) (fun _ _ _ _ => trivial) (fun c k _ hk => hb c k hk) trivial

/-- What every algorithm guarantees: the process that is run is runnable, and of the descriptors
only `p_share_left` can have changed, under algorithm 42. -/
theorem Schedules.frame (h0 : ¬ Runnable s.procArray 0) (h : Schedules tsc s procArray pid) :
    ShareFrame s.procArray procArray ∧ Runnable s.procArray pid ∧
      (s.schedulingAlgorithm ≠ 42 → procArray = s.procArray) := by
  rcases h.algorithm with ha | ha | ha | ha | ha
  · obtain ⟨rfl, he⟩ := (schedules_roundRobin ha).1 h
    exact ⟨.refl _, ends_runnable (fun _ _ => roundRobinPass_runnable) he, fun _ => rfl⟩
  · obtain ⟨rfl, he⟩ := (schedules_strict ha).1 h
    exact ⟨.refl _, ends_runnable (fun _ _ => strictPass_runnable) he, fun _ => rfl⟩
  · obtain ⟨rfl, he⟩ := (schedules_priority ha).1 h
    exact ⟨.refl _, ends_runnable (fun _ _ => priorityPass_runnable) he, fun _ => rfl⟩
  · refine ⟨?_, ?_, fun hne => absurd ha hne⟩ <;> rw [schedules_share ha] at h <;> split at h
    · rename_i hs
      obtain ⟨rfl, rfl⟩ := h
      exact takeShare_frame _ fun hz => h0 (hz ▸ hs.1)
    · exact (ends_sharePass_frame h0 h).1
    · rename_i hs
      obtain ⟨rfl, rfl⟩ := h
      exact hs.1
    · exact (ends_sharePass_frame h0 h).2
  · rw [schedules_lottery ha] at h
    obtain ⟨rfl, hr⟩ := ends_lotteryPass h
    exact ⟨.refl _, hr, fun _ => rfl⟩

end

end SchedOS
