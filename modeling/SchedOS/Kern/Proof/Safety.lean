import SchedOS.Kern.Proof.Table

/-!
# Dispatch safety

Every `run` of a run of the machine is of a runnable descriptor among the four, and a process that
has exited is out for good: `Exited` is kept by the next call of `schedule()` (`Exited.call`) and by
its dispatch (`Exited.frame`), so by every step (`Exited.step`).
-/

namespace SchedOS

/-- Process `p` is a zombie with that exit status. -/
def Exited (pa : ProcArray) (p : Pid) (status : Int32) : Prop :=
  (pa p).pState = .zombie ∧ (pa p).pExitStatus = status

theorem Exited.not_runnable {pa : ProcArray} {p : Pid} {status : Int32} (h : Exited pa p status) :
    ¬ Runnable pa p := not_runnable_of_zombie h.1

theorem Exited.frame {pa pa' : ProcArray} {p : Pid} {status : Int32} (h : Exited pa p status)
    (hf : ShareFrame pa pa') : Exited pa' p status := by
  unfold Exited
  rw [hf.eq p]
  exact h

/-- A process that is not running is a zombie with the same status in the call state. -/
theorem Exited.call {s : Kernel} {p : Pid} {status : Int32} (h : Exited s.procArray p status)
    (hp : p ≠ s.current) (e : Event) : Exited (e.call s).procArray p status := by
  unfold Exited
  rw [call_of_ne e s hp]
  exact h

theorem call_exited {e : Event} (he : e.trap = .sysExit) (s : Kernel) :
    Exited (e.call s).procArray s.current e.cpu.eax.toInt32 := by
  unfold Exited
  rw [call_self, he, ← registers_eax]
  exact ⟨rfl, rfl⟩

theorem Step.running_current {m m' : Machine} {e : Event} (h : Step m e m') :
    m.running = some m.kern.current := by
  obtain ⟨s, c, rfl, -⟩ := h.inv
  rfl

/-- One interrupt keeps a process exited: it does not have the CPU, so the interrupt is another
process's, and the dispatch is not of it. -/
theorem Exited.step {alg : Int} {m m' : Machine} {e : Event} {p : Pid} {status : Int32}
    (hI : Inv alg m) (h : Step m e m') (hx : Exited m.kern.procArray p status) :
    Exited (e.call m.kern).procArray p status ∧ Exited m'.kern.procArray p status ∧
      m'.running ≠ some p := by
  have hp : p ≠ m.kern.current := by
    rintro rfl
    exact hx.not_runnable (hI.running _ h.running_current)
  have hc := hx.call hp e
  obtain ⟨hf, -, hk⟩ := h.frame hI
  exact ⟨hc, hc.frame hf, fun hr => hc.not_runnable (hk p hr)⟩

/-- A process becomes a zombie by its own `sys_exit` alone. -/
theorem Step.zombie {alg : Int} {m m' : Machine} {e : Event} {p : Pid} (hI : Inv alg m)
    (h : Step m e m') (hz : (m'.kern.procArray p).pState = .zombie) :
    (p = m.kern.current ∧ e.trap = .sysExit) ∨ (m.kern.procArray p).pState = .zombie := by
  rw [(h.frame hI).1.pState p] at hz
  by_cases hp : p = m.kern.current
  · by_cases ht : e.trap = .sysExit
    · exact .inl ⟨hp, ht⟩
    · rw [hp, call_self, procEffect_pState_of_ne ht, ← hp] at hz
      exact .inr hz
  · rw [call_of_ne _ _ hp] at hz
    exact .inr hz

/-- An interrupt makes no process runnable. -/
theorem runnable_of_call {e : Event} {s : Kernel} {q : Pid}
    (h : Runnable (e.call s).procArray q) : Runnable s.procArray q := by
  unfold Runnable at h ⊢
  by_cases hq : q = s.current
  · subst hq
    rw [call_self] at h
    rcases procEffect_pState e.trap e.registers (s.procArray s.current) with hp | hp
    · rwa [hp] at h
    · rw [hp] at h
      cases h
  · rwa [call_of_ne e s hq] at h

/-- Only `sys_exit` stops a process. -/
theorem runnable_call_iff {e : Event} (ht : e.trap ≠ .sysExit) (s : Kernel) (q : Pid) :
    Runnable (e.call s).procArray q ↔ Runnable s.procArray q := by
  unfold Runnable
  by_cases hq : q = s.current
  · rw [hq, call_self, procEffect_pState_of_ne ht]
  · rw [call_of_ne e s hq]

section
variable {alg : Int} {boot : Boot} (r : Run alg boot)

theorem Run.runnable_call {i : Nat} (hi : i < r.len) {q : Pid}
    (h : Runnable (r.kern (i + 1)).procArray q) : Runnable (r.call i).procArray q :=
  (((r.steps i hi).frame (r.inv (by omega))).1.runnable q).1 h

/-- A process that is runnable in a later call of `schedule()` is runnable in the earlier ones. -/
theorem Run.runnable_earlier {i j : Nat} (hij : i ≤ j) (hj : j ≤ r.len) {q : Pid}
    (h : Runnable (r.call j).procArray q) : Runnable (r.call i).procArray q := by
  induction j, hij using Nat.le_induction with
  | base => exact h
  | succ j hij ih =>
    exact ih (by omega) (r.runnable_call (by omega) (runnable_of_call h))

theorem Run.exited_keeps {p : Pid} {status : Int32} {a b : Nat} (hab : a ≤ b) (hb : b ≤ r.len)
    (ha : Exited (r.kern a).procArray p status) : Exited (r.kern b).procArray p status :=
  r.keeps (P := fun m => Exited m.kern.procArray p status) hab hb ha fun i _ hi hx =>
    (hx.step (r.inv (by omega)) (r.steps i (by omega))).2.1

/-- **Dispatch safety**: every call of `run` by `schedule()` is of a runnable process among the
four, `current` always points at one of the four, and from its `sys_exit` on a process is a zombie
with the status it passed and is not run. -/
theorem dispatch_safety :
    (∀ i, i < r.len → ∀ procArray k, Schedules (r.event i).tsc (r.call i) procArray k →
      1 ≤ k.val ∧ k.val ≤ 4 ∧ (procArray k).pState = .runnable) ∧
    (∀ i, i ≤ r.len → 1 ≤ (r.kern i).current.val ∧ (r.kern i).current.val ≤ 4) ∧
    (∀ i, i < r.len → (r.event i).trap = .sysExit → ∀ j, i ≤ j → j < r.len →
      Exited (r.call j).procArray (r.kern i).current (r.event i).cpu.eax.toInt32 ∧
      Exited (r.kern (j + 1)).procArray (r.kern i).current
        (r.event i).cpu.eax.toInt32 ∧
      r.dispatched j ≠ some (r.kern i).current) := by
  have hrange : ∀ k : Pid, k ≠ 0 → 1 ≤ k.val ∧ k.val ≤ 4 := by decide
  refine ⟨fun i hi procArray k hs => ?_, fun i hi => ?_, fun i hi he j hij hj => ?_⟩
  · have hc := (r.call_inv (Nat.le_of_lt hi)).table
    obtain ⟨hf, hk, -⟩ := hs.frame hc.not_runnable_zero
    obtain ⟨h1, h4⟩ := hrange k (hc.ne_zero hk)
    exact ⟨h1, h4, (hf.runnable k).2 hk⟩
  · exact hrange _ (r.inv hi).current
  · have hcall : Exited (r.call i).procArray (r.kern i).current
        (r.event i).cpu.eax.toInt32 := call_exited he _
    obtain ⟨hf, -, hk⟩ := (r.steps i hi).frame (r.inv (by omega))
    rcases Nat.eq_or_lt_of_le hij with rfl | hlt
    · exact ⟨hcall, hcall.frame hf, fun hr => hcall.not_runnable (hk _ hr)⟩
    · have hx := r.exited_keeps (b := j) hlt (by omega) (hcall.frame hf)
      exact hx.step (r.inv (by omega)) (r.steps j hj)

end

end SchedOS
