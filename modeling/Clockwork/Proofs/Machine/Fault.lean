import Clockwork.Proofs.Machine.Step
import Clockwork.Proofs.Signals

namespace Clockwork

namespace Machine

/-- The fault that a machine came to. -/
def fault? (m : Machine) : Option SimError :=
  match m.control with
  | .done (.failed e) => some e
  | _ => none

theorem control_of_fault? {m : Machine} {e : SimError} (h : m.fault? = some e) :
    m.control = .done (.failed e) := by
  unfold fault? at h
  split at h
  · rename_i e' hc
    cases h
    exact hc
  · cases h

theorem fault?_eq_none {m : Machine} (h : m.fault? = none) (e : SimError) :
    m.control ≠ .done (.failed e) := by
  intro hc
  simp only [fault?, hc] at h
  cases h

theorem run_of_step {waker : Waker} {m m' : Machine} (h : m.step waker = .go m') (fuel : Nat) :
    m.run waker (fuel + 1) = m'.run waker fuel := by
  simp only [run, h]

/-- What a fault leaves of a simulation on its way through the frames of a run. -/
structure Unwound (s s' : Simulation) : Prop where
  values : s.SameValues s'
  paused : s'.paused = s.paused
  inRound : s.inRound = false → s'.inRound = false
  pending : s.pending = [] → s'.pending = []
  staged : s.hasStaged = false → s'.hasStaged = false

namespace Unwound

theorem refl (s : Simulation) : Unwound s s := ⟨.refl s, rfl, id, id, id⟩

theorem trans {s s₁ s₂ : Simulation} (h : Unwound s s₁) (h₁ : Unwound s₁ s₂) : Unwound s s₂ :=
  ⟨h.values.trans h₁.values, h₁.paused.trans h.paused, h₁.inRound ∘ h.inRound,
    h₁.pending ∘ h.pending, h₁.staged ∘ h.staged⟩

theorem discardPending (s : Simulation) : Unwound s s.discardPending :=
  ⟨s.readField_discardPending, rfl, id, fun _ => rfl, fun _ => s.hasStaged_discardPending⟩

end Unwound

/-- A machine that fails with the frames and the simulation given. -/
structure FailsWith (m : Machine) (e : SimError) (stack : List Frame) (s : Simulation) : Prop where
  control : m.control = .done (.failed e)
  stack : m.stack = stack
  sim : Unwound s m.sim

theorem endDrive_failsWith (m : Machine) (e : SimError) :
    (m.endDrive (.failed e)).FailsWith e m.stack m.sim := by
  have hsim : Unwound m.sim m.undriven.sim := ⟨.refl _, rfl, id, id, id⟩
  by_cases h : 0 < m.undriven.sim.driveDepth
  · rw [endDrive_inner _ h]
    exact ⟨rfl, rfl, hsim⟩
  · cases hr : m.sim.inRound with
    | true =>
        rw [endDrive_failed_inRound e h hr]
        exact ⟨rfl, rfl, hsim⟩
    | false =>
        rw [endDrive_failed_outside e h hr]
        exact ⟨rfl, rfl, hsim.trans (.discardPending _)⟩

theorem unwind_failsWith (m : Machine) (f : Frame) (e : SimError) :
    (m.unwind f (.failed e)).FailsWith e m.stack m.sim := by
  cases f with
  | driven => exact m.endDrive_failsWith e
  | settled =>
      have hsim :
          Unwound m.sim { m.sim with inRound := false } := ⟨.refl _, rfl, fun _ => rfl, id, id⟩
      exact ⟨rfl, rfl, hsim.trans (.discardPending _)⟩
  | combOver p depth => exact ⟨rfl, rfl, ⟨.refl _, rfl, id, id, id⟩⟩
  | _ => exact ⟨rfl, rfl, .refl _⟩

theorem fault?_of_step {m m' : Machine} {waker : Waker} (hstep : m.step waker = .go m')
    (hok : m'.fault? = none) : m.fault? = none := by
  cases he : m.fault? with
  | none => rfl
  | some e =>
      have hc := control_of_fault? he
      cases hs : m.stack with
      | nil =>
          simp only [step, hc, hs] at hstep
          cases hstep
      | cons f rest =>
          rw [step_done hc hs] at hstep
          cases hstep
          have hfails := (unwind_failsWith { m with stack := rest } f e).control
          exact absurd hfails (fault?_eq_none hok e)

theorem run_failed (waker : Waker) (m : Machine) (e : SimError)
    (hc : m.control = .done (.failed e)) :
    ∃ s, Unwound m.sim s ∧
      ∀ fuel, m.stack.length < fuel → m.run waker fuel = some (s, .over (.failed e)) := by
  induction hs : m.stack generalizing m with
  | nil =>
      refine ⟨m.sim, .refl _, ?_⟩
      intro fuel hfuel
      cases fuel with
      | zero => exact absurd hfuel (Nat.not_lt_zero _)
      | succ fuel => simp only [run, step, hc, hs]
  | cons f rest ih =>
      obtain ⟨hcontrol, hstack, hsim⟩ := unwind_failsWith { m with stack := rest } f e
      obtain ⟨s, hunwound, hrun⟩ := ih _ hcontrol hstack
      refine ⟨s, hsim.trans hunwound, ?_⟩
      intro fuel hfuel
      cases fuel with
      | zero => exact absurd hfuel (Nat.not_lt_zero _)
      | succ fuel =>
          simp only [run, step_done hc hs]
          exact hrun fuel (by simpa using hfuel)

end Machine

end Clockwork
