import Clockwork.Concurrency.Dispatch
import Clockwork.Proofs.Concurrency.Schedule.Agenda
/-!
The course of a run. A host that uses its scheduler by calls only (`Host.CallsOnly`) goes on in
small steps, each with a journal of what happens to the entries: a task or a callback makes calls,
the entries of the next instant are taken out and then dispatched one after the other, or time goes
on to the end of a run. Every command that a host carries out is such a course (`Command.reaches`),
and a session is any number of commands with calls in between.
-/

namespace Clockwork

namespace Host

variable {ω κ τ : Type} {h : Host ω κ τ}

/-- Tasks and callbacks do nothing to the scheduler but call it. -/
structure CallsOnly (h : Host ω κ τ) : Prop where
  scheduler_update : ∀ f w, h.scheduler (h.update f w) = f (h.scheduler w)
  poll : ∀ {fuel task w w' turn}, h.poll fuel task w = some (w', turn) →
    (h.scheduler w).CallsTo (h.scheduler w')
  call : ∀ {fuel body w w' fault}, h.call fuel body w = some (w', fault) →
    (h.scheduler w).CallsTo (h.scheduler w')
  abandon : ∀ task w, (h.scheduler w).CallsTo (h.scheduler (h.abandon task w))

/-- A step of a host, from a world to another one. Besides the worlds there are the entries that
were taken out of the agenda and have not been dispatched yet, before the step and after it. -/
inductive Step (h : Host ω κ τ) :
    ω → List (Entry κ) → Journal → ω → List (Entry κ) → Prop
  | settle {w : ω} {batch : List (Entry κ)} (f : Scheduler κ τ → Scheduler κ τ)
      (hf : (h.scheduler w).Alike (f (h.scheduler w))) : Step h w batch [] (h.update f w) batch
  | poll {w w' : ω} {batch : List (Entry κ)} {j : Journal} {task : τ} {turn : Turn τ} (fuel : Nat)
      (hpoll : h.poll fuel task w = some (w', turn))
      (hj : Scheduler.Calls (h.scheduler w) j (h.scheduler w')) : Step h w batch j w' batch
  /-- What a task waits for and holds is given up. -/
  | abandon {w : ω} {batch : List (Entry κ)} {j : Journal} (task : τ)
      (hj : Scheduler.Calls (h.scheduler w) j (h.scheduler (h.abandon task w))) :
      Step h w batch j (h.abandon task w) batch
  /-- The clock goes on to the first entry, and the entries of that instant are taken out. -/
  | take {w : ω} {s : Scheduler κ τ} {due : List (Entry κ)}
      (hdue : (h.scheduler w).takeDue = some (s, due)) :
      Step h w [] [] (h.update (fun s => (s.takeDue.map (·.1)).getD s) w) due
  /-- The first entry taken out is a sleeper, and is woken. -/
  | fire {w : ω} {e : Entry κ} {rest : List (Entry κ)} {waker : Waker}
      (hdue : e.due = .sleeper waker) :
      Step h w (e :: rest) [.dispatched e.date (h.scheduler w).now]
        (h.update (fun s => s.fire e.seq waker) w) rest
  /-- The first entry taken out is a callback, and runs. -/
  | call {w w' : ω} {e : Entry κ} {rest : List (Entry κ)} {body : κ} {j : Journal}
      {fault : Option SimError} (fuel : Nat) (hdue : e.due = .callback body)
      (hcall : h.call fuel body w = some (w', fault))
      (hj : Scheduler.Calls (h.scheduler w) j (h.scheduler w')) :
      Step h w (e :: rest) (.dispatched e.date (h.scheduler w).now :: j) w' rest
  /-- The clock goes on to the end of a run, since the first entry is beyond it. -/
  | jump {w : ω} (stop : Nat)
      (hlate : ∀ e, (h.scheduler w).agenda.head? = some e → stop < e.time.fs) :
      Step h w [] [] (h.update
        (fun s => if s.now.fs < stop then { s with now := .ofFs stop } else s) w) []
  | clear {w : ω} {batch : List (Entry κ)} :
      Step h w batch ((h.scheduler w).dates.map .cancelled)
        (h.update (fun s => { s with agenda := [], cancelled := false }) w) batch

/-- Any number of steps. -/
inductive Course (h : Host ω κ τ) :
    ω → List (Entry κ) → Journal → ω → List (Entry κ) → Prop
  | nil (w : ω) (batch : List (Entry κ)) : Course h w batch [] w batch
  | cons {w w₁ w' : ω} {batch batch₁ batch' : List (Entry κ)} {j₁ j : Journal} :
      h.Step w batch j₁ w₁ batch₁ → Course h w₁ batch₁ j w' batch' →
        Course h w batch (j₁ ++ j) w' batch'

theorem Course.trans {w w₁ w' : ω} {batch batch₁ batch' : List (Entry κ)} {j₁ j : Journal}
    (h₁ : h.Course w batch j₁ w₁ batch₁) (h₂ : h.Course w₁ batch₁ j w' batch') :
    h.Course w batch (j₁ ++ j) w' batch' := by
  induction h₁ with
  | nil => exact h₂
  | cons hstep _ ih =>
      rw [List.append_assoc]
      exact .cons hstep (ih h₂)

def Reaches (h : Host ω κ τ) (w : ω) (batch : List (Entry κ)) (w' : ω)
    (batch' : List (Entry κ)) : Prop := ∃ j, h.Course w batch j w' batch'

namespace Reaches

variable {w w₁ w' : ω} {batch batch₁ batch' : List (Entry κ)}

theorem refl (w : ω) (batch : List (Entry κ)) : h.Reaches w batch w batch := ⟨_, .nil w batch⟩

theorem trans (h₁ : h.Reaches w batch w₁ batch₁) (h₂ : h.Reaches w₁ batch₁ w' batch') :
    h.Reaches w batch w' batch' := by
  obtain ⟨_, h₁⟩ := h₁
  obtain ⟨_, h₂⟩ := h₂
  exact ⟨_, h₁.trans h₂⟩

theorem step {j : Journal} (hstep : h.Step w batch j w' batch') : h.Reaches w batch w' batch' :=
  ⟨_, .cons hstep (.nil w' batch')⟩

theorem settle (f : Scheduler κ τ → Scheduler κ τ)
    (hf : (h.scheduler w).Alike (f (h.scheduler w))) : h.Reaches w batch (h.update f w) batch :=
  step (.settle f hf)

end Reaches

namespace CallsOnly

variable (hc : h.CallsOnly) {w w' : ω} {fuel : Nat} {e : Option SimError}
  {batch : List (Entry κ)}

include hc

theorem reaches_abandon (task : τ) (w : ω) : h.Reaches w batch (h.abandon task w) batch := by
  obtain ⟨j, hj⟩ := hc.abandon task w
  exact .step (.abandon task hj)

theorem reaches_runTask {id : Nat} (hrun : h.runTask fuel id w = some (w', e)) :
    h.Reaches w batch w' batch := by
  simp only [Host.runTask] at hrun
  split at hrun
  · cases hrun
    exact .refl _ batch
  · refine (Reaches.settle
      (fun s => { s with tasks := s.tasks.erase id, running := some id }) ⟨rfl, rfl, rfl⟩).trans ?_
    split at hrun
    · cases hrun
    · rename_i w₁ turn hpoll
      obtain ⟨j, hj⟩ := hc.poll hpoll
      refine (Reaches.step (.poll fuel hpoll hj)).trans
        ((Reaches.settle (fun s => { s with running := none, cancelled := false })
          ⟨rfl, rfl, rfl⟩).trans ?_)
      split at hrun
      · cases hrun
        exact .refl _ batch
      · split at hrun
        · cases hrun
          exact hc.reaches_abandon _ _
        · cases hrun
          exact .settle _ ⟨rfl, rfl, rfl⟩

theorem reaches_runReadyFrom {first : Option SimError}
    (hrun : h.runReadyFrom fuel first w = some (w', e)) : h.Reaches w batch w' batch := by
  induction fuel generalizing first w with
  | zero => cases hrun
  | succ fuel ih =>
      simp only [Host.runReadyFrom] at hrun
      split at hrun
      · cases hrun
        exact .refl _ batch
      · split at hrun
        · cases hrun
        · rename_i w₁ e₁ htask
          exact (Reaches.settle _ ⟨rfl, rfl, rfl⟩).trans
            ((hc.reaches_runTask htask).trans (ih hrun))

theorem reaches_runReady (hrun : h.runReady fuel w = some (w', e)) :
    h.Reaches w batch w' batch :=
  hc.reaches_runReadyFrom hrun

theorem reaches_runEntries {due : List (Entry κ)}
    (hrun : h.runEntries fuel due w = some (w', e)) : h.Reaches w due w' [] := by
  induction due generalizing w e with
  | nil =>
      cases hrun
      exact .refl _ []
  | cons entry rest ih =>
      simp only [Host.runEntries] at hrun
      split at hrun
      · rename_i waker hdue
        exact (Reaches.step (.fire hdue)).trans (ih hrun)
      · rename_i body hdue
        split at hrun
        · cases hrun
        · rename_i w₁ fault hcall
          obtain ⟨⟨w₂, later⟩, hrest, heq⟩ := Option.map_eq_some_iff.mp hrun
          cases heq
          obtain ⟨j, hj⟩ := hc.call hcall
          exact (Reaches.step (.call fuel hdue hcall hj)).trans (ih hrest)

theorem reaches_advance {r : Except SimError Bool} (hrun : h.advance fuel w = some (w', r)) :
    h.Reaches w [] w' [] := by
  simp only [Host.advance] at hrun
  split at hrun
  · cases hrun
  · rename_i w₁ e hready
    cases hrun
    exact hc.reaches_runReady hready
  · rename_i w₁ hready
    refine (hc.reaches_runReady hready).trans ?_
    split at hrun
    · cases hrun
      exact .refl _ []
    · rename_i s due hdue
      refine (Reaches.step (.take hdue)).trans ?_
      split at hrun
      · cases hrun
      · rename_i w₂ fault hentries
        refine (hc.reaches_runEntries hentries).trans ?_
        split at hrun
        · cases hrun
        · rename_i w₃ later hlater
          refine (hc.reaches_runReady hlater).trans ?_
          split at hrun
          · cases hrun
            exact .refl _ []
          · cases hrun
            exact .refl _ []

theorem reaches_advanceUpTo {stop : Nat} (hrun : h.advanceUpTo stop fuel w = some (w', e)) :
    h.Reaches w [] w' [] := by
  induction fuel generalizing w with
  | zero => cases hrun
  | succ fuel ih =>
      simp only [Host.advanceUpTo] at hrun
      split at hrun
      · cases hrun
        exact .refl _ []
      · cases hhead : (h.scheduler w).agenda.head? with
        | none =>
            simp only [hhead, Bool.false_eq_true, ↓reduceIte] at hrun
            cases hrun
            refine .step (.jump stop fun entry hentry => ?_)
            rw [hhead] at hentry
            cases hentry
        | some entry =>
            simp only [hhead, decide_eq_true_eq] at hrun
            split at hrun
            · split at hrun
              · cases hrun
              · rename_i w₁ e₁ hadvance
                cases hrun
                exact hc.reaches_advance hadvance
              · rename_i w₁ more hadvance
                exact (hc.reaches_advance hadvance).trans (ih hrun)
            · rename_i hlate
              cases hrun
              refine .step (.jump stop fun entry' hentry => ?_)
              rw [hhead] at hentry
              cases hentry
              exact Nat.lt_of_not_le hlate

theorem reaches_runUntil {stop : Nat} (hrun : h.runUntil fuel stop w = some (w', e)) :
    h.Reaches w [] w' [] := by
  simp only [Host.runUntil] at hrun
  refine (Reaches.settle (fun s => { s with stopped := false }) ⟨rfl, rfl, rfl⟩).trans ?_
  split at hrun
  · cases hrun
  · rename_i w₁ fault hready
    cases hrun
    exact hc.reaches_runReady hready
  · rename_i w₁ hready
    exact (hc.reaches_runReady hready).trans (hc.reaches_advanceUpTo hrun)

theorem reaches_cancel (w : ω) (id : Nat) : h.Reaches w [] (h.cancel w id) [] := by
  simp only [Host.cancel]
  refine (Reaches.settle (fun s => (s.cancel id).1) ((h.scheduler w).alike_cancel id)).trans ?_
  split
  · exact hc.reaches_abandon _ _
  · exact .refl _ []

theorem reaches_shutdown (w : ω) : h.Reaches w [] (h.shutdown w) [] := by
  have habandon (tasks : List τ) (w : ω) :
      h.Reaches w [] (tasks.foldl (fun w task => h.abandon task w) w) [] := by
    induction tasks generalizing w with
    | nil => exact .refl _ []
    | cons task tasks ih => exact (hc.reaches_abandon task w).trans (ih _)
  exact (Reaches.settle (fun s => { s with tasks := .empty }) ⟨rfl, rfl, rfl⟩).trans
    ((habandon _ _).trans (.step .clear))

end CallsOnly

/-- A host is told to do something. -/
inductive Command (h : Host ω κ τ) : ω → ω → Prop
  | runReady {w w' : ω} {fuel : Nat} {e : Option SimError} :
      h.runReady fuel w = some (w', e) → Command h w w'
  | advance {w w' : ω} {fuel : Nat} {r : Except SimError Bool} :
      h.advance fuel w = some (w', r) → Command h w w'
  | runUntil {w w' : ω} {fuel stop : Nat} {e : Option SimError} :
      h.runUntil fuel stop w = some (w', e) → Command h w w'
  | cancel (w : ω) (id : Nat) : Command h w (h.cancel w id)
  | shutdown (w : ω) : Command h w (h.shutdown w)

theorem Command.reaches (hc : h.CallsOnly) {w w' : ω} (hcommand : h.Command w w') :
    h.Reaches w [] w' [] := by
  cases hcommand with
  | runReady hrun => exact hc.reaches_runReady hrun
  | advance hrun => exact hc.reaches_advance hrun
  | runUntil hrun => exact hc.reaches_runUntil hrun
  | cancel id => exact hc.reaches_cancel w id
  | shutdown => exact hc.reaches_shutdown w

/-- A session with a host that began in the world `w₀`, with its journal so far. -/
inductive Session (h : Host ω κ τ) (w₀ : ω) : Journal → ω → Prop
  | start : Session h w₀ [] w₀
  /-- The scheduler is called from outside of all tasks; nothing is said about the rest of the
  world. -/
  | outside {w w' : ω} {j j₁ : Journal} :
      Session h w₀ j w → Scheduler.Calls (h.scheduler w) j₁ (h.scheduler w') →
        Session h w₀ (j ++ j₁) w'
  | command {w w' : ω} {j j₁ : Journal} :
      Session h w₀ j w → h.Command w w' → h.Course w [] j₁ w' [] → Session h w₀ (j ++ j₁) w'

end Host

end Clockwork
