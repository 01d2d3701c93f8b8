import Clockwork.Concurrency.Dispatch
import Clockwork.Proofs.Table

namespace Clockwork

def Turn.fault {τ : Type} : Turn τ → Option SimError
  | .ended fault => fault
  | .waits _ => none

def faultIn {α : Type} : Except SimError α → Option SimError
  | .ok _ => none
  | .error e => some e

namespace Host

variable {ω κ τ : Type}

/-- A property of worlds, and of the entries that were taken out and have not been run, that each
thing which a host does while time goes on keeps. It may depend on the first fault that the host
came to so far. -/
structure Guides (h : Host ω κ τ) (P : Option SimError → ω → List (Entry κ) → Prop) : Prop where
  turn : ∀ {fault fuel w id rest w' e batch}, P fault w batch →
    (h.scheduler w).ready = id :: rest →
      h.runTask fuel id (h.update (fun s => { s with ready := rest }) w) = some (w', e) →
        P (fault.or e) w' batch
  take : ∀ {fault w s due}, P fault w [] → (h.scheduler w).takeDue = some (s, due) →
    P fault (h.update (fun s => (s.takeDue.map (·.1)).getD s) w) due
  fire : ∀ {fault w e me rest}, P fault w (e :: rest) → e.due = .sleeper me →
    P fault (h.update (fun s => s.fire e.seq me) w) rest
  call : ∀ {fault fuel w entry body rest w' e}, P fault w (entry :: rest) →
    entry.due = .callback body → h.call fuel body w = some (w', e) → P (fault.or e) w' rest
  begin : ∀ {fault w}, P fault w [] → P fault (h.update (fun s => { s with stopped := false }) w) []
  jump : ∀ {fault w} (stop : Nat), P fault w [] → P fault
    (h.update (fun s => if s.now.fs < stop then { s with now := .ofFs stop } else s) w) []

namespace Guides

variable {h : Host ω κ τ} {P : Option SimError → ω → List (Entry κ) → Prop} (hg : h.Guides P)
  {w w' : ω} {fuel stop : Nat} {batch : List (Entry κ)} {f e : Option SimError}

include hg

theorem runReadyFrom {first last : Option SimError} (hw : P (f.or first) w batch)
    (hrun : h.runReadyFrom fuel first w = some (w', last)) : P (f.or last) w' batch := by
  induction fuel generalizing first w with
  | zero => cases hrun
  | succ fuel ih =>
      simp only [Host.runReadyFrom] at hrun
      split at hrun
      · cases hrun
        exact hw
      · rename_i id rest hready
        split at hrun
        · cases hrun
        · rename_i w₁ e htask
          have hw₁ := hg.turn hw hready htask
          rw [Option.or_assoc] at hw₁
          exact ih hw₁ hrun

theorem runReady (hw : P f w batch) (hrun : h.runReady fuel w = some (w', e)) :
    P (f.or e) w' batch := by
  refine hg.runReadyFrom ?_ hrun
  rwa [Option.or_none]

theorem runEntries (hw : P f w batch) (hrun : h.runEntries fuel batch w = some (w', e)) :
    P (f.or e) w' [] := by
  induction batch generalizing w e f with
  | nil =>
      cases hrun
      rwa [Option.or_none]
  | cons entry rest ih =>
      simp only [Host.runEntries] at hrun
      split at hrun
      · rename_i me hdue
        exact ih (hg.fire hw hdue) hrun
      · rename_i body hdue
        split at hrun
        · cases hrun
        · rename_i w₁ e' hcall
          obtain ⟨⟨w₂, later⟩, hrest, heq⟩ := Option.map_eq_some_iff.mp hrun
          cases heq
          rw [← Option.or_assoc]
          exact ih (hg.call hw hdue hcall) hrest

theorem advance {r : Except SimError Bool} (hw : P f w [])
    (hrun : h.advance fuel w = some (w', r)) : P (f.or (faultIn r)) w' [] := by
  simp only [Host.advance] at hrun
  split at hrun
  · cases hrun
  · rename_i w₁ e hready
    cases hrun
    exact hg.runReady hw hready
  · rename_i w₁ hready
    have hw₁ := hg.runReady hw hready
    rw [Option.or_none] at hw₁
    split at hrun
    · cases hrun
      rwa [faultIn, Option.or_none]
    · rename_i s due hdue
      split at hrun
      · cases hrun
      · rename_i w₂ e hentries
        have hw₂ := hg.runEntries (hg.take hw₁ hdue) hentries
        split at hrun
        · cases hrun
        · rename_i w₃ later hlater
          have hw₃ := hg.runReady hw₂ hlater
          rw [Option.or_assoc] at hw₃
          split at hrun
          · rename_i e' heq
            cases hrun
            rwa [heq] at hw₃
          · rename_i heq
            cases hrun
            rwa [heq] at hw₃

theorem advanceUpTo (hw : P f w []) (hrun : h.advanceUpTo stop fuel w = some (w', e)) :
    P (f.or e) w' [] := by
  induction fuel generalizing w with
  | zero => cases hrun
  | succ fuel ih =>
      simp only [Host.advanceUpTo] at hrun
      split at hrun
      · cases hrun
        rwa [Option.or_none]
      · have hwait := hg.jump stop hw
        cases hhead : (h.scheduler w).agenda.head? with
        | none =>
            simp only [hhead, Bool.false_eq_true, ↓reduceIte] at hrun
            cases hrun
            rwa [Option.or_none]
        | some entry =>
            simp only [hhead, decide_eq_true_eq] at hrun
            split at hrun
            · split at hrun
              · cases hrun
              · rename_i w₁ e' hadvance
                cases hrun
                exact hg.advance hw hadvance
              · rename_i w₁ b hadvance
                have hw₁ := hg.advance hw hadvance
                rw [faultIn, Option.or_none] at hw₁
                exact ih hw₁ hrun
            · cases hrun
              rwa [Option.or_none]

theorem runUntil (hw : P f w []) (hrun : h.runUntil fuel stop w = some (w', e)) :
    P (f.or e) w' [] := by
  simp only [Host.runUntil] at hrun
  split at hrun
  · cases hrun
  · rename_i w₁ e' hready
    cases hrun
    exact hg.runReady (hg.begin hw) hready
  · rename_i w₁ hready
    have hw₁ := hg.runReady (hg.begin hw) hready
    rw [Option.or_none] at hw₁
    exact hg.advanceUpTo hw₁ hrun

end Guides

/-- A property of worlds that everything which a host does keeps, as long as its tasks have a
property of their own. It may depend on the first fault that the host came to so far. -/
structure Keeps (h : Host ω κ τ) (P : Option SimError → ω → Prop) (T : τ → Prop) : Prop where
  tasks : ∀ {fault w id task}, P fault w → (h.scheduler w).tasks.get? id = some task → T task
  /-- Some tasks may be dropped, and what the scheduler knows otherwise may change. -/
  drop : ∀ {fault w} (f : Scheduler κ τ → Scheduler κ τ), P fault w →
    (∀ id task, (f (h.scheduler w)).tasks.get? id = some task →
      (h.scheduler w).tasks.get? id = some task) → P fault (h.update f w)
  insert : ∀ {fault w} (id : Nat) {task}, P fault w → T task →
    P fault (h.update (fun s => { s with tasks := s.tasks.insert id task }) w)
  poll : ∀ {fault w fuel task w' turn}, P fault w → T task →
    h.poll fuel task w = some (w', turn) →
      P (fault.or turn.fault) w' ∧ ∀ task', turn = .waits task' → T task'
  call : ∀ {fault w fuel body w' e}, P fault w → h.call fuel body w = some (w', e) →
    P (fault.or e) w'
  abandon : ∀ {fault w task}, P fault w → T task → P fault (h.abandon task w)

namespace Keeps

variable {h : Host ω κ τ} {P : Option SimError → ω → Prop} {T : τ → Prop} (hk : h.Keeps P T)
  {f : Option SimError}

include hk

theorem update {w : ω} (hw : P f w) (g : Scheduler κ τ → Scheduler κ τ)
    (hg : (g (h.scheduler w)).tasks = (h.scheduler w).tasks) : P f (h.update g w) := by
  refine hk.drop g hw ?_
  rw [hg]
  exact fun _ _ => id

theorem runTask {w w' : ω} {fuel id : Nat} {e : Option SimError} (hw : P f w)
    (hrun : h.runTask fuel id w = some (w', e)) : P (f.or e) w' := by
  simp only [Host.runTask] at hrun
  cases htask : (h.scheduler w).tasks.get? id with
  | none =>
      rw [htask] at hrun
      cases hrun
      rwa [Option.or_none]
  | some task =>
      rw [htask] at hrun
      dsimp only at hrun
      have hstarted := hk.drop
        (fun s => { s with tasks := s.tasks.erase id, running := some id }) hw (by
          intro id' task' ht
          by_cases heq : id' = id
          · subst heq
            rw [Table.get?_erase_self] at ht
            cases ht
          · rwa [Table.get?_erase_of_ne _ heq] at ht)
      split at hrun
      · cases hrun
      · rename_i w₁ turn hpoll
        obtain ⟨hpolled, hturn⟩ := hk.poll hstarted (hk.tasks hw htask) hpoll
        have hended := hk.update hpolled
          (fun s => { s with running := none, cancelled := false }) rfl
        split at hrun
        · cases hrun
          exact hended
        · rename_i task'
          have htask' := hturn task' rfl
          split at hrun
          · cases hrun
            exact hk.abandon hended htask'
          · cases hrun
            exact hk.insert id hended htask'

theorem guides : h.Guides fun f w _ => P f w where
  turn hw _ hrun := hk.runTask (hk.update hw _ rfl) hrun
  take {_ w _ _} hw _ := by
    refine hk.update hw _ ?_
    simp only [Scheduler.takeDue]
    cases (h.scheduler w).agenda <;> rfl
  fire {_ _ _ me _} hw _ := by
    refine hk.update hw _ ?_
    cases me <;> rfl
  call hw _ hcall := hk.call hw hcall
  begin hw := hk.update hw _ rfl
  jump stop hw := by
    refine hk.update hw _ ?_
    split <;> rfl

theorem cancel {w : ω} (hw : P f w) (id : Nat) : P f (h.cancel w id) := by
  simp only [Host.cancel, Scheduler.cancel]
  cases htask : (h.scheduler w).tasks.get? id with
  | some task =>
      refine hk.abandon (hk.drop _ hw ?_) (hk.tasks hw htask)
      intro id' task' ht
      simp only [htask] at ht
      by_cases heq : id' = id
      · subst heq
        rw [Table.get?_erase_self] at ht
        cases ht
      · rwa [Table.get?_erase_of_ne _ heq] at ht
  | none =>
      have hkept : P f (h.update (fun s => (s.cancel id).1) w) := by
        refine hk.update hw _ ?_
        simp only [Scheduler.cancel, htask]
        split <;> rfl
      simp only
      split
      · rename_i hnone
        split at hnone <;> cases hnone
      · exact hkept

end Keeps

/-- A host that knows more about its worlds than another one, and does the same with them. -/
structure Refines {ω' : Type} (h : Host ω κ τ) (π : ω → ω') (h' : Host ω' κ τ) : Prop where
  scheduler : ∀ w, h'.scheduler (π w) = h.scheduler w
  update : ∀ f w, h'.update f (π w) = π (h.update f w)
  poll : ∀ fuel task w, h'.poll fuel task (π w) = (h.poll fuel task w).map fun r => (π r.1, r.2)
  call : ∀ fuel body w, h'.call fuel body (π w) = (h.call fuel body w).map fun r => (π r.1, r.2)
  abandon : ∀ task w, h'.abandon task (π w) = π (h.abandon task w)

namespace Refines

variable {ω' : Type} {h : Host ω κ τ} {π : ω → ω'} {h' : Host ω' κ τ} (hr : h.Refines π h')

include hr

theorem runTask (fuel id : Nat) (w : ω) :
    h'.runTask fuel id (π w) = (h.runTask fuel id w).map fun r => (π r.1, r.2) := by
  simp only [Host.runTask, hr.scheduler]
  cases (h.scheduler w).tasks.get? id with
  | none => rfl
  | some task =>
      simp only [hr.update, hr.poll]
      cases h.poll fuel task _ with
      | none => rfl
      | some r =>
          obtain ⟨w₁, turn⟩ := r
          simp only [Option.map_some, hr.scheduler, hr.update]
          cases turn with
          | ended fault => rfl
          | waits task' =>
              simp only
              split
              · simp only [hr.abandon, Option.map_some]
              · simp only [Option.map_some]

theorem runReadyFrom (fuel : Nat) (fault : Option SimError) (w : ω) :
    h'.runReadyFrom fuel fault (π w) =
      (h.runReadyFrom fuel fault w).map fun r => (π r.1, r.2) := by
  induction fuel generalizing fault w with
  | zero => rfl
  | succ fuel ih =>
      simp only [Host.runReadyFrom, hr.scheduler]
      cases (h.scheduler w).ready with
      | nil => rfl
      | cons id rest =>
          simp only [hr.update, hr.runTask]
          cases h.runTask fuel id _ with
          | none => rfl
          | some r => exact ih _ _

theorem runReady (fuel : Nat) (w : ω) :
    h'.runReady fuel (π w) = (h.runReady fuel w).map fun r => (π r.1, r.2) :=
  hr.runReadyFrom fuel none w

theorem runEntries (fuel : Nat) (l : List (Entry κ)) (w : ω) :
    h'.runEntries fuel l (π w) = (h.runEntries fuel l w).map fun r => (π r.1, r.2) := by
  induction l generalizing w with
  | nil => rfl
  | cons e rest ih =>
      simp only [Host.runEntries]
      cases e.due with
      | sleeper waker => simp only [hr.update, ih]
      | callback body =>
          simp only [hr.call]
          cases h.call fuel body w with
          | none => rfl
          | some r =>
              simp only [Option.map_some, ih]
              cases h.runEntries fuel rest r.1 <;> rfl

theorem advance (fuel : Nat) (w : ω) :
    h'.advance fuel (π w) = (h.advance fuel w).map fun r => (π r.1, r.2) := by
  simp only [Host.advance, hr.runReady]
  cases h.runReady fuel w with
  | none => rfl
  | some r =>
      obtain ⟨w₁, _ | e⟩ := r
      · simp only [Option.map_some, hr.scheduler]
        cases (h.scheduler w₁).takeDue with
        | none => rfl
        | some d =>
            simp only [hr.update, hr.runEntries]
            cases h.runEntries fuel d.2 _ with
            | none => rfl
            | some r₂ =>
                simp only [Option.map_some, hr.runReady]
                cases h.runReady fuel r₂.1 with
                | none => rfl
                | some r₃ =>
                    simp only [Option.map_some]
                    cases r₂.2.or r₃.2 with
                    | none => simp only [hr.scheduler, Option.map_some]
                    | some e => rfl
      · rfl

theorem advanceUpTo (stop fuel : Nat) (w : ω) :
    h'.advanceUpTo stop fuel (π w) =
      (h.advanceUpTo stop fuel w).map fun r => (π r.1, r.2) := by
  induction fuel generalizing w with
  | zero => rfl
  | succ fuel ih =>
      simp only [Host.advanceUpTo, hr.scheduler, hr.advance]
      split
      · rfl
      · cases (h.scheduler w).agenda.head? with
        | none => simp only [Bool.false_eq_true, ↓reduceIte, hr.update, Option.map_some]
        | some e =>
            simp only [decide_eq_true_eq]
            split
            · cases h.advance fuel w with
              | none => rfl
              | some r =>
                  obtain ⟨w₁, e | b⟩ := r
                  · rfl
                  · exact ih w₁
            · simp only [hr.update, Option.map_some]

theorem runUntil (fuel stop : Nat) (w : ω) :
    h'.runUntil fuel stop (π w) = (h.runUntil fuel stop w).map fun r => (π r.1, r.2) := by
  simp only [Host.runUntil, hr.update, hr.runReady]
  cases h.runReady fuel _ with
  | none => rfl
  | some r =>
      obtain ⟨w₁, _ | e⟩ := r
      · exact hr.advanceUpTo stop fuel w₁
      · rfl

theorem cancel (w : ω) (id : Nat) : h'.cancel (π w) id = π (h.cancel w id) := by
  simp only [Host.cancel, hr.scheduler, hr.update]
  split
  · exact hr.abandon _ _
  · rfl

end Refines

end Host

end Clockwork
