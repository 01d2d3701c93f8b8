import Clockwork.Concurrency.Dispatch
import Clockwork.Proofs.Concurrency.Schedule.Agenda
/-!
The moves of a run. What a host does during a run is a sequence of moves: a task that is ready is
polled or passed over, the entries of the next instant are taken out once no task is ready, and
those taken out are dispatched one after the other. In every state there is at most one move
(`Move.unique`). A run up to a time is a path of moves to a state at rest, followed by the move of
the clock to that time (`RunsUntil`); it is what `runUntil` does with enough fuel
(`runUntil_iff_runsUntil`).
-/

namespace Clockwork

namespace Scheduler

variable {κ τ : Type} {s s' : Scheduler κ τ}

def taken (s : Scheduler κ τ) : Scheduler κ τ := (s.takeDue.map (·.1)).getD s

/-- The scheduler at the end of a run: the clock goes on to the end if it is before it. -/
def jumpTo (stop : Nat) (s : Scheduler κ τ) : Scheduler κ τ :=
  if s.now.fs < stop then { s with now := .ofFs stop } else s

theorem takeDue_head {due : List (Entry κ)} (h : s.takeDue = some (s', due)) :
    ∃ e, s.agenda.head? = some e ∧ s'.now = e.time := by
  unfold takeDue at h
  cases hagenda : s.agenda with
  | nil =>
      rw [hagenda] at h
      cases h
  | cons e rest =>
      rw [hagenda] at h
      cases h
      exact ⟨e, rfl, rfl⟩

theorem exists_takeDue {e : Entry κ} (h : s.agenda.head? = some e) :
    ∃ s' due, s.takeDue = some (s', due) ∧ s'.now = e.time := by
  unfold takeDue
  cases hagenda : s.agenda with
  | nil =>
      rw [hagenda] at h
      cases h
  | cons f rest =>
      rw [hagenda] at h
      cases h
      exact ⟨_, _, rfl, rfl⟩

theorem takeDue_now (s : Scheduler κ τ) (t : Instant) :
    ({ s with now := t } : Scheduler κ τ).takeDue = s.takeDue := by
  unfold takeDue
  cases s.agenda <;> rfl

theorem takeDue_jumpTo (stop : Nat) (s : Scheduler κ τ) : (s.jumpTo stop).takeDue = s.takeDue := by
  unfold jumpTo
  split
  · exact s.takeDue_now _
  · rfl

theorem taken_jumpTo {stop : Nat} {due : List (Entry κ)} (h : s.takeDue = some (s', due)) :
    (s.jumpTo stop).taken = s.taken := by
  rw [taken, taken, takeDue_jumpTo, h]
  rfl

theorem jumpTo_jumpTo {a b : Nat} (hab : a ≤ b) (s : Scheduler κ τ) :
    (s.jumpTo a).jumpTo b = s.jumpTo b := by
  unfold jumpTo
  split
  · rename_i ha
    rw [if_pos (Nat.lt_of_lt_of_le ha hab)]
    split
    · rfl
    · rename_i hb
      have heq : a = b := Nat.le_antisymm hab (Nat.le_of_not_lt hb)
      rw [heq]
  · rfl

variable (stop : Nat)

@[simp] theorem jumpTo_ready : (s.jumpTo stop).ready = s.ready := by
  unfold jumpTo
  split <;> rfl

@[simp] theorem jumpTo_stopped : (s.jumpTo stop).stopped = s.stopped := by
  unfold jumpTo
  split <;> rfl

@[simp] theorem jumpTo_agenda : (s.jumpTo stop).agenda = s.agenda := by
  unfold jumpTo
  split <;> rfl

end Scheduler

/-- Something that a host does in a run, and the time at which it does it. -/
inductive Dispatch where
  | polled (task : Nat) (now : Instant)
  /-- An entry is dispatched: its callback runs, or its sleeper is woken. -/
  | dispatched (date : Date) (now : Instant)
  deriving DecidableEq, Repr

namespace Host

variable {ω κ τ : Type} {h : Host ω κ τ}

/-- The scheduler is a part of the world that can be replaced, and with more fuel a task or a
callback does what it does with less. -/
structure Lawful (h : Host ω κ τ) : Prop where
  scheduler_update : ∀ f w, h.scheduler (h.update f w) = f (h.scheduler w)
  update_update : ∀ f g w, h.update g (h.update f w) = h.update (fun s => g (f s)) w
  update_congr : ∀ {f g w}, f (h.scheduler w) = g (h.scheduler w) → h.update f w = h.update g w
  update_self : ∀ {f w}, f (h.scheduler w) = h.scheduler w → h.update f w = w
  poll_mono : ∀ {n m task w r}, h.poll n task w = some r → n ≤ m → h.poll m task w = some r
  call_mono : ∀ {n m body w r}, h.call n body w = some r → n ≤ m → h.call m body w = some r

/-- A move of a run up to the time `stop` in which nothing fails. Besides the worlds there are the
entries that were taken out and have not been dispatched yet, before the move and after it. -/
inductive Move (h : Host ω κ τ) (stop : Nat) :
    ω → List (Entry κ) → List Dispatch → ω → List (Entry κ) → Prop
  /-- A task that ended meanwhile is passed over. -/
  | pass {w : ω} {id : Nat} {rest : List Nat} (hready : (h.scheduler w).ready = id :: rest)
      (hgone : (h.scheduler w).tasks.get? id = none) :
      Move h stop w [] [] (h.update (fun s => { s with ready := rest }) w) []
  | poll {w w' : ω} {id fuel : Nat} {rest : List Nat} {task : τ}
      (hready : (h.scheduler w).ready = id :: rest)
      (htask : (h.scheduler w).tasks.get? id = some task)
      (hrun : h.runTask fuel id (h.update (fun s => { s with ready := rest }) w) =
        some (w', none)) :
      Move h stop w [] [.polled id (h.scheduler w).now] w' []
  /-- The clock goes on to the first entry, and the entries of that instant are taken out. -/
  | take {w : ω} {s : Scheduler κ τ} {due : List (Entry κ)} (hready : (h.scheduler w).ready = [])
      (hgoes : (h.scheduler w).stopped = false)
      (hdue : (h.scheduler w).takeDue = some (s, due)) (hstop : s.now.fs ≤ stop) :
      Move h stop w [] [] (h.update Scheduler.taken w) due
  | fire {w : ω} {e : Entry κ} {rest : List (Entry κ)} {waker : Waker}
      (hdue : e.due = .sleeper waker) :
      Move h stop w (e :: rest) [.dispatched e.date (h.scheduler w).now]
        (h.update (fun s => s.fire e.seq waker) w) rest
  | call {w w' : ω} {e : Entry κ} {rest : List (Entry κ)} {body : κ} {fuel : Nat}
      (hdue : e.due = .callback body) (hcall : h.call fuel body w = some (w', none)) :
      Move h stop w (e :: rest) [.dispatched e.date (h.scheduler w).now] w' rest

/-- Moves after which all entries taken out are dispatched, with what is done in them. -/
inductive Path (h : Host ω κ τ) (stop : Nat) : ω → List (Entry κ) → List Dispatch → ω → Prop
  | nil (w : ω) : Path h stop w [] [] w
  | cons {w w₁ w' : ω} {batch batch₁ : List (Entry κ)} {l l' : List Dispatch}
      (hmove : h.Move stop w batch l w₁ batch₁) (hpath : Path h stop w₁ batch₁ l' w') :
      Path h stop w batch (l ++ l') w'

/-- No task is ready, the run is not stopped, and the first entry is beyond the end of the run. -/
structure Rests (h : Host ω κ τ) (stop : Nat) (w : ω) : Prop where
  ready : (h.scheduler w).ready = []
  goes : (h.scheduler w).stopped = false
  beyond : ∀ e, (h.scheduler w).agenda.head? = some e → stop < e.time.fs

/-- A run up to a time in which nothing fails and which is not stopped, with what is done in it. -/
def RunsUntil (h : Host ω κ τ) (stop : Nat) (w : ω) (log : List Dispatch) (w' : ω) : Prop :=
  ∃ w₁, h.Path stop (h.update (fun s => { s with stopped := false }) w) [] log w₁ ∧
    h.Rests stop w₁ ∧ w' = h.update (Scheduler.jumpTo stop) w₁

variable {stop : Nat} {w w' w₁ w₂ : ω} {batch batch₁ batch₂ : List (Entry κ)}
  {l l₁ l₂ : List Dispatch}

theorem Path.trans (h₁ : h.Path stop w batch l₁ w₁) (h₂ : h.Path stop w₁ [] l₂ w₂) :
    h.Path stop w batch (l₁ ++ l₂) w₂ := by
  induction h₁ with
  | nil => exact h₂
  | cons hmove _ ih =>
      rw [List.append_assoc]
      exact .cons hmove (ih h₂)

theorem Path.single (hmove : h.Move stop w batch l w' []) : h.Path stop w batch l w' := by
  rw [← List.append_nil l]
  exact .cons hmove (.nil w')

theorem Lawful.runTask_mono (hl : h.Lawful) {n m id : Nat} {r : ω × Option SimError}
    (hrun : h.runTask n id w = some r) (hnm : n ≤ m) : h.runTask m id w = some r := by
  simp only [runTask] at hrun ⊢
  split at hrun
  · exact hrun
  · split at hrun
    · cases hrun
    · rename_i hpoll
      rw [hl.poll_mono hpoll hnm]
      exact hrun

theorem eq_of_mono {α : Type} {f : Nat → Option α} (hf : ∀ {n m r}, f n = some r → n ≤ m →
    f m = some r) {n m : Nat} {a b : α} (ha : f n = some a) (hb : f m = some b) : a = b := by
  have ha := hf ha (Nat.le_max_left n m)
  rw [hf hb (Nat.le_max_right n m)] at ha
  cases ha
  rfl

theorem Move.unique (hl : h.Lawful) (h₁ : h.Move stop w batch l₁ w₁ batch₁)
    (h₂ : h.Move stop w batch l₂ w₂ batch₂) : l₁ = l₂ ∧ w₁ = w₂ ∧ batch₁ = batch₂ := by
  cases h₁ with
  | pass hready hgone =>
      cases h₂ with
      | pass hready' _ =>
          cases hready.symm.trans hready'
          exact ⟨rfl, rfl, rfl⟩
      | poll hready' htask _ =>
          cases hready.symm.trans hready'
          cases hgone.symm.trans htask
      | take hready' => cases hready.symm.trans hready'
  | poll hready htask hrun =>
      cases h₂ with
      | pass hready' hgone =>
          cases hready.symm.trans hready'
          cases hgone.symm.trans htask
      | poll hready' _ hrun' =>
          cases hready.symm.trans hready'
          cases eq_of_mono hl.runTask_mono hrun hrun'
          exact ⟨rfl, rfl, rfl⟩
      | take hready' => cases hready.symm.trans hready'
  | take hready _ hdue =>
      cases h₂ with
      | pass hready' => cases hready.symm.trans hready'
      | poll hready' => cases hready.symm.trans hready'
      | take _ _ hdue' =>
          cases hdue.symm.trans hdue'
          exact ⟨rfl, rfl, rfl⟩
  | fire hdue =>
      cases h₂ with
      | fire hdue' =>
          cases hdue.symm.trans hdue'
          exact ⟨rfl, rfl, rfl⟩
      | call hdue' => cases hdue.symm.trans hdue'
  | call hdue hcall =>
      cases h₂ with
      | fire hdue' => cases hdue.symm.trans hdue'
      | call hdue' hcall' =>
          cases hdue.symm.trans hdue'
          cases eq_of_mono hl.call_mono hcall hcall'
          exact ⟨rfl, rfl, rfl⟩

theorem Rests.no_move (hr : h.Rests stop w) : ¬ h.Move stop w [] l w₁ batch₁ := by
  intro hmove
  cases hmove with
  | pass hready => cases hr.ready.symm.trans hready
  | poll hready => cases hr.ready.symm.trans hready
  | take _ _ hdue hstop =>
      obtain ⟨e, he, hnow⟩ := Scheduler.takeDue_head hdue
      have hbeyond : stop < e.time.fs := hr.beyond e he
      rw [hnow] at hstop
      exact absurd hstop (Nat.not_le_of_lt hbeyond)

theorem Path.unique (hl : h.Lawful) (h₁ : h.Path stop w batch l₁ w₁) (hr₁ : h.Rests stop w₁)
    (h₂ : h.Path stop w batch l₂ w₂) (hr₂ : h.Rests stop w₂) : l₁ = l₂ ∧ w₁ = w₂ := by
  induction h₁ generalizing l₂ with
  | nil =>
      cases h₂ with
      | nil => exact ⟨rfl, rfl⟩
      | cons hmove _ => exact absurd hmove hr₁.no_move
  | cons hmove _ ih =>
      cases h₂ with
      | nil => exact absurd hmove hr₂.no_move
      | cons hmove' hpath' =>
          obtain ⟨rfl, rfl, rfl⟩ := hmove.unique hl hmove'
          obtain ⟨rfl, rfl⟩ := ih hr₁ hpath'
          exact ⟨rfl, rfl⟩

theorem RunsUntil.unique (hl : h.Lawful) (h₁ : h.RunsUntil stop w l₁ w₁)
    (h₂ : h.RunsUntil stop w l₂ w₂) : l₁ = l₂ ∧ w₁ = w₂ := by
  obtain ⟨v₁, hpath₁, hr₁, rfl⟩ := h₁
  obtain ⟨v₂, hpath₂, hr₂, rfl⟩ := h₂
  obtain ⟨rfl, rfl⟩ := hpath₁.unique hl hr₁ hpath₂ hr₂
  exact ⟨rfl, rfl⟩

theorem Lawful.path_of_runReadyFrom (hl : h.Lawful) {fuel : Nat} {fault : Option SimError}
    (hrun : h.runReadyFrom fuel fault w = some (w', none)) :
    fault = none ∧ (h.scheduler w').ready = [] ∧ ∀ stop, ∃ l, h.Path stop w [] l w' := by
  induction fuel generalizing fault w with
  | zero => cases hrun
  | succ fuel ih =>
      simp only [runReadyFrom] at hrun
      split at hrun
      · rename_i hready
        cases hrun
        exact ⟨rfl, hready, fun _ => ⟨[], .nil _⟩⟩
      · rename_i id rest hready
        split at hrun
        · cases hrun
        · rename_i w₁ e htask
          obtain ⟨hnone, hend, hpath⟩ := ih hrun
          obtain ⟨rfl, rfl⟩ := Option.or_eq_none_iff.mp hnone
          refine ⟨rfl, hend, fun stop => ?_⟩
          obtain ⟨l, hpath⟩ := hpath stop
          cases hget : (h.scheduler w).tasks.get? id with
          | some task => exact ⟨_, .cons (.poll hready hget htask) hpath⟩
          | none =>
              have hskip : h.runTask fuel id (h.update (fun s => { s with ready := rest }) w) =
                  some (h.update (fun s => { s with ready := rest }) w, none) := by
                simp only [runTask, hl.scheduler_update, hget]
              rw [hskip] at htask
              cases htask
              exact ⟨_, .cons (.pass hready hget) hpath⟩

theorem path_of_runEntries {fuel : Nat} (hrun : h.runEntries fuel batch w = some (w', none)) :
    ∃ l, h.Path stop w batch l w' := by
  induction batch generalizing w with
  | nil =>
      cases hrun
      exact ⟨[], .nil _⟩
  | cons e rest ih =>
      simp only [runEntries] at hrun
      split at hrun
      · rename_i waker hdue
        obtain ⟨l, hpath⟩ := ih hrun
        exact ⟨_, .cons (.fire hdue) hpath⟩
      · rename_i body hdue
        split at hrun
        · cases hrun
        · rename_i w₁ fault hcall
          obtain ⟨⟨w₂, later⟩, hrest, heq⟩ := Option.map_eq_some_iff.mp hrun
          obtain ⟨rfl, hnone⟩ := Prod.mk.inj heq
          obtain ⟨rfl, rfl⟩ := Option.or_eq_none_iff.mp hnone
          obtain ⟨l, hpath⟩ := ih hrest
          exact ⟨_, .cons (.call hdue hcall) hpath⟩

theorem runReady_of_rest {fuel : Nat} (hready : (h.scheduler w).ready = []) :
    h.runReady (fuel + 1) w = some (w, none) := by
  rw [runReady, runReadyFrom, hready]

theorem Lawful.path_of_advance (hl : h.Lawful) {fuel : Nat} {more : Bool}
    (hready : (h.scheduler w).ready = []) (hgoes : (h.scheduler w).stopped = false)
    {e : Entry κ} (he : (h.scheduler w).agenda.head? = some e) (hstop : e.time.fs ≤ stop)
    (hrun : h.advance fuel w = some (w', .ok more)) :
    (h.scheduler w').ready = [] ∧ ∃ l, h.Path stop w [] l w' := by
  cases fuel with
  | zero => cases hrun
  | succ fuel =>
      obtain ⟨s, due, hdue, hnow⟩ := Scheduler.exists_takeDue he
      simp only [advance, runReady_of_rest hready, hdue] at hrun
      split at hrun
      · cases hrun
      · rename_i w₁ fault hentries
        split at hrun
        · cases hrun
        · rename_i w₂ later hlater
          split at hrun
          · cases hrun
          · rename_i hnone
            cases hrun
            obtain ⟨rfl, rfl⟩ := Option.or_eq_none_iff.mp hnone
            obtain ⟨l₁, hpath₁⟩ : ∃ l, h.Path stop _ due l w₁ := path_of_runEntries hentries
            obtain ⟨-, hend, hpath⟩ := hl.path_of_runReadyFrom hlater
            obtain ⟨l₂, hpath₂⟩ := hpath stop
            have htake : h.Move stop w [] [] (h.update Scheduler.taken w) due :=
              .take hready hgoes hdue (hnow ▸ hstop)
            exact ⟨hend, _, .cons htake (hpath₁.trans hpath₂)⟩

theorem Lawful.path_of_advanceUpTo (hl : h.Lawful) {fuel : Nat}
    (hready : (h.scheduler w).ready = [])
    (hrun : h.advanceUpTo stop fuel w = some (w', none))
    (hgoes : (h.scheduler w').stopped = false) :
    ∃ l w₁, h.Path stop w [] l w₁ ∧ h.Rests stop w₁ ∧ w' = h.update (Scheduler.jumpTo stop) w₁ := by
  induction fuel generalizing w with
  | zero => cases hrun
  | succ fuel ih =>
      simp only [advanceUpTo] at hrun
      split at hrun
      · rename_i hstopped
        cases hrun
        rw [hstopped] at hgoes
        cases hgoes
      · rename_i hstopped
        have hstopped : (h.scheduler w).stopped = false := by simpa using hstopped
        cases hhead : (h.scheduler w).agenda.head? with
        | none =>
            simp only [hhead, Bool.false_eq_true, ↓reduceIte] at hrun
            cases hrun
            refine ⟨[], w, .nil w, ⟨hready, hstopped, fun e he => ?_⟩, rfl⟩
            rw [hhead] at he
            cases he
        | some e =>
            simp only [hhead, decide_eq_true_eq] at hrun
            split at hrun
            · rename_i hstop
              split at hrun
              · cases hrun
              · cases hrun
              · rename_i w₁ more hadvance
                obtain ⟨hend, l₁, hpath₁⟩ :=
                  hl.path_of_advance hready hstopped hhead hstop hadvance
                obtain ⟨l₂, w₂, hpath₂, hrest⟩ := ih hend hrun
                exact ⟨l₁ ++ l₂, w₂, hpath₁.trans hpath₂, hrest⟩
            · rename_i hlate
              cases hrun
              refine ⟨[], w, .nil w, ⟨hready, hstopped, fun f hf => ?_⟩, rfl⟩
              rw [hhead] at hf
              cases hf
              exact Nat.lt_of_not_le hlate

/-- The rest of a run from the entries on that were taken out, with fuel for each part of it. -/
def finishUntil (h : Host ω κ τ) (stop a b c : Nat) (batch : List (Entry κ)) (w : ω) :
    Option (ω × Option SimError) :=
  match h.runEntries a batch w with
  | some (w, none) =>
    match h.runReady b w with
    | some (w, none) => h.advanceUpTo stop c w
    | r => r
  | r => r

/-- With enough fuel, the rest of a run comes to an end without a fault. -/
def Finishes (h : Host ω κ τ) (stop : Nat) (batch : List (Entry κ)) (w w' : ω) : Prop :=
  ∃ n, ∀ a b c, n ≤ a → n ≤ b → n ≤ c → h.finishUntil stop a b c batch w = some (w', none)

theorem finishUntil_eq_some {a b c : Nat}
    (hrun : h.finishUntil stop a b c batch w = some (w', none)) :
    ∃ w₁ w₂, h.runEntries a batch w = some (w₁, none) ∧ h.runReady b w₁ = some (w₂, none) ∧
      h.advanceUpTo stop c w₂ = some (w', none) := by
  unfold finishUntil at hrun
  split at hrun
  · rename_i w₁ hentries
    split at hrun
    · rename_i w₂ hready
      exact ⟨w₁, w₂, hentries, hready, hrun⟩
    · rename_i hready
      exact absurd hrun (hready w')
  · rename_i hentries
    exact absurd hrun (hentries w')

theorem Rests.finishes (hr : h.Rests stop w) :
    h.Finishes stop [] w (h.update (Scheduler.jumpTo stop) w) := by
  refine ⟨1, fun a b c _ hb hc => ?_⟩
  obtain ⟨b, rfl⟩ := Nat.exists_eq_add_of_le' hb
  obtain ⟨c, rfl⟩ := Nat.exists_eq_add_of_le' hc
  simp only [finishUntil, runEntries, runReady_of_rest hr.ready, advanceUpTo, hr.goes]
  cases hhead : (h.scheduler w).agenda.head? with
  | none => rfl
  | some e =>
      have hbeyond : ¬ e.time.fs ≤ stop := Nat.not_le_of_lt (hr.beyond e hhead)
      simp only [hbeyond]
      rfl

theorem Finishes.task {id n : Nat} {rest : List Nat}
    (hready : (h.scheduler w).ready = id :: rest)
    (htask : ∀ fuel, n ≤ fuel →
      h.runTask fuel id (h.update (fun s => { s with ready := rest }) w) = some (w₁, none))
    (hf : h.Finishes stop [] w₁ w') : h.Finishes stop [] w w' := by
  obtain ⟨m, hm⟩ := hf
  -- One unit of fuel is for the task itself.
  refine ⟨max n m + 1, fun a b c ha hb hc => ?_⟩
  obtain ⟨b, rfl⟩ := Nat.exists_eq_add_of_le' (Nat.le_trans (Nat.le_add_left 1 _) hb)
  have htask := htask b (by omega)
  have hrun := hm a b c (by omega) (by omega) (by omega)
  simp only [finishUntil, runEntries, runReady, runReadyFrom, hready, htask, Option.none_or]
    at hrun ⊢
  exact hrun

theorem Finishes.take {s : Scheduler κ τ} {due : List (Entry κ)}
    (hready : (h.scheduler w).ready = []) (hgoes : (h.scheduler w).stopped = false)
    (hdue : (h.scheduler w).takeDue = some (s, due)) (hstop : s.now.fs ≤ stop)
    (hf : h.Finishes stop due (h.update Scheduler.taken w) w') : h.Finishes stop [] w w' := by
  obtain ⟨n, hn⟩ := hf
  refine ⟨n + 2, fun a b c _ hb hc => ?_⟩
  obtain ⟨b, rfl⟩ := Nat.exists_eq_add_of_le' (Nat.le_trans (Nat.le_add_left 1 _) hb)
  obtain ⟨c, rfl⟩ := Nat.exists_eq_add_of_le' (Nat.le_trans (Nat.le_add_left 2 _) hc)
  obtain ⟨w₁, w₂, hentries, hrun, hrest⟩ :=
    finishUntil_eq_some (hn (c + 1) (c + 1) (c + 1) (by omega) (by omega) (by omega))
  obtain ⟨e, he, hnow⟩ := Scheduler.takeDue_head hdue
  have hadvance : h.advance (c + 1) w = some (w₂, .ok (0 < (h.scheduler w₂).pending)) := by
    have hentries' : h.runEntries (c + 1) due
        (h.update (fun s => (s.takeDue.map (·.1)).getD s) w) = some (w₁, none) := hentries
    simp only [advance, runReady_of_rest hready, hdue, hentries', hrun]
    rfl
  have hhead : e.time.fs ≤ stop := hnow ▸ hstop
  simp only [finishUntil, runEntries, runReady_of_rest hready]
  rw [advanceUpTo]
  simp only [hgoes, he, hhead, hadvance]
  exact hrest

theorem Move.finishes (hl : h.Lawful) (hmove : h.Move stop w batch l w₁ batch₁)
    (hf : h.Finishes stop batch₁ w₁ w') : h.Finishes stop batch w w' := by
  cases hmove with
  | pass hready hgone =>
      refine hf.task hready (n := 0) fun fuel _ => ?_
      simp only [runTask, hl.scheduler_update, hgone]
  | poll hready _ hrun => exact hf.task hready fun fuel hfuel => hl.runTask_mono hrun hfuel
  | take hready hgoes hdue hstop => exact hf.take hready hgoes hdue hstop
  | fire hdue =>
      obtain ⟨n, hn⟩ := hf
      refine ⟨n, fun a b c ha hb hc => ?_⟩
      have hrun := hn a b c ha hb hc
      simp only [finishUntil, runEntries, hdue] at hrun ⊢
      exact hrun
  | call hdue hcall =>
      rename_i e body m
      obtain ⟨n, hn⟩ := hf
      refine ⟨max n m, fun a b c ha hb hc => ?_⟩
      have hcall := hl.call_mono hcall (Nat.le_trans (Nat.le_max_right n m) ha)
      obtain ⟨w₂, w₃, hentries, hready, hrest⟩ :=
        finishUntil_eq_some (hn a b c (by omega) (by omega) (by omega))
      simp only [finishUntil, runEntries, hdue, hcall, hentries, Option.map_some, Option.or_none,
        hready, hrest]

theorem Path.finishes (hl : h.Lawful) (hpath : h.Path stop w batch l w') (hr : h.Rests stop w') :
    h.Finishes stop batch w (h.update (Scheduler.jumpTo stop) w') := by
  induction hpath with
  | nil => exact hr.finishes
  | cons hmove _ ih => exact hmove.finishes hl (ih hr)

/-- A run is what `runUntil` does with enough fuel, if nothing fails and nothing stops it. -/
theorem runUntil_iff_runsUntil (hl : h.Lawful) :
    (∃ fuel, h.runUntil fuel stop w = some (w', none)) ∧ (h.scheduler w').stopped = false ↔
      ∃ log, h.RunsUntil stop w log w' := by
  constructor
  · rintro ⟨⟨fuel, hrun⟩, hgoes⟩
    simp only [runUntil] at hrun
    split at hrun
    · cases hrun
    · cases hrun
    · rename_i w₁ hready
      obtain ⟨-, hend, hpath⟩ := hl.path_of_runReadyFrom hready
      obtain ⟨l₁, hpath₁⟩ := hpath stop
      obtain ⟨l₂, w₂, hpath₂, hr, rfl⟩ := hl.path_of_advanceUpTo hend hrun hgoes
      exact ⟨l₁ ++ l₂, w₂, hpath₁.trans hpath₂, hr, rfl⟩
  · rintro ⟨log, w₁, hpath, hr, rfl⟩
    constructor
    · obtain ⟨n, hn⟩ := hpath.finishes hl hr
      obtain ⟨w₂, w₃, hentries, hready, hrest⟩ :=
        finishUntil_eq_some (hn n n n (Nat.le_refl n) (Nat.le_refl n) (Nat.le_refl n))
      cases hentries
      refine ⟨n, ?_⟩
      simp only [runUntil, hready]
      exact hrest
    · rw [hl.scheduler_update, Scheduler.jumpTo_stopped]
      exact hr.goes

end Host

end Clockwork
