import Clockwork.Concurrency.Scheduler
import Clockwork.Value.Error
/-!
Running tasks and callbacks. A `Host` says how: how a task goes on from where it waited, what a
callback does, and what has to be given up with a task that will not go on. All loops stop after
`fuel` steps with `none`; with enough fuel the result does not depend on it.
-/

namespace Clockwork

/-- What became of a task that was run. -/
inductive Turn (τ : Type) where
  | ended (fault : Option SimError)
  | waits (task : τ)

structure Host (ω κ τ : Type) where
  scheduler : ω → Scheduler κ τ
  update : (Scheduler κ τ → Scheduler κ τ) → ω → ω
  /-- Runs the running task until it waits or ends. -/
  poll : Nat → τ → ω → Option (ω × Turn τ)
  call : Nat → κ → ω → Option (ω × Option SimError)
  /-- Gives up all that a task waits for and holds. -/
  abandon : τ → ω → ω

namespace Host

variable {ω κ τ : Type} (h : Host ω κ τ)

def cancel (w : ω) (id : Nat) : ω :=
  let task := ((h.scheduler w).cancel id).2
  let w := h.update (fun s => (s.cancel id).1) w
  match task with
  | some task => h.abandon task w
  | none => w

/-- Runs one task that is ready; `none` for the task if it ended before its turn. -/
def runTask (fuel : Nat) (id : Nat) (w : ω) : Option (ω × Option SimError) :=
  match (h.scheduler w).tasks.get? id with
  | none => some (w, none)
  | some task =>
    let w := h.update (fun s => { s with tasks := s.tasks.erase id, running := some id }) w
    match h.poll fuel task w with
    | none => none
    | some (w, turn) =>
      let cancelled := (h.scheduler w).cancelled
      let w := h.update (fun s => { s with running := none, cancelled := false }) w
      match turn with
      | .ended fault => some (w, fault)
      | .waits task =>
        if cancelled then some (h.abandon task w, none)
        else some (h.update (fun s => { s with tasks := s.tasks.insert id task }) w, none)

/-- Runs tasks until none is ready. Gives the first fault, `fault` if there is one already. -/
def runReadyFrom : (fuel : Nat) → Option SimError → ω → Option (ω × Option SimError)
  | 0, _, _ => none
  | fuel + 1, fault, w =>
    match (h.scheduler w).ready with
    | [] => some (w, fault)
    | id :: rest =>
      match h.runTask fuel id (h.update (fun s => { s with ready := rest }) w) with
      | none => none
      | some (w, e) => runReadyFrom fuel (fault.or e) w

def runReady (fuel : Nat) (w : ω) : Option (ω × Option SimError) := h.runReadyFrom fuel none w

def runEntries (fuel : Nat) : List (Entry κ) → ω → Option (ω × Option SimError)
  | [], w => some (w, none)
  | e :: rest, w =>
    match e.due with
    | .sleeper waker => runEntries fuel rest (h.update (fun s => s.fire e.seq waker) w)
    | .callback body =>
      match h.call fuel body w with
      | none => none
      | some (w, fault) =>
        (runEntries fuel rest w).map fun (w, later) => (w, fault.or later)

/-- Runs all that is ready, then all entries of the next time and all that they make ready. Tells
whether entries remain. -/
def advance (fuel : Nat) (w : ω) : Option (ω × Except SimError Bool) :=
  match h.runReady fuel w with
  | none => none
  | some (w, some e) => some (w, .error e)
  | some (w, none) =>
    match (h.scheduler w).takeDue with
    | none => some (w, .ok false)
    | some (_, due) =>
      let w := h.update (fun s => (s.takeDue.map (·.1)).getD s) w
      match h.runEntries fuel due w with
      | none => none
      | some (w, fault) =>
        match h.runReady fuel w with
        | none => none
        | some (w, later) =>
          match fault.or later with
          | some e => some (w, .error e)
          | none => some (w, .ok (0 < (h.scheduler w).pending))

/-- Advances as long as entries are due up to `stop`, unless the run is stopped. -/
def advanceUpTo (stop : Nat) : (fuel : Nat) → ω → Option (ω × Option SimError)
  | 0, _ => none
  | fuel + 1, w =>
    let s := h.scheduler w
    if s.stopped then some (w, none)
    else
      let due := match s.agenda.head? with
        | some e => decide (e.time.fs ≤ stop)
        | none => false
      if due then
        match h.advance fuel w with
        | none => none
        | some (w, .error e) => some (w, some e)
        | some (w, .ok _) => advanceUpTo stop fuel w
      else
        some (h.update (fun s => if s.now.fs < stop then { s with now := .ofFs stop } else s) w,
          none)

def runUntil (fuel : Nat) (stop : Nat) (w : ω) : Option (ω × Option SimError) :=
  let w := h.update (fun s => { s with stopped := false }) w
  match h.runReady fuel w with
  | none => none
  | some (w, some e) => some (w, some e)
  | some (w, none) => h.advanceUpTo stop fuel w

def shutdown (w : ω) : ω :=
  let tasks := (h.scheduler w).tasks.entries.map (·.2)
  let w := h.update (fun s => { s with tasks := .empty }) w
  let w := tasks.foldl (fun w task => h.abandon task w) w
  h.update (fun s => { s with agenda := [], cancelled := false }) w

end Host

end Clockwork
