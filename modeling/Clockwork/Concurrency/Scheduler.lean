import Clockwork.Concurrency.WaitQueue
import Clockwork.Table
import Clockwork.Time.Instant
/-!
The scheduler: an agenda of entries at points of simulated time, and tasks that are ready to run.
Entries of one instant are due in the order in which they were made. A delay of zero leads to the
next delta step, any other one to the first delta step of a later femtosecond.

The scheduler does not know how a task runs or what a callback does; `Concurrency.Dispatch` runs
both.
-/

namespace Clockwork

inductive Due (κ : Type) where
  | callback (body : κ)
  | sleeper (w : Waker)
  deriving Repr, Inhabited

structure Entry (κ : Type) where
  time : Instant
  /-- The number of the entry; later entries have larger ones. -/
  seq : Nat
  due : Due κ
  deriving Repr, Inhabited

/-- The state of the scheduler, for callbacks `κ` and tasks `τ`. -/
structure Scheduler (κ τ : Type) where
  now : Instant
  nextSeq : Nat
  agenda : List (Entry κ)
  fired : List Nat
  tasks : Table Nat τ
  nextTask : Nat
  /-- Tasks to run next; one that ended meanwhile is passed over. -/
  ready : List Nat
  running : Option Nat
  cancelled : Bool
  stopped : Bool
  deriving Inhabited

namespace Scheduler

variable {κ τ : Type}

def initial : Scheduler κ τ :=
  ⟨.zero, 0, [], [], .empty, 0, [], none, false, false⟩

def target (s : Scheduler κ τ) (delay : Nat) : Instant :=
  if delay = 0 then s.now.nextDelta else s.now.after delay

def insertEntry (e : Entry κ) : List (Entry κ) → List (Entry κ)
  | [] => [e]
  | f :: rest => if e.time.before f.time then e :: f :: rest else f :: insertEntry e rest

def schedule (s : Scheduler κ τ) (delay : Nat) (due : Due κ) : Scheduler κ τ × Nat :=
  ({ s with
      nextSeq := s.nextSeq + 1
      agenda := insertEntry ⟨s.target delay, s.nextSeq, due⟩ s.agenda }, s.nextSeq)

def after (s : Scheduler κ τ) (delay : Nat) (body : κ) : Scheduler κ τ :=
  (s.schedule delay (.callback body)).1

def pending (s : Scheduler κ τ) : Nat := s.agenda.length

def taskCount (s : Scheduler κ τ) : Nat :=
  s.tasks.size + if s.running.isSome then 1 else 0

def isLive (s : Scheduler κ τ) (id : Nat) : Bool := s.running == some id || s.tasks.contains id

def wake (s : Scheduler κ τ) : Waker → Scheduler κ τ
  | .nobody => s
  | .task id => { s with ready := s.ready ++ [id] }

def wakeAll (s : Scheduler κ τ) (ws : List Waker) : Scheduler κ τ := ws.foldl wake s

/-- Starts a task; it is ready, and runs when its turn comes. -/
def spawn (s : Scheduler κ τ) (task : τ) : Scheduler κ τ × Nat :=
  ({ s with
      nextTask := s.nextTask + 1
      tasks := s.tasks.insert s.nextTask task
      ready := s.ready ++ [s.nextTask] }, s.nextTask)

/-- Cancels a task, and gives what has to be abandoned. The running task is only marked. -/
def cancel (s : Scheduler κ τ) (id : Nat) : Scheduler κ τ × Option τ :=
  match s.tasks.get? id with
  | some task => ({ s with tasks := s.tasks.erase id }, some task)
  | none => if s.running = some id then ({ s with cancelled := true }, none) else (s, none)

def stop (s : Scheduler κ τ) : Scheduler κ τ := { s with stopped := true }

inductive Attempt (κ τ : Type) where
  | over (s : Scheduler κ τ)
  | waiting (seq : Nat) (s : Scheduler κ τ)

def pollSleep (s : Scheduler κ τ) (delay : Nat) (entry : Option Nat) (w : Waker) :
    Attempt κ τ :=
  match entry with
  | none =>
    let (s, seq) := s.schedule delay (.sleeper w)
    .waiting seq s
  | some seq =>
    if seq ∈ s.fired then .over { s with fired := s.fired.filter (· ≠ seq) }
    else
      let refresh (e : Entry κ) : Entry κ := if e.seq = seq then { e with due := .sleeper w } else e
      .waiting seq { s with agenda := s.agenda.map refresh }

def abandonSleep (s : Scheduler κ τ) (entry : Option Nat) : Scheduler κ τ :=
  match entry with
  | none => s
  | some seq =>
    { s with
      fired := s.fired.filter (· ≠ seq), agenda := s.agenda.filter fun e => e.seq ≠ seq }

/-- Moves to the time of the first entry, and takes out all entries of that time. -/
def takeDue (s : Scheduler κ τ) : Option (Scheduler κ τ × List (Entry κ)) :=
  match s.agenda with
  | [] => none
  | e :: _ =>
    let (due, rest) := s.agenda.span fun f => decide (f.time = e.time)
    some ({ s with agenda := rest, now := e.time }, due)

def fire (s : Scheduler κ τ) (seq : Nat) (w : Waker) : Scheduler κ τ :=
  { s with fired := seq :: s.fired }.wake w

end Scheduler

end Clockwork
