import Clockwork.Concurrency.Dispatch
import Clockwork.Simulation.Machine
/-!
Running the machine. A wait inside a body that must not wait is tried once; if it is not over at
once it is given up, and the body ends with a fault. Any other wait is that of a task, which is
parked. Runs stop after `fuel` steps with `none`; with enough fuel the result does not depend on
it.
-/

namespace Clockwork

namespace Machine

inductive Next where
  | go (m : Machine)
  | over (c : Completion) (s : Simulation)
  | parked (t : Task) (s : Simulation)

def innermostBody (stack : List Frame) : Option (String × List Frame) :=
  match stack with
  | [] => none
  | .boundary process caller :: rest => some (process, .boundary process caller :: rest)
  | _ :: rest => innermostBody rest

/-- Goes on with a wait; `waker` is told when it may be over. -/
def await (waker : Waker) (m : Machine) (w : Wait) : Next :=
  match innermostBody m.stack with
  | some (process, stack) =>
    match m.sim.kernel.poll .nobody w with
    | (k, .over v) => .go ((m.setSim (m.sim.setKernel k)).give v)
    | (k, .waiting w) =>
      .go ({ m with sim := m.sim.setKernel (k.abandon w), stack := stack }.fail
        (.illegalSuspension process))
  | none =>
    match m.sim.kernel.poll waker w with
    | (k, .over v) => .go ((m.setSim (m.sim.setKernel k)).give v)
    | (k, .waiting w) => .parked ⟨some w, m.activation, m.stack⟩ (m.sim.setKernel k)

def step (waker : Waker) (m : Machine) : Next :=
  match m.control with
  | .eval e => .go (m.eval e)
  | .exec s => .go (m.exec s)
  | .store target v => .go (m.store target v)
  | .matching p subject => .go (m.matchPattern p subject)
  | .await w => m.await waker w
  | .done c =>
    match m.stack with
    | [] => .over c m.sim
    | f :: rest =>
      let m := { m with stack := rest }
      match c with
      | .value v => .go (m.resume f v)
      | c => .go (m.unwind f c)

inductive Outcome where
  | over (c : Completion)
  | parked (t : Task)

/-- Runs until the end or until the task has to wait. -/
def run (waker : Waker) : (fuel : Nat) → Machine → Option (Simulation × Outcome)
  | 0, _ => none
  | fuel + 1, m =>
    match m.step waker with
    | .go m => run waker fuel m
    | .over c s => some (s, .over c)
    | .parked t s => some (s, .parked t)

end Machine

namespace Simulation

def machine (s : Simulation) : Machine :=
  ⟨.done (.value .none), .begin Tree.root "" .immediate, [], s⟩

/-- Runs a machine outside of all tasks; a wait that nothing catches there gives nothing. -/
def runMachine (fuel : Nat) (m : Machine) : Option (Simulation × Except SimError Value) :=
  match m.run .nobody fuel with
  | none => none
  | some (s, .over (.failed e)) => some (s, .error e)
  | some (s, .over (.value v)) => some (s, .ok v)
  | some (s, _) => some (s, .ok .none)

def pollTask (fuel : Nat) (t : Task) (s : Simulation) : Option (Simulation × Turn Task) :=
  let waker := match s.kernel.scheduler.running with
    | some id => Waker.task id
    | none => .nobody
  let control := match t.wait with
    | some w => Control.await w
    | none => .done (.value .none)
  match Machine.run waker fuel ⟨control, t.activation, t.stack, s⟩ with
  | none => none
  | some (s, .parked t) => some (s, .waits t)
  | some (s, .over (.failed e)) => some (s, .ended (some e))
  | some (s, .over _) => some (s, .ended none)

def abandonTask (t : Task) (s : Simulation) : Simulation :=
  match t.wait with
  | some w => s.setKernel (s.kernel.abandon w)
  | none => s

/-- How the scheduler runs the tasks of a simulation. It has no callbacks of its own. -/
def host : Host Simulation Empty Task where
  scheduler s := s.kernel.scheduler
  update := updateScheduler
  poll := pollTask
  call := fun _ callback => nomatch callback
  abandon := abandonTask

end Simulation

end Clockwork
