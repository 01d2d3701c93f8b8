import Clockwork.Proofs.Concurrency.Dispatch
import Clockwork.Simulation.Command

namespace Clockwork

/-- The states that a run comes through, in order. -/
def Machine.states (waker : Waker) : (fuel : Nat) → Machine → List Machine
  | 0, _ => []
  | fuel + 1, m =>
    m :: match m.step waker with
      | .go m' => states waker fuel m'
      | _ => []

def Task.machine (t : Task) (s : Simulation) : Machine :=
  ⟨match t.wait with
    | some w => .await w
    | none => .done (.value .none), t.activation, t.stack, s⟩

/-- Who is told when a wait may be over: the running task. -/
def Simulation.waker (s : Simulation) : Waker :=
  match s.kernel.scheduler.running with
  | some id => .task id
  | none => .nobody

namespace Simulation

theorem runMachine_ends {fuel : Nat} {m : Machine} {s : Simulation} {result : Except SimError Value}
    (h : runMachine fuel m = some (s, result)) :
    ∃ o, m.run .nobody fuel = some (s, o) ∧ ∀ e, o = .over (.failed e) ↔ result = .error e := by
  simp only [runMachine] at h
  split at h
  · cases h
  · rename_i s₁ e hrun
    cases h
    exact ⟨_, hrun, by simp⟩
  · rename_i s₁ v hrun
    cases h
    exact ⟨_, hrun, by simp⟩
  · rename_i s₁ o hfailed _ hrun
    cases h
    refine ⟨_, hrun, fun e => ⟨?_, fun he => by cases he⟩⟩
    intro ho
    exact absurd ho (hfailed e)

theorem pollTask_ends {fuel : Nat} {t : Task} {s s' : Simulation} {turn : Turn Task}
    (h : pollTask fuel t s = some (s', turn)) :
    ∃ o, (t.machine s).run s.waker fuel = some (s', o) ∧
      (∀ t', o = .parked t' ↔ turn = .waits t') ∧
        ∀ e, o = .over (.failed e) ↔ turn = .ended (some e) := by
  simp only [pollTask] at h
  split at h
  · cases h
  · rename_i s₁ t₁ hrun
    cases h
    exact ⟨_, hrun, by simp, by simp⟩
  · rename_i s₁ e hrun
    cases h
    exact ⟨_, hrun, by simp, by simp⟩
  · rename_i s₁ c hfailed hrun
    cases h
    refine ⟨_, hrun, by simp, fun e => ⟨?_, fun he => by cases he⟩⟩
    rintro ⟨⟩
    exact absurd rfl (hfailed e)

end Simulation

/-- What is done with a simulation. -/
inductive Command where
  | start
  | setInput (path : String) (v : Value)
  | clockEdge (path : String)
  | evalComb
  | call (path function : String) (args : List Value)
  | advance
  | runUntil (time : Nat)
  | driveClock (path : String) (period : Nat)
  | cancel (task : Nat)
  | stop
  | setEvent (event : Nat)
  | clearEvent (event : Nat)

namespace Command

def faultOf {σ α : Type} (r : σ × Except SimError α) : σ × Option SimError :=
  match r with
  | (s, .ok _) => (s, none)
  | (s, .error e) => (s, some e)

/-- The simulation after a command, and the fault that the command came to. -/
def run (fuel : Nat) (s : Simulation) : Command → Option (Simulation × Option SimError)
  | .start => (s.start fuel).map faultOf
  | .setInput path v => (s.setInput fuel path v).map faultOf
  | .clockEdge path => (s.clockEdge fuel path).map faultOf
  | .evalComb => (s.evalComb fuel).map faultOf
  | .call path function args => (s.call fuel path function args).map faultOf
  | .advance => (s.advance fuel).map faultOf
  | .runUntil time => (s.runUntil fuel time).map faultOf
  | .driveClock path period => some (faultOf (s.driveClock path period))
  | .cancel task => some (s.cancel task, none)
  | .stop => some (s.stop, none)
  | .setEvent event => (s.setEvent fuel event).map faultOf
  | .clearEvent event => some (s.clearEvent event, none)

end Command

/-- A simulation with the states that its runs came through so far. A run from outside of all tasks
counts from the resting machine on. -/
structure Recorded where
  sim : Simulation
  states : List Machine

namespace Recorded

def forget {α : Type} (r : Recorded × α) : Simulation × α := (r.1.sim, r.2)

def ofFault (r : Recorded × Option SimError) : Recorded × Except SimError Unit :=
  match r with
  | (r, none) => (r, .ok ())
  | (r, some e) => (r, .error e)

def runMachine (fuel : Nat) (r : Recorded) (m : Machine) :
    Option (Recorded × Except SimError Value) :=
  (Simulation.runMachine fuel m).map fun (s, result) =>
    (⟨s, r.states ++ r.sim.machine :: m.states .nobody fuel⟩, result)

def pollTask (fuel : Nat) (t : Task) (r : Recorded) : Option (Recorded × Turn Task) :=
  (Simulation.pollTask fuel t r.sim).map fun (s, turn) =>
    (⟨s, r.states ++ (t.machine r.sim).states r.sim.waker fuel⟩, turn)

/-- How the scheduler runs the tasks of a recorded simulation. -/
def host : Host Recorded Empty Task where
  scheduler r := r.sim.kernel.scheduler
  update f r := { r with sim := r.sim.updateScheduler f }
  poll := pollTask
  call := fun _ callback => nomatch callback
  abandon t r := { r with sim := Simulation.abandonTask t r.sim }

def evalComb (fuel : Nat) (r : Recorded) : Option (Recorded × Except SimError Value) :=
  let m := { r.sim with driveDepth := r.sim.driveDepth + 1 }.machine
  r.runMachine fuel ({ m with stack := [.driven] }.runCombs r.sim.wiring.order)

def start (fuel : Nat) (r : Recorded) : Option (Recorded × Except SimError Unit) :=
  if r.sim.started then some (r, .ok ())
  else
    let traced := if r.sim.tracing = .memory then Simulation.announced r.sim.tree else []
    match { r with sim := { r.sim with started := true, traced := traced } }.evalComb fuel with
    | none => none
    | some (r, .error e) => some (r, .error e)
    | some (r, .ok _) =>
      let s := (List.range r.sim.tree.size).foldl Simulation.spawnProcesses r.sim
      (host.runReady fuel { r with sim := s }).map ofFault

def driveField (fuel : Nat) (r : Recorded) (f : FieldRef) (v : Value) :
    Option (Recorded × Except SimError Unit) :=
  (r.runMachine fuel (r.sim.machine.write f v .immediate)).map fun r =>
    (r.1, r.2.map fun _ => ())

def driveLevels (fuel : Nat) (f : FieldRef) : List Int → Recorded →
    Option (Recorded × Except SimError Unit)
  | [], r => some (r, .ok ())
  | level :: rest, r =>
    match r.driveField fuel f (.int level) with
    | some (r, .ok ()) => driveLevels fuel f rest r
    | r => r

def command (fuel : Nat) (r : Recorded) : Command → Option (Recorded × Option SimError)
  | .start => (r.start fuel).map Command.faultOf
  | .setInput path v =>
    match r.sim.tree.resolveField path with
    | .error e => some (r, some e)
    | .ok f => (r.driveField fuel f v).map Command.faultOf
  | .clockEdge path =>
    match r.sim.tree.resolveField path with
    | .error e => some (r, some e)
    | .ok f => (driveLevels fuel f [0, 1, 0] r).map Command.faultOf
  | .evalComb => (r.evalComb fuel).map Command.faultOf
  | .call path function args =>
    match r.sim.find path with
    | .error e => some (r, some e)
    | .ok id => (r.runMachine fuel (r.sim.machine.callNow id function args)).map Command.faultOf
  | .advance => (host.advance fuel r).map Command.faultOf
  | .runUntil time => host.runUntil fuel time r
  | .driveClock path period =>
    let (s, result) := r.sim.driveClock path period
    some (Command.faultOf ({ r with sim := s }, result))
  | .cancel task => some (host.cancel r task, none)
  | .stop => some (host.update Scheduler.stop r, none)
  | .setEvent event =>
    (r.runMachine fuel (r.sim.machine.setEvent event)).map Command.faultOf
  | .clearEvent event => some ({ r with sim := r.sim.clearEvent event }, none)

theorem host_refines : host.Refines Recorded.sim Simulation.host where
  scheduler _ := rfl
  update _ _ := rfl
  poll fuel task r := by
    change Simulation.pollTask fuel task r.sim = (r.pollTask fuel task).map forget
    simp only [pollTask, Option.map_map]
    cases Simulation.pollTask fuel task r.sim <;> rfl
  call _ body := nomatch body
  abandon _ _ := rfl

theorem map_runMachine (fuel : Nat) (r : Recorded) (m : Machine) :
    (r.runMachine fuel m).map forget = Simulation.runMachine fuel m := by
  simp only [runMachine, Option.map_map]
  cases Simulation.runMachine fuel m <;> rfl

theorem map_evalComb (fuel : Nat) (r : Recorded) :
    (r.evalComb fuel).map forget = r.sim.evalComb fuel := r.map_runMachine fuel _

theorem map_driveField (fuel : Nat) (r : Recorded) (f : FieldRef) (v : Value) :
    (r.driveField fuel f v).map forget = r.sim.driveField fuel f v := by
  simp only [driveField, Simulation.driveField, ← r.map_runMachine, Option.map_map]
  cases r.runMachine fuel (r.sim.machine.write f v .immediate) <;> rfl

theorem map_driveLevels (fuel : Nat) (f : FieldRef) (levels : List Int) (r : Recorded) :
    (driveLevels fuel f levels r).map forget = Simulation.driveLevels fuel f levels r.sim := by
  induction levels generalizing r with
  | nil => rfl
  | cons level rest ih =>
      simp only [driveLevels, Simulation.driveLevels, ← r.map_driveField]
      cases h : r.driveField fuel f (.int level) with
      | none => rfl
      | some r' =>
          obtain ⟨r', _ | _⟩ := r'
          · rfl
          · exact ih r'

theorem map_ofFault (r : Option (Recorded × Option SimError)) :
    (r.map ofFault).map forget = (r.map fun r => (r.1.sim, r.2)).map Simulation.ofFault := by
  rcases r with _ | ⟨r, _ | e⟩ <;> rfl

theorem map_faultOf {α : Type} (r : Option (Recorded × Except SimError α)) :
    (r.map Command.faultOf).map forget = (r.map forget).map Command.faultOf := by
  rcases r with _ | ⟨r, _ | v⟩ <;> rfl

theorem map_start (fuel : Nat) (r : Recorded) :
    (r.start fuel).map forget = r.sim.start fuel := by
  simp only [start, Simulation.start]
  split
  · rfl
  · generalize (if r.sim.tracing = .memory then Simulation.announced r.sim.tree else []) = traced
    have hmap :=
      map_evalComb fuel { r with sim := { r.sim with started := true, traced := traced } }
    simp only at hmap ⊢
    rw [← hmap]
    cases Recorded.evalComb fuel
        { r with sim := { r.sim with started := true, traced := traced } } with
    | none => rfl
    | some r' =>
        obtain ⟨r', _ | v⟩ := r'
        · rfl
        · simp only [Option.map_some, forget, Simulation.runReady]
          have hready := host_refines.runReady fuel
            { r' with
              sim := List.foldl Simulation.spawnProcesses r'.sim (List.range r'.sim.tree.size) }
          rw [hready]
          exact map_ofFault _

/-- Recorded commands lead to the same simulation and the same fault as others. -/
theorem map_command (fuel : Nat) (r : Recorded) (c : Command) :
    (r.command fuel c).map forget = c.run fuel r.sim := by
  cases c with
  | start => rw [Command.run, ← map_start, ← map_faultOf]; rfl
  | setInput path v =>
      simp only [command, Command.run, Simulation.setInput]
      cases r.sim.tree.resolveField path with
      | error e => rfl
      | ok f => rw [map_faultOf, map_driveField]
  | clockEdge path =>
      simp only [command, Command.run, Simulation.clockEdge]
      cases r.sim.tree.resolveField path with
      | error e => rfl
      | ok f => rw [map_faultOf, map_driveLevels]
  | evalComb => rw [Command.run, ← map_evalComb, ← map_faultOf]; rfl
  | call path function args =>
      simp only [command, Command.run, Simulation.call]
      cases r.sim.find path with
      | error e => rfl
      | ok id => rw [map_faultOf, map_runMachine]
  | advance =>
      simp only [command, Command.run, Simulation.advance]
      rw [map_faultOf, host_refines.advance fuel r]
      rfl
  | runUntil time =>
      simp only [command, Command.run, Simulation.runUntil]
      rw [host_refines.runUntil fuel time r]
      rcases host.runUntil fuel time r with _ | ⟨r', _ | e⟩ <;> rfl
  | driveClock path period =>
      simp only [command, Command.run]
      rcases r.sim.driveClock path period with ⟨s, _ | id⟩ <;> rfl
  | cancel task => exact congrArg (fun s => some (s, none)) (host_refines.cancel r task).symm
  | stop => rfl
  | setEvent event =>
      simp only [command, Command.run, Simulation.setEvent, ← r.map_runMachine]
      rcases r.runMachine fuel (r.sim.machine.setEvent event) with _ | ⟨r', _ | v⟩ <;> rfl
  | clearEvent event => rfl

end Recorded

/-- The states that a command comes through. A command that does not return within the fuel has
none, so what is said of all states of a command says nothing about such a call. -/
def Command.states (c : Command) (fuel : Nat) (s : Simulation) : List Machine :=
  (((⟨s, []⟩ : Recorded).command fuel c).map fun r => r.1.states).getD []

end Clockwork
