import Clockwork.Elaboration.Design
import Clockwork.Simulation.Run

namespace Clockwork

/-- Limits and wishes of a simulation. -/
structure SimOptions where
  /-- The deepest nesting of combinational processes that is not taken for a circle. -/
  maxCombDepth : Nat
  tracing : Tracing
  deriving DecidableEq, Repr, Inhabited

/-- The usual limits, without a record of changes. -/
def SimOptions.standard : SimOptions := ⟨1000, .off⟩

namespace Simulation

/-- Makes a function the callback of an event: one that may wait runs as a new task. -/
def hook (t : Tree) (k : Kernel Empty EventHook Task) (h : EventHook) :
    Except SimError (Kernel Empty EventHook Task) :=
  let i := t.inst h.owner
  match i.functions.get? h.method with
  | none => .error (.unknownMethod i.path h.method)
  | some f =>
    match (k.event h.event).bindCallback (if f.isAsync then .task h else .immediate h) with
    | .ok e => .ok (k.setEvent h.event e)
    | .error e => .error e

def kernelOf (o : Objects) : Kernel Empty EventHook Task :=
  { scheduler := .initial
    channels := o.channels.map Channel.ofCapacity
    locks := Array.replicate o.locks .free
    events := o.events.map Event.ofScheduler }

/-- The simulation of a tree; nothing runs before it is started. -/
def ofElaborated (e : Elaborated) (options : SimOptions) : Except SimError Simulation := do
  let (wiring, log) ← Wiring.ofTree e.tree
  let kernel ← e.tree.hooks.foldlM (hook e.tree) (kernelOf e.objects)
  return {
    tree := e.tree
    wiring := wiring
    objects := e.objects
    maxCombDepth := options.maxCombDepth
    signals := .start e.tree.signals
    kernel := kernel
    paused := .empty
    pending := []
    inRound := false
    driveDepth := 0
    combDepth := 0
    covers := .empty
    started := false
    tracing := options.tracing
    traced := []
    changes := #[]
    log := log.toArray }

def signalSlots (i : Instance) : List FieldSlot :=
  i.fields.toList.filter fun f => f.storage.isSignal

def announced (t : Tree) : List TracedSignal :=
  t.instances.toList.flatMap fun i =>
    (signalSlots i).map fun f => ⟨i.path, f.name, f.width, f.direction == some .input⟩

/-- Runs every combinational process, writers before readers, and then settles. -/
def evalComb (fuel : Nat) (s : Simulation) : Option (Simulation × Except SimError Value) :=
  let m := { s with driveDepth := s.driveDepth + 1 }.machine
  runMachine fuel ({ m with stack := [.driven] }.runCombs s.wiring.order)

def spawnProcesses (s : Simulation) (id : Nat) : Simulation :=
  (s.tree.inst id).processes.foldl (fun s f =>
    (s.spawn (.begin id f.name .immediate) [.block f.body]).1) s

def ofFault (r : Simulation × Option SimError) : Simulation × Except SimError Unit :=
  match r with
  | (s, none) => (s, .ok ())
  | (s, some e) => (s, .error e)

def dropResult (r : Simulation × Except SimError Value) : Simulation × Except SimError Unit :=
  (r.1, r.2.map fun _ => ())

def runReady (fuel : Nat) (s : Simulation) : Option (Simulation × Except SimError Unit) :=
  (host.runReady fuel s).map ofFault

/-- Announces the signals, runs all combinational processes, and starts the free ones, each up to
its first wait. Only the first start does anything. -/
def start (fuel : Nat) (s : Simulation) : Option (Simulation × Except SimError Unit) :=
  if s.started then some (s, .ok ())
  else
    let traced := if s.tracing = .memory then announced s.tree else []
    match evalComb fuel { s with started := true, traced := traced } with
    | none => none
    | some (s, .error e) => some (s, .error e)
    | some (s, .ok _) => runReady fuel ((List.range s.tree.size).foldl spawnProcesses s)

def driveField (fuel : Nat) (s : Simulation) (f : FieldRef) (v : Value) :
    Option (Simulation × Except SimError Unit) :=
  (runMachine fuel (s.machine.write f v .immediate)).map dropResult

def setInput (fuel : Nat) (s : Simulation) (path : String) (v : Value) :
    Option (Simulation × Except SimError Unit) :=
  match s.tree.resolveField path with
  | .error e => some (s, .error e)
  | .ok f => s.driveField fuel f v

/-- Drives a field with values one after the other, up to the first fault. -/
def driveLevels (fuel : Nat) (f : FieldRef) : List Int → Simulation →
    Option (Simulation × Except SimError Unit)
  | [], s => some (s, .ok ())
  | level :: rest, s =>
    match s.driveField fuel f (.int level) with
    | some (s, .ok ()) => driveLevels fuel f rest s
    | r => r

/-- Gives the field at a path one pulse: low, high, low. -/
def clockEdge (fuel : Nat) (s : Simulation) (path : String) :
    Option (Simulation × Except SimError Unit) :=
  match s.tree.resolveField path with
  | .error e => some (s, .error e)
  | .ok f => driveLevels fuel f [0, 1, 0] s

def readPath (s : Simulation) (path : String) : Except SimError Value := do
  s.readField (← s.tree.resolveField path)

def fieldValue (s : Simulation) (id : Nat) (name : String) : Except SimError Value :=
  let i := s.tree.inst id
  match i.fieldIndex? name with
  | some index => s.readField ⟨id, index⟩
  | none => .error (.unknownField i.path name)

def output (s : Simulation) (name : String) : Except SimError Value := s.fieldValue Tree.root name

def find (s : Simulation) (path : String) : Except SimError Nat :=
  match s.tree.find? path with
  | some id => .ok id
  | none => .error (.noSuchComponent path)

def call (fuel : Nat) (s : Simulation) (path function : String) (args : List Value) :
    Option (Simulation × Except SimError Value) :=
  match s.find path with
  | .error e => some (s, .error e)
  | .ok id => runMachine fuel (s.machine.callNow id function args)

/-- Starts a task that is a clock: low for the first half of every period. Gives its number. -/
def driveClock (s : Simulation) (path : String) (period : Nat) :
    Simulation × Except SimError Nat :=
  if period < 2 then (s, .error (.evaluation s!"clock period of {period} fs is too short"))
  else
    match s.tree.resolveField path with
    | .error e => (s, .error e)
    | .ok f =>
      let low := period / 2
      let (s, id) := s.spawn (.begin Tree.root "" .immediate) [.clock f low (period - low) true]
      (s, .ok id)

def cancel (s : Simulation) (task : Nat) : Simulation := host.cancel s task

def isDone (s : Simulation) (task : Nat) : Bool := !s.kernel.scheduler.isLive task

/-- Lets time pass up to the next entry of the agenda; tells whether entries remain. -/
def advance (fuel : Nat) (s : Simulation) : Option (Simulation × Except SimError Bool) :=
  host.advance fuel s

def runUntil (fuel : Nat) (s : Simulation) (stop : Nat) :
    Option (Simulation × Except SimError Unit) :=
  (host.runUntil fuel stop s).map ofFault

/-- Ends the run under way at the next opportunity. -/
def stop (s : Simulation) : Simulation := s.updateScheduler Scheduler.stop

def setEvent (fuel : Nat) (s : Simulation) (event : Nat) :
    Option (Simulation × Except SimError Unit) :=
  (runMachine fuel (s.machine.setEvent event)).map dropResult

def clearEvent (s : Simulation) (event : Nat) : Simulation :=
  s.setKernel (s.kernel.clearFlag event)

/-- The values of all signals by path, in the order of the tree. -/
def snapshot (s : Simulation) : List (String × Value) :=
  (List.range s.tree.size).flatMap fun id =>
    let i := s.tree.inst id
    (signalSlots i).map fun f => (i.path ++ "." ++ f.name, (s.signalsOf id).read f.key)

def changesOf (s : Simulation) (signal : String) : List TracedChange :=
  s.changes.toList.filter fun c => decide (c.signal = signal)

end Simulation

end Clockwork
