import Clockwork.Simulation.Frame
import Clockwork.Tree.Objects

namespace Clockwork

/-- Where the changes of signals are recorded. -/
inductive Tracing where
  | off
  | log
  | memory
  deriving DecidableEq, Repr, Inhabited

/-- A signal as it is announced to the record of changes. -/
structure TracedSignal where
  path : String
  name : String
  width : Nat
  isInput : Bool
  deriving DecidableEq, Repr, Inhabited

structure TracedChange where
  time : Instant
  signal : String
  old : Value
  new : Value
  deriving Repr, Inhabited

structure Simulation where
  tree : Tree
  wiring : Wiring
  objects : Objects
  /-- The deepest nesting of combinational processes that is not taken for a circle. -/
  maxCombDepth : Nat
  signals : SignalStore
  kernel : Kernel Empty EventHook Task
  paused : Table ProcessRef Pause
  pending : List ProcessRef
  inRound : Bool
  /-- The number of immediate writes under way. -/
  driveDepth : Nat
  /-- The number of combinational processes under way. -/
  combDepth : Nat
  covers : Table String Nat
  started : Bool
  tracing : Tracing
  traced : List TracedSignal
  changes : Array TracedChange
  log : Array LogRecord
  deriving Inhabited

namespace Simulation

def now (s : Simulation) : Instant := s.kernel.scheduler.now

def note (s : Simulation) (r : LogRecord) : Simulation := { s with log := s.log.push r }

def updateScheduler (f : Scheduler Empty Task → Scheduler Empty Task) (s : Simulation) :
    Simulation :=
  { s with kernel := { s.kernel with scheduler := f s.kernel.scheduler } }

/-- Starts a task with something to do; gives its number. -/
def spawn (s : Simulation) (a : Activation) (stack : List Frame) : Simulation × Nat :=
  let (scheduler, id) := s.kernel.scheduler.spawn ⟨none, a, stack⟩
  ({ s with kernel := { s.kernel with scheduler := scheduler } }, id)

def signalsOf (s : Simulation) (id : Nat) : SignalState := s.signals.get id

def withValue (s : Simulation) (f : FieldRef) (slot : FieldSlot) (v : Value) : Simulation :=
  { s with signals := s.signals.set f.owner slot.key v }

def readField (s : Simulation) (f : FieldRef) : Except SimError Value :=
  match s.tree.slot f.owner f.index with
  | .error e => .error e
  | .ok slot =>
    match slot.storage with
    | .signal => .ok ((s.signalsOf f.owner).read slot.key)
    | .const v => .ok v
    | .object v => .ok v
    | .component child => .ok (.obj (.component child))
    | .unbound => .error (.unboundPort (s.tree.inst f.owner).path slot.name)

/-- The instances with staged values. -/
def touched (s : Simulation) : List Nat := s.signals.touched

def hasStaged (s : Simulation) : Bool := !s.touched.isEmpty

def stage (s : Simulation) (f : FieldRef) (slot : FieldSlot) (v : Value) : Simulation :=
  { s with signals := s.signals.stage f.owner slot.key (v.fit slot.width slot.signed) }

def discardPending (s : Simulation) : Simulation :=
  { s with pending := [], signals := s.signals.discard }

/-- Makes all staged values current; gives the changes by instance and signal. -/
def applyStaged (s : Simulation) : Simulation × List (FieldRef × Value × Value) :=
  let (signals, changes) := s.signals.apply
  ({ s with signals := signals },
   changes.filterMap fun (id, c) =>
     ((s.tree.inst id).indexOfKey? c.key).map fun index => (⟨id, index⟩, c.old, c.new))

/-- Records a change of a signal where it is wanted. -/
def trace (s : Simulation) (f : FieldRef) (name : String) (old new : Value) : Simulation :=
  let signal := (s.tree.inst f.owner).path ++ "." ++ name
  match s.tracing with
  | .off => s
  | .log => s.note (.info
      (s.now.render ++ ": " ++ signal ++ " " ++ old.render ++ " -> " ++ new.render))
  | .memory => { s with changes := s.changes.push ⟨s.now, signal, old, new⟩ }

/-- Notes the clocked processes that a rising edge of a field starts, each one once. -/
def noteEdge (s : Simulation) (f : FieldRef) (old new : Value) : Simulation :=
  if !old.truthy && new.truthy then
    let started := (s.wiring.triggers.get? f).getD []
    let pending := started.foldl (fun l p => if p ∈ l then l else l ++ [p]) s.pending
    { s with pending := pending }
  else s

def watchers (s : Simulation) (f : FieldRef) : List ProcessRef :=
  (s.wiring.watchers.get? f).getD []

def cover (s : Simulation) (key : String) : Simulation :=
  { s with covers := s.covers.insert key ((s.covers.get? key).getD 0 + 1) }

end Simulation

end Clockwork
