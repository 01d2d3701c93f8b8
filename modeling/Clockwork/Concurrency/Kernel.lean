import Clockwork.Concurrency.Channel
import Clockwork.Concurrency.Event
import Clockwork.Concurrency.Lock
import Clockwork.Concurrency.Scheduler
import Clockwork.Value.Basic

namespace Clockwork

inductive Wait where
  | sleep (delay : Nat) (entry : Option Nat)
  | get (channel : Nat) (ticket : Option Nat)
  | put (channel : Nat) (item : Value) (ticket : Option Nat)
  | acquire (lock : Nat) (ticket : Option Nat)
  | event (event : Nat) (start : Option Nat) (ticket : Option Nat)
  deriving Repr, Inhabited

/-- The scheduler, the channels, the locks and the events, for callbacks of the scheduler `κ`,
callbacks of events `ε` and tasks `τ`. -/
structure Kernel (κ ε τ : Type) where
  scheduler : Scheduler κ τ
  channels : Array (Channel Value)
  locks : Array Lock
  events : Array (Event ε)
  deriving Inhabited

namespace Kernel

variable {κ ε τ : Type}

def initial : Kernel κ ε τ := ⟨.initial, #[], #[], #[]⟩

def channel (k : Kernel κ ε τ) (id : Nat) : Channel Value :=
  k.channels[id]?.getD (.ofCapacity 0)

def lock (k : Kernel κ ε τ) (id : Nat) : Lock := k.locks[id]?.getD .free

def event (k : Kernel κ ε τ) (id : Nat) : Event ε := k.events[id]?.getD (.ofScheduler false)

def setChannel (k : Kernel κ ε τ) (id : Nat) (c : Channel Value) : Kernel κ ε τ :=
  { k with channels := k.channels.setIfInBounds id c }

def setLock (k : Kernel κ ε τ) (id : Nat) (l : Lock) : Kernel κ ε τ :=
  { k with locks := k.locks.setIfInBounds id l }

def setEvent (k : Kernel κ ε τ) (id : Nat) (e : Event ε) : Kernel κ ε τ :=
  { k with events := k.events.setIfInBounds id e }

def addChannel (k : Kernel κ ε τ) (capacity : Nat) : Kernel κ ε τ × Nat :=
  ({ k with channels := k.channels.push (.ofCapacity capacity) }, k.channels.size)

def addLock (k : Kernel κ ε τ) : Kernel κ ε τ × Nat :=
  ({ k with locks := k.locks.push .free }, k.locks.size)

def addEvent (k : Kernel κ ε τ) (detached : Bool) : Kernel κ ε τ × Nat :=
  ({ k with events := k.events.push (.ofScheduler detached) }, k.events.size)

def wakeAll (k : Kernel κ ε τ) (ws : List Waker) : Kernel κ ε τ :=
  { k with scheduler := k.scheduler.wakeAll ws }

def wake? (k : Kernel κ ε τ) (w : Option Waker) : Kernel κ ε τ := k.wakeAll w.toList

def tryGet (k : Kernel κ ε τ) (id : Nat) : Kernel κ ε τ × Option Value :=
  let (c, item, woken) := (k.channel id).tryGet
  ((k.setChannel id c).wake? woken, item)

def tryPut (k : Kernel κ ε τ) (id : Nat) (v : Value) : Kernel κ ε τ × Bool :=
  match (k.channel id).tryPut v with
  | some (c, woken) => ((k.setChannel id c).wake? woken, true)
  | none => (k, false)

def tryAcquire (k : Kernel κ ε τ) (id : Nat) : Kernel κ ε τ × Bool :=
  let (l, taken) := (k.lock id).tryAcquire
  (k.setLock id l, taken)

def release (k : Kernel κ ε τ) (id : Nat) : Except SimError (Kernel κ ε τ) :=
  match (k.lock id).release with
  | .ok (l, woken) => .ok ((k.setLock id l).wake? woken)
  | .error e => .error e

/-- Sets an event and wakes all that wait for it; gives the callback that is to run. -/
def setFlag (k : Kernel κ ε τ) (id : Nat) : Kernel κ ε τ × Option (Callback ε) :=
  let (e, woken) := (k.event id).set
  ((k.setEvent id e).wakeAll woken, e.callback)

def clearFlag (k : Kernel κ ε τ) (id : Nat) : Kernel κ ε τ :=
  k.setEvent id (k.event id).clear

inductive Progress where
  | over (result : Value)
  | waiting (w : Wait)

def poll (k : Kernel κ ε τ) (waker : Waker) : Wait → Kernel κ ε τ × Progress
  | .sleep delay entry =>
    match k.scheduler.pollSleep delay entry waker with
    | .over s => ({ k with scheduler := s }, .over .none)
    | .waiting seq s => ({ k with scheduler := s }, .waiting (.sleep delay (some seq)))
  | .get id ticket =>
    match (k.channel id).pollGet ticket waker with
    | .complete v c woken => ((k.setChannel id c).wake? woken, .over v)
    | .waiting t c => (k.setChannel id c, .waiting (.get id (some t)))
  | .put id v ticket =>
    match (k.channel id).pollPut v ticket waker with
    | .complete () c woken => ((k.setChannel id c).wake? woken, .over .none)
    | .waiting t c => (k.setChannel id c, .waiting (.put id v (some t)))
  | .acquire id ticket =>
    match (k.lock id).poll ticket waker with
    | .acquired l => (k.setLock id l, .over .none)
    | .waiting t l => (k.setLock id l, .waiting (.acquire id (some t)))
  | .event id start ticket =>
    match (k.event id).poll start ticket waker with
    | .over e => (k.setEvent id e, .over .none)
    | .waiting start t e => (k.setEvent id e, .waiting (.event id (some start) (some t)))

def abandon (k : Kernel κ ε τ) : Wait → Kernel κ ε τ
  | .sleep _ entry => { k with scheduler := k.scheduler.abandonSleep entry }
  | .get id ticket =>
    let (c, woken) := (k.channel id).abandonGet ticket
    (k.setChannel id c).wake? woken
  | .put id _ ticket =>
    let (c, woken) := (k.channel id).abandonPut ticket
    (k.setChannel id c).wake? woken
  | .acquire id ticket =>
    let (l, woken) := (k.lock id).abandon ticket
    (k.setLock id l).wake? woken
  | .event id _ ticket => k.setEvent id ((k.event id).abandon ticket)

end Kernel

end Clockwork
