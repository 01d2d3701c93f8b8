import Clockwork.Concurrency.WaitQueue
/-!
Channels: first-in first-out queues of limited or unlimited length, at whose ends parties wait for
an item or for room. Every operation also says whom it wakes.

A get and a put in progress are known to the channel by their ticket, which they have once they
had to wait. A woken party has to try again, and may find that another one was faster.
-/

namespace Clockwork

structure Channel (α : Type) where
  items : List α
  capacity : Nat
  getters : WaitQueue
  putters : WaitQueue
  deriving Repr, Inhabited

namespace Channel

variable {α : Type}

def ofCapacity (capacity : Nat) : Channel α := ⟨[], capacity, .empty, .empty⟩

def hasRoom (c : Channel α) : Bool := c.capacity == 0 || c.items.length < c.capacity

def hasItem (c : Channel α) : Bool := !c.items.isEmpty

def wakePutter (c : Channel α) : Channel α × Option Waker :=
  let (q, w) := c.putters.pop
  ({ c with putters := q }, w.map (·.2))

def wakeGetter (c : Channel α) : Channel α × Option Waker :=
  let (q, w) := c.getters.pop
  ({ c with getters := q }, w.map (·.2))

/-- What became of a get or a put. -/
inductive Attempt (α β : Type) where
  | complete (result : β) (c : Channel α) (woken : Option Waker)
  | waiting (ticket : Nat) (c : Channel α)

def tryGet (c : Channel α) : Channel α × Option α × Option Waker :=
  match c.items with
  | [] => (c, none, none)
  | a :: rest =>
    let (c, woken) := { c with items := rest }.wakePutter
    (c, some a, woken)

def tryPut (c : Channel α) (a : α) : Option (Channel α × Option Waker) :=
  if c.hasRoom then some { c with items := c.items ++ [a] }.wakeGetter else none

def pollGet (c : Channel α) (ticket : Option Nat) (w : Waker) : Attempt α α :=
  match c.items with
  | a :: rest =>
    let getters := match ticket with
      | some t => c.getters.remove t
      | none => c.getters
    let (c, woken) := { c with items := rest, getters := getters }.wakePutter
    .complete a c woken
  | [] =>
    let (q, t) := c.getters.park ticket w
    .waiting t { c with getters := q }

def pollPut (c : Channel α) (a : α) (ticket : Option Nat) (w : Waker) : Attempt α Unit :=
  if c.hasRoom then
    let putters := match ticket with
      | some t => c.putters.remove t
      | none => c.putters
    let (c, woken) := { c with items := c.items ++ [a], putters := putters }.wakeGetter
    .complete () c woken
  else
    let (q, t) := c.putters.park ticket w
    .waiting t { c with putters := q }

/-- Gives up a get that waits. If it was woken for an item, the next party is woken instead. -/
def abandonGet (c : Channel α) (ticket : Option Nat) : Channel α × Option Waker :=
  match ticket with
  | none => (c, none)
  | some t =>
    if c.getters.holds t then ({ c with getters := c.getters.remove t }, none)
    else if c.hasItem then c.wakeGetter
    else (c, none)

/-- Gives up a put that waits. If it was woken for room, the next party is woken instead. -/
def abandonPut (c : Channel α) (ticket : Option Nat) : Channel α × Option Waker :=
  match ticket with
  | none => (c, none)
  | some t =>
    if c.putters.holds t then ({ c with putters := c.putters.remove t }, none)
    else if c.hasRoom then c.wakePutter
    else (c, none)

end Channel

end Clockwork
