import Clockwork.Concurrency.WaitQueue
import Clockwork.Value.Error

namespace Clockwork

structure Lock where
  locked : Bool
  queue : WaitQueue
  granted : List Nat
  deriving DecidableEq, Repr, Inhabited

namespace Lock

def free : Lock := ⟨false, .empty, []⟩

def handOff (l : Lock) : Lock × Option Waker :=
  match l.queue.pop with
  | (q, some (t, w)) => (⟨l.locked, q, t :: l.granted⟩, some w)
  | (q, none) => (⟨false, q, l.granted⟩, none)

def tryAcquire (l : Lock) : Lock × Bool :=
  if l.locked then (l, false) else ({ l with locked := true }, true)

def release (l : Lock) : Except SimError (Lock × Option Waker) :=
  if l.locked then .ok l.handOff else .error .lockNotHeld

inductive Attempt where
  | acquired (l : Lock)
  | waiting (ticket : Nat) (l : Lock)

def poll (l : Lock) (ticket : Option Nat) (w : Waker) : Attempt :=
  match ticket with
  | some t =>
    if t ∈ l.granted then .acquired { l with granted := l.granted.filter (· ≠ t) }
    else .waiting t { l with queue := l.queue.refresh t w }
  | none =>
    if l.locked then
      let (q, t) := l.queue.enter w
      .waiting t { l with queue := q }
    else .acquired { l with locked := true }

/-- Gives up a request. If the lock was granted to it, the lock is passed on. -/
def abandon (l : Lock) (ticket : Option Nat) : Lock × Option Waker :=
  match ticket with
  | none => (l, none)
  | some t =>
    if t ∈ l.granted then { l with granted := l.granted.filter (· ≠ t) }.handOff
    else ({ l with queue := l.queue.remove t }, none)

end Lock

end Clockwork
