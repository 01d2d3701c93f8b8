import Clockwork.Concurrency.WaitQueue
import Clockwork.Value.Error

namespace Clockwork

inductive Callback (ε : Type) where
  | immediate (body : ε)
  | task (body : ε)
  deriving Repr, Inhabited

structure Event (ε : Type) where
  flag : Bool
  generation : Nat
  queue : WaitQueue
  callback : Option (Callback ε)
  /-- Whether the event belongs to a scheduler that never runs, so that tasks of its callback are
  lost. -/
  detached : Bool
  deriving Repr, Inhabited

namespace Event

variable {ε : Type}

def clear (e : Event ε) : Event ε := { e with flag := false }

def ofScheduler (detached : Bool) : Event ε := ⟨false, 0, .empty, none, detached⟩

def bindCallback (e : Event ε) (c : Callback ε) : Except SimError (Event ε) :=
  if e.callback.isSome then .error .callbackAlreadyBound
  else .ok { e with callback := some c }

/-- Sets the flag; gives everybody who has to be woken, in order. -/
def set (e : Event ε) : Event ε × List Waker :=
  ({ e with
      flag := true, generation := e.generation + 1, queue := ⟨e.queue.next, []⟩ },
   e.queue.waiting.map (·.2))

inductive Attempt (ε : Type) where
  | over (e : Event ε)
  | waiting (start : Nat) (ticket : Nat) (e : Event ε)

/-- Goes on with a wait. A wait that is not queued any more goes behind all others. -/
def poll (e : Event ε) (start : Option Nat) (ticket : Option Nat) (w : Waker) : Attempt ε :=
  let start := start.getD e.generation
  if e.flag || e.generation != start then
    match ticket with
    | some t => .over { e with queue := e.queue.remove t }
    | none => .over e
  else
    match ticket with
    | some t =>
      if e.queue.holds t then .waiting start t { e with queue := e.queue.refresh t w }
      else .waiting start t { e with queue := ⟨e.queue.next, e.queue.waiting ++ [(t, w)]⟩ }
    | none =>
      let (q, t) := e.queue.enter w
      .waiting start t { e with queue := q }

def abandon (e : Event ε) (ticket : Option Nat) : Event ε :=
  match ticket with
  | some t => { e with queue := e.queue.remove t }
  | none => e

end Event

end Clockwork
