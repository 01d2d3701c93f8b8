namespace Clockwork

/-- Whom to tell when a wait may be over. -/
inductive Waker where
  /-- Nobody: whoever waits will look again unasked. -/
  | nobody
  | task (id : Nat)
  deriving DecidableEq, Repr, Inhabited

/-- Waiting parties in the order in which they are woken. -/
structure WaitQueue where
  next : Nat
  waiting : List (Nat × Waker)
  deriving DecidableEq, Repr, Inhabited

namespace WaitQueue

def empty : WaitQueue := ⟨0, []⟩

def holds (q : WaitQueue) (ticket : Nat) : Bool := q.waiting.any fun w => w.1 == ticket

def refresh (q : WaitQueue) (ticket : Nat) (w : Waker) : WaitQueue :=
  ⟨q.next, q.waiting.map fun p => if p.1 = ticket then (ticket, w) else p⟩

def enter (q : WaitQueue) (w : Waker) : WaitQueue × Nat :=
  (⟨q.next + 1, q.waiting ++ [(q.next, w)]⟩, q.next)

/-- Queues a party. One that was woken in vain goes back to the front. -/
def park (q : WaitQueue) (ticket : Option Nat) (w : Waker) : WaitQueue × Nat :=
  match ticket with
  | some t => if q.holds t then (q.refresh t w, t) else (⟨q.next, (t, w) :: q.waiting⟩, t)
  | none => q.enter w

def remove (q : WaitQueue) (ticket : Nat) : WaitQueue :=
  ⟨q.next, q.waiting.filter fun w => w.1 ≠ ticket⟩

def pop (q : WaitQueue) : WaitQueue × Option (Nat × Waker) :=
  match q.waiting with
  | [] => (q, none)
  | w :: rest => (⟨q.next, rest⟩, some w)

end WaitQueue

end Clockwork
