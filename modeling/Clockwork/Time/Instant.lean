import Clockwork.Number.Bounded
/-!
Simulated time. An instant is a number of femtoseconds together with a delta step within it;
both stop at the largest number of their width (64 and 32 bits). Instants are ordered by time,
then by delta step.
-/

namespace Clockwork

inductive TimeUnit where
  | fs
  | ps
  | ns
  | us
  | ms
  | s
  deriving DecidableEq, Repr, Inhabited

namespace TimeUnit

def femtoseconds : TimeUnit → Nat
  | fs => 1
  | ps => 1000
  | ns => 1000000
  | us => 1000000000
  | ms => 1000000000000
  | s => 1000000000000000

def symbol : TimeUnit → String
  | fs => "fs"
  | ps => "ps"
  | ns => "ns"
  | us => "us"
  | ms => "ms"
  | s => "s"

end TimeUnit

/-- A point in simulated time. -/
structure Instant where
  fs : Nat
  delta : Nat
  deriving DecidableEq, Repr, Inhabited

namespace Instant

def zero : Instant := ⟨0, 0⟩

def ofFs (fs : Nat) : Instant := ⟨fs, 0⟩

def ofNs (ns : Nat) : Instant := ofFs (Bounded.mul64 ns TimeUnit.ns.femtoseconds)

def nextDelta (t : Instant) : Instant := ⟨t.fs, min (t.delta + 1) Bounded.max32⟩

/-- The first delta step of the femtosecond `delay` later. -/
def after (t : Instant) (delay : Nat) : Instant := ofFs (Bounded.add64 t.fs delay)

def toNs (t : Instant) : Nat := t.fs / TimeUnit.ns.femtoseconds

def before (a b : Instant) : Bool := a.fs < b.fs || (a.fs == b.fs && a.delta < b.delta)

def order (a b : Instant) : Ordering :=
  if a.before b then .lt else if b.before a then .gt else .eq

/-- The unit that a time is shown in: the largest up to milliseconds that divides it. -/
def unitFor (fs : Nat) : TimeUnit :=
  ([TimeUnit.ms, .us, .ns, .ps].find? fun u =>
    u.femtoseconds ≤ fs && fs % u.femtoseconds == 0).getD .fs

/-- The written form of a number of femtoseconds: a whole number of the unit that suits it. -/
def renderFs (fs : Nat) : String :=
  let u := unitFor fs
  toString (fs / u.femtoseconds) ++ " " ++ u.symbol

/-- The written form of an instant; a delta step other than the first is added to it. -/
def render (t : Instant) : String :=
  if t.delta = 0 then renderFs t.fs else renderFs t.fs ++ "+d" ++ toString t.delta

end Instant

end Clockwork
