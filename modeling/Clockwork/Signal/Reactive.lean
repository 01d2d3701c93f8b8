import Clockwork.Interner
import Clockwork.Signal.State
/-!
Signals that set off reactions. A change runs the reactions that watch the signal, in order of
registration and each to its end, before anything else goes on; a reaction that changes a signal
sets off the reactions of that signal in turn. A fault ends all that is under way.
-/

namespace Clockwork

/-- One thing that a change sets off. -/
inductive Reaction where
  | note (text : String)
  | see (name : String)
  | write (name : String) (v : Value)
  | stage (name : String) (v : Value)
  | increase (name : String) (limit : Int)
  | fail (text : String)
  deriving Repr, Inhabited

inductive ReactionNote where
  | text (s : String)
  | seen (name : String) (v : Value)
  deriving Repr, Inhabited

/-- Signals under names, with the reactions that watch them. -/
structure Reactive where
  names : Interner
  signals : SignalState
  watchers : Table Nat (List (List Reaction))
  notes : List ReactionNote
  deriving Inhabited

namespace Reactive

def empty : Reactive := ⟨.empty, .empty, .empty, []⟩

def key (r : Reactive) (name : String) : Reactive × Nat :=
  let (names, id) := r.names.intern name
  ({ r with names := names }, id)

def watch (r : Reactive) (key : Nat) (actions : List Reaction) : Reactive :=
  let before := (r.watchers.get? key).getD []
  { r with watchers := r.watchers.insert key (before ++ [actions]) }

def watchersOf (r : Reactive) (key : Nat) : List (List Reaction) :=
  (r.watchers.get? key).getD []

def addNote (r : Reactive) (n : ReactionNote) : Reactive := { r with notes := r.notes ++ [n] }

/-- Changes a signal at once, and gives what the change sets off. -/
def change (r : Reactive) (key : Nat) (v : Value) : Reactive × List Reaction :=
  if (r.signals.read key).same v then (r, [])
  else ({ r with signals := r.signals.set key v }, (r.watchersOf key).flatten)

/-- Carries out one reaction, and gives what it sets off. Signals are named by then. -/
def react (r : Reactive) : Reaction → Except SimError (Reactive × List Reaction)
  | .note text => .ok (r.addNote (.text text), [])
  | .see name =>
    let (r, key) := r.key name
    .ok (r.addNote (.seen name (r.signals.read key)), [])
  | .write name v =>
    let (r, key) := r.key name
    .ok (r.change key v)
  | .stage name v =>
    let (r, key) := r.key name
    .ok ({ r with signals := r.signals.stage key v }, [])
  | .increase name limit =>
    let (r, key) := r.key name
    match (r.signals.read key).asInt with
    | .error e => .error e
    | .ok n => .ok (if n < limit then r.change key (.int (n + 1)) else (r, []))
  | .fail text => .error (.evaluation text)

/-- Carries out reactions and all that they set off; `none` if that takes more than `fuel`
reactions. -/
def run : (fuel : Nat) → Reactive → List Reaction → Option (Reactive × Option SimError)
  | _, r, [] => some (r, none)
  | 0, _, _ :: _ => none
  | fuel + 1, r, a :: rest =>
    match r.react a with
    | .error e => some (r, some e)
    | .ok (r, more) => run fuel r (more ++ rest)

def notify (fuel : Nat) (r : Reactive) (key : Nat) : Option (Reactive × Option SimError) :=
  run fuel r (r.watchersOf key).flatten

/-- Changes a signal and runs its watchers; gives the value before, if it changed. -/
def write (fuel : Nat) (r : Reactive) (key : Nat) (v : Value) :
    Option (Reactive × Except SimError (Option Value)) :=
  let old := r.signals.read key
  let changed := !old.same v
  let (r, reactions) := r.change key v
  (run fuel r reactions).map fun (r, e) =>
    match e with
    | some e => (r, .error e)
    | none => (r, .ok (if changed then some old else none))

/-- Makes the staged values current; nobody is told. -/
def apply (r : Reactive) : Reactive × List Change :=
  let (signals, changes) := r.signals.apply
  ({ r with signals := signals }, changes)

/-- Makes the staged values current, then runs the watchers of all signals that changed. -/
def commit (fuel : Nat) (r : Reactive) : Option (Reactive × Except SimError (List Change)) :=
  let (r, changes) := r.apply
  (run fuel r (changes.flatMap fun c => (r.watchersOf c.key).flatten)).map fun (r, e) =>
    match e with
    | some e => (r, .error e)
    | none => (r, .ok changes)

/-- The numbers of signals with a current value, with a staged value, and watched. -/
def summary (r : Reactive) : String :=
  "EvalState \x7b current: " ++ toString r.signals.current.size ++ ", next: " ++
    toString r.signals.staged.size ++ ", watched: " ++ toString r.watchers.size ++ " \x7d"

end Reactive

end Clockwork
