import Clockwork.Design.Access
import Clockwork.Graph.Order
import Clockwork.Log
import Clockwork.Tree.Basic
/-!
What makes the processes of a tree run: the rising edges of clocks and resets, and the changes of
fields that combinational processes depend on. The first run of the combinational processes goes
from writers to readers.
-/

namespace Clockwork

/-- A clocked or combinational process, by its instance and its position among the processes of
its kind. -/
structure ProcessRef where
  owner : Nat
  index : Nat
  deriving DecidableEq, Repr, Inhabited

namespace ProcessRef

instance : LT ProcessRef :=
  ⟨fun a b => a.owner < b.owner ∨ (a.owner = b.owner ∧ a.index < b.index)⟩

instance : DecidableLT ProcessRef := fun a b =>
  inferInstanceAs (Decidable (a.owner < b.owner ∨ (a.owner = b.owner ∧ a.index < b.index)))

end ProcessRef

/-- What makes processes run. -/
structure Wiring where
  /-- The clocked processes that a rising edge of a field starts. -/
  triggers : Table FieldRef (List ProcessRef)
  resets : Table ProcessRef FieldRef
  watchers : Table FieldRef (List ProcessRef)
  /-- All combinational processes, writers before readers. -/
  order : List ProcessRef
  deriving Inhabited

namespace Wiring

def empty : Wiring := ⟨.empty, .empty, .empty, []⟩

def addTo (t : Table FieldRef (List ProcessRef)) (f : FieldRef) (p : ProcessRef) :
    Table FieldRef (List ProcessRef) :=
  t.insert f ((t.get? f).getD [] ++ [p])

def fieldOf (t : Tree) (id : Nat) (e : Expr) : Except SimError FieldRef :=
  match e.fieldPath? with
  | some path => t.follow id path
  | none =>
    .error (.evaluation s!"process reference in '{(t.inst id).path}' is not a field path")

def addSync (t : Tree) (w : Wiring) (p : ProcessRef) (f : Function) : Except SimError Wiring :=
  match f.process with
  | none => .ok w
  | some info => do
    let w ← match info.clock with
      | none => pure w
      | some e => do pure { w with triggers := addTo w.triggers (← fieldOf t p.owner e) p }
    match info.reset with
    | none => return w
    | some e =>
      let field ← fieldOf t p.owner e
      return { w with triggers := addTo w.triggers field p, resets := w.resets.insert p field }

/-- The fields that a combinational process depends on: those that it lists, or else those that it
reads and does not write. -/
def sensitivity (t : Tree) (id : Nat) (f : Function) : Except SimError (List FieldRef) := do
  let listed := match f.process with
    | some info => info.sensitivity
    | none => []
  let exprs := if listed.isEmpty then derivedSensitivity f.body else listed
  return firsts (← exprs.mapM (fieldOf t id))

def placed (id : Nat) (l : List Function) : List (ProcessRef × Function) :=
  l.zipIdx.map fun (f, i) => (⟨id, i⟩, f)

/-- Adds the processes of an instance; also gives what its combinational processes depend on. -/
def addInstance (t : Tree) (state : Wiring × List (ProcessRef × List FieldRef)) (id : Nat) :
    Except SimError (Wiring × List (ProcessRef × List FieldRef)) := do
  let i := t.inst id
  let w ← (placed id i.syncs).foldlM (fun w (p, f) => addSync t w p f) state.1
  let combs ← (placed id i.combs).mapM fun (p, f) => do return (p, ← sensitivity t id f)
  return (w, state.2 ++ combs)

/-- Continues a list of fields to all that take their values, directly or through others. -/
def drivenFrom (t : Tree) : (room : Nat) → (work seen : List FieldRef) → List FieldRef
  | 0, _, seen => seen
  | _, [], seen => seen
  | room + 1, f :: work, seen =>
    let fresh := firsts ((t.targets f).filter fun g => decide (g ∉ seen))
    drivenFrom t room (fresh ++ work) (seen ++ fresh)

/-- A field and all fields that take its value, directly or through others. -/
def driven (t : Tree) (f : FieldRef) : List FieldRef :=
  drivenFrom t ((t.bindings.entries.flatMap Prod.snd).length + 1) [f] [f]

def changedBy (t : Tree) (p : ProcessRef) : List FieldRef :=
  let body := ((t.inst p.owner).combs[p.index]?.map Function.body).getD []
  (AccessSet.ofBody body).writes.flatMap fun path =>
    match t.follow p.owner path with
    | .ok f => driven t f
    | .error _ => []

/-- The graph of combinational processes: an edge leads from a writer to every reader. -/
def dependencies (t : Tree) (combs : List (ProcessRef × List FieldRef)) : Graph :=
  let all := combs.toArray.map fun (p, reads) => (changedBy t p, reads)
  .ofRelation all.size fun a b =>
    let written := (all[a]?.map (·.1)).getD []
    ((all[b]?.map (·.2)).getD []).any written.contains

def combName (t : Tree) (p : ProcessRef) : String :=
  let i := t.inst p.owner
  i.path ++ "." ++ ((i.combs[p.index]?.map Function.name).getD "")

/-- The combinational processes in the order of their first run, which is that of declaration if
they depend on each other in a circle. -/
def firstRun (t : Tree) (combs : List (ProcessRef × List FieldRef)) :
    List ProcessRef × List LogRecord :=
  let declared := combs.map (·.1)
  match (dependencies t combs).order with
  | .ok order => (order.filterMap fun k => declared[k]?, [])
  | .error k =>
    let name := ((declared[k]?).map (combName t)).getD ""
    (declared, [.warn s!"combinational loop through {name}; using declaration order"])

def ofTree (t : Tree) : Except SimError (Wiring × List LogRecord) := do
  let (w, combs) ← (List.range t.size).foldlM (addInstance t) (empty, [])
  let watchers := combs.foldl (fun table (p, fields) =>
    fields.foldl (fun table f => addTo table f p) table) Table.empty
  let (order, log) := firstRun t combs
  return ({ w with watchers := watchers, order := order }, log)

end Wiring

end Clockwork
