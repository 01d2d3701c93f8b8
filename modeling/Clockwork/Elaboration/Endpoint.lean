import Clockwork.Tree.Structural

namespace Clockwork

inductive Endpoint where
  | field (f : FieldRef)
  | method (owner : Nat) (name : String)
  /-- Something a field offers under a name. -/
  | member (f : FieldRef) (name : String)
  | value (v : Value)
  deriving Repr, Inhabited

namespace Endpoint

/-- The function or the field of an instance that has a name. -/
def named (t : Tree) (owner : Nat) (name : String) : Except SimError Endpoint :=
  let i := t.inst owner
  if i.functions.contains name then .ok (.method owner name)
  else
    match i.fieldIndex? name with
    | some index => .ok (.field ⟨owner, index⟩)
    | none => .error (.unknownField i.path name)

def resolve (t : Tree) (id : Nat) (e : Expr) : Except SimError Endpoint :=
  match e.fieldPath? with
  | some path => (t.follow id path).map .field
  | none =>
    match e with
    | .member .self name => named t id name
    | .member owner name =>
      match owner.fieldPath? with
      | none => (t.structural id e).map .value
      | some path => do
        let f ← t.follow id path
        let slot ← t.slot f.owner f.index
        match slot.storage with
        | .component child => named t child name
        | _ => return .member f name
    | e => (t.structural id e).map .value

def fieldPath (t : Tree) (f : FieldRef) : String :=
  let i := t.inst f.owner
  i.path ++ "." ++ ((i.fields[f.index]?.map FieldSlot.name).getD "?")

def render (t : Tree) : Endpoint → String
  | field f => fieldPath t f
  | method owner name => (t.inst owner).path ++ "." ++ name ++ "()"
  | member f name => fieldPath t f ++ "." ++ name
  | value v => v.render

end Endpoint

end Clockwork
