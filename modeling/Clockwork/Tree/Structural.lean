import Clockwork.Tree.Basic
import Clockwork.Value.Operators

namespace Clockwork.Tree

def fixedValue (t : Tree) (id index : Nat) : Except SimError Value :=
  match t.slot id index with
  | .error e => .error e
  | .ok f =>
    match f.storage with
    | .const v => .ok v
    | .object v => .ok v
    | .component child => .ok (.obj (.component child))
    | .signal => .error (.evaluation s!"signal '{f.name}' is not a constant")
    | .unbound => .error (.evaluation s!"'{f.name}' has no value yet")

def structuralBuiltin (b : Builtin) (args : List Value) : Except SimError Value :=
  match b with
  | .min | .max => do
    match ← Value.extreme (if b = .min then min else max) args with
    | some n => return .int n
    | none => throw (.evaluation (b.name ++ "() needs arguments"))
  | .abs =>
    match args with
    | [v] => return .int (Word.abs (← v.asInt))
    | _ => .error (.evaluation "abs() takes one argument")
  | .len =>
    match args with
    | [v] => return .int (← v.asTuple).length
    | _ => .error (.evaluation "len() takes one argument")
  | .mapAt =>
    match args with
    | [offset, storage] => .ok (.tuple [offset, storage])
    | _ => .error (.evaluation "at() takes an offset and a storage")
  | .cycles | .range | .print =>
    .error (.unsupported (b.name ++ "() in a structural expression"))

def notStructural (what : String) : Except SimError Value :=
  .error (.unsupported (what ++ " in a structural expression"))

mutual

def structural (t : Tree) (id : Nat) : Expr → Except SimError Value
  | .constant c => .ok (.ofLiteral c)
  | .self => .ok (.obj (.component id))
  | .field base index => do t.fixedValue (← (← t.structural id base).asComponent) index
  | .builtin b => .ok (.obj (.builtin b))
  | .binary lhs op rhs => do Value.binary op (← t.structural id lhs) (← t.structural id rhs)
  | .unary op operand => do Value.unary op (← t.structural id operand)
  | .logical op values => t.structuralLogical id op (Value.neutral op) values
  | .compare left ops comparators => do
    t.structuralCompare id (← t.structural id left) ops comparators
  | .conditional test body orelse => do
    if (← t.structural id test).truthy then t.structural id body else t.structural id orelse
  | .tuple items => do return .tuple (← t.structuralAll id items)
  | .subscript value index => do
    let items ← (← t.structural id value).asTuple
    Value.item items (← (← t.structural id index).asInt)
  | .call (.builtin b) args _ => do structuralBuiltin b (← t.structuralAll id args)
  | .call _ _ _ => .error (.evaluation "function calls are not structural")
  | .member _ _ => notStructural "attribute access"
  | .param _ _ => notStructural "parameter reference"
  | .var _ => notStructural "local reference"
  | .await _ => notStructural "await"

def structuralAll (t : Tree) (id : Nat) : List Expr → Except SimError (List Value)
  | [] => .ok []
  | e :: rest => do return (← t.structural id e) :: (← t.structuralAll id rest)

def structuralLogical (t : Tree) (id : Nat) (op : BoolOp) (last : Value) :
    List Expr → Except SimError Value
  | [] => .ok last
  | e :: rest => do
    let v ← t.structural id e
    if v.decides op then return v else t.structuralLogical id op v rest

/-- Compares each value with the next one up to the first comparison that fails. -/
def structuralCompare (t : Tree) (id : Nat) (left : Value) (ops : List CmpOp) :
    List Expr → Except SimError Value
  | [] => .ok (.bool true)
  | e :: rest =>
    match ops with
    | [] => .ok (.bool true)
    | op :: ops => do
      let right ← t.structural id e
      if ← Value.compare op left right then t.structuralCompare id right ops rest
      else return .bool false

end

end Clockwork.Tree
