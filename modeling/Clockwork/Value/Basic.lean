import Clockwork.Design.Expr
import Clockwork.Number.Bounded
import Clockwork.Number.Word
import Clockwork.Value.Error
/-!
Runtime values. Objects appear in values as handles: the kind of the object and its number among
the objects of that kind, so that two handles are equal exactly when they stand for one object.
Numbers and truth values are equal where their numbers are.
-/

namespace Clockwork

/-- A reference to a runtime object. -/
inductive Handle where
  | component (id : Nat)
  | method (owner : Nat) (name : String)
  | bound (target : Handle) (name : String)
  | builtin (b : Builtin)
  | memory (id : Nat)
  | regFile (id : Nat)
  | addressSpace (id : Nat)
  | addrHandle (space : Nat) (base : Nat)
  | channel (id : Nat)
  | getEnd (channel : Nat)
  | putEnd (channel : Nat)
  | lock (id : Nat)
  | event (id : Nat)
  | interface (id : Nat)
  deriving DecidableEq, Repr, Inhabited

def Handle.kind : Handle → String
  | component _ => "component"
  | method _ _ => "method"
  | bound _ _ => "bound method"
  | builtin _ => "builtin"
  | memory _ => "memory"
  | regFile _ => "regfile"
  | addressSpace _ => "address space"
  | addrHandle _ _ => "address handle"
  | channel _ => "channel"
  | getEnd _ => "get port"
  | putEnd _ => "put port"
  | lock _ => "lock"
  | event _ => "event"
  | interface _ => "interface"

inductive Value where
  | none
  | bool (b : Bool)
  | int (n : Int)
  | str (s : String)
  | tuple (items : List Value)
  | obj (h : Handle)
  deriving Repr, Inhabited

namespace Value

def ofTruth (b : Bool) : Int := if b then 1 else 0

mutual

def same : Value → Value → Bool
  | none, none => true
  | bool a, bool b => a == b
  | int a, int b => a == b
  | bool a, int b => ofTruth a == b
  | int a, bool b => a == ofTruth b
  | str a, str b => a == b
  | tuple a, tuple b => sameAll a b
  | obj a, obj b => decide (a = b)
  | _, _ => false

def sameAll : List Value → List Value → Bool
  | [], [] => true
  | a :: as, b :: bs => same a b && sameAll as bs
  | _, _ => false

end

def typeName : Value → String
  | none => "None"
  | bool _ => "bool"
  | int _ => "int"
  | str _ => "str"
  | tuple _ => "tuple"
  | obj h => h.kind

def asInt : Value → Except SimError Int
  | int n => .ok n
  | bool b => .ok (ofTruth b)
  | v => .error (.evaluation ("expected an integer, found " ++ v.typeName))

def asNat64 (v : Value) : Except SimError Nat :=
  match v.asInt with
  | .error e => .error e
  | .ok n =>
    match Bounded.toNat64? n with
    | some n => .ok n
    | Option.none => .error (.evaluation s!"expected a non-negative value, found {n}")

def asTuple : Value → Except SimError (List Value)
  | tuple items => .ok items
  | v => .error (.evaluation ("expected a tuple, found " ++ v.typeName))

def asComponent : Value → Except SimError Nat
  | obj (.component id) => .ok id
  | v => .error (.evaluation ("expected a component, found " ++ v.typeName))

/-- Zero, nothing and what is empty counts as false. -/
def truthy : Value → Bool
  | none => false
  | bool b => b
  | int n => n != 0
  | str s => s != ""
  | tuple items => !items.isEmpty
  | obj _ => true

/-- The value as a signal of a width keeps it. A truth value becomes a number, and what is no
number stays as it is. -/
def fit (v : Value) (bits : Nat) (signed : Bool) : Value :=
  match v with
  | int n => int (Word.fit n bits signed)
  | bool b => int (Word.fit (ofTruth b) bits signed)
  | v => v

/-- `fit` without a step that leaves the range of words. -/
def fit? (v : Value) (bits : Nat) (signed : Bool) : Option Value :=
  match v with
  | int n => (Word.fit? n bits signed).map int
  | bool b => (Word.fit? (ofTruth b) bits signed).map int
  | v => some v

def renderHandle : Handle → String
  | .component id => s!"<component #{id}>"
  | .method _ name => s!"<method {name}>"
  | h => "<" ++ h.kind ++ ">"

mutual

/-- The written form of a value. A tuple of one item ends in a comma. -/
def render : Value → String
  | none => "None"
  | bool true => "True"
  | bool false => "False"
  | int n => toString n
  | str s => s
  | tuple [] => "()"
  | tuple [v] => "(" ++ v.render ++ ",)"
  | tuple (v :: rest) => "(" ++ v.render ++ renderRest rest ++ ")"
  | obj h => renderHandle h

def renderRest : List Value → String
  | [] => ""
  | v :: rest => ", " ++ v.render ++ renderRest rest

end

def ofLiteral : Literal → Value
  | .none => none
  | .bool b => bool b
  | .int n => int n
  | .str s => str s

def ofChars (s : String) : List Value := s.toList.map fun c => str (String.singleton c)

end Value

end Clockwork
