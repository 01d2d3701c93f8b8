import Clockwork.Design.DataType
import Clockwork.Interner
import Clockwork.Signal.State
import Clockwork.Text

namespace Clockwork

structure FieldRef where
  owner : Nat
  index : Nat
  deriving DecidableEq, Repr, Inhabited

namespace FieldRef

instance : LT FieldRef :=
  ⟨fun a b => a.owner < b.owner ∨ (a.owner = b.owner ∧ a.index < b.index)⟩

instance : DecidableLT FieldRef := fun a b =>
  inferInstanceAs (Decidable (a.owner < b.owner ∨ (a.owner = b.owner ∧ a.index < b.index)))

end FieldRef

inductive Storage where
  | signal
  | const (v : Value)
  | component (id : Nat)
  | object (v : Value)
  | unbound
  deriving Repr, Inhabited

namespace Storage

def isSignal : Storage → Bool
  | signal => true
  | _ => false

def isUnbound : Storage → Bool
  | unbound => true
  | _ => false

/-- What a field is called in messages about connections. -/
def kind : Storage → String
  | signal => "signal"
  | const _ => "constant"
  | component _ => "instance"
  | object _ => "object"
  | unbound => "unbound port"

end Storage

structure FieldSlot where
  name : String
  key : Nat
  kind : FieldKind
  direction : Option Direction
  width : Nat
  signed : Bool
  storage : Storage
  deriving Repr, Inhabited

structure Instance where
  name : String
  /-- The names from the root down to the instance, separated by dots. -/
  path : String
  typeName : String
  parent : Option Nat
  fields : Array FieldSlot
  functions : Table String Function
  syncs : List Function
  combs : List Function
  processes : List Function
  deriving Inhabited

namespace Instance

def depth (i : Instance) : Nat := Text.dots i.path

def fieldIndex? (i : Instance) (name : String) : Option Nat :=
  i.fields.findIdx? fun f => decide (f.name = name)

/-- The position of the field whose name has a number. -/
def indexOfKey? (i : Instance) (key : Nat) : Option Nat :=
  i.fields.findIdx? fun f => decide (f.key = key)

def children (i : Instance) : List Nat :=
  i.fields.toList.filterMap fun f =>
    match f.storage with
    | .component id => some id
    | _ => none

def hasBehavior (i : Instance) : Bool := !i.syncs.isEmpty || !i.combs.isEmpty

end Instance

structure EventHook where
  event : Nat
  owner : Nat
  method : String
  deriving DecidableEq, Repr, Inhabited

structure Tree where
  instances : Array Instance
  signals : Array SignalState
  names : Interner
  /-- For every driving field the fields that take its value, in order of connection. -/
  bindings : Table FieldRef (List FieldRef)
  connections : List String
  hooks : List EventHook
  deriving Inhabited

namespace Tree

def empty : Tree := ⟨#[], #[], .empty, .empty, [], []⟩

def root : Nat := 0

def size (t : Tree) : Nat := t.instances.size

def inst (t : Tree) (id : Nat) : Instance := t.instances[id]?.getD default

def signalsOf (t : Tree) (id : Nat) : SignalState := t.signals[id]?.getD .empty

def add (t : Tree) (i : Instance) : Tree × Nat :=
  ({ t with instances := t.instances.push i, signals := t.signals.push .empty },
   t.instances.size)

def modifyInst (t : Tree) (id : Nat) (f : Instance → Instance) : Tree :=
  { t with instances := t.instances.modify id f }

def modifySlot (t : Tree) (at' : FieldRef) (f : FieldSlot → FieldSlot) : Tree :=
  t.modifyInst at'.owner fun i => { i with fields := i.fields.modify at'.index f }

def setStorage (t : Tree) (at' : FieldRef) (s : Storage) : Tree :=
  t.modifySlot at' fun f => { f with storage := s }

def setSignal (t : Tree) (id key : Nat) (v : Value) : Tree :=
  { t with signals := t.signals.modify id fun s => s.set key v }

def key (t : Tree) (name : String) : Tree × Nat :=
  let (names, id) := t.names.intern name
  ({ t with names := names }, id)

def slot (t : Tree) (id index : Nat) : Except SimError FieldSlot :=
  match (t.inst id).fields[index]? with
  | some f => .ok f
  | none => .error (.unknownField (t.inst id).path s!"#{index}")

/-- The instance at the end of a chain of field names. -/
def descend (t : Tree) (id : Nat) : List String → Option Nat
  | [] => some id
  | name :: rest =>
    match (t.inst id).fieldIndex? name with
    | none => none
    | some index =>
      match (t.inst id).fields[index]?.map FieldSlot.storage with
      | some (.component child) => t.descend child rest
      | _ => none

/-- The part of a path below the root; the name of the root in front may be left out. -/
def relative (root path : String) : String :=
  if path = root then ""
  else
    match Text.after? (root.toList ++ ['.']) path.toList with
    | some rest => String.ofList rest
    | none => path

def find? (t : Tree) (path : String) : Option Nat :=
  if t.instances.isEmpty then none
  else t.descend root (Text.segments (relative (t.inst root).path path))

def resolveField (t : Tree) (path : String) : Except SimError FieldRef :=
  let (front, name) := Text.splitLast path
  match t.find? front with
  | none => .error (.noSuchComponent front)
  | some id =>
    match (t.inst id).fieldIndex? name with
    | some index => .ok ⟨id, index⟩
    | none => .error (.unknownField (t.inst id).path name)

/-- The field at the end of a chain of positions; all fields before the last hold instances. -/
def follow (t : Tree) (id : Nat) : FieldPath → Except SimError FieldRef
  | [] => .error (.evaluation "empty field path")
  | [index] =>
    match t.slot id index with
    | .ok _ => .ok ⟨id, index⟩
    | .error e => .error e
  | index :: rest =>
    match t.slot id index with
    | .error e => .error e
    | .ok f =>
      match f.storage with
      | .component child => t.follow child rest
      | _ => .error (.evaluation s!"field #{index} of '{(t.inst id).path}' is not a component")

/-- Makes a field take the value of another one. -/
def bind (t : Tree) (driver target : FieldRef) : Tree :=
  let targets := (t.bindings.get? driver).getD []
  if target ∈ targets then t
  else { t with bindings := t.bindings.insert driver (targets ++ [target]) }

def targets (t : Tree) (driver : FieldRef) : List FieldRef := (t.bindings.get? driver).getD []

def record (t : Tree) (connection : String) : Tree :=
  { t with connections := t.connections ++ [connection] }

end Tree

end Clockwork
