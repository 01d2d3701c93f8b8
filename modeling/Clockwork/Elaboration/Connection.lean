import Clockwork.Design.Access
import Clockwork.Elaboration.State
/-!
Connections. A signal takes the value of another one from its driver on, an open port takes an
object or a function, an address space takes regions, and an event takes a callback.

Of the connections that an instance declares, those to functions are made first, then those to
exports, then all others.
-/

namespace Clockwork.Elaboration

def violation (e : Elaboration) (id : Nat) (reason : String) : ElabError :=
  .bindViolation (e.tree.inst id).path reason

def endpointFault (e : Elaboration) (id : Nat) : SimError → ElabError
  | .unknownField component field => .unknownField component field
  | other => e.violation id other.message

def endpoint (e : Elaboration) (id : Nat) (x : Expr) : Except ElabError Endpoint :=
  match Endpoint.resolve e.tree id x with
  | .ok p => .ok p
  | .error error => .error (e.endpointFault id error)

def slot (e : Elaboration) (f : FieldRef) : Except ElabError FieldSlot :=
  match e.tree.slot f.owner f.index with
  | .ok s => .ok s
  | .error error => .error (.runtime error)

structure SignalEnd where
  field : FieldRef
  direction : Option Direction
  depth : Nat
  deriving DecidableEq, Repr, Inhabited

/-- The direction that decides about the driver: a signal that goes both ways has none. -/
def SignalEnd.side (s : SignalEnd) : Option Direction :=
  if s.direction = some .inout then none else s.direction

/-- Whether the right side of a connection drives the left one. An output drives an input. Of two
inputs the one nearer to the root drives, of two outputs the one farther from it. A side without a
direction drives an input and is driven by an output. Otherwise the right side drives. -/
def rightDrives (left right : SignalEnd) : Bool :=
  match left.side, right.side with
  | some .output, some .input => false
  | some .input, some .output => true
  | some .input, some .input => right.depth ≤ left.depth
  | some .output, some .output => left.depth ≤ right.depth
  | none, some .input => false
  | some .output, none => false
  | _, _ => true

/-- Whether a clocked or combinational process of its instance writes a field. -/
def isWritten (t : Tree) (f : FieldRef) : Bool :=
  let i := t.inst f.owner
  (i.syncs ++ i.combs).any fun p => (AccessSet.ofBody p.body).writes.contains [f.index]

def signalEnd (e : Elaboration) (f : FieldRef) (s : FieldSlot) : SignalEnd :=
  ⟨f, s.direction, (e.tree.inst f.owner).depth⟩

/-- Connects two signals for an instance; the target starts with the value of the driver. -/
def connectSignals (e : Elaboration) (id : Nat) (l r : FieldRef) (ls rs : FieldSlot) :
    Except ElabError Elaboration :=
  let fromRight := rightDrives (e.signalEnd l ls) (e.signalEnd r rs)
  let (driver, target) := if fromRight then (r, l) else (l, r)
  let bothOutputs := ls.direction == some .output && rs.direction == some .output
  if bothOutputs && ((e.tree.inst id).hasBehavior || isWritten e.tree target) then
    .error (e.violation id
      ("output '" ++ Endpoint.fieldPath e.tree target ++
        "' would have a second driver in output '" ++ Endpoint.fieldPath e.tree driver ++ "'"))
  else
    let e := { e with tree := e.tree.bind driver target }
    let driverSlot := if fromRight then rs else ls
    let targetSlot := if target = l then ls else rs
    .ok (e.setInitial target targetSlot ((e.tree.signalsOf driver.owner).read driverSlot.key))

def connectFields (e : Elaboration) (id : Nat) (l r : FieldRef) : Except ElabError Elaboration := do
  let ls ← e.slot l
  let rs ← e.slot r
  match ls.storage, rs.storage with
  | .signal, .signal => e.connectSignals id l r ls rs
  | .signal, .const v => return e.setInitial l ls v
  | .unbound, .unbound => return e.link l r
  | .unbound, .object v => return e.bindObject l v
  | .object v, .unbound => return e.bindObject r v
  | .unbound, .component child => return e.bindObject l (.obj (.component child))
  | a, b =>
    throw (e.violation id s!"cannot bind {a.kind} '{ls.name}' to {b.kind} '{rs.name}'")

/-- Connects a field with what the right side names. -/
def connect (e : Elaboration) (id : Nat) (target : FieldRef) (source : Endpoint) :
    Except ElabError Elaboration := do
  let slot ← e.slot target
  if let .const _ := slot.storage then
    throw (e.violation id s!"constant '{slot.name}' cannot be a bind target")
  let left := Endpoint.fieldPath e.tree target
  let right := source.render e.tree
  let connected ← match source, slot.storage with
    | .field from', _ => e.connectFields id target from'
    | .method owner name, .unbound => pure (e.bindObject target (.obj (.method owner name)))
    | .method _ _, s =>
      throw (e.violation id s!"{s.kind} '{slot.name}' cannot be bound to a method")
    | .value v, .signal => pure (e.setInitial target slot v)
    | .value v, .unbound => pure (e.bindObject target v)
    | .value _, s => throw (e.violation id s!"{s.kind} '{slot.name}' already holds a value")
    | .member _ name, _ =>
      throw (e.violation id s!"'{slot.name}' cannot be bound to member '{name}'")
  return connected.record left right

/-- The base address and the storage of an entry of a memory map. -/
def mapEntry (e : Elaboration) (id : Nat) (entry : Expr) : Except ElabError (Nat × Backing) :=
  match entry with
  | .call (.builtin .mapAt) [offset, storage] _ => do
    let base ← match (e.tree.structural id offset).bind Value.asNat64 with
      | .ok n => pure n
      | .error error => throw (e.violation id error.message)
    match e.tree.structural id storage with
    | .error error => throw (e.violation id error.message)
    | .ok (.obj (.memory m)) => return (base, .memory m)
    | .ok (.obj (.regFile f)) => return (base, .regFile f)
    | .ok v =>
      throw (e.violation id ("cannot map a " ++ v.typeName ++ " into an address space"))
  | _ => .error (e.violation id "mmap entries must be at(offset, storage)")

def mapRegion (e : Elaboration) (id space : Nat) (spacePath : String) (entry : Expr) :
    Except ElabError Elaboration := do
  let (base, backing) ← e.mapEntry id entry
  match (e.objects.space space).map e.objects.banks base backing with
  | .error (.regionOverlap base size) => throw (.regionOverlap spacePath base size)
  | .error error => throw (.runtime error)
  | .ok s =>
    let label := e.objects.banks.label backing ++ "@0x" ++ Text.hex base
    return { e with objects := e.objects.setSpace space s }.record (spacePath ++ ".mmap") label

/-- Maps storages into the address space of a field; an entry that cannot be mapped does not
keep the others from being mapped. -/
def mapRegions (e : Elaboration) (id : Nat) (f : FieldRef) (entries : Expr) :
    Except ElabError Elaboration := do
  let path := Endpoint.fieldPath e.tree f
  let slot ← e.slot f
  match slot.storage with
  | .object (.obj (.addressSpace space)) =>
    let entries := match entries with
      | .tuple items => items
      | x => [x]
    return entries.foldl (fun e x => e.attempt (e.mapRegion id space path x)) e
  | s => throw (e.violation id s!"'{path}' is a {s.kind}, not an address space")

/-- Makes a function the callback of the event of a field. -/
def hookEvent (e : Elaboration) (id : Nat) (f : FieldRef) (callback : Expr) :
    Except ElabError Elaboration := do
  let path := Endpoint.fieldPath e.tree f
  let slot ← e.slot f
  match slot.storage with
  | .object (.obj (.event event)) =>
    match ← e.endpoint id callback with
    | .method owner name =>
      let hook : EventHook := ⟨event, owner, name⟩
      let e := { e with tree := { e.tree with hooks := e.tree.hooks ++ [hook] } }
      return e.record (path ++ ".at") ((Endpoint.method owner name).render e.tree)
    | _ => throw (e.violation id s!"the callback of '{path}' must be a method")
  | _ => throw (e.violation id s!"'{path}' is not an event")

/-- A method name that the declared protocol of a port does not have. -/
def protocolFault (e : Elaboration) (f : FieldRef) (name : String) : Option String :=
  match e.declared.get? f with
  | some (.protocol protocol methods) =>
    if methods.any fun m => decide (m.name = name) then none
    else some
      s!"protocol '{protocol}' of '{Endpoint.fieldPath e.tree f}' has no method '{name}'"
  | _ => none

def memberValue (e : Elaboration) (id : Nat) (name : String) (source : Endpoint) :
    Except ElabError Value :=
  match source with
  | .method owner function => .ok (.obj (.method owner function))
  | .value v => .ok v
  | .field f => do
    let slot ← e.slot f
    match slot.storage with
    | .object v => return v
    | .component child => return .obj (.component child)
    | s => throw (e.violation id s!"interface member '{name}' cannot be a {s.kind}")
  | .member _ _ => .error (e.violation id s!"interface member '{name}' must be a method")

/-- Adds a member to the interface of a port. An open port gets a new interface. Other ports that
hold the interface so far keep it as it is. -/
def addMember (e : Elaboration) (id : Nat) (f : FieldRef) (name : String) (v : Value) :
    Except ElabError Elaboration := do
  let slot ← e.slot f
  match slot.storage with
  | .unbound =>
    let (objects, handle) := e.objects.addInterface (Table.empty.insert name v)
    return { e with objects := objects }.bindObject f (.obj handle)
  | .object (.obj (.interface i)) =>
    let (objects, handle) := e.objects.addInterface ((e.objects.interface i).insert name v)
    return { e with objects := objects }.setStorage f (.object (.obj handle))
  | _ => throw (e.violation id s!"'{Endpoint.fieldPath e.tree f}' has no member '{name}'")

def connectMember (e : Elaboration) (id : Nat) (f : FieldRef) (name : String) (source : Expr) :
    Except ElabError Elaboration := do
  let path := Endpoint.fieldPath e.tree f
  if let some reason := e.protocolFault f name then throw (e.violation id reason)
  let source ← e.endpoint id source
  let right := source.render e.tree
  let v ← e.memberValue id name source
  let e ← e.addMember id f name v
  return e.record (path ++ "." ++ name) right

def applyBind (e : Elaboration) (id : Nat) (b : Bind) : Except ElabError Elaboration :=
  if b.lhs.isConstant then .error (e.violation id "a literal cannot be a bind target")
  else do
    match ← e.endpoint id b.lhs with
    | .value v => throw (e.violation id s!"bind target must be a field, found {v.typeName}")
    | .method _ name => throw (e.violation id s!"method '{name}' cannot be a bind target")
    | .member f name =>
      if name = "mmap" then e.mapRegions id f b.rhs
      else if name = "at" then e.hookEvent id f b.rhs
      else e.connectMember id f name b.rhs
    | .field target => do
      let source ← e.endpoint id b.rhs
      e.connect id target source

/-- When a connection is made among those of its instance: to a function first, to an export
second, anything else last. -/
def band (t : Tree) (id : Nat) (b : Bind) : Nat :=
  match Endpoint.resolve t id b.rhs with
  | .ok (.method _ _) => 0
  | .ok (.field f) =>
    match t.slot f.owner f.index with
    | .ok slot => if slot.kind = .exported then 1 else 2
    | .error _ => 2
  | _ => 2

def inBands (t : Tree) (id : Nat) (binds : List Bind) : List Bind :=
  let banded := binds.map fun b => (band t id b, b)
  [0, 1, 2].flatMap fun k => (banded.filter (·.1 == k)).map (·.2)

def applyBinds (e : Elaboration) (id : Nat) (binds : List Bind) : Elaboration :=
  (inBands e.tree id binds).foldl (fun e b => e.attempt (e.applyBind id b)) e

/-- Gives a field of the root its value from outside. -/
def bindTop (e : Elaboration) (root : Nat) (name : String) (v : Value) :
    Except ElabError Elaboration :=
  let i := e.tree.inst root
  match i.fieldIndex? name with
  | none => .error (.unknownField i.path name)
  | some index => do
    let f : FieldRef := ⟨root, index⟩
    let slot ← e.slot f
    let bound ← match slot.storage with
      | .signal => pure (e.setInitial f slot v)
      | .unbound => pure (e.bindObject f v)
      | s => throw (e.violation root s!"{s.kind} '{name}' cannot be bound from outside")
    return bound.record (i.path ++ "." ++ name) v.render

/-- Gives fields of the root their values from outside, by name. -/
def bindTops (e : Elaboration) (root : Nat) (values : Table String Value) : Elaboration :=
  values.entries.foldl (fun e (name, v) => e.attempt (e.bindTop root name v)) e

end Clockwork.Elaboration
