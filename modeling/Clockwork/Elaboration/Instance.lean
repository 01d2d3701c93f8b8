import Clockwork.Elaboration.Connection
/-!
Building instances. An instance is added to the tree before its fields are built, so parents have
smaller numbers than their children. Constants come first, in order; then the other fields, among
them the children; then the connections. A fault in a field or a connection is noted, and the
instance is there nevertheless.
-/

namespace Clockwork.Elaboration

def componentOf (types : TypeTable) (type : DataType) (referencedBy : String) :
    Except ElabError Component :=
  match types.resolve type with
  | .error error => .error (.ofDesign referencedBy error)
  | .ok resolved =>
    match resolved.component? with
    | some c => .ok c
    | none => .error (.notAComponent ((type.name?.or resolved.name?).getD referencedBy))

/-- Continues a line of components, given from the youngest to the oldest, as long as the oldest
one inherits from a component. -/
def lineFrom (types : TypeTable) : (limit : Nat) → (line : List Component) →
    (oldest : Component) → Except ElabError (List Component)
  | 0, line, _ => .ok line
  | limit + 1, line, oldest =>
    match oldest.body.super? with
    | none => .ok line
    | some type =>
      match types.resolve type with
      | .error error => .error (.ofDesign oldest.name error)
      | .ok type =>
        match type.component? with
        | none => .ok line
        | some s =>
          if s.name ∈ line.map Component.name then
            .error (.recursiveInstance (line.map Component.name ++ [s.name]))
          else lineFrom types limit (line ++ [s]) s

def lineOf (types : TypeTable) (c : Component) : Except ElabError (List Component) :=
  (lineFrom types (types.lineLimit c.body) [c] c).map List.reverse

/-- All processes of a kind; one of an heir takes the place of an inherited one of its name. -/
def allProcesses (own : Component → List Function) (line : List Component) : List Function :=
  (line.flatMap own).foldl TypeTable.overrideFunction []

/-- The width of an enumeration: that of its largest value, at least one bit. -/
def enumBits (variants : List (String × Int)) : Nat :=
  match (variants.map (·.2)).max? with
  | some m => if 0 < m then Nat.log2 m.toNat + 1 else 1
  | none => 1

def widthOf (v : Value) : Except SimError Nat :=
  match v.asInt with
  | .error e => .error e
  | .ok n =>
    if 1 ≤ n ∧ n ≤ 128 then .ok n.toNat else .error (.evaluation s!"width {n} is out of range")

def invalidField (path name reason : String) : ElabError := .invalidField path name reason

def fieldExpr (e : Elaboration) (id : Nat) (f : Field) (x : Expr) : Except ElabError Value :=
  match e.tree.structural id x with
  | .ok v => .ok v
  | .error error => .error (.invalidField (e.tree.inst id).path f.name error.message)

def fieldWidth (e : Elaboration) (id : Nat) (f : Field) : Except ElabError (Option Nat) :=
  match f.width with
  | none => .ok none
  | some x =>
    match (e.tree.structural id x).bind widthOf with
    | .ok n => .ok (some n)
    | .error error => .error (.invalidField (e.tree.inst id).path f.name error.message)

def fieldArguments (e : Elaboration) (id : Nat) (f : Field) :
    Except ElabError (List (String × Value)) :=
  (f.arguments.getD []).mapM fun (name, x) => do return (name, ← e.fieldExpr id f x)

/-- Makes a field a signal. It starts with the argument, else with the initial value. -/
def buildSignal (e : Elaboration) (id index : Nat) (f : Field) (argument : Option Value)
    (bits : Nat) (signed : Bool) : Except ElabError Elaboration := do
  let initial ← match argument, f.initial with
    | some v, _ => pure (some v)
    | none, some x => some <$> e.fieldExpr id f x
    | none, none => pure none
  let tree := match initial with
    | none => e.tree
    | some v => e.tree.setSignal id ((e.tree.inst id).fields[index]?.getD default).key
        (v.fit bits signed)
  return { e with tree := tree.modifySlot ⟨id, index⟩ fun slot =>
    { slot with width := bits, signed := signed, storage := .signal } }

def buildObject (e : Elaboration) (f : FieldRef) (made : Objects × Handle) : Elaboration :=
  { e with objects := made.1 }.setStorage f (.object (.obj made.2))

def buildOpen (e : Elaboration) (f : FieldRef) (type : DataType) : Elaboration :=
  { e with declared := e.declared.insert f type }.setStorage f .unbound

def elementBits (types : TypeTable) (element : DataType) (width : Option Nat) : Nat :=
  let bits := match types.resolve element with
    | .ok type => type.bits?
    | .error _ => none
  (width.or bits).getD 32

abbrev Build := Elaboration → DataType → String → Option Nat → List (String × Value) →
  Except ElabError (Elaboration × Nat)

def buildField (build : Build) (e : Elaboration) (id index : Nat) (f : Field)
    (argument : Option Value) : Except ElabError Elaboration := do
  let path := (e.tree.inst id).path
  let place : FieldRef := ⟨id, index⟩
  let type ← match e.types.resolve f.type with
    | .ok type => pure type
    | .error error => throw (.ofDesign (path ++ "." ++ f.name) error)
  let width ← e.fieldWidth id f
  match type with
  | .int bits signed =>
    let bits := width.getD bits
    if bits = 0 then throw (.invalidField path f.name "integer field needs a width")
    e.buildSignal id index f argument bits signed
  | .enum _ variants => e.buildSignal id index f argument (width.getD (enumBits variants)) false
  | .string => e.buildSignal id index f argument 0 false
  | .component _ | .external _ _ =>
    let arguments ← e.fieldArguments id f
    let (e, child) ← build e f.type f.name (some id) arguments
    return e.setStorage place (.component child)
  | type =>
    match argument, type with
    | some v, type => return e.setStorage place (.object (narrow (some type) v))
    | none, .memory element size =>
      return e.buildObject place
        (e.objects.addMemory (.ofSize (elementBits e.types element width) size))
    | none, .regFile name registers =>
      return e.buildObject place (e.objects.addRegFile (.ofLayout name (registerLayout registers)))
    | none, .addressSpace => return e.buildObject place e.objects.addSpace
    | none, .lock => return e.buildObject place e.objects.addLock
    | none, .event => return e.buildObject place (e.objects.addEvent false)
    | none, .channel element depth =>
      if f.kind = .port then return e.buildOpen place (.channel element depth)
      else return e.buildObject place (e.objects.addChannel depth)
    | none, .addrHandle | none, .getEnd _ | none, .putEnd _ | none, .protocol _ _ =>
      return e.buildOpen place type
    | none, type =>
      throw (.invalidField path f.name
        ("fields of type " ++ type.name?.getD "tuple" ++ " are not supported"))

/-- Gives a constant its value: the argument, else what its expression says, else zero. -/
def buildConstant (e : Elaboration) (id index : Nat) (f : Field) (argument : Option Value) :
    Except ElabError Elaboration := do
  let v ← match argument, f.initial with
    | some v, _ => pure v
    | none, some x => e.fieldExpr id f x
    | none, none => pure (.int 0)
  return e.setStorage ⟨id, index⟩ (.const v)

def openSlots (tree : Tree) (fields : List Field) : Tree × List FieldSlot :=
  fields.foldl (fun (tree, slots) f =>
    let (tree, key) := tree.key f.name
    (tree, slots ++ [⟨f.name, key, f.kind, f.direction, 0, false, .unbound⟩])) (tree, [])

/-- Adds an instance with open fields to the tree, and notes the arguments for fields that it does
not have. -/
def addInstance (e : Elaboration) (name path : String) (parent : Option Nat) (c : Component)
    (line : List Component) (fields : List Field) (functions : List Function)
    (arguments : List (String × Value)) : Elaboration × Nat :=
  let e := arguments.foldl (fun e (a, _) =>
    if a ∈ fields.map Field.name then e else e.fault (.unknownField path a)) e
  let (tree, slots) := openSlots e.tree fields
  let (tree, id) := tree.add {
    name := name
    path := path
    typeName := c.name
    parent := parent
    fields := slots.toArray
    functions := Table.ofList (functions.map fun f => (f.name, f))
    syncs := allProcesses Component.syncs line
    combs := allProcesses Component.combs line
    processes := allProcesses Component.processes line }
  ({ e with tree := tree }, id)

def buildFields (test : Field → Bool)
    (step : Elaboration → Nat → Field → Option Value → Except ElabError Elaboration)
    (fields : List Field) (arguments : List (String × Value)) (e : Elaboration) : Elaboration :=
  fields.zipIdx.foldl (fun e (f, index) =>
    if test f then e.attempt (step e index f (arguments.lookup f.name)) else e) e

/-- Builds an instance below at most `room` levels of instances whose types are `above`, the
outermost first. Values for the fields of the root come from outside. -/
def instantiate (outside : Table String Value) : (room : Nat) → (above : List String) → Build
  | room, above, e, type, name, parent, arguments => do
    let path := match parent with
      | some p => (e.tree.inst p).path ++ "." ++ name
      | none => name
    let c ← componentOf e.types type path
    if c.name ∈ above then
      throw (.recursiveInstance (above.dropWhile (· ≠ c.name) ++ [c.name]))
    match room with
    | 0 => throw (.recursiveInstance (above ++ [c.name]))
    | room + 1 =>
      let fields ← (e.types.allFields c.body).mapError (.ofDesign path)
      let line ← lineOf e.types c
      let functions ← (e.types.allFunctions c.body).mapError (.ofDesign path)
      let (e, id) := e.addInstance name path parent c line fields functions arguments
      let e := buildFields Field.isConst (fun e => e.buildConstant id) fields arguments e
      let build := instantiate outside room (above ++ [c.name])
      let e := buildFields (fun f => !f.isConst) (fun e => e.buildField build id) fields
        arguments e
      let e := if parent.isNone then e.bindTops id outside else e
      return (e.applyBinds id (line.flatMap Component.binds), id)

end Clockwork.Elaboration
