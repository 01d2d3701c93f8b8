import Clockwork.Design.DataType
import Clockwork.Design.Error
/-!
The types of a design under their names. References are followed by name; a type that inherits
has the fields and functions of its ancestors before its own, so that the position of an
inherited field is the same in both types.
-/

namespace Clockwork

/-- A type and the name it is registered under. A registered reference is an alias. -/
structure NamedType where
  name : String
  type : DataType
  deriving Inhabited

/-- The types of a design in order of registration. -/
structure TypeTable where
  types : List NamedType
  distinct : (types.map NamedType.name).Nodup := by simp

namespace TypeTable

def empty : TypeTable := ⟨[], by simp⟩

instance : Inhabited TypeTable := ⟨empty⟩

def names (t : TypeTable) : List String := t.types.map NamedType.name

def size (t : TypeTable) : Nat := t.types.length

def index? (t : TypeTable) (name : String) : Option Nat :=
  t.types.findIdx? fun n => decide (n.name = name)

def type? (t : TypeTable) (name : String) : Option DataType :=
  (t.types.find? fun n => decide (n.name = name)).map NamedType.type

theorem mem_names_of_type? {t : TypeTable} {name : String} {type : DataType}
    (h : t.type? name = some type) : name ∈ t.names := by
  obtain ⟨n, hn, -⟩ := Option.map_eq_some_iff.1 h
  have hname : n.name = name := by simpa using List.find?_some hn
  exact List.mem_map.2 ⟨n, List.mem_of_find?_eq_some hn, hname⟩

/-- Registers a type under a name that is still free. -/
def add (t : TypeTable) (name : String) (type : DataType) : Except DesignError TypeTable :=
  if h : name ∈ t.names then .error (.duplicateType name)
  else .ok {
    types := t.types ++ [⟨name, type⟩]
    distinct := by
      have := t.distinct
      simp only [names] at h
      rw [List.map_append]
      exact List.nodup_append.2 ⟨this, by simp, by
        intro a ha b hb
        simp only [List.map_cons, List.map_nil, List.mem_singleton] at hb
        subst hb
        intro hab
        exact h (hab ▸ ha)⟩ }

def ofList (types : List NamedType) : Except DesignError TypeTable :=
  types.foldlM (fun t n => t.add n.name n.type) empty

/-- Follows references by name. `followed` are the names on the way here. -/
def resolveFrom (t : TypeTable) (followed : List String) : DataType → Except DesignError DataType
  | .ref name =>
    if name ∈ followed then .error (.refCycle (followed ++ [name]))
    else
      match h : t.type? name with
      | none => .error (.unresolvedType name ((followed ++ [name]).headD ""))
      | some next => resolveFrom t (followed ++ [name]) next
  | type => .ok type
termination_by (t.names.filter (· ∉ followed)).length
decreasing_by
  rename_i fresh
  have hmem := mem_names_of_type? h
  have hsub : (t.names.filter (· ∉ followed ++ [name])).Sublist
      (t.names.filter (· ∉ followed)) := by
    have : t.names.filter (fun n => decide (n ∉ followed ++ [name])) =
        (t.names.filter (fun n => decide (n ∉ followed))).filter (fun n => decide (n ≠ name)) := by
      rw [List.filter_filter]
      congr 1
      funext n
      simp [and_comm, not_or]
    rw [this]
    exact List.filter_sublist
  refine Nat.lt_of_le_of_ne hsub.length_le fun heq => ?_
  have hall := hsub.eq_of_length heq
  have hin : name ∈ t.names.filter (fun n => decide (n ∉ followed)) := by simp [hmem, fresh]
  rw [← hall] at hin
  simp at hin

def resolve (t : TypeTable) (type : DataType) : Except DesignError DataType :=
  t.resolveFrom [] type

/-- The component registered under a name, perhaps through an alias. -/
def component (t : TypeTable) (name : String) : Except DesignError Component :=
  match t.type? name with
  | none => .error (.unknownType name)
  | some type =>
    match t.resolve type with
    | .error e => .error e
    | .ok type =>
      match type.component? with
      | some c => .ok c
      | none => .error (.notAComponent name)

def superOf (t : TypeTable) (b : Body) : Except DesignError (Option Body) :=
  match b.super? with
  | none => .ok none
  | some type =>
    match t.resolve type with
    | .error e => .error e
    | .ok type =>
      match type.body? with
      | some s => .ok (some s)
      | none => .error (.notAComponent ("super of " ++ b.name))

mutual

/-- The number of bodies that a type names through what is written inside it. -/
def bodies : DataType → Nat
  | .struct b => bodiesOf b
  | .object b => bodiesOf b
  | .component ⟨b, _, _, _, _⟩ => bodiesOf b
  | .external ⟨b, _, _, _, _⟩ _ => bodiesOf b
  | _ => 0

/-- The number of bodies from a body up through the ancestors written inside it. -/
def bodiesOf : Body → Nat
  | ⟨_, super?, _, _⟩ => bodiesAbove super? + 1

def bodiesAbove : Option DataType → Nat
  | none => 0
  | some type => bodies type

end

/-- More bodies than a line of ancestors of `b` with distinct names can have. -/
def lineLimit (t : TypeTable) (b : Body) : Nat :=
  t.types.foldl (fun total n => total + bodies n.type) (bodiesOf b) + 1

/-- Continues a line of bodies, given from the youngest to the oldest, to the oldest ancestor. -/
def lineageFrom (t : TypeTable) : (limit : Nat) → (line : List Body) → (oldest : Body) →
    Except DesignError (List Body)
  | 0, line, _ => .error (.refCycle (line.map Body.name))
  | limit + 1, line, oldest =>
    match t.superOf oldest with
    | .error e => .error e
    | .ok none => .ok line
    | .ok (some s) =>
      if s.name ∈ line.map Body.name then .error (.refCycle (line.map Body.name ++ [s.name]))
      else t.lineageFrom limit (line ++ [s]) s

/-- The ancestors of a body from the oldest down to the body itself. -/
def lineage (t : TypeTable) (b : Body) : Except DesignError (List Body) :=
  match t.lineageFrom (t.lineLimit b) [b] b with
  | .ok line => .ok line.reverse
  | .error e => .error e

/-- Adds fields after others; a name that is taken is a fault of the type. -/
def appendFields (type : String) (fields : List Field) : List Field →
    Except DesignError (List Field)
  | [] => .ok fields
  | f :: rest =>
    if f.name ∈ fields.map Field.name then .error (.duplicateField type f.name)
    else appendFields type (fields ++ [f]) rest

def allFields (t : TypeTable) (b : Body) : Except DesignError (List Field) :=
  match t.lineage b with
  | .error e => .error e
  | .ok line => appendFields b.name [] (line.flatMap Body.fields)

def overrideFunction (functions : List Function) (f : Function) : List Function :=
  if f.name ∈ functions.map Function.name then
    functions.map fun g => if g.name = f.name then f else g
  else functions ++ [f]

/-- All functions of a body; one of an heir takes the place of the inherited one. -/
def allFunctions (t : TypeTable) (b : Body) : Except DesignError (List Function) :=
  match t.lineage b with
  | .error e => .error e
  | .ok line => .ok ((line.flatMap Body.functions).foldl overrideFunction [])

mutual

/-- The references of a type that lead nowhere, for `owner`. -/
def referenceFaults (t : TypeTable) (owner : String) : DataType → List DesignError
  | .ref name =>
    match t.resolve (.ref name) with
    | .ok _ => []
    | .error (.unresolvedType _ _) => [.unresolvedType name owner]
    | .error e => [e]
  | .struct b => t.bodyFaults owner b
  | .object b => t.bodyFaults owner b
  | .component ⟨b, _, _, _, _⟩ => t.bodyFaults owner b
  | .external ⟨b, _, _, _, _⟩ _ => t.bodyFaults owner b
  | .memory element _ => t.referenceFaults owner element
  | .channel element _ => t.referenceFaults owner element
  | .getEnd element => t.referenceFaults owner element
  | .putEnd element => t.referenceFaults owner element
  | .tuple element _ => t.referenceFaults owner element
  | _ => []

def bodyFaults (t : TypeTable) (owner : String) : Body → List DesignError
  | ⟨_, super?, fields, _⟩ => t.superFaults owner super? ++ t.fieldFaults owner fields

def superFaults (t : TypeTable) (owner : String) : Option DataType → List DesignError
  | none => []
  | some type => t.referenceFaults owner type

def fieldFaults (t : TypeTable) (owner : String) : List Field → List DesignError
  | [] => []
  | ⟨name, type, _, _, _, _, _, _⟩ :: rest =>
    t.referenceFaults (owner ++ "." ++ name) type ++ t.fieldFaults owner rest

end

/-- The fault in the field list of a type. An ancestor that does not exist counts as a fault of
the reference only. -/
def layoutFaults (t : TypeTable) (type : DataType) : List DesignError :=
  match type.body? with
  | none => []
  | some b =>
    match t.allFields b with
    | .ok _ => []
    | .error (.unresolvedType _ _) => []
    | .error e => [e]

def distinctFaults (faults : List DesignError) : List DesignError :=
  faults.foldl (fun seen e =>
    if e.message ∈ seen.map DesignError.message then seen else seen ++ [e]) []

/-- All faults of the types: references that lead nowhere or in a circle, and bad field lists. -/
def faults (t : TypeTable) : List DesignError :=
  distinctFaults (t.types.flatMap fun n =>
    t.referenceFaults n.name n.type ++ t.layoutFaults n.type)

mutual

def references : DataType → List String
  | .ref name => [name]
  | .struct b => bodyReferences b
  | .object b => bodyReferences b
  | .component ⟨b, _, _, _, _⟩ => bodyReferences b
  | .external ⟨b, _, _, _, _⟩ _ => bodyReferences b
  | .memory element _ => references element
  | .channel element _ => references element
  | .getEnd element => references element
  | .putEnd element => references element
  | .tuple element _ => references element
  | _ => []

def bodyReferences : Body → List String
  | ⟨_, super?, fields, _⟩ => superReferences super? ++ fieldReferences fields

def superReferences : Option DataType → List String
  | none => []
  | some type => references type

def fieldReferences : List Field → List String
  | [] => []
  | ⟨_, type, _, _, _, _, _, _⟩ :: rest => references type ++ fieldReferences rest

end

def roots (t : TypeTable) : List String :=
  let referenced := t.types.flatMap fun n => references n.type
  (t.types.filter fun n => n.type.isComponent && !referenced.contains n.name).map NamedType.name

end TypeTable

end Clockwork
