import Clockwork.Design.Stmt

namespace Clockwork

inductive FieldKind where
  | internal
  | port
  | exported
  deriving DecidableEq, Repr, Inhabited

namespace FieldKind

def all : List FieldKind := [internal, port, exported]

def label : FieldKind → String
  | internal => "Field" | port => "Port" | exported => "Export"

end FieldKind

/-- Which side drives a signal. -/
inductive Direction where
  | input | output | inout
  deriving DecidableEq, Repr, Inhabited

namespace Direction

def all : List Direction := [input, output, inout]

def label : Direction → String
  | input => "Input" | output => "Output" | inout => "InOut"

end Direction

inductive ProcessKind where
  | comb
  | sync
  | free
  deriving DecidableEq, Repr, Inhabited

namespace ProcessKind

def all : List ProcessKind := [comb, sync, free]

def label : ProcessKind → String
  | comb => "Comb" | sync => "Sync" | free => "Process"

end ProcessKind

structure ProcessInfo where
  kind : ProcessKind
  clock : Option Expr
  reset : Option Expr
  sensitivity : List Expr
  deriving Repr, Inhabited

/-- A register of a register file. Without an offset it follows the register before it. -/
structure RegisterDecl where
  name : String
  bits : Nat
  offset : Option Nat
  deriving DecidableEq, Repr, Inhabited

/-- A connection declared by a component: the left side takes what the right side gives. -/
structure Bind where
  lhs : Expr
  rhs : Expr
  deriving Repr, Inhabited

mutual

inductive DataType where
  | int (bits : Nat) (signed : Bool)
  | string
  | enum (name : String) (variants : List (String × Int))
  | struct (body : Body)
  | object (body : Body)
  | component (c : Component)
  /-- A component whose behaviour is not part of the design. -/
  | external (c : Component) (externalName : String)
  | protocol (name : String) (methods : List Function)
  | lock
  | event
  | memory (element : DataType) (size : Nat)
  | regFile (name : String) (registers : List RegisterDecl)
  | addressSpace
  | addrHandle
  | channel (element : DataType) (depth : Nat)
  | getEnd (element : DataType)
  | putEnd (element : DataType)
  | tuple (element : DataType) (size : Nat)
  | ref (name : String)

/-- What aggregates and components have in common. Inherited fields come before the own ones. -/
structure Body where
  name : String
  super? : Option DataType
  fields : List Field
  functions : List Function

/-- A component: a body with connections and processes. -/
structure Component where
  body : Body
  binds : List Bind
  syncs : List Function
  combs : List Function
  processes : List Function

structure Field where
  name : String
  type : DataType
  kind : FieldKind
  direction : Option Direction
  initial : Option Expr
  width : Option Expr
  arguments : Option (List (String × Expr))
  isConst : Bool

structure Function where
  name : String
  params : List Param
  body : List Stmt
  returns : Option DataType
  isAsync : Bool
  process : Option ProcessInfo

structure Param where
  name : String
  type : Option DataType

end

instance : Inhabited DataType := ⟨.lock⟩

instance : Inhabited Body := ⟨⟨"", none, [], []⟩⟩

instance : Inhabited Component := ⟨⟨default, [], [], [], []⟩⟩

instance : Inhabited Function := ⟨⟨"", [], [], none, false, none⟩⟩

instance : Inhabited Field := ⟨⟨"", default, .internal, none, none, none, none, false⟩⟩

namespace Body

def ofName (name : String) : Body := ⟨name, none, [], []⟩

end Body

namespace Component

def ofName (name : String) : Component := ⟨.ofName name, [], [], [], []⟩

def name (c : Component) : String := c.body.name

def hasBehavior (c : Component) : Bool := !c.syncs.isEmpty || !c.combs.isEmpty

end Component

namespace Function

def ofName (name : String) : Function := ⟨name, [], [], none, false, none⟩

def processKind? (f : Function) : Option ProcessKind := f.process.map (·.kind)

def paramIndex? (f : Function) (name : String) : Option Nat :=
  f.params.findIdx? (·.name == name)

end Function

namespace Field

def ofType (name : String) (type : DataType) : Field :=
  ⟨name, type, .internal, none, none, none, none, false⟩

def isInput (f : Field) : Bool := f.direction == some .input

def isOutput (f : Field) : Bool := f.direction == some .output

end Field

namespace DataType

def label : DataType → String
  | int _ _ => "Int" | string => "String" | enum _ _ => "Enum" | struct _ => "Struct"
  | object _ => "Class" | component _ => "Component" | external _ _ => "Extern"
  | protocol _ _ => "Protocol" | lock => "Lock" | event => "Event" | memory _ _ => "Memory"
  | regFile _ _ => "RegFile" | addressSpace => "AddressSpace" | addrHandle => "AddrHandle"
  | channel _ _ => "Channel" | getEnd _ => "GetIf" | putEnd _ => "PutIf" | tuple _ _ => "Tuple"
  | ref _ => "Ref"

def name? : DataType → Option String
  | enum name _ => some name
  | struct b => some b.name
  | object b => some b.name
  | component c => some c.name
  | external c _ => some c.name
  | protocol name _ => some name
  | regFile name _ => some name
  | _ => none

def body? : DataType → Option Body
  | struct b => some b
  | object b => some b
  | component c => some c.body
  | external c _ => some c.body
  | _ => none

def component? : DataType → Option Component
  | component c => some c
  | external c _ => some c
  | _ => none

def isComponent (t : DataType) : Bool := t.component?.isSome

def bits? : DataType → Option Nat
  | int bits _ => some bits
  | _ => none

def element? : DataType → Option DataType
  | memory t _ => some t
  | channel t _ => some t
  | getEnd t => some t
  | putEnd t => some t
  | tuple t _ => some t
  | _ => none

/-- The types directly inside a type: of a body the type it inherits from and those of its fields,
otherwise the element type. -/
def children (t : DataType) : List DataType :=
  match t.body? with
  | some b => b.super?.toList ++ b.fields.map (·.type)
  | none => t.element?.toList

end DataType

/-- The registers of a register file as name, offset and width. A register without an offset takes
the four bytes after the register before it. By `registerLayout_le` the sums are those of 64-bit
arithmetic as long as the given offsets stay four bytes for each register below its end. -/
def registerLayout (registers : List RegisterDecl) : List (String × Nat × Nat) :=
  go registers 0
where
  go : List RegisterDecl → Nat → List (String × Nat × Nat)
    | [], _ => []
    | r :: rest, next =>
      let offset := r.offset.getD next
      (r.name, offset, r.bits) :: go rest (offset + 4)

theorem registerLayout_go_le {registers : List RegisterDecl} {next n : Nat} (hnext : next ≤ n)
    (h : ∀ r ∈ registers, r.offset.getD 0 ≤ n) {e : String × Nat × Nat}
    (he : e ∈ registerLayout.go registers next) : e.2.1 + 4 ≤ n + 4 * registers.length := by
  induction registers generalizing next n with
  | nil => cases he
  | cons r rest ih =>
      have hoffset : r.offset.getD next ≤ n := by
        have hr := h r List.mem_cons_self
        cases ho : r.offset with
        | none => exact hnext
        | some offset => simpa [ho] using hr
      rw [List.length_cons]
      rcases List.mem_cons.mp he with rfl | he
      · change r.offset.getD next + 4 ≤ _
        omega
      · have hrest := ih (Nat.add_le_add_right hoffset 4)
          (fun r' hr' => Nat.le_add_right_of_le (h r' (List.mem_cons_of_mem r hr'))) he
        omega

theorem registerLayout_le {registers : List RegisterDecl} {n : Nat}
    (h : ∀ r ∈ registers, r.offset.getD 0 ≤ n) {e : String × Nat × Nat}
    (he : e ∈ registerLayout registers) : e.2.1 + 4 ≤ n + 4 * registers.length :=
  registerLayout_go_le (Nat.zero_le n) h he

end Clockwork
