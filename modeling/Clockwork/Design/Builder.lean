import Clockwork.Design.Access
import Clockwork.Design.TypeTable

namespace Clockwork

structure ComponentBuilder where
  component : Component
  inherited : Nat
  deriving Inhabited

namespace ComponentBuilder

def ofName (name : String) : ComponentBuilder := ⟨.ofName name, 0⟩

def extend (b : ComponentBuilder) (super : String) (count : Nat) : ComponentBuilder :=
  ⟨{ b.component with body := { b.component.body with super? := some (.ref super) } }, count⟩

def add (b : ComponentBuilder) (f : Field) : ComponentBuilder × Nat :=
  let body := b.component.body
  (⟨{ b.component with body := { body with fields := body.fields ++ [f] } }, b.inherited⟩,
   b.inherited + body.fields.length)

def port (b : ComponentBuilder) (name : String) (bits : Nat) (direction : Direction) :
    ComponentBuilder × Nat :=
  b.add { Field.ofType name (.int bits false) with
    kind := .port, direction := some direction }

def input (b : ComponentBuilder) (name : String) (bits : Nat) : ComponentBuilder × Nat :=
  b.port name bits .input

def output (b : ComponentBuilder) (name : String) (bits : Nat) : ComponentBuilder × Nat :=
  b.port name bits .output

def signal (b : ComponentBuilder) (name : String) (bits : Nat) : ComponentBuilder × Nat :=
  b.add (Field.ofType name (.int bits false))

def constant (b : ComponentBuilder) (name : String) (value : Int) : ComponentBuilder × Nat :=
  b.add { Field.ofType name (.int 64 true) with
    initial := some (.int value), isConst := true }

def instanceOf (b : ComponentBuilder) (name type : String) : ComponentBuilder × Nat :=
  b.add (Field.ofType name (.ref type))

def instanceWith (b : ComponentBuilder) (name type : String)
    (arguments : List (String × Expr)) : ComponentBuilder × Nat :=
  b.add { Field.ofType name (.ref type) with arguments := some arguments }

def connection (b : ComponentBuilder) (name : String) (type : DataType) (kind : FieldKind) :
    ComponentBuilder × Nat :=
  b.add { Field.ofType name type with kind := kind }

def bind (b : ComponentBuilder) (lhs rhs : Expr) : ComponentBuilder :=
  { b with component := { b.component with binds := b.component.binds ++ [⟨lhs, rhs⟩] } }

/-- Adds a process that runs on rising edges of a clock field and perhaps a reset field. -/
def sync (b : ComponentBuilder) (name : String) (clock : Nat) (reset : Option Nat)
    (body : List Stmt) : ComponentBuilder :=
  let f : Function := { Function.ofName name with
    body := body
    process := some ⟨.sync, some (.ownField clock), reset.map Expr.ownField, []⟩ }
  { b with component := { b.component with syncs := b.component.syncs ++ [f] } }

/-- Adds a process that runs whenever one of the given fields changes. -/
def combWith (b : ComponentBuilder) (name : String) (sensitivity : List Expr)
    (body : List Stmt) : ComponentBuilder :=
  let f : Function := { Function.ofName name with
    body := body, process := some ⟨.comb, none, none, sensitivity⟩ }
  { b with component := { b.component with combs := b.component.combs ++ [f] } }

/-- Adds a process that runs whenever a field that it reads and does not write changes. -/
def comb (b : ComponentBuilder) (name : String) (body : List Stmt) : ComponentBuilder :=
  b.combWith name (derivedSensitivity body) body

def process (b : ComponentBuilder) (name : String) (body : List Stmt) : ComponentBuilder :=
  let f : Function := { Function.ofName name with
    body := body, isAsync := true, process := some ⟨.free, none, none, []⟩ }
  { b with component := { b.component with processes := b.component.processes ++ [f] } }

/-- Adds a function that is no process. -/
def addFunction (b : ComponentBuilder) (f : Function) : ComponentBuilder :=
  let own := b.component.body
  { b with component := { b.component with
      body := { own with functions := own.functions ++ [f] } } }

/-- Adds a function with parameters of any type. -/
def function (b : ComponentBuilder) (name : String) (params : List String) (isAsync : Bool)
    (body : List Stmt) : ComponentBuilder :=
  b.addFunction { Function.ofName name with
    params := params.map fun p => ⟨p, none⟩, isAsync := isAsync, body := body }

def register (b : ComponentBuilder) (t : TypeTable) : Except DesignError TypeTable :=
  t.add b.component.name (.component b.component)

end ComponentBuilder

end Clockwork
