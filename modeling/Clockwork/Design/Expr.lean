namespace Clockwork

inductive BinOp where
  | add | sub | mul | div | mod
  | bitAnd | bitOr | bitXor | shiftLeft | shiftRight
  | eq | ne | lt | le | gt | ge
  | and | or
  deriving DecidableEq, Repr, Inhabited

namespace BinOp

def all : List BinOp :=
  [add, sub, mul, div, mod, bitAnd, bitOr, bitXor, shiftLeft, shiftRight, eq, ne, lt, le, gt, ge,
   and, or]

/-- The name of the operator in design texts. -/
def label : BinOp → String
  | add => "Add" | sub => "Sub" | mul => "Mult" | div => "Div" | mod => "Mod"
  | bitAnd => "BitAnd" | bitOr => "BitOr" | bitXor => "BitXor"
  | shiftLeft => "LShift" | shiftRight => "RShift"
  | eq => "Eq" | ne => "NotEq" | lt => "Lt" | le => "LtE" | gt => "Gt" | ge => "GtE"
  | and => "And" | or => "Or"

end BinOp

inductive UnaryOp where
  | invert | not | plus | minus
  deriving DecidableEq, Repr, Inhabited

namespace UnaryOp

def all : List UnaryOp := [invert, not, plus, minus]

def label : UnaryOp → String
  | invert => "Invert" | not => "Not" | plus => "UAdd" | minus => "USub"

end UnaryOp

/-- An operator that stops at the first operand that decides it. -/
inductive BoolOp where
  | and | or
  deriving DecidableEq, Repr, Inhabited

namespace BoolOp

def all : List BoolOp := [and, or]

def label : BoolOp → String
  | and => "And" | or => "Or"

end BoolOp

inductive CmpOp where
  | eq | ne | lt | le | gt | ge
  | is | isNot
  | member | notMember
  deriving DecidableEq, Repr, Inhabited

namespace CmpOp

def all : List CmpOp := [eq, ne, lt, le, gt, ge, is, isNot, member, notMember]

def label : CmpOp → String
  | eq => "Eq" | ne => "NotEq" | lt => "Lt" | le => "LtE" | gt => "Gt" | ge => "GtE"
  | is => "Is" | isNot => "IsNot" | member => "In" | notMember => "NotIn"

end CmpOp

/-- The operator of an assignment that updates its target. -/
inductive AugOp where
  | add | sub | mul | div | floorDiv | mod | pow
  | shiftLeft | shiftRight | bitAnd | bitOr | bitXor
  deriving DecidableEq, Repr, Inhabited

namespace AugOp

def all : List AugOp :=
  [add, sub, mul, div, floorDiv, mod, pow, shiftLeft, shiftRight, bitAnd, bitOr, bitXor]

def label : AugOp → String
  | add => "Add" | sub => "Sub" | mul => "Mult" | div => "Div" | floorDiv => "FloorDiv"
  | mod => "Mod" | pow => "Pow" | shiftLeft => "LShift" | shiftRight => "RShift"
  | bitAnd => "BitAnd" | bitOr => "BitOr" | bitXor => "BitXor"

def binary? : AugOp → Option BinOp
  | add => some .add | sub => some .sub | mul => some .mul
  | div => some .div | floorDiv => some .div | mod => some .mod | pow => none
  | shiftLeft => some .shiftLeft | shiftRight => some .shiftRight
  | bitAnd => some .bitAnd | bitOr => some .bitOr | bitXor => some .bitXor

end AugOp

/-- A function that every design can call. -/
inductive Builtin where
  | cycles | mapAt | range | len | print | min | max | abs
  deriving DecidableEq, Repr, Inhabited

namespace Builtin

def all : List Builtin := [cycles, mapAt, range, len, print, min, max, abs]

def label : Builtin → String
  | cycles => "Cycles" | mapAt => "At" | range => "Range" | len => "Len" | print => "Print"
  | min => "Min" | max => "Max" | abs => "Abs"

def name : Builtin → String
  | cycles => "cycles" | mapAt => "at" | range => "range" | len => "len" | print => "print"
  | min => "min" | max => "max" | abs => "abs"

end Builtin

inductive Literal where
  | none
  | bool (b : Bool)
  | int (n : Int)
  | str (s : String)
  deriving DecidableEq, Repr, Inhabited

inductive Expr where
  | constant (c : Literal)
  | self
  | field (base : Expr) (index : Nat)
  | param (name : String) (index : Nat)
  | var (name : String)
  | builtin (b : Builtin)
  | binary (lhs : Expr) (op : BinOp) (rhs : Expr)
  | unary (op : UnaryOp) (operand : Expr)
  | logical (op : BoolOp) (values : List Expr)
  | compare (left : Expr) (ops : List CmpOp) (comparators : List Expr)
  | member (value : Expr) (name : String)
  | subscript (value : Expr) (index : Expr)
  | call (callee : Expr) (args : List Expr) (keywords : List (String × Expr))
  | conditional (test : Expr) (body : Expr) (orelse : Expr)
  | await (value : Expr)
  | tuple (items : List Expr)
  deriving Repr, Inhabited

abbrev FieldPath := List Nat

namespace Expr

def int (n : Int) : Expr := constant (.int n)

def bool (b : Bool) : Expr := constant (.bool b)

def str (s : String) : Expr := constant (.str s)

def ownField (index : Nat) : Expr := field self index

def childField (child index : Nat) : Expr := field (ownField child) index

def path (p : FieldPath) : Expr := p.foldl field self

def compareWith (left : Expr) (op : CmpOp) (right : Expr) : Expr := compare left [op] [right]

def callWith (callee : Expr) (args : List Expr) : Expr := call callee args []

def methodCall (object : Expr) (method : String) (args : List Expr) : Expr :=
  callWith (member object method) args

def builtinCall (b : Builtin) (args : List Expr) : Expr := callWith (builtin b) args

def isConstant : Expr → Bool
  | constant _ => true
  | _ => false

/-- The path that an expression spells out, if it is a chain of fields from `self`. -/
def fieldPath? : Expr → Option FieldPath
  | field self index => some [index]
  | field base index => base.fieldPath?.map (· ++ [index])
  | _ => none

end Expr

end Clockwork
