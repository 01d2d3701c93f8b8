namespace Clockwork

/-- A number as written: its sign, its whole part, and whether that is all of it. A number with a
fraction or an exponent is not integral. -/
structure Numeral where
  negative : Bool
  whole : Nat
  integral : Bool
  deriving DecidableEq, Repr, Inhabited

namespace Numeral

def ofInt (n : Int) : Numeral := ⟨decide (n < 0), n.natAbs, true⟩

def toInt? (n : Numeral) : Option Int :=
  if !n.integral then none
  else if n.negative then some (-n.whole) else some n.whole

end Numeral

inductive Json where
  | null
  | bool (b : Bool)
  | number (n : Numeral)
  | text (s : String)
  | array (items : List Json)
  | object (members : List (String × Json))
  deriving Repr, Inhabited

namespace Json

def ofInt (n : Int) : Json := .number (.ofInt n)

def ofNat (n : Nat) : Json := ofInt n

def ofOption {α : Type} (f : α → Json) : Option α → Json
  | none => null
  | some a => f a

def member? (name : String) : Json → Option Json
  | object members => (members.reverse.find? (·.1 == name)).map (·.2)
  | _ => none

mutual

/-- How deep arrays and objects nest. -/
def depth : Json → Nat
  | array items => depthItems items + 1
  | object members => depthMembers members + 1
  | _ => 0

def depthItems : List Json → Nat
  | [] => 0
  | j :: rest => max j.depth (depthItems rest)

def depthMembers : List (String × Json) → Nat
  | [] => 0
  | (_, j) :: rest => max j.depth (depthMembers rest)

end

end Json

end Clockwork
