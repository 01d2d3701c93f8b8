import Clockwork.Json.Basic
import Clockwork.Number.Bounded
import Clockwork.Number.Word
/-!
The shapes that design texts are made of: numbers within limits, lists, pairs, records and tagged
alternatives. A record is written as an object, or as an array of its members in their order; an
alternative is written as its tag alone or as an object from the tag to what belongs to it.
-/

namespace Clockwork.Interchange

/-- A natural number up to `limit`. A minus sign is refused, also in front of zero. -/
def natural? (limit : Nat) : Json → Option Nat
  | .number n => if n.integral && !n.negative && n.whole ≤ limit then some n.whole else none
  | _ => none

def natural32? : Json → Option Nat := natural? Bounded.max32

def natural64? : Json → Option Nat := natural? Bounded.max64

def word? : Json → Option Int
  | .number n => n.toInt?.bind fun i => if Word.InRange i then some i else none
  | _ => none

def bool? : Json → Option Bool
  | .bool b => some b
  | _ => none

def text? : Json → Option String
  | .text s => some s
  | _ => none

def list? {α : Type} (read : Json → Option α) : Json → Option (List α)
  | .array items => items.mapM read
  | _ => none

def nullable? {α : Type} (read : Json → Option α) : Json → Option (Option α)
  | .null => some none
  | j => (read j).map some

def pair? {α β : Type} (first : Json → Option α) (second : Json → Option β) :
    Json → Option (α × β)
  | .array [a, b] => do return (← first a, ← second b)
  | _ => none

def label? {α : Type} (all : List α) (label : α → String) (s : String) : Option α :=
  all.find? fun a => label a = s

structure Record where
  positional : Bool
  members : List (String × Json)
  deriving Inhabited

namespace Record

/-- A record with the given members. Other members are passed over; a member given twice, or more
items than members, are refused. -/
def of? (names : List String) : Json → Option Record
  | .array items =>
    if items.length ≤ names.length then some ⟨true, names.zip items⟩ else none
  | .object members =>
    let known := members.filter fun m => names.contains m.1
    if (known.map (·.1)).Nodup then some ⟨false, known⟩ else none
  | _ => none

def member? (r : Record) (name : String) : Option Json :=
  (r.members.find? fun m => m.1 = name).map (·.2)

def get {α : Type} (r : Record) (name : String) (read : Json → Option α) : Option α :=
  (r.member? name).bind read

def optional {α : Type} (r : Record) (name : String) (read : Json → Option α) :
    Option (Option α) :=
  match r.member? name with
  | some j => nullable? read j
  | none => if r.positional then none else some none

def getD {α : Type} (r : Record) (name : String) (default : α) (read : Json → Option α) :
    Option α :=
  match r.member? name with
  | some j => read j
  | none => some default

end Record

/-- An alternative: its tag, and what belongs to it. -/
structure Tagged where
  tag : String
  payload : Option Json
  deriving Inhabited

namespace Tagged

def of? : Json → Option Tagged
  | .text s => some ⟨s, none⟩
  | .object [(tag, payload)] => some ⟨tag, some payload⟩
  | _ => none

def alone {α : Type} (t : Tagged) (a : α) : Option α :=
  match t.payload with
  | none => some a
  | some .null => some a
  | some _ => none

def one {α : Type} (t : Tagged) (read : Json → Option α) : Option α := t.payload.bind read

def record (t : Tagged) (names : List String) : Option Record :=
  t.payload.bind (Record.of? names)

end Tagged

/-- A member of a fixed set, written as its label. -/
def choice? {α : Type} (all : List α) (label : α → String) (j : Json) : Option α := do
  let t ← Tagged.of? j
  let a ← label? all label t.tag
  t.alone a

def tagged (tag : String) (payload : Json) : Json := .object [(tag, payload)]

def taggedRecord (tag : String) (members : List (String × Json)) : Json :=
  tagged tag (.object members)

end Clockwork.Interchange
