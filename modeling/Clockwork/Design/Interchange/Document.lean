import Clockwork.Design.Interchange.Types
import Clockwork.Design.TypeTable
import Clockwork.Json.Printer
import Clockwork.Json.Reader

namespace Clockwork

open Interchange

namespace TypeTable

/-- How deep the arrays and objects of a design text may nest. -/
def depthLimit : Nat := 127

def toJson (t : TypeTable) : Json :=
  .object [("types", .array (t.types.map fun n =>
    .object [("name", .text n.name), ("datatype", n.type.toJson)]))]

def namedType? (j : Json) : Option NamedType := do
  let r ← Record.of? ["name", "datatype"] j
  return ⟨← r.get "name" text?, ← r.get "datatype" DataType.ofJson?⟩

def typesOf? (j : Json) : Option (List NamedType) := do
  let r ← Record.of? ["types"] j
  r.get "types" (list? namedType?)

def ofJson (j : Json) : Except DesignError TypeTable :=
  match typesOf? j with
  | none => .error .malformed
  | some types => ofList types

def toText (t : TypeTable) : String := t.toJson.pretty

def ofText (s : String) : Except DesignError TypeTable :=
  match Json.parse? depthLimit s with
  | none => .error .malformed
  | some j => ofJson j

end TypeTable

end Clockwork
