namespace Clockwork

inductive DesignError where
  | unresolvedType (name : String) (referencedBy : String)
  /-- References or inheritance that come back to a name, with the names on the way. -/
  | refCycle (chain : List String)
  | duplicateType (name : String)
  /-- A field name used twice in a type, inherited fields included. -/
  | duplicateField (type : String) (field : String)
  | notAComponent (name : String)
  | unknownType (name : String)
  | malformed
  deriving DecidableEq, Repr, Inhabited

namespace DesignError

def message : DesignError → String
  | unresolvedType name referencedBy =>
    s!"unresolved type '{name}' referenced by '{referencedBy}'"
  | refCycle chain => "unresolved type reference cycle: " ++ String.intercalate " -> " chain
  | duplicateType name => s!"duplicate type '{name}'"
  | duplicateField type field => s!"duplicate field '{field}' in type '{type}'"
  | notAComponent name => s!"type '{name}' is not a component"
  | unknownType name => s!"unknown type '{name}'"
  | malformed => "invalid design text"

/-- The name of the kind of a fault in reports. -/
def label : DesignError → String
  | unresolvedType _ _ => "UnresolvedType"
  | refCycle _ => "RefCycle"
  | duplicateType _ => "DuplicateType"
  | duplicateField _ _ => "DuplicateField"
  | notAComponent _ => "NotAComponent"
  | unknownType _ => "UnknownType"
  | malformed => "Json"

end DesignError

end Clockwork
