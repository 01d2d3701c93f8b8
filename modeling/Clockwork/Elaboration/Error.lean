import Clockwork.Design.Error
import Clockwork.Value.Error

namespace Clockwork

/-- A fault found while a design is elaborated. -/
inductive ElabError where
  | unresolvedType (name referencedBy : String)
  /-- A connection that breaks a rule, and the instance that declares it. -/
  | bindViolation (component reason : String)
  | unboundTopPorts (component : String) (ports : List String)
  | regionOverlap (space : String) (base size : Nat)
  | unknownField (component field : String)
  /-- A component inside itself or deeper than allowed, with the types on the way. -/
  | recursiveInstance (chain : List String)
  | notAComponent (name : String)
  | invalidField (component field reason : String)
  | design (e : DesignError)
  | runtime (e : SimError)
  deriving DecidableEq, Repr, Inhabited

namespace ElabError

def message : ElabError → String
  | unresolvedType name referencedBy =>
    s!"unresolved type '{name}' referenced by '{referencedBy}'"
  | bindViolation component reason => s!"bind violation in '{component}': {reason}"
  | unboundTopPorts component ports =>
    s!"unbound top-level ports on '{component}': " ++ String.intercalate ", " ports
  | regionOverlap space base size =>
    "region 0x" ++ Text.hex base ++ "+0x" ++ Text.hex size ++
      s!" overlaps an existing mapping in '{space}'"
  | unknownField component field => s!"unknown field '{field}' on '{component}'"
  | recursiveInstance chain =>
    "recursive instantiation: " ++ String.intercalate " -> " chain
  | notAComponent name => s!"type '{name}' is not a component"
  | invalidField component field reason =>
    s!"invalid field '{field}' on '{component}': {reason}"
  | design e => e.message
  | runtime e => "runtime error during elaboration: " ++ e.message

/-- The name of the kind of a fault in reports. -/
def label : ElabError → String
  | unresolvedType _ _ => "UnresolvedType"
  | bindViolation _ _ => "BindViolation"
  | unboundTopPorts _ _ => "UnboundTopLevelPort"
  | regionOverlap _ _ _ => "RegionOverlap"
  | unknownField _ _ => "UnknownField"
  | recursiveInstance _ => "RecursiveInstantiation"
  | notAComponent _ => "NotAComponent"
  | invalidField _ _ _ => "InvalidField"
  | design _ => "Ir"
  | runtime _ => "Runtime"

def ofDesign (referencedBy : String) : DesignError → ElabError
  | .unresolvedType name _ => unresolvedType name referencedBy
  | e => design e

def report : List ElabError → String
  | [] => "no elaboration errors"
  | [e] => e.message
  | errors =>
    s!"{errors.length} elaboration errors:" ++
      String.join (errors.map fun e => "\n  " ++ e.message)

end ElabError

end Clockwork
