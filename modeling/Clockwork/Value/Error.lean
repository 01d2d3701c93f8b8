import Clockwork.Text

namespace Clockwork

/-- A fault of a running design. -/
inductive SimError where
  | addressNotMapped (addr : Nat)
  /-- An access that starts inside a region and ends outside. -/
  | regionBoundaryCrossed (addr size boundary : Nat)
  | regionOverlap (base size : Nat)
  | invalidAccessSize (size : Nat)
  | indexOutOfBounds (index : Int) (size : Nat)
  | noRegister (offset : Nat)
  | unsupported (what : String)
  /-- Processes that keep changing each other's inputs. -/
  | combCycle (component process : String) (depth : Nat)
  | illegalSuspension (process : String)
  | divisionByZero
  | evaluation (reason : String)
  | unknownField (component field : String)
  | unknownMethod (target method : String)
  | unboundPort (component port : String)
  | assertionFailed (fs : Nat) (message : String)
  | callbackAlreadyBound
  | lockNotHeld
  | noSuchComponent (path : String)
  deriving DecidableEq, Repr, Inhabited

namespace SimError

def message : SimError → String
  | addressNotMapped addr => "address 0x" ++ Text.hex addr ++ " is not mapped"
  | regionBoundaryCrossed addr size boundary =>
    "access of " ++ toString size ++ " bytes at 0x" ++ Text.hex addr ++
      " crosses region boundary at 0x" ++ Text.hex boundary
  | regionOverlap base size =>
    "region 0x" ++ Text.hex base ++ "+0x" ++ Text.hex size ++ " overlaps an existing mapping"
  | invalidAccessSize size => s!"invalid access size {size}"
  | indexOutOfBounds index size => s!"index {index} out of bounds for size {size}"
  | noRegister offset => "no register at offset 0x" ++ Text.hex offset
  | unsupported what => s!"unsupported construct: {what}"
  | combCycle component process depth =>
    s!"combinational cycle detected in {component}.{process} at depth {depth}"
  | illegalSuspension process => s!"process '{process}' suspended outside a task context"
  | divisionByZero => "division by zero"
  | evaluation reason => s!"evaluation error: {reason}"
  | unknownField component field => s!"unknown field '{field}' on '{component}'"
  | unknownMethod target method => s!"unknown method '{method}' on {target}"
  | unboundPort component port => s!"port '{port}' of '{component}' is not bound"
  | assertionFailed fs message => s!"assertion failed at {fs} fs: {message}"
  | callbackAlreadyBound => "event already has a bound callback"
  | lockNotHeld => "lock released while not held"
  | noSuchComponent path => s!"no component at '{path}'"

/-- The name of the kind of a fault in reports. -/
def label : SimError → String
  | addressNotMapped _ => "AddressNotMapped"
  | regionBoundaryCrossed _ _ _ => "RegionBoundaryCrossed"
  | regionOverlap _ _ => "RegionOverlap"
  | invalidAccessSize _ => "InvalidAccessSize"
  | indexOutOfBounds _ _ => "IndexOutOfBounds"
  | noRegister _ => "NoRegister"
  | unsupported _ => "UnsupportedConstruct"
  | combCycle _ _ _ => "CombCycleDetected"
  | illegalSuspension _ => "IllegalSuspension"
  | divisionByZero => "DivisionByZero"
  | evaluation _ => "EvalError"
  | unknownField _ _ => "UnknownField"
  | unknownMethod _ _ => "UnknownMethod"
  | unboundPort _ _ => "UnboundPort"
  | assertionFailed _ _ => "AssertionFailed"
  | callbackAlreadyBound => "CallbackAlreadyBound"
  | lockNotHeld => "LockNotHeld"
  | noSuchComponent _ => "NoSuchComponent"

end SimError

end Clockwork
