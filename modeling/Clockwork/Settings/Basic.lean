import Clockwork.Table
import Clockwork.Text
import Clockwork.Time.Duration

namespace Clockwork

/-- A clock that drives a field of the root. -/
structure ClockSetting where
  signal : String
  period : Nat
  deriving DecidableEq, Repr, Inhabited

structure RunSettings where
  top : String
  time : Option Nat
  maxCombDepth : Nat
  trace : Bool
  clocks : List ClockSetting
  inputs : Table String Int
  deriving Repr, Inhabited

/-- Why settings cannot be used. -/
inductive SettingsError where
  | malformed
  | missingField (field : String)
  | noCombDepth
  | shortPeriod (clock : String)
  /-- A field that has both a clock and a fixed value. -/
  | drivenTwice (field : String)
  deriving DecidableEq, Repr, Inhabited

namespace SettingsError

def message : SettingsError → String
  | malformed => "failed to parse configuration"
  | missingField field => s!"missing required field: {field}"
  | noCombDepth => "validation error: simulation.max_comb_depth must be at least 1"
  | shortPeriod clock => s!"validation error: clock '{clock}' period is too short to toggle"
  | drivenTwice field => s!"validation error: '{field}' is both a clock and a fixed input"

def label : SettingsError → String
  | malformed => "ParseError"
  | missingField _ => "MissingField"
  | _ => "ValidationError"

end SettingsError

namespace RunSettings

/-- How deep combinational processes may nest where settings do not say it. -/
def standardCombDepth : Nat := 1000

/-- What is wrong with a clock. Each half of a period takes some time. -/
def clockFault? (s : RunSettings) (c : ClockSetting) : Option SettingsError :=
  if c.signal.isEmpty then some (.missingField "clock.signal")
  else if c.period < 2 then some (.shortPeriod c.signal)
  else if s.inputs.contains c.signal then some (.drivenTwice c.signal)
  else none

def fault? (s : RunSettings) : Option SettingsError :=
  if (Text.trim s.top).isEmpty then some (.missingField "simulation.top")
  else if s.maxCombDepth = 0 then some .noCombDepth
  else s.clocks.findSome? s.clockFault?

def check (s : RunSettings) : Except SettingsError RunSettings :=
  match s.fault? with
  | none => .ok s
  | some e => .error e

end RunSettings

end Clockwork
