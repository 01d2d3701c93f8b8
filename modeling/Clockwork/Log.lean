namespace Clockwork

/-- How important a record is. -/
inductive LogLevel where
  | warning
  | information
  deriving DecidableEq, Repr, Inhabited

def LogLevel.label : LogLevel → String
  | warning => "WARN"
  | information => "INFO"

structure LogRecord where
  level : LogLevel
  text : String
  deriving DecidableEq, Repr, Inhabited

namespace LogRecord

def warn (text : String) : LogRecord := ⟨.warning, text⟩

def info (text : String) : LogRecord := ⟨.information, text⟩

end LogRecord

end Clockwork
