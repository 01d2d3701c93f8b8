import Clockwork.Json.Basic
import Clockwork.Time.Instant
import Clockwork.Value.Basic
/-!
A small language of programs that use the scheduler, channels, locks and events. What an
instruction does that can be seen at once is its outcome; tasks and callbacks note the outcomes of
their instructions with the time.
-/

namespace Clockwork.Script

inductive Instr where
  | log (x : Json)
  | fail (text : String)
  | tryPut (channel : Nat) (v : Value)
  | tryGet (channel : Nat)
  | inspect (channel : Nat)
  | ends (channel : Nat) (v : Value)
  | tryAcquire (lock : Nat)
  | isLocked (lock : Nat)
  | release (lock : Nat)
  | set (event : Nat)
  | clear (event : Nat)
  | isSet (event : Nat)
  | stop
  | spawn (program : List Instr)
  | cancel (task : Nat)
  | isDone (task : Nat)
  | after (delay : Nat) (body : List Instr)
  | bindCallback (event : Nat) (immediate : Bool) (body : List Instr)
  | wait (delay : Nat)
  | waitDelta
  | put (channel : Nat) (v : Value)
  | putEnd (channel : Nat) (v : Value)
  | get (channel : Nat)
  | getEnd (channel : Nat)
  | acquire (lock : Nat)
  | waitFor (event : Nat)
  | guarded (lock : Nat) (program : List Instr)
  | times (count : Nat) (program : List Instr)
  | forever (program : List Instr)
  deriving Inhabited

def Instr.name : Instr → String
  | log _ => "log"
  | fail _ => "fail"
  | tryPut _ _ => "try_put"
  | tryGet _ => "try_get"
  | inspect _ => "can"
  | ends _ _ => "ends"
  | tryAcquire _ => "try_acquire"
  | isLocked _ => "is_locked"
  | release _ => "release"
  | set _ => "ev_set"
  | clear _ => "ev_clear"
  | isSet _ => "ev_is_set"
  | stop => "stop"
  | spawn _ => "spawn"
  | cancel _ => "cancel"
  | isDone _ => "is_done"
  | after _ _ => "after"
  | bindCallback _ _ _ => "bind_cb"
  | wait _ => "wait"
  | waitDelta => "wait_delta"
  | put _ _ => "put"
  | putEnd _ _ => "put_end"
  | get _ => "get"
  | getEnd _ => "get_end"
  | acquire _ => "acquire"
  | waitFor _ => "ev_wait"
  | guarded _ _ => "guard"
  | times _ _ => "repeat"
  | forever _ => "forever"

inductive Outcome where
  | nothing
  | echo (x : Json)
  | truth (b : Bool)
  | item (v : Value)
  | noItem
  | channel (canGet canPut : Bool) (length : Nat) (isEmpty : Bool) (capacity : Nat)
  | ends (canGet canPut same put : Bool) (got : Option Value)
  | task (number : Nat)
  deriving Inhabited

/-- An outcome with who had it, of what, and when. -/
structure Note where
  label : String
  name : String
  outcome : Outcome
  time : Instant
  deriving Inhabited

end Clockwork.Script
