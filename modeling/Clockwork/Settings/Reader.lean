import Clockwork.Settings.Basic
import Clockwork.Toml.Document

namespace Clockwork

namespace Toml.Item

/-- The value of a setting in a section, by name or by position; nothing if the section does not
say it. A moment is a section that says nothing. -/
def setting? (name : String) (position : Nat) : Item → Option (Option Item)
  | .table _ entries => some (entries.lookup name)
  | .array items => some items[position]?
  | .tables elements => some elements[position]?
  | .moment _ => some none
  | _ => none

def text? : Item → Option String
  | .text s => some s
  | _ => none

def integer? : Item → Option Int
  | .integer n => some n
  | _ => none

def natural? (i : Item) : Option Nat :=
  i.integer?.bind fun n => if 0 ≤ n then some n.toNat else none

def bool? : Item → Option Bool
  | .bool b => some b
  | _ => none

def elements? : Item → Option (List Item)
  | .array items => some items
  | .tables elements => some elements
  | _ => none

/-- Femtoseconds, written as a duration or as a whole number of nanoseconds. -/
def duration? (i : Item) : Option Nat :=
  match i with
  | .text s => (Duration.parse s).toOption
  | i => (i.natural?.map (· * TimeUnit.ns.femtoseconds)).filter (· ≤ Bounded.max64)

def required {α : Type} (read : Item → Option α) (name : String) (position : Nat)
    (container : Item) : Option α := do
  read (← ← container.setting? name position)

def optional {α : Type} (read : Item → Option α) (name : String) (position : Nat)
    (container : Item) : Option (Option α) := do
  match ← container.setting? name position with
  | none => some none
  | some i => (read i).map some

end Toml.Item

namespace RunSettings

open Toml (Item)

def clock? (i : Item) : Option ClockSetting := do
  let signal ← i.required Item.text? "signal" 0
  let period ← i.required Item.duration? "period" 1
  some ⟨signal, period⟩

def clocks? (i : Item) : Option (List ClockSetting) := do (← i.elements?).mapM clock?

def trace? (i : Item) : Option Bool :=
  (i.optional Item.bool? "enabled" 0).map (·.getD false)

def inputs? : Item → Option (Table String Int)
  | .table _ entries => do
    let values ← entries.mapM fun (name, i) => i.integer?.map fun n => (name, n)
    some (.ofList values)
  | _ => none

/-- The settings in a document. Only the section about the simulation has to be there. -/
def ofDocument? (entries : Toml.Entries) : Option RunSettings := do
  let document : Item := .table .header entries
  let simulation ← document.required some "simulation" 0
  let top ← simulation.required Item.text? "top" 0
  let time ← simulation.optional Item.duration? "time" 1
  let depth ← simulation.optional Item.natural? "max_comb_depth" 2
  let trace ← document.optional trace? "trace" 1
  let clocks ← document.optional clocks? "clock" 2
  let inputs ← document.optional inputs? "inputs" 3
  some {
    top := top
    time := time
    maxCombDepth := depth.getD standardCombDepth
    trace := trace.getD false
    clocks := clocks.getD []
    inputs := inputs.getD .empty }

def parse (s : String) : Except SettingsError RunSettings :=
  match (Toml.parse? s).bind ofDocument? with
  | none => .error .malformed
  | some settings => settings.check

end RunSettings

end Clockwork
