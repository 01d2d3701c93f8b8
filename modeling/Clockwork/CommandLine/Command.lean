import Clockwork.CommandLine.Arguments
import Clockwork.CommandLine.Report
import Clockwork.Design.Interchange.Document
import Clockwork.Settings.Reader
import Clockwork.Simulation.Command
import Clockwork.Tree.Listing

namespace Clockwork.CommandLine

/-- Reads a design. All its references have to lead to types. -/
def loadDesign (w : Workspace) (path : String) : Except String TypeTable :=
  match w.read path with
  | none => .error s!"cannot read {path}: {missingFile}"
  | some text =>
    match TypeTable.ofText text with
    | .error e => .error e.message
    | .ok types =>
      let faults := types.faults
      if faults.isEmpty then .ok types
      else .error (s!"{path} has {faults.length} invalid type reference(s):\n" ++
        String.intercalate "\n" (faults.map fun e => "  " ++ e.message))

/-- The name of the top: the one that was asked for, or the only root of the design. -/
def topOf (types : TypeTable) (wanted : Option String) : Except String String :=
  match wanted, types.roots with
  | some top, _ => .ok top
  | none, [top] => .ok top
  | none, [] => .error "the design has no root component; pass --top"
  | none, roots =>
    .error ("cannot infer the top component from " ++ String.intercalate ", " roots ++
      "; pass --top")

def loadSettings (w : Workspace) (path : String) : Except String RunSettings :=
  match w.read path <|> w.read (path ++ "/hwsim.toml") with
  | none => .error ("failed to read configuration: " ++ missingFile)
  | some text => (RunSettings.parse text).mapError SettingsError.message

def Report.failAll (r : Report) (errors : List ElabError) : Report :=
  let r := errors.foldl (fun r e => r.tellError e.message) r
  let plural := if errors.length = 1 then "" else "s"
  { r.tell s!"elaboration failed with {errors.length} error{plural}" with code := 1 }

def check (w : Workspace) (quiet : Bool) (path : String) (top : Option String) : Report :=
  match (do
      let types ← loadDesign w path
      return (types, ← topOf types top) : Except String (TypeTable × String)) with
  | .error e => Report.empty.fail e
  | .ok (types, top) =>
    let r := Report.empty.unlessQuiet quiet (·.tell s!"   Elaborating {top}")
    match (elaborate types .empty top .empty .standard).1 with
    | .error errors => r.failAll errors
    | .ok e =>
      r.unlessQuiet quiet fun r =>
        let r : Report := { r with output := r.output ++ e.tree.listing }
        let r := e.tree.connections.foldl (fun r line => r.say ("bind " ++ line)) r
        r.tell (s!"    Finished {e.tree.size} instance(s), {e.tree.connections.length} bind(s), " ++
          "fingerprint " ++ (e.tree.fingerprint e.objects).render)

/-- All that a run needs to know. -/
structure Plan where
  types : TypeTable
  top : String
  stop : Nat
  trace : Bool
  clocks : List ClockSetting
  inputs : Table String Int
  maxCombDepth : Nat
  deriving Inhabited

/-- Femtoseconds of a run where nothing else is said. -/
def standardTime : Nat := 100 * TimeUnit.ns.femtoseconds

def timeOf (text : String) : Except String Nat :=
  (Duration.parse text).mapError Duration.Invalid.message

/-- Plans a run. What the arguments say counts more than the settings. -/
def Plan.ofOptions (w : Workspace) (path : String) (o : RunOptions) : Except String Plan := do
  let settings ← o.config.mapM (loadSettings w)
  let types ← loadDesign w path
  let top ← topOf types (o.top <|> settings.map RunSettings.top)
  let time ← o.time.mapM timeOf
  return {
    types := types
    top := top
    stop := (time <|> settings.bind RunSettings.time).getD standardTime
    trace := o.trace || settings.any RunSettings.trace
    clocks := (settings.map RunSettings.clocks).getD []
    inputs := (settings.map RunSettings.inputs).getD .empty
    maxCombDepth := (settings.map RunSettings.maxCombDepth).getD SimOptions.standard.maxCombDepth }

def driveClocks (s : Simulation) : List ClockSetting → Except SimError Simulation
  | [] => .ok s
  | c :: rest =>
    match s.driveClock c.signal c.period with
    | (s, .ok _) => driveClocks s rest
    | (_, .error e) => .error e

/-- Simulates an elaborated design to the end of the plan, unless fuel runs out. -/
def Plan.simulate (p : Plan) (fuel : Nat) (e : Elaborated) : Option (Except SimError Simulation) :=
  match Simulation.ofElaborated e ⟨p.maxCombDepth, if p.trace then .memory else .off⟩ with
  | .error e => some (.error e)
  | .ok s =>
    match s.start fuel with
    | none => none
    | some (_, .error e) => some (.error e)
    | some (s, .ok _) =>
      match driveClocks s p.clocks with
      | .error e => some (.error e)
      | .ok s => (s.runUntil fuel p.stop).map fun (s, r) => r.map fun _ => s

def rootSignals (s : Simulation) : Except SimError (List (String × Value)) :=
  (Simulation.signalSlots (s.tree.inst Tree.root)).mapM fun f => do
    return (f.name, ← s.output f.name)

/-- Puts blanks in front of a text up to a width. -/
def padLeft (width : Nat) (text : String) : String :=
  String.ofList (List.replicate (width - text.length) ' ') ++ text

def changeLine (c : TracedChange) : String :=
  padLeft 12 c.time.render ++ s!" {c.signal}: {c.old.render} -> {c.new.render}"

def Report.showRun (r : Report) (quiet trace : Bool) (s : Simulation) : Report :=
  let r := if trace then s.changes.foldl (fun r c => r.say (changeLine c)) r else r
  if quiet then r
  else
    match rootSignals s with
    | .error e => r.fail e.message
    | .ok signals =>
      let r := signals.foldl (fun r (name, v) => r.say s!"{name} = {v.render}") r
      r.tell s!"    Finished at {s.now.render}"

/-- Simulates a design, unless fuel runs out. -/
def run (fuel : Nat) (w : Workspace) (quiet : Bool) (path : String) (o : RunOptions) :
    Option Report :=
  match Plan.ofOptions w path o with
  | .error e => some (Report.empty.fail e)
  | .ok p =>
    let r := Report.empty.unlessQuiet quiet
      (·.tell s!"   Simulating {p.top} for {(Instant.ofFs p.stop).render}")
    match (elaborate p.types .empty p.top (p.inputs.map Value.int) .standard).1 with
    | .error errors => some (r.failAll errors)
    | .ok e =>
      (p.simulate fuel e).map fun
        | .error e => r.fail e.message
        | .ok s => r.showRun quiet p.trace s

/-- Does what the arguments ask for, unless fuel runs out. -/
def execute (fuel : Nat) (w : Workspace) (args : List String) : Option Report :=
  match Request.ofArguments? args with
  | none => some { Report.empty.tellError "unknown arguments" with code := 2 }
  | some ⟨.check top, path, quiet⟩ => some (check w quiet path top)
  | some ⟨.run options, path, quiet⟩ => run fuel w quiet path options

end Clockwork.CommandLine
