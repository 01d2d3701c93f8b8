namespace Clockwork.CommandLine

/-- An option without a value. -/
inductive Switch where
  | quiet
  | verbose
  | trace
  deriving DecidableEq, Repr, Inhabited

inductive Setting where
  | top
  | time
  | config
  deriving DecidableEq, Repr, Inhabited

/-- An argument, or an option together with its value. -/
inductive Piece where
  | switch (s : Switch)
  | setting (s : Setting) (value : String)
  | word (s : String)
  deriving DecidableEq, Repr, Inhabited

def Switch.ofLong? : String → Option Switch
  | "quiet" => some .quiet
  | "verbose" => some .verbose
  | "trace" => some .trace
  | _ => none

def Setting.ofLong? : String → Option Setting
  | "top" => some .top
  | "time" => some .time
  | "config" => some .config
  | _ => none

/-- What a group of one-letter options says: switches, and at the end maybe a setting with the rest
of the group as its value. -/
structure ShortGroup where
  switches : List Switch
  last : Option (Setting × List Char)
  deriving Repr, Inhabited

def ShortGroup.ofLetters? : List Char → Option ShortGroup
  | [] => some ⟨[], none⟩
  | 'q' :: rest => (ofLetters? rest).map fun g => { g with switches := .quiet :: g.switches }
  | 'v' :: rest => (ofLetters? rest).map fun g => { g with switches := .verbose :: g.switches }
  | 'c' :: '=' :: value => some ⟨[], some (.config, value)⟩
  | 'c' :: value => some ⟨[], some (.config, value)⟩
  | _ => none

def isOption (arg : String) : Bool := arg.startsWith "-" && arg != "-"

/-- Reads arguments one by one. Behind a double hyphen all are words. -/
def Piece.ofArguments? : List String → Option (List Piece)
  | [] => some []
  | arg :: rest =>
    match arg.toList with
    | ['-', '-'] => some (rest.map .word)
    | '-' :: '-' :: long =>
      let (name, value) := long.span (· != '=')
      match Switch.ofLong? (String.ofList name), Setting.ofLong? (String.ofList name), value with
      | some s, _, [] => (ofArguments? rest).map (.switch s :: ·)
      | _, some s, _ :: value => (ofArguments? rest).map (.setting s (String.ofList value) :: ·)
      | _, some s, [] =>
        match rest with
        | value :: rest =>
          if isOption value then none else (ofArguments? rest).map (.setting s value :: ·)
        | [] => none
      | _, _, _ => none
    | '-' :: c :: more =>
      match ShortGroup.ofLetters? (c :: more) with
      | none => none
      | some ⟨switches, none⟩ => (ofArguments? rest).map (switches.map .switch ++ ·)
      | some ⟨switches, some (s, [])⟩ =>
        match rest with
        | value :: rest =>
          if isOption value then none
          else (ofArguments? rest).map (switches.map .switch ++ .setting s value :: ·)
        | [] => none
      | some ⟨switches, some (s, value)⟩ =>
        (ofArguments? rest).map (switches.map .switch ++ .setting s (String.ofList value) :: ·)
    | _ => (ofArguments? rest).map (.word arg :: ·)

structure RunOptions where
  top : Option String
  time : Option String
  config : Option String
  trace : Bool
  deriving DecidableEq, Repr, Inhabited

inductive Command where
  | check (top : Option String)
  | run (options : RunOptions)
  deriving DecidableEq, Repr, Inhabited

/-- A command on the design in a file. -/
structure Request where
  command : Command
  design : String
  quiet : Bool
  deriving DecidableEq, Repr, Inhabited

namespace Request

def values (s : Setting) (pieces : List Piece) : List String :=
  pieces.filterMap fun
    | .setting s' value => if s' = s then some value else none
    | _ => none

/-- The value of a setting that is given at most once. -/
def single? (s : Setting) (pieces : List Piece) : Option (Option String) :=
  match values s pieces with
  | [] => some none
  | [value] => some (some value)
  | _ => none

def words (pieces : List Piece) : List String :=
  pieces.filterMap fun
    | .word s => some s
    | _ => none

/-- Reads a command from the pieces behind its name. -/
def command? (name : String) (pieces : List Piece) : Option Command := do
  let top ← single? .top pieces
  let time ← single? .time pieces
  let config ← single? .config pieces
  let trace := pieces.contains (.switch .trace)
  match name with
  | "check" => if trace || time.isSome || config.isSome then none else some (.check top)
  | "run" => some (.run ⟨top, time, config, trace⟩)
  | _ => none

def ofArguments? (args : List String) : Option Request := do
  let pieces ← Piece.ofArguments? args
  match words pieces with
  | [name, design] =>
    some ⟨← command? name pieces, design, pieces.contains (.switch .quiet)⟩
  | _ => none

/-- The files that a request may read. Settings are in a file or in a directory. -/
def files (r : Request) : List String :=
  match r.command with
  | .run { config := some path, .. } => [path, path ++ "/hwsim.toml", r.design]
  | _ => [r.design]

end Request

end Clockwork.CommandLine
