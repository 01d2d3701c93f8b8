namespace Clockwork.CommandLine

structure Workspace where
  files : List (String × String)
  deriving Repr, Inhabited

namespace Workspace

def splitSlashes : List Char → List (List Char)
  | [] => [[]]
  | '/' :: rest => [] :: splitSlashes rest
  | c :: rest =>
    match splitSlashes rest with
    | [] => [[c]]
    | part :: parts => (c :: part) :: parts

/-- The steps of a path. Empty parts and single dots lead nowhere. -/
def steps (path : String) : List (List Char) :=
  (splitSlashes path.toList).filter fun part => part ≠ [] ∧ part ≠ ['.']

def samePlace (a b : String) : Bool :=
  a.startsWith "/" == b.startsWith "/" && steps a == steps b

def read (w : Workspace) (path : String) : Option String :=
  (w.files.find? fun f => samePlace f.1 path).map (·.2)

end Workspace

def missingFile : String := "No such file or directory (os error 2)"

/-- The end of a command: its code, its output, and its messages. -/
structure Report where
  code : Nat
  output : String
  messages : String
  deriving DecidableEq, Repr, Inhabited

namespace Report

def empty : Report := ⟨0, "", ""⟩

def say (r : Report) (line : String) : Report := { r with output := r.output ++ line ++ "\n" }

def tell (r : Report) (line : String) : Report :=
  { r with messages := r.messages ++ line ++ "\n" }

def tellError (r : Report) (message : String) : Report := r.tell ("error: " ++ message)

def unlessQuiet (r : Report) (quiet : Bool) (f : Report → Report) : Report :=
  if quiet then r else f r

def fail (r : Report) (message : String) : Report := { r.tellError message with code := 1 }

end Report

end Clockwork.CommandLine
