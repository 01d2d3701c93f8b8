import Clockwork.Toml.Scalar
import Clockwork.Toml.Text

namespace Clockwork.Toml

/-- No key has as many parts, and no value is inside as many brackets. -/
def nestingLimit : Nat := 80

def isKeyChar (c : Char) : Bool := isLetter c || Text.isDigit c || c == '_' || c == '-'

def readKeyPart (cs : List Char) : Option (String × List Char) :=
  let (name, rest) := cs.span isKeyChar
  if name.isEmpty then readLineText cs else some (String.ofList name, rest)

/-- Reads a key of at most so many parts, with the blanks around it. Gives the last part by
itself. -/
def readKey : Nat → List Char → Option (List String × String × List Char)
  | 0, _ => none
  | room + 1, cs => do
    let (name, rest) ← readKeyPart (skipBlanks cs)
    match skipBlanks rest with
    | '.' :: rest => do
      let (path, last, rest) ← readKey room rest
      some (name :: path, last, rest)
    | rest => some ([], name, rest)

/-- Drops space and comments. The argument tells whether a comment goes on. -/
def skipFiller : Bool → List Char → List Char
  | _, [] => []
  | _, '\n' :: rest => skipFiller false rest
  | _, '\r' :: '\n' :: rest => skipFiller false rest
  | false, ' ' :: rest => skipFiller false rest
  | false, '\t' :: rest => skipFiller false rest
  | false, '#' :: rest => skipFiller true rest
  | false, cs => cs
  | true, c :: rest => if isPlain c then skipFiller true rest else c :: rest

/-- Reads the elements of an array from behind its bracket, at most so many. -/
def readElements (item : List Char → Option (Item × List Char)) :
    Nat → List Item → List Char → Option (Item × List Char)
  | 0, _, _ => none
  | room + 1, done, cs =>
    match skipFiller false cs with
    | ']' :: rest => some (.array done.reverse, rest)
    | rest => do
      let (x, rest) ← item rest
      match skipFiller false rest with
      | ',' :: rest => readElements item room (x :: done) rest
      | ']' :: rest => some (.array (x :: done).reverse, rest)
      | _ => none

/-- Reads a key, the sign after it, and the value. -/
def readPair (item : List Char → Option (Item × List Char)) (cs : List Char) :
    Option (List String × String × Item × List Char) := do
  let (path, name, rest) ← readKey (nestingLimit - 1) cs
  match rest with
  | '=' :: rest =>
    let (x, rest) ← item (skipBlanks rest)
    some (path, name, x, rest)
  | _ => none

/-- Reads the pairs of a table in braces from behind a brace or a comma, at most so many. -/
def readPairs (item : List Char → Option (Item × List Char)) :
    Nat → Entries → List Char → Option (Item × List Char)
  | 0, _, _ => none
  | room + 1, entries, cs => do
    let (path, name, x, rest) ← readPair item cs
    let entries ← entries.assign path name x
    match skipBlanks rest with
    | ',' :: rest => readPairs item room entries rest
    | '\x7d' :: rest => some (.table .inline entries, rest)
    | _ => none

/-- Reads a value inside which brackets nest at most so deep. -/
def readItem : Nat → List Char → Option (Item × List Char)
  | 0, cs => (readText cs).map (fun (s, rest) => (.text s, rest)) <|> readWord cs
  | room + 1, cs =>
    match cs with
    | '[' :: rest => readElements (readItem room) (rest.length + 1) [] rest
    | '\x7b' :: rest =>
      match skipBlanks rest with
      | '\x7d' :: rest => some (.table .inline [], rest)
      | rest => readPairs (readItem room) (rest.length + 1) [] rest
    | cs => readItem 0 cs

/-- Reads what may follow on a line, a comment included, and the end of the line. The end of the
document ends a line as well. -/
def readLineEnd (cs : List Char) : Option (List Char) :=
  let rest := match skipBlanks cs with
    | '#' :: comment => comment.dropWhile isPlain
    | rest => rest
  if rest.isEmpty then some [] else newline? rest

/-- A document of which some lines have been read. -/
structure Draft where
  entries : Entries
  current : List String
  deriving Repr, Inhabited

namespace Draft

def empty : Draft := ⟨[], []⟩

def takeHeader (d : Draft) (repeated : Bool) (path : List String) (name : String) :
    Option Draft :=
  let change := if repeated then Entries.openElement else Entries.openTable
  (change path name d.entries).map fun entries => ⟨entries, path ++ [name]⟩

def takePair (d : Draft) (path : List String) (name : String) (item : Item) : Option Draft :=
  (d.entries.modifyAt false (fun _ entries => entries.assign path name item) d.current .header).map
    fun entries => { d with entries := entries }

def readLine (d : Draft) (cs : List Char) : Option (Draft × List Char) :=
  match skipBlanks cs with
  | '[' :: '[' :: rest => do
    let (path, name, rest) ← readKey (nestingLimit - 1) rest
    match rest with
    | ']' :: ']' :: rest => do some (← d.takeHeader true path name, ← readLineEnd rest)
    | _ => none
  | '[' :: rest => do
    let (path, name, rest) ← readKey (nestingLimit - 1) rest
    match rest with
    | ']' :: rest => do some (← d.takeHeader false path name, ← readLineEnd rest)
    | _ => none
  | rest =>
    match readLineEnd rest with
    | some rest => some (d, rest)
    | none => do
      let (path, name, item, rest) ← readPair (readItem (nestingLimit - 1)) rest
      some (← d.takePair path name item, ← readLineEnd rest)

/-- Reads at most so many lines, up to the end of the document. -/
def readLines : Nat → Draft → List Char → Option Draft
  | _, d, [] => some d
  | 0, _, _ => none
  | room + 1, d, cs =>
    match d.readLine cs with
    | none => none
    | some (d, rest) => readLines room d rest

end Draft

/-- Reads a document. A mark of the byte order at its start is not part of it. -/
def parse? (s : String) : Option Entries :=
  let cs := match s.toList with
    | '\ufeff' :: rest => rest
    | cs => cs
  (Draft.empty.readLines (cs.length + 1) cs).map Draft.entries

end Clockwork.Toml
