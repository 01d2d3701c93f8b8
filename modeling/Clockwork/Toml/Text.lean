import Clockwork.Text

namespace Clockwork.Toml

def isPlain (c : Char) : Bool := c = '\t' || (0x20 ≤ c.toNat && c.toNat ≠ 0x7f)

def skipBlanks (cs : List Char) : List Char := cs.dropWhile fun c => c = ' ' || c = '\t'

def newline? : List Char → Option (List Char)
  | '\n' :: rest => some rest
  | '\r' :: '\n' :: rest => some rest
  | _ => none

/-- Drops blanks, tabs and ends of lines. -/
def skipSpace : List Char → List Char
  | ' ' :: rest => skipSpace rest
  | '\t' :: rest => skipSpace rest
  | '\n' :: rest => skipSpace rest
  | '\r' :: '\n' :: rest => skipSpace rest
  | cs => cs

structure Quoting where
  mark : Char
  escapes : Bool
  tripled : Bool
  deriving DecidableEq, Repr, Inhabited

namespace Quoting

/-- Recognises the quotes at the end of a text: quotes that are still part of it, of which a
tripled end has at most two in front, and what follows. -/
def ending? (q : Quoting) (cs : List Char) : Option (List Char × List Char) :=
  let marks := (cs.takeWhile (· == q.mark)).length
  if q.tripled then
    if marks < 3 then none
    else some (List.replicate (min (marks - 3) 2) q.mark, cs.drop (min marks 5))
  else if marks = 0 then none
  else some ([], cs.drop 1)

/-- The character of an escape with some hexadecimal digits, and what follows. -/
def numbered? (digits : Nat) (cs : List Char) : Option (List Char × List Char) := do
  guard (digits ≤ cs.length)
  let c ← (← Text.hexValue? (cs.take digits)) |> Text.scalar?
  some ([c], cs.drop digits)

def short? (c : Char) : Option Char :=
  match c with
  | 'b' => some '\x08'
  | 't' => some '\t'
  | 'n' => some '\n'
  | 'f' => some '\x0c'
  | 'r' => some '\r'
  | '"' => some '"'
  | '\\' => some '\\'
  | _ => none

/-- What an escape stands for, read from behind the backslash. At the end of a line it joins the
text to the next visible character. -/
def escape? (q : Quoting) (cs : List Char) : Option (List Char × List Char) :=
  match cs with
  | 'u' :: rest => numbered? 4 rest
  | 'U' :: rest => numbered? 8 rest
  | [] => none
  | c :: rest =>
    match short? c with
    | some x => some ([x], rest)
    | none =>
      if q.tripled then (newline? (skipBlanks cs)).map fun rest => ([], skipSpace rest) else none

/-- The next piece of a text. An end of line is one character however it is written. -/
def piece? (q : Quoting) (cs : List Char) : Option (List Char × List Char) :=
  match cs with
  | [] => none
  | c :: rest =>
    if c = '\\' ∧ q.escapes then q.escape? rest
    else if isPlain c then some ([c], rest)
    else if q.tripled then (newline? cs).map fun rest => (['\n'], rest)
    else none

/-- Reads a text up to its end, in at most so many pieces; `done` is what was read of it, in
reverse. -/
def readFrom (q : Quoting) : Nat → List Char → List Char → Option (String × List Char)
  | 0, _, _ => none
  | room + 1, done, cs =>
    match q.ending? cs with
    | some (kept, rest) => some (String.ofList (done.reverse ++ kept), rest)
    | none =>
      match q.piece? cs with
      | none => none
      | some (piece, rest) => readFrom q room (piece.reverse ++ done) rest

/-- Reads a text from behind the quotes at its start. The end of the line right after tripled
quotes is not part of it. -/
def read (q : Quoting) (cs : List Char) : Option (String × List Char) :=
  let body := if q.tripled then (newline? cs).getD cs else cs
  q.readFrom (body.length + 1) [] body

/-- The quoting of a text on one line that starts with this character. -/
def ofMark? (c : Char) : Option Quoting :=
  if c = '"' then some ⟨c, true, false⟩
  else if c = '\x27' then some ⟨c, false, false⟩
  else none

end Quoting

def readLineText (cs : List Char) : Option (String × List Char) :=
  match cs with
  | [] => none
  | c :: rest => (Quoting.ofMark? c).bind fun q => q.read rest

def readText (cs : List Char) : Option (String × List Char) :=
  match cs with
  | a :: b :: c :: rest =>
    match Quoting.ofMark? a with
    | none => none
    | some q =>
      if b = a ∧ c = a then ({ q with tripled := true } : Quoting).read rest
      else q.read (b :: c :: rest)
  | cs => readLineText cs

end Clockwork.Toml
