import Clockwork.Json.Basic
import Clockwork.Text
/-!
JSON texts in two layouts: `Json.compact` without blanks, and `Json.pretty` with one member or
item a line, indented by two blanks a level. Texts escape quotes, backslashes and control
characters, and nothing else.
-/

namespace Clockwork.Json

/-- The escape of a character inside a text, or the character itself. -/
def escapeChar (c : Char) : List Char :=
  if c = '"' then ['\\', '"']
  else if c = '\\' then ['\\', '\\']
  else if c = '\n' then ['\\', 'n']
  else if c = '\r' then ['\\', 'r']
  else if c = '\t' then ['\\', 't']
  else if c = '\x08' then ['\\', 'b']
  else if c = '\x0c' then ['\\', 'f']
  else if c.toNat < 0x20 then
    ['\\', 'u', '0', '0'] ++ (Text.hexByte (UInt8.ofNat c.toNat)).toList
  else [c]

def quote (s : String) : List Char := '"' :: (s.toList.flatMap escapeChar ++ ['"'])

/-- The digits of a number. A number that is not integral is not kept and prints as its whole
part. -/
def numeral (n : Numeral) : List Char :=
  (if n.negative then ['-'] else []) ++ (Nat.repr n.whole).toList

mutual

/-- The characters of a value without blanks. -/
def compactChars : Json → List Char
  | null => "null".toList
  | bool b => (if b then "true" else "false").toList
  | number n => numeral n
  | text s => quote s
  | array items => '[' :: (compactItems items ++ [']'])
  | object members => '\x7b' :: (compactMembers members ++ ['\x7d'])

def compactItems : List Json → List Char
  | [] => []
  | [j] => compactChars j
  | j :: rest => compactChars j ++ (',' :: compactItems rest)

def compactMembers : List (String × Json) → List Char
  | [] => []
  | [(k, j)] => quote k ++ (':' :: compactChars j)
  | (k, j) :: rest => quote k ++ (':' :: (compactChars j ++ (',' :: compactMembers rest)))

end

def compact (j : Json) : String := String.ofList (compactChars j)

def newline (level : Nat) : List Char := '\n' :: List.replicate (2 * level) ' '

mutual

/-- The characters of a value at a level of indentation. -/
def prettyChars (level : Nat) : Json → List Char
  | null => "null".toList
  | bool b => (if b then "true" else "false").toList
  | number n => numeral n
  | text s => quote s
  | array [] => ['[', ']']
  | array (j :: rest) => '[' :: (prettyItems (level + 1) (j :: rest) ++ (newline level ++ [']']))
  | object [] => ['\x7b', '\x7d']
  | object (m :: rest) =>
    '\x7b' :: (prettyMembers (level + 1) (m :: rest) ++ (newline level ++ ['\x7d']))

def prettyItems (level : Nat) : List Json → List Char
  | [] => []
  | [j] => newline level ++ prettyChars level j
  | j :: rest => newline level ++ (prettyChars level j ++ (',' :: prettyItems level rest))

def prettyMembers (level : Nat) : List (String × Json) → List Char
  | [] => []
  | [(k, j)] => newline level ++ (quote k ++ (':' :: ' ' :: prettyChars level j))
  | (k, j) :: rest =>
    newline level ++ (quote k ++ (':' :: ' ' :: (prettyChars level j ++
      (',' :: prettyMembers level rest))))

end

/-- The text of a value with one member or item a line. -/
def pretty (j : Json) : String := String.ofList (prettyChars 0 j)

end Clockwork.Json
