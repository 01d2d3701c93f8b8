import Clockwork.Json.Basic
import Clockwork.Text
/-!
Reading JSON in two passes over lists: characters to tokens, and tokens to a value. The second
pass keeps the open arrays and objects on a stack, so the depth of nesting is the height of the
stack and a limit on it is a test on the stack.
-/

namespace Clockwork.Json

open Text (isDigit decimal scalar?)

inductive Token where
  | openArray
  | closeArray
  | openObject
  | closeObject
  | comma
  | colon
  | null
  | bool (b : Bool)
  | number (n : Numeral)
  | text (s : String)
  deriving DecidableEq, Repr, Inhabited

/-- What the characters read so far are part of. Collected characters are in reverse. -/
inductive Lexeme where
  | between
  | inText (done : List Char)
  | inNumber (done : List Char)
  | inWord (done : List Char)
  deriving Repr, Inhabited

def isNumeral (c : Char) : Bool :=
  isDigit c || c == '-' || c == '+' || c == '.' || c == 'e' || c == 'E'

def isLetter (c : Char) : Bool := 'a' ≤ c && c ≤ 'z'

def isBlank (c : Char) : Bool := c == ' ' || c == '\n' || c == '\r' || c == '\t'

def isDigits (cs : List Char) : Bool := !cs.isEmpty && cs.all isDigit

def isExponent : List Char → Bool
  | '+' :: rest => isDigits rest
  | '-' :: rest => isDigits rest
  | rest => isDigits rest

/-- What may follow the whole part of a number: a fraction, an exponent, or both. -/
def isFraction (cs : List Char) : Bool :=
  match cs with
  | '.' :: rest =>
    let (digits, tail) := rest.span isDigit
    !digits.isEmpty && match tail with
      | [] => true
      | 'e' :: more => isExponent more
      | 'E' :: more => isExponent more
      | _ => false
  | 'e' :: more => isExponent more
  | 'E' :: more => isExponent more
  | _ => false

/-- The numeral that some characters form: no superfluous zero in front of the whole part, and a
digit on both sides of a point. -/
def numeral? (cs : List Char) : Option Numeral :=
  let (negative, rest) := match cs with
    | '-' :: rest => (true, rest)
    | rest => (false, rest)
  let (digits, tail) := rest.span isDigit
  if digits.isEmpty || (digits.head? == some '0' && digits.length != 1) then none
  else if tail.isEmpty then some ⟨negative, decimal digits, true⟩
  else if isFraction tail then some ⟨negative, decimal digits, false⟩
  else none

def word? (cs : List Char) : Option Token :=
  if cs = "null".toList then some .null
  else if cs = "true".toList then some (.bool true)
  else if cs = "false".toList then some (.bool false)
  else none

def mark? (c : Char) : Option Token :=
  match c with
  | '[' => some .openArray
  | ']' => some .closeArray
  | '\x7b' => some .openObject
  | '\x7d' => some .closeObject
  | ',' => some .comma
  | ':' => some .colon
  | _ => none

def escape? (c : Char) : Option Char :=
  match c with
  | '"' => some '"'
  | '\\' => some '\\'
  | '/' => some '/'
  | 'b' => some '\x08'
  | 'f' => some '\x0c'
  | 'n' => some '\n'
  | 'r' => some '\r'
  | 't' => some '\t'
  | _ => none

def surrogatePair? (high low : Nat) : Option Char :=
  if 0xd800 ≤ high ∧ high < 0xdc00 ∧ 0xdc00 ≤ low ∧ low < 0xe000 then
    scalar? (0x10000 + (high - 0xd800) * 0x400 + (low - 0xdc00))
  else none

/-- Takes a character that starts a token: the tokens it ends, in front of those found before, and
what it is part of. -/
def begin? (found : List Token) (c : Char) : Option (List Token × Lexeme) :=
  if isBlank c then some (found, .between)
  else if c = '"' then some (found, .inText [])
  else if isDigit c || c == '-' then some (found, .inNumber [c])
  else if isLetter c then some (found, .inWord [c])
  else (mark? c).map fun t => (t :: found, .between)

/-- The tokens of a text, given those found so far in reverse and the lexeme to continue. -/
def lex (found : List Token) : Lexeme → List Char → Option (List Token)
  | .between, [] => some found.reverse
  | .inText _, [] => none
  | .inNumber done, [] => (numeral? done.reverse).map fun n => (.number n :: found).reverse
  | .inWord done, [] => (word? done.reverse).map fun t => (t :: found).reverse
  | .inText done, '"' :: rest => lex (.text (String.ofList done.reverse) :: found) .between rest
  | .inText done, '\\' :: 'u' :: a :: b :: c :: d :: rest =>
    match Text.hexValue? [a, b, c, d] with
    | none => none
    | some high =>
      match scalar? high with
      | some x => lex found (.inText (x :: done)) rest
      | none =>
        match rest with
        | '\\' :: 'u' :: e :: f :: g :: h :: rest' =>
          match (Text.hexValue? [e, f, g, h]).bind (surrogatePair? high) with
          | none => none
          | some x => lex found (.inText (x :: done)) rest'
        | _ => none
  | .inText done, '\\' :: c :: rest =>
    match escape? c with
    | none => none
    | some x => lex found (.inText (x :: done)) rest
  | .inText _, ['\\'] => none
  | .inText done, c :: rest =>
    if c.toNat < 0x20 then none else lex found (.inText (c :: done)) rest
  | .between, c :: rest =>
    match begin? found c with
    | none => none
    | some (found', next) => lex found' next rest
  | .inNumber done, c :: rest =>
    if isNumeral c then lex found (.inNumber (c :: done)) rest
    else
      match (numeral? done.reverse).bind fun n => begin? (.number n :: found) c with
      | none => none
      | some (found', next) => lex found' next rest
  | .inWord done, c :: rest =>
    if isLetter c then lex found (.inWord (c :: done)) rest
    else
      match (word? done.reverse).bind fun t => begin? (t :: found) c with
      | none => none
      | some (found', next) => lex found' next rest

/-- An array or object whose end is still to come; what it holds so far is in reverse. -/
inductive Container where
  | array (done : List Json)
  | object (done : List (String × Json)) (key : String)
  deriving Repr, Inhabited

inductive Expectation where
  | value
  | item
  | key (first : Bool) (done : List (String × Json))
  | colon (done : List (String × Json)) (key : String)
  /-- A comma or the end of the innermost container, after this value. -/
  | after (j : Json)
  deriving Repr, Inhabited

def Token.value? : Token → Option Json
  | .null => some .null
  | .bool b => some (.bool b)
  | .number n => some (.number n)
  | .text s => some (.text s)
  | _ => none

def startValue (limit : Nat) (stack : List Container) (t : Token) :
    Option (List Container × Expectation) :=
  match t with
  | .openArray => if stack.length < limit then some (.array [] :: stack, .item) else none
  | .openObject => if stack.length < limit then some (stack, .key true []) else none
  | t => t.value?.map fun j => (stack, .after j)

def advance (limit : Nat) (stack : List Container) (e : Expectation) (t : Token) :
    Option (List Container × Expectation) :=
  match e, t with
  | .item, .closeArray =>
    match stack with
    | .array done :: rest => some (rest, .after (.array done.reverse))
    | _ => none
  | .item, t => startValue limit stack t
  | .value, t => startValue limit stack t
  | .key first done, .closeObject =>
    if first then some (stack, .after (.object done.reverse)) else none
  | .key _ done, .text k => some (stack, .colon done k)
  | .key _ _, _ => none
  | .colon done k, .colon => some (.object done k :: stack, .value)
  | .colon _ _, _ => none
  | .after j, .comma =>
    match stack with
    | .array done :: rest => some (.array (j :: done) :: rest, .value)
    | .object done k :: rest => some (rest, .key false ((k, j) :: done))
    | [] => none
  | .after j, .closeArray =>
    match stack with
    | .array done :: rest => some (rest, .after (.array (j :: done).reverse))
    | _ => none
  | .after j, .closeObject =>
    match stack with
    | .object done k :: rest => some (rest, .after (.object ((k, j) :: done).reverse))
    | _ => none
  | .after _, _ => none

/-- Reads tokens to the end, where one whole value has to be complete. -/
def build (limit : Nat) : List Container → Expectation → List Token → Option Json
  | [], .after j, [] => some j
  | _, _, [] => none
  | stack, e, t :: rest =>
    match advance limit stack e t with
    | none => none
    | some (stack', e') => build limit stack' e' rest

/-- Reads a JSON text whose arrays and objects nest at most `limit` deep. -/
def parse? (limit : Nat) (s : String) : Option Json :=
  match lex [] .between s.toList with
  | none => none
  | some tokens => build limit [] .value tokens

end Clockwork.Json
