import Clockwork.Text
import Clockwork.Toml.Basic

namespace Clockwork.Toml

open Text (isDigit decimal)

def isLetter (c : Char) : Bool := ('a' ≤ c && c ≤ 'z') || ('A' ≤ c && c ≤ 'Z')

def isWordChar (c : Char) : Bool :=
  isLetter c || isDigit c || c == '+' || c == '-' || c == '_' || c == '.' || c == ':'

/-- A run of digits without the underscores between them. An underscore has a digit on both
sides. -/
def ungroup? (isDigit : Char → Bool) : List Char → Option (List Char)
  | [] => none
  | [c] => if isDigit c then some [c] else none
  | c :: '_' :: rest => if isDigit c then (ungroup? isDigit rest).map (c :: ·) else none
  | c :: rest => if isDigit c then (ungroup? isDigit rest).map (c :: ·) else none

def splitSign : List Char → Bool × List Char
  | '+' :: rest => (false, rest)
  | '-' :: rest => (true, rest)
  | cs => (false, cs)

/-- The digits of the whole part of a decimal number. Zero is the only one that starts with
zero. -/
def wholeDigits? (cs : List Char) : Option (List Char) :=
  if cs.head? = some '0' ∧ cs.length ≠ 1 then none else ungroup? isDigit cs

/-- The number written by the digits of a base that is a power of two. -/
def based? (base : Nat) (cs : List Char) : Option Nat :=
  let inBase (c : Char) : Bool := (Text.hexDigit? c).any (· < base)
  (ungroup? inBase cs).map fun digits =>
    digits.foldl (fun n c => base * n + (Text.hexDigit? c).getD 0) 0

def within64? (n : Int) : Option Int :=
  if -Int.pow 2 63 ≤ n ∧ n < Int.pow 2 63 then some n else none

/-- The integer that a word writes: decimal with an optional sign, or in base 16, 8 or 2. -/
def integer? (word : List Char) : Option Int :=
  match word with
  | '0' :: 'x' :: digits => (based? 16 digits).bind fun n => within64? n
  | '0' :: 'o' :: digits => (based? 8 digits).bind fun n => within64? n
  | '0' :: 'b' :: digits => (based? 2 digits).bind fun n => within64? n
  | _ =>
    let (negative, rest) := splitSign word
    (wholeDigits? rest).bind fun digits =>
      within64? (if negative then -decimal digits else decimal digits)

def exponent? (cs : List Char) : Option Int :=
  let (negative, rest) := splitSign cs
  (ungroup? isDigit rest).map fun digits => if negative then -decimal digits else decimal digits

def isExponentMark (c : Char) : Bool := c == 'e' || c == 'E'

/-- The digits of the fraction and the exponent behind the whole part. One of them has to be
there. -/
def fraction? (cs : List Char) : Option (List Char × Int) :=
  match cs with
  | '.' :: rest =>
    let (places, tail) := rest.span fun c => !isExponentMark c
    (ungroup? isDigit places).bind fun places =>
      match tail with
      | [] => some (places, 0)
      | _ :: exponent => (exponent? exponent).map fun e => (places, e)
  | c :: exponent => if isExponentMark c then (exponent? exponent).map fun e => ([], e) else none
  | [] => none

/-- Whether a number `digits · 10 ^ exponent` is too large for a real of 64 bits: at least halfway
from the largest one to the next power of two. -/
def exceedsReals (digits : Nat) (exponent : Int) : Bool :=
  let limit := Nat.pow 2 1024 - Nat.pow 2 970
  let size := exponent + (Nat.toDigits 10 digits).length
  if digits = 0 ∨ size < 300 then false
  else if 320 < size then true
  else if 0 ≤ exponent then limit ≤ digits * Nat.pow 10 exponent.toNat
  else limit * Nat.pow 10 (-exponent).toNat ≤ digits

/-- Whether a word writes a real. A positive number must not be too large for one; a negative one
may be. -/
def isReal (word : List Char) : Bool :=
  let (negative, rest) := splitSign word
  if rest = ['i', 'n', 'f'] ∨ rest = ['n', 'a', 'n'] then true
  else
    let (front, back) := rest.span fun c => !(c == '.' || isExponentMark c)
    match wholeDigits? front, fraction? back with
    | some whole, some (places, exponent) =>
      negative || !exceedsReals (decimal (whole ++ places)) (exponent - places.length)
    | _, _ => false

def twoDigits? (low high : Nat) (a b : Char) : Option Nat :=
  if isDigit a ∧ isDigit b ∧ low ≤ decimal [a, b] ∧ decimal [a, b] ≤ high then
    some (decimal [a, b])
  else none

def daysIn (year month : Nat) : Nat :=
  if month = 2 then
    if year % 4 = 0 ∧ (year % 100 ≠ 0 ∨ year % 400 = 0) then 29 else 28
  else if month = 4 ∨ month = 6 ∨ month = 9 ∨ month = 11 then 30
  else 31

def date? : List Char → Option (List Char)
  | y₁ :: y₂ :: y₃ :: y₄ :: '-' :: m₁ :: m₂ :: '-' :: d₁ :: d₂ :: rest =>
    let year := [y₁, y₂, y₃, y₄]
    if year.all isDigit then
      match twoDigits? 1 12 m₁ m₂ with
      | some month => (twoDigits? 1 (daysIn (decimal year) month) d₁ d₂).map fun _ => rest
      | none => none
    else none
  | _ => none

def time? : List Char → Option (List Char)
  | h₁ :: h₂ :: ':' :: m₁ :: m₂ :: ':' :: s₁ :: s₂ :: rest =>
    match twoDigits? 0 23 h₁ h₂, twoDigits? 0 59 m₁ m₂, twoDigits? 0 60 s₁ s₂ with
    | some _, some _, some _ =>
      match rest with
      | '.' :: places => if (places.takeWhile isDigit).isEmpty then none
        else some (places.dropWhile isDigit)
      | rest => some rest
    | _, _, _ => none
  | _ => none

/-- Whether nothing follows a time of day, or only the offset of its zone. -/
def isZone : List Char → Bool
  | [] => true
  | ['Z'] => true
  | ['z'] => true
  | [sign, h₁, h₂, ':', m₁, m₂] =>
    (sign == '+' || sign == '-') && (twoDigits? 0 23 h₁ h₂).isSome && (twoDigits? 0 59 m₁ m₂).isSome
  | _ => false

def isZonedTime (word : List Char) : Bool := (time? word).any isZone

def isDate (word : List Char) : Bool := (date? word).any List.isEmpty

def isMoment (word : List Char) : Bool :=
  match date? word with
  | some [] => true
  | some (mark :: time) => (mark == 'T' || mark == 't') && isZonedTime time
  | none => (time? word).any List.isEmpty

def item? (word : List Char) : Option Item :=
  if word = "true".toList then some (.bool true)
  else if word = "false".toList then some (.bool false)
  else if isMoment word then some (.moment (String.ofList word))
  else
    match integer? word with
    | some n => some (.integer n)
    | none => if isReal word then some (.real (String.ofList word)) else none

/-- Reads a word. A blank may stand between a date and a time of day. -/
def readWord (cs : List Char) : Option (Item × List Char) :=
  let (word, rest) := cs.span isWordChar
  match rest with
  | ' ' :: c :: more =>
    if isDate word ∧ isDigit c then
      let (time, rest) := (c :: more).span isWordChar
      if isZonedTime time then some (.moment (String.ofList (word ++ ' ' :: time)), rest) else none
    else (item? word).map fun i => (i, rest)
  | rest => (item? word).map fun i => (i, rest)

end Clockwork.Toml
