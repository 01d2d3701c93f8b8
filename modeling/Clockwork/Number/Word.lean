/-!
Signed 128-bit words, kept as the integers in `[-2^127, 2^127)`.

Every operation is the one on unbounded integers followed by `wrap`, so a law about words is a
law about integers modulo `2^128`. `fit` cuts a word down to the width of a signal. Where a division
or a mask takes several operations, each of them wraps around or fails where its result is no word.
-/

namespace Clockwork.Word

def least : Int := -Int.pow 2 127

def greatest : Int := Int.pow 2 127 - 1

def InRange (n : Int) : Prop := least ≤ n ∧ n ≤ greatest

instance (n : Int) : Decidable (InRange n) := by unfold InRange; infer_instance

def wrap (n : Int) : Int := Int.bmod n (Nat.pow 2 128)

def add (a b : Int) : Int := wrap (a + b)

def sub (a b : Int) : Int := wrap (a - b)

def mul (a b : Int) : Int := wrap (a * b)

def neg (a : Int) : Int := wrap (-a)

def abs (a : Int) : Int := wrap a.natAbs

def complement (a : Int) : Int := -a - 1

def add? (a b : Int) : Option Int := if InRange (a + b) then some (a + b) else none

def sub? (a b : Int) : Option Int := if InRange (a - b) then some (a - b) else none

/-- The quotient rounded towards zero. The least word divided by -1 wraps around. -/
def quotient (a b : Int) : Int := wrap (Int.tdiv a b)

def remainder (a b : Int) : Int := Int.tmod a b

section Steps

variable {m : Type → Type} [Monad m]

/-- The quotient rounded towards minus infinity. It is one less than the one rounded towards zero if
something remains and the operands have different signs. -/
def floorDivBy (sub : Int → Int → m Int) (a b : Int) : m Int :=
  if remainder a b ≠ 0 ∧ ¬(a < 0 ↔ b < 0) then sub (quotient a b) 1 else pure (quotient a b)

/-- The remainder that goes with `floorDivBy`; it has the sign of the divisor. -/
def floorModBy (add : Int → Int → m Int) (a b : Int) : m Int :=
  let r := remainder a b
  if r ≠ 0 ∧ ¬(r < 0 ↔ b < 0) then add r b else pure r

end Steps

/-- The quotient rounded towards minus infinity. -/
def floorDiv (a b : Int) : Int := Id.run (floorDivBy (fun q n => pure (sub q n)) a b)

def floorMod (a b : Int) : Int := Id.run (floorModBy (fun r n => pure (add r n)) a b)

/-- `floorDiv` without a step that leaves the range of words. -/
def floorDiv? (a b : Int) : Option Int := floorDivBy sub? a b

/-- `floorMod` without a step that leaves the range of words. -/
def floorMod? (a b : Int) : Option Int := floorModBy add? a b

def bitwise (f : BitVec 128 → BitVec 128 → BitVec 128) (a b : Int) : Int :=
  (f (BitVec.ofInt 128 a) (BitVec.ofInt 128 b)).toInt

def and (a b : Int) : Int := bitwise (· &&& ·) a b

def or (a b : Int) : Int := bitwise (· ||| ·) a b

def xor (a b : Int) : Int := bitwise (· ^^^ ·) a b

/-- A left shift; bits that leave the word are lost, so 128 places and more leave nothing. -/
def shiftLeft (a : Int) (n : Nat) : Int := if n < 128 then wrap (a * Int.pow 2 n) else 0

/-- A right shift that keeps the sign; 128 places and more leave only the sign. -/
def shiftRight (a : Int) (n : Nat) : Int :=
  if n < 128 then a / Int.pow 2 n else if a < 0 then -1 else 0

/-- A power by repeated squaring, so that large exponents stay cheap. -/
def power (base : Int) (n : Nat) : Int :=
  if h : n = 0 then 1
  else
    let rest := power (mul base base) (n / 2)
    if n % 2 = 1 then mul rest base else rest
termination_by n
decreasing_by omega

def bit (a : Int) (i : Nat) : Int :=
  if i < 128 then a / Int.pow 2 i % 2 else if a < 0 then 1 else 0

def setBit (a : Int) (i : Nat) (on : Bool) : Int :=
  let word := BitVec.ofInt 128 a
  let place := BitVec.twoPow 128 i
  if on then (word ||| place).toInt else (word &&& ~~~place).toInt

/-- The low `bits` bits of a word read as an unsigned number. A width of 0, or one the word does
not exceed, leaves it as it is. -/
def low (a : Int) (bits : Nat) : Int :=
  if bits = 0 ∨ 128 ≤ bits then a else a % Int.pow 2 bits

/-- The value of a word after it is stored in `bits` bits, read back signed or unsigned. -/
def fit (a : Int) (bits : Nat) (signed : Bool) : Int :=
  if bits = 0 ∨ 128 ≤ bits then a
  else if signed then Int.bmod a (Nat.pow 2 bits) else a % Int.pow 2 bits

def lowBy (sub : Int → Int → Option Int) (a : Int) (bits : Nat) : Option Int :=
  if bits = 0 ∨ 128 ≤ bits then some a else (sub (shiftLeft 1 bits) 1).map (and a)

/-- A word as a width keeps it, by a mask and the sign bit. -/
def fitBy (sub : Int → Int → Option Int) (a : Int) (bits : Nat) (signed : Bool) : Option Int :=
  if bits = 0 ∨ 128 ≤ bits then some a
  else
    (lowBy sub a bits).bind fun kept =>
      if signed = true ∧ and (shiftRight kept (bits - 1)) 1 = 1 then sub kept (shiftLeft 1 bits)
      else some kept

def low? (a : Int) (bits : Nat) : Option Int := lowBy sub? a bits

def fit? (a : Int) (bits : Nat) (signed : Bool) : Option Int := fitBy sub? a bits signed

end Clockwork.Word
