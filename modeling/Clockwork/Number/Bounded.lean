namespace Clockwork.Bounded

def max32 : Nat := 0xFFFFFFFF

def max64 : Nat := 0xFFFFFFFFFFFFFFFF

/-- A 64-bit sum that stops at the largest number. -/
def add64 (a b : Nat) : Nat := min (a + b) max64

/-- A 64-bit product that stops at the largest number. -/
def mul64 (a b : Nat) : Nat := min (a * b) max64

def wrapAdd64 (a b : Nat) : Nat := (a + b) % (max64 + 1)

def nat64? (n : Nat) : Option Nat := if n ≤ max64 then some n else none

def toNat64? (n : Int) : Option Nat :=
  if 0 ≤ n ∧ n.toNat ≤ max64 then some n.toNat else none

def toNat32? (n : Int) : Option Nat :=
  if 0 ≤ n ∧ n.toNat ≤ max32 then some n.toNat else none

end Clockwork.Bounded
