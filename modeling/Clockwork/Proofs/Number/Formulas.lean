import Mathlib.Data.Int.Bitwise
import Clockwork.Proofs.Number.Fit
import Clockwork.Value.Operators
/-!
Formulas whose operators carry nothing from higher bits to lower ones. On words they lose bits at
every node, on integers without a limit at none; as far as a signal keeps their values there is no
difference. What is carried through a formula is that both values have the same vector of 128 bits.
-/

namespace Clockwork

namespace Word

theorem getLsbD_ofInt (a : Int) (w i : Nat) :
    (BitVec.ofInt w a).getLsbD i = (decide (i < w) && a.testBit i) := by
  cases a with
  | ofNat n =>
      change (BitVec.ofInt w (n : Int)).getLsbD i = (decide (i < w) && n.testBit i)
      rw [BitVec.ofInt_natCast, BitVec.getLsbD_ofNat]
  | negSucc n =>
      change _ = (decide (i < w) && !n.testBit i)
      rw [BitVec.ofInt_negSucc_eq_not_ofNat, BitVec.getLsbD_not, BitVec.getLsbD_ofNat]
      cases decide (i < w) <;> simp

theorem ofInt_land (w : Nat) (a b : Int) :
    BitVec.ofInt w (Int.land a b) = BitVec.ofInt w a &&& BitVec.ofInt w b := by
  apply BitVec.eq_of_getLsbD_eq
  intro i hi
  simp only [BitVec.getLsbD_and, getLsbD_ofInt, Int.testBit_land, hi, decide_true, Bool.true_and]

theorem ofInt_lor (w : Nat) (a b : Int) :
    BitVec.ofInt w (Int.lor a b) = BitVec.ofInt w a ||| BitVec.ofInt w b := by
  apply BitVec.eq_of_getLsbD_eq
  intro i hi
  simp only [BitVec.getLsbD_or, getLsbD_ofInt, Int.testBit_lor, hi, decide_true, Bool.true_and]

theorem ofInt_lxor (w : Nat) (a b : Int) :
    BitVec.ofInt w (Int.xor a b) = BitVec.ofInt w a ^^^ BitVec.ofInt w b := by
  apply BitVec.eq_of_getLsbD_eq
  intro i hi
  simp only [BitVec.getLsbD_xor, getLsbD_ofInt, Int.testBit_lxor, hi, decide_true, Bool.true_and]

theorem ofInt_lnot (w : Nat) (a : Int) : BitVec.ofInt w (Int.lnot a) = ~~~BitVec.ofInt w a := by
  apply BitVec.eq_of_getLsbD_eq
  intro i hi
  simp only [BitVec.getLsbD_not, getLsbD_ofInt, Int.testBit_lnot, hi, decide_true, Bool.true_and]

theorem ofInt_xor (a b : Int) :
    BitVec.ofInt 128 (Word.xor a b) = BitVec.ofInt 128 a ^^^ BitVec.ofInt 128 b :=
  BitVec.ofInt_toInt

theorem ofInt_sub (a b : Int) :
    BitVec.ofInt 128 (a - b) = BitVec.ofInt 128 a - BitVec.ofInt 128 b := by
  rw [Int.sub_eq_add_neg, BitVec.ofInt_add, BitVec.ofInt_neg, BitVec.sub_eq_add_neg]

theorem ofInt_mul_two_pow (a : Int) {n : Nat} (hn : 128 ≤ n) :
    BitVec.ofInt 128 (a * 2 ^ n) = 0 := by
  have hdvd : ((2 ^ 128 : Nat) : Int) ∣ a * 2 ^ n := (pow_dvd_pow 2 hn).mul_left a
  apply BitVec.eq_of_toNat_eq
  rw [BitVec.toNat_ofInt, Int.emod_eq_zero_of_dvd hdvd]
  rfl

/-- What a signal keeps of a number depends on its vector alone. -/
theorem fit_congr {a b : Int} (h : BitVec.ofInt 128 a = BitVec.ofInt 128 b) {bits : Nat}
    (hpos : 0 < bits) (hlt : bits < 128) (signed : Bool) :
    fit a bits signed = fit b bits signed := by
  have hdvd : (2 ^ bits : Int) ∣ 2 ^ 128 := pow_dvd_pow 2 hlt.le
  have hword : a % 2 ^ 128 = b % 2 ^ 128 := by
    have hnat := congrArg BitVec.toNat h
    rw [BitVec.toNat_ofInt, BitVec.toNat_ofInt] at hnat
    have hint := congrArg Int.ofNat hnat
    rw [Int.ofNat_eq_natCast, Int.ofNat_eq_natCast, Int.toNat_of_nonneg,
      Int.toNat_of_nonneg] at hint
    · exact_mod_cast hint
    · exact Int.emod_nonneg _ (by decide)
    · exact Int.emod_nonneg _ (by decide)
  have hlow : a % 2 ^ bits = b % 2 ^ bits := by
    rw [← Int.emod_emod_of_dvd a hdvd, hword, Int.emod_emod_of_dvd b hdvd]
  rw [fit_of_narrow hpos hlt, fit_of_narrow hpos hlt]
  cases signed with
  | true =>
      simp only [↓reduceIte, Int.bmod]
      push_cast
      rw [hlow]
  | false => simpa using hlow

end Word

/-- A binary operator of which every bit depends on the same and on lower bits of the operands. -/
inductive Carrying where
  | add | sub | mul | bitAnd | bitOr | bitXor
  deriving DecidableEq, Repr

namespace Carrying

def binOp : Carrying → BinOp
  | add => .add | sub => .sub | mul => .mul | bitAnd => .bitAnd | bitOr => .bitOr
  | bitXor => .bitXor

/-- The operator on integers without a limit, for bits on two's complements without an end. -/
def exact : Carrying → Int → Int → Int
  | add => (· + ·) | sub => (· - ·) | mul => (· * ·) | bitAnd => Int.land | bitOr => Int.lor
  | bitXor => Int.xor

def onVectors : Carrying → BitVec 128 → BitVec 128 → BitVec 128
  | add => (· + ·) | sub => (· - ·) | mul => (· * ·) | bitAnd => (· &&& ·) | bitOr => (· ||| ·)
  | bitXor => (· ^^^ ·)

theorem ofInt_exact (op : Carrying) (a b : Int) :
    BitVec.ofInt 128 (op.exact a b) = op.onVectors (BitVec.ofInt 128 a) (BitVec.ofInt 128 b) := by
  cases op with
  | add => exact BitVec.ofInt_add a b
  | sub => exact Word.ofInt_sub a b
  | mul => exact BitVec.ofInt_mul a b
  | bitAnd => exact Word.ofInt_land 128 a b
  | bitOr => exact Word.ofInt_lor 128 a b
  | bitXor => exact Word.ofInt_lxor 128 a b

theorem binary_eq (op : Carrying) (a b : Int) :
    ∃ c, Value.binary op.binOp (.int a) (.int b) = .ok (.int c) ∧
      BitVec.ofInt 128 c = op.onVectors (BitVec.ofInt 128 a) (BitVec.ofInt 128 b) := by
  cases op with
  | add => exact ⟨_, rfl, (Word.ofInt_wrap _).trans (BitVec.ofInt_add a b)⟩
  | sub => exact ⟨_, rfl, (Word.ofInt_wrap _).trans (Word.ofInt_sub a b)⟩
  | mul => exact ⟨_, rfl, (Word.ofInt_wrap _).trans (BitVec.ofInt_mul a b)⟩
  | bitAnd => exact ⟨_, rfl, Word.ofInt_and a b⟩
  | bitOr => exact ⟨_, rfl, Word.ofInt_or a b⟩
  | bitXor => exact ⟨_, rfl, Word.ofInt_xor a b⟩

end Carrying

/-- A formula over numbers. Places to shift by are given, as a word that is not negative. -/
inductive Formula where
  | number (n : Int)
  | binary (op : Carrying) (left right : Formula)
  | plus (operand : Formula)
  | minus (operand : Formula)
  | invert (operand : Formula)
  | shiftLeft (operand : Formula) (places : Nat)

namespace Formula

/-- The value of a formula by the operators on values. -/
def value : Formula → Except SimError Value
  | number n => .ok (.int n)
  | binary op left right => do Value.binary op.binOp (← left.value) (← right.value)
  | plus operand => do Value.unary .plus (← operand.value)
  | minus operand => do Value.unary .minus (← operand.value)
  | invert operand => do Value.unary .invert (← operand.value)
  | shiftLeft operand places => do Value.binary .shiftLeft (← operand.value) (.int places)

/-- The value of a formula over integers without a limit. -/
def exact : Formula → Int
  | number n => n
  | binary op left right => op.exact left.exact right.exact
  | plus operand => operand.exact
  | minus operand => -operand.exact
  | invert operand => Int.lnot operand.exact
  | shiftLeft operand places => operand.exact * 2 ^ places

theorem shiftLeft_eq (a : Int) (places : Nat) :
    ∃ c, Value.binary .shiftLeft (.int a) (.int places) = .ok (.int c) ∧
      BitVec.ofInt 128 c = BitVec.ofInt 128 (a * 2 ^ places) := by
  refine ⟨Word.shiftLeft a places, rfl, ?_⟩
  by_cases hlt : places < 128
  · rw [Word.shiftLeft, if_pos hlt]
    exact Word.ofInt_wrap _
  · rw [Word.shiftLeft, if_neg hlt, Word.ofInt_mul_two_pow a (Nat.le_of_not_lt hlt)]
    rfl

theorem value_eq (f : Formula) :
    ∃ n, f.value = .ok (.int n) ∧ BitVec.ofInt 128 n = BitVec.ofInt 128 f.exact := by
  induction f with
  | number n => exact ⟨n, rfl, rfl⟩
  | binary op left right hleft hright =>
      obtain ⟨a, ha, hvector⟩ := hleft
      obtain ⟨b, hb, hvector'⟩ := hright
      obtain ⟨c, hc, hvector''⟩ := op.binary_eq a b
      refine ⟨c, ?_, ?_⟩
      · rw [value, ha, hb]
        exact hc
      · rw [hvector'', hvector, hvector', exact, op.ofInt_exact]
  | plus operand ih =>
      obtain ⟨a, ha, hvector⟩ := ih
      refine ⟨a, ?_, hvector⟩
      rw [value, ha]
      rfl
  | minus operand ih =>
      obtain ⟨a, ha, hvector⟩ := ih
      refine ⟨Word.neg a, ?_, ?_⟩
      · rw [value, ha]
        rfl
      · rw [Word.neg, Word.ofInt_wrap, BitVec.ofInt_neg, hvector, exact, BitVec.ofInt_neg]
  | invert operand ih =>
      obtain ⟨a, ha, hvector⟩ := ih
      refine ⟨Word.complement a, ?_, ?_⟩
      · rw [value, ha]
        rfl
      · rw [Word.ofInt_complement, hvector, exact, Word.ofInt_lnot]
  | shiftLeft operand places ih =>
      obtain ⟨a, ha, hvector⟩ := ih
      obtain ⟨c, hc, hvector'⟩ := shiftLeft_eq a places
      refine ⟨c, ?_, ?_⟩
      · rw [value, ha]
        exact hc
      · rw [hvector', BitVec.ofInt_mul, hvector, exact, BitVec.ofInt_mul]

/-- What a signal of some width keeps of the value of a formula is the exact value reduced to that
width, whatever bits the words on the way have lost. -/
theorem stored_value_exact (f : Formula) {bits : Nat} (h : 0 < bits) (h' : bits ≤ 126)
    (signed : Bool) :
    ∃ v, f.value = .ok v ∧ v.fit bits signed =
      .int (if signed then Int.bmod f.exact (2 ^ bits) else f.exact % 2 ^ bits) := by
  obtain ⟨n, hn, hvector⟩ := f.value_eq
  have hlt : bits < 128 := by omega
  refine ⟨.int n, hn, ?_⟩
  rw [Value.fit, Word.fit_congr hvector h hlt, Word.fit_of_narrow h hlt]

/-- A product longer than a word, shifted to the left: the low byte is that of the exact number. -/
theorem stored_value_exact_of_product : ∃ v,
    (shiftLeft (binary .mul (number (2 ^ 100 + 3)) (invert (number (2 ^ 90)))) 3).value = .ok v ∧
      v.fit 8 true = .int (-24) := by
  have hpos : 0 < 8 := by decide
  obtain ⟨v, hv, hfit⟩ := stored_value_exact
    (shiftLeft (binary .mul (number (2 ^ 100 + 3)) (invert (number (2 ^ 90)))) 3)
    hpos (by decide) true
  have hexact : Int.bmod (shiftLeft
      (binary .mul (number (2 ^ 100 + 3)) (invert (number (2 ^ 90)))) 3).exact (2 ^ 8) = -24 := by
    decide
  rw [hexact] at hfit
  exact ⟨v, hv, hfit⟩

end Formula

end Clockwork
