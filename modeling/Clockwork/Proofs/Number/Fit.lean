import Mathlib.Algebra.Order.Ring.Int
import Mathlib.Tactic.NormNum
import Clockwork.Number.Word
import Clockwork.Value.Basic
/-!
Words as vectors of 128 bits, and what is left of a word in a signal of some width. A value that was
made to fit is one that the width can hold, and fitting it once more leaves it alone.
-/

namespace Clockwork

namespace Word

theorem ofInt_wrap (a : Int) : BitVec.ofInt 128 (wrap a) = BitVec.ofInt 128 a := by
  have h : wrap a = (BitVec.ofInt 128 a).toInt := (BitVec.toInt_ofInt a).symm
  rw [h, BitVec.ofInt_toInt]

theorem ofInt_and (a b : Int) :
    BitVec.ofInt 128 (Word.and a b) = BitVec.ofInt 128 a &&& BitVec.ofInt 128 b :=
  BitVec.ofInt_toInt

theorem ofInt_or (a b : Int) :
    BitVec.ofInt 128 (Word.or a b) = BitVec.ofInt 128 a ||| BitVec.ofInt 128 b :=
  BitVec.ofInt_toInt

theorem ofInt_complement (a : Int) :
    BitVec.ofInt 128 (complement a) = ~~~BitVec.ofInt 128 a := by
  have h : complement a + 1 = -a := by
    rw [complement]
    omega
  have hadd := congrArg (BitVec.ofInt 128) h
  rw [BitVec.ofInt_add, BitVec.ofInt_neg, BitVec.neg_eq_not_add] at hadd
  exact (BitVec.add_left_inj _).mp hadd

theorem ofInt_shiftLeft (a : Nat) {n : Nat} (hn : n < 128) :
    BitVec.ofInt 128 (shiftLeft a n) = BitVec.ofNat 128 a <<< n := by
  have hpow : (a : Int) * Int.pow 2 n = ((a * 2 ^ n : Nat) : Int) := by
    push_cast
    rfl
  have htwo : BitVec.ofNat 128 (2 ^ n) = BitVec.twoPow 128 n := by
    apply BitVec.eq_of_toNat_eq
    rw [BitVec.toNat_ofNat, BitVec.toNat_twoPow]
  rw [shiftLeft, if_pos hn, hpow, ofInt_wrap, BitVec.ofInt_natCast, BitVec.ofNat_mul, htwo,
    BitVec.shiftLeft_eq_mul_twoPow]

theorem low_eq (a : Int) {bits : Nat} (h : 0 < bits) (h' : bits < 128) :
    low a bits = ((BitVec.ofInt 128 a).toNat % 2 ^ bits : Nat) := by
  have hdvd : (2 ^ bits : Int) ∣ 2 ^ 128 := pow_dvd_pow 2 h'.le
  have hnonneg : 0 ≤ a % ((2 ^ 128 : Nat) : Int) := Int.emod_nonneg _ (by decide)
  rw [low, if_neg (by omega), BitVec.toNat_ofInt]
  push_cast
  rw [Int.toNat_of_nonneg (by exact_mod_cast hnonneg)]
  exact (Int.emod_emod_of_dvd a hdvd).symm

theorem low_natCast (n : Nat) {bits : Nat} (h : 0 < bits) (h' : bits < 128) :
    low n bits = (n % 2 ^ bits : Nat) := by
  rw [low, if_neg (by omega)]
  push_cast
  rfl

theorem low_nonneg (a : Int) {bits : Nat} (h : 0 < bits) (h' : bits < 128) : 0 ≤ low a bits := by
  rw [low_eq a h h']
  exact Int.natCast_nonneg _

theorem low_lt (a : Int) {bits : Nat} (h : 0 < bits) (h' : bits < 128) :
    low a bits < (2 ^ bits : Nat) := by
  rw [low_eq a h h', Int.ofNat_lt]
  exact Nat.mod_lt _ (Nat.two_pow_pos bits)

theorem shiftRight_natCast (n : Nat) {places : Nat} (h : places < 128) :
    shiftRight n places = (n / 2 ^ places : Nat) := by
  rw [shiftRight, if_pos h]
  push_cast
  rfl

/-- A number that a signal of some width holds: one without a sign is in `[0, 2 ^ bits)`, one with a
sign in `[-2 ^ (bits - 1), 2 ^ (bits - 1))`. -/
def Fits (bits : Nat) (signed : Bool) (n : Int) : Prop :=
  if signed then -2 ^ (bits - 1) ≤ n ∧ n < 2 ^ (bits - 1) else 0 ≤ n ∧ n < 2 ^ bits

instance (bits : Nat) (signed : Bool) (n : Int) : Decidable (Fits bits signed n) :=
  inferInstanceAs (Decidable (if signed then _ ∧ _ else _ ∧ _))

theorem fit_of_narrow {bits : Nat} (h : 0 < bits) (h' : bits < 128) (n : Int) (signed : Bool) :
    fit n bits signed = if signed then Int.bmod n (2 ^ bits) else n % 2 ^ bits := by
  have hnarrow : ¬ (bits = 0 ∨ 128 ≤ bits) := by omega
  rw [fit, if_neg hnarrow]
  rfl

theorem two_pow_pred {bits : Nat} (h : 0 < bits) : 2 ^ bits = 2 * 2 ^ (bits - 1) := by
  conv_lhs => rw [← Nat.sub_add_cancel h, Nat.pow_succ, Nat.mul_comm]

theorem cast_two_pow_pred {bits : Nat} (h : 0 < bits) :
    ((2 ^ bits : Nat) : Int) = 2 * 2 ^ (bits - 1) := by
  rw [two_pow_pred h]
  push_cast
  rfl

theorem fits_fit {bits : Nat} (h : 0 < bits) (h' : bits < 128) (n : Int) (signed : Bool) :
    Fits bits signed (fit n bits signed) := by
  rw [fit_of_narrow h h']
  cases signed with
  | true =>
      have hpos : 0 < 2 ^ bits := Nat.two_pow_pos bits
      have hlow := Int.le_bmod (x := n) hpos
      have hhigh := Int.bmod_lt (x := n) hpos
      have hhalf := cast_two_pow_pred h
      simp only [Fits, ↓reduceIte]
      omega
  | false =>
      have hpos : (0 : Int) < 2 ^ bits := Int.pow_pos (by decide)
      simp only [Fits, Bool.false_eq_true, ↓reduceIte]
      exact ⟨Int.emod_nonneg n (Int.ne_of_gt hpos), Int.emod_lt_of_pos n hpos⟩

theorem fit_eq_self_iff {bits : Nat} (h : 0 < bits) (h' : bits < 128) {n : Int} {signed : Bool} :
    fit n bits signed = n ↔ Fits bits signed n := by
  constructor
  · intro hn
    rw [← hn]
    exact fits_fit h h' n signed
  · intro hn
    rw [fit_of_narrow h h']
    cases signed with
    | true =>
        simp only [Fits, ↓reduceIte] at hn ⊢
        have hhalf := cast_two_pow_pred h
        exact Int.bmod_eq_of_le_mul_two (by omega) (by omega)
    | false =>
        simp only [Fits, Bool.false_eq_true, ↓reduceIte] at hn ⊢
        exact Int.emod_eq_of_lt hn.1 hn.2

theorem fit_fit (n : Int) (bits : Nat) (signed : Bool) :
    fit (fit n bits signed) bits signed = fit n bits signed := by
  unfold fit
  split
  · rfl
  · split
    · exact Int.bmod_bmod
    · exact Int.emod_emod_of_dvd n (Int.dvd_refl _)

end Word

namespace Value

/-- What a signal of some width holds: a number of that width, or something that is neither a number
nor a truth value. -/
def Fits (bits : Nat) (signed : Bool) : Value → Prop
  | .int n => Word.Fits bits signed n
  | .bool _ => False
  | _ => True

theorem fit_fit (v : Value) (bits : Nat) (signed : Bool) :
    (v.fit bits signed).fit bits signed = v.fit bits signed := by
  cases v <;> simp only [fit, Word.fit_fit]

theorem fits_of_fit_eq {v : Value} {bits : Nat} {signed : Bool} (h : 0 < bits) (h' : bits < 128)
    (hv : v.fit bits signed = v) : v.Fits bits signed := by
  cases v with
  | int n =>
      have hn : Word.fit n bits signed = n := Value.int.inj hv
      change Word.Fits bits signed n
      rw [← hn]
      exact Word.fits_fit h h' n signed
  | bool b => cases hv
  | _ => trivial

end Value

namespace Word

theorem bit_congr {a b : Int} {bits i : Nat} (hi : i < bits) (hbits : bits ≤ 128)
    (h : a % 2 ^ bits = b % 2 ^ bits) : bit a i = bit b i := by
  have hsplit : (2 : Int) ^ bits = 2 ^ i * (2 * 2 ^ (bits - i - 1)) := by
    rw [← pow_succ', ← pow_add]
    congr 1
    omega
  have hlow : ∀ c : Int, c / 2 ^ i % 2 = c % 2 ^ bits / 2 ^ i % 2 := by
    intro c
    have hpos : (2 : Int) ^ i ≠ 0 := pow_ne_zero i (by decide)
    conv_lhs => rw [← Int.emod_add_mul_ediv c (2 ^ bits), hsplit, Int.mul_assoc (2 ^ i),
      Int.add_mul_ediv_left _ _ hpos, Int.mul_assoc 2, Int.add_mul_emod_self_left, ← hsplit]
  have hword : i < 128 := by omega
  rw [bit, bit, if_pos hword, if_pos hword]
  exact (hlow a).trans ((congrArg (· / 2 ^ i % 2) h).trans (hlow b).symm)

theorem bit_fit (a : Int) {bits i : Nat} (hi : i < bits) (hbits : bits < 128) (signed : Bool) :
    bit (fit a bits signed) i = bit a i := by
  refine bit_congr hi hbits.le ?_
  rw [fit_of_narrow (by omega) hbits]
  cases signed with
  | true => exact_mod_cast @Int.bmod_emod a (2 ^ bits)
  | false => exact Int.emod_emod_of_dvd a (Int.dvd_refl _)

theorem bit_eq (a : Int) {i : Nat} (hi : i < 128) :
    bit a i = Value.ofTruth ((BitVec.ofInt 128 a).getLsbD i) := by
  have hnat : bit a i = bit (BitVec.ofInt 128 a).toNat i := by
    refine bit_congr hi le_rfl ?_
    rw [BitVec.toNat_ofInt, Int.toNat_of_nonneg (Int.emod_nonneg _ (by decide))]
    exact (Int.emod_emod_of_dvd a (Int.dvd_refl _)).symm
  have hbit : ∀ n : Nat, bit n i = (n / 2 ^ i % 2 : Nat) := by
    intro n
    rw [bit, if_pos hi]
    push_cast
    rfl
  rw [hnat, hbit, BitVec.getLsbD, Nat.testBit_eq_decide_div_mod_eq]
  generalize (BitVec.ofInt 128 a).toNat / 2 ^ i = n
  rcases Nat.mod_two_eq_zero_or_one n with h | h <;> rw [h] <;> rfl

theorem bit_setBit (a : Int) {i j : Nat} (hi : i < 128) (hj : j < 128) (on : Bool) :
    bit (setBit a i on) j = if j = i then Value.ofTruth on else bit a j := by
  have hvector : BitVec.ofInt 128 (setBit a i on) =
      if on then BitVec.ofInt 128 a ||| BitVec.twoPow 128 i
      else BitVec.ofInt 128 a &&& ~~~BitVec.twoPow 128 i := by
    cases on <;> exact BitVec.ofInt_toInt
  rw [bit_eq _ hj, bit_eq _ hj, hvector]
  by_cases hij : j = i
  · subst hij
    cases on <;> simp [hj]
  · cases on <;> simp [hj, hij]

end Word

end Clockwork
