import Mathlib.Data.Int.ModEq
import Clockwork.Elaboration.Instance
import Clockwork.Proofs.Number.Fit
import Clockwork.Value.Basic
/-!
Masks of ones and the sign bit. Cutting a word down by them comes to the number that `fit` and `low`
give. All steps on the way are words at every width but 127: there the place beyond the mask is the
least word, and one less is none.
-/

namespace Clockwork

namespace Word

theorem inRange_iff {n : Int} : InRange n ↔ -2 ^ 127 ≤ n ∧ n < 2 ^ 127 := by
  change -2 ^ 127 ≤ n ∧ n ≤ 2 ^ 127 - 1 ↔ _
  omega

theorem wrap_of_inRange {n : Int} (h : InRange n) : wrap n = n := by
  obtain ⟨hlow, hhigh⟩ := inRange_iff.mp h
  apply Int.bmod_eq_of_le
  · change -(2 ^ 128 / 2 : Int) ≤ n
    omega
  · change n < ((2 ^ 128 + 1) / 2 : Int)
    omega

theorem two_pow_lt {bits : Nat} (h : bits < 127) : (2 : Int) ^ bits < 2 ^ 127 :=
  pow_lt_pow_right₀ (by decide) h

theorem shiftLeft_one {bits : Nat} (h : bits < 127) : shiftLeft 1 bits = 2 ^ bits := by
  have hlt := two_pow_lt h
  have hpos : (0 : Int) < 2 ^ bits := Int.pow_pos (by decide)
  rw [shiftLeft, if_pos (by omega), Int.one_mul]
  change wrap (2 ^ bits) = 2 ^ bits
  exact wrap_of_inRange (inRange_iff.mpr ⟨by omega, hlt⟩)

theorem and_ones (a : Int) {m : Int} {bits : Nat} (h : 0 < bits) (h' : bits < 128)
    (hm : BitVec.ofInt 128 m = BitVec.ofNat 128 (2 ^ bits - 1)) : and a m = low a bits := by
  have hpow : 2 ^ bits ≤ 2 ^ 127 := Nat.pow_le_pow_right (by decide) (by omega)
  have hones : (BitVec.ofNat 128 (2 ^ bits - 1)).toNat = 2 ^ bits - 1 := by
    rw [BitVec.toNat_ofNat, Nat.mod_eq_of_lt (by omega)]
  have hnat : (BitVec.ofInt 128 a &&& BitVec.ofInt 128 m).toNat =
      (BitVec.ofInt 128 a).toNat % 2 ^ bits := by
    rw [BitVec.toNat_and, hm, hones, Nat.and_two_pow_sub_one_eq_mod]
  have hlt : (BitVec.ofInt 128 a).toNat % 2 ^ bits < 2 ^ bits := Nat.mod_lt _ (Nat.two_pow_pos bits)
  rw [low_eq a h h', and, bitwise, BitVec.toInt_eq_toNat_of_lt, hnat]
  rw [hnat]
  omega

theorem and_shiftRight_low (a : Int) {bits : Nat} (h : 0 < bits) (h' : bits < 128) :
    and (shiftRight (low a bits) (bits - 1)) 1 = 1 ↔ 2 ^ (bits - 1) ≤ low a bits := by
  have hlt : (BitVec.ofInt 128 a).toNat % 2 ^ bits < 2 * 2 ^ (bits - 1) := by
    rw [← two_pow_pred h]
    exact Nat.mod_lt _ (Nat.two_pow_pos bits)
  rw [low_eq a h h', shiftRight_natCast _ (by omega), and_ones _ Nat.one_pos (by decide) rfl,
    low_natCast _ Nat.one_pos (by decide)]
  generalize (BitVec.ofInt 128 a).toNat % 2 ^ bits = n at hlt
  have hdiv : n / 2 ^ (bits - 1) < 2 := Nat.div_lt_of_lt_mul (by rwa [Nat.mul_comm])
  have hpos : 0 < 2 ^ (bits - 1) := Nat.two_pow_pos _
  have hone : n / 2 ^ (bits - 1) = 1 ↔ 2 ^ (bits - 1) ≤ n := by
    rw [← Nat.one_le_div_iff hpos]
    omega
  have hcast : (2 : Int) ^ (bits - 1) ≤ n ↔ 2 ^ (bits - 1) ≤ n := by exact_mod_cast Iff.rfl
  rw [hcast, ← hone, Nat.pow_one, Nat.mod_eq_of_lt hdiv]
  exact Int.ofNat_inj

theorem fit_eq_low (a : Int) {bits : Nat} (h : 0 < bits) (h' : bits < 128) (signed : Bool) :
    fit a bits signed = if signed = true ∧ 2 ^ (bits - 1) ≤ low a bits then
      low a bits - 2 ^ bits else low a bits := by
  have hlow : low a bits = a % 2 ^ bits := if_neg (by omega)
  have hhalf : (2 : Int) ^ bits = 2 * 2 ^ (bits - 1) := by exact_mod_cast two_pow_pred h
  rw [fit_of_narrow h h', hlow]
  cases signed with
  | true =>
      simp only [↓reduceIte, true_and, Int.bmod]
      push_cast
      rw [hhalf]
      split <;> split <;> omega
  | false => simp

def Subtracts (sub : Int → Int → Option Int) : Prop :=
  ∀ a b, InRange (a - b) → sub a b = some (a - b)

theorem subtracts_sub? : Subtracts sub? := fun _ _ h => if_pos h

theorem subtracts_sub : Subtracts fun a b => some (sub a b) :=
  fun _ _ h => congrArg some (wrap_of_inRange h)

section Widths

variable {sub : Int → Int → Option Int} {bits : Nat}

theorem lowBy_eq (hsub : Subtracts sub) (a : Int) (h : bits ≠ 127) :
    lowBy sub a bits = some (low a bits) := by
  by_cases hwide : bits = 0 ∨ 128 ≤ bits
  · rw [lowBy, low, if_pos hwide, if_pos hwide]
  · have hlt : bits < 127 := by omega
    have hpow := two_pow_lt hlt
    have hpos : (0 : Int) < 2 ^ bits := Int.pow_pos (by decide)
    rw [lowBy, if_neg hwide, shiftLeft_one hlt, hsub _ _ (inRange_iff.mpr ⟨by omega, by omega⟩),
      Option.map_some]
    refine congrArg some (and_ones a (by omega) (by omega) ?_)
    have hcast : (2 : Int) ^ bits - 1 = ((2 ^ bits - 1 : Nat) : Int) := by
      push_cast [Nat.one_le_two_pow]
      rfl
    rw [hcast, BitVec.ofInt_natCast]

theorem fitBy_eq_of_lowBy {a : Int} (h : 0 < bits) (h' : bits < 128) (signed : Bool)
    (hlow : lowBy sub a bits = some (low a bits))
    (hsub : 2 ^ (bits - 1) ≤ low a bits →
      sub (low a bits) (shiftLeft 1 bits) = some (low a bits - 2 ^ bits)) :
    fitBy sub a bits signed = some (fit a bits signed) := by
  rw [fitBy, if_neg (by omega), hlow, Option.bind_some, fit_eq_low a h h']
  simp only [and_shiftRight_low a h h']
  split
  · rename_i hsign
    exact hsub hsign.2
  · rfl

theorem fitBy_eq (hsub : Subtracts sub) (a : Int) (h : bits ≠ 127) (signed : Bool) :
    fitBy sub a bits signed = some (fit a bits signed) := by
  by_cases hwide : bits = 0 ∨ 128 ≤ bits
  · rw [fitBy, fit, if_pos hwide, if_pos hwide]
  · have hlt : bits < 127 := by omega
    have hpow := two_pow_lt hlt
    have hlow : 0 ≤ low a bits := low_nonneg a (by omega) (by omega)
    have hhigh : low a bits < 2 ^ bits := low_lt a (by omega) (by omega)
    refine fitBy_eq_of_lowBy (by omega) (by omega) signed (lowBy_eq hsub a h) fun _ => ?_
    rw [shiftLeft_one hlt]
    exact hsub _ _ (inRange_iff.mpr ⟨by omega, by omega⟩)

end Widths

theorem sub?_least : sub? (shiftLeft 1 127) 1 = none := by decide

theorem low?_127 (a : Int) : low? a 127 = none := by
  rw [low?, lowBy, if_neg (by decide), sub?_least]
  rfl

theorem fit?_127 (a : Int) (signed : Bool) : fit? a 127 signed = none := by
  have hlow : lowBy sub? a 127 = none := low?_127 a
  rw [fit?, fitBy, if_neg (by decide), hlow]
  rfl

theorem lowBy_sub (a : Int) (bits : Nat) :
    lowBy (fun a b => some (sub a b)) a bits = some (low a bits) := by
  by_cases h : bits = 127
  · subst h
    rw [lowBy, if_neg (by decide), Option.map_some]
    exact congrArg some (and_ones a (by decide) (by decide) (by decide))
  · exact lowBy_eq subtracts_sub a h

theorem fitBy_sub (a : Int) (bits : Nat) (signed : Bool) :
    fitBy (fun a b => some (sub a b)) a bits signed = some (fit a bits signed) := by
  by_cases h : bits = 127
  · subst h
    refine fitBy_eq_of_lowBy (by decide) (by decide) signed (lowBy_sub a 127) fun hhalf => ?_
    have hhigh : low a 127 < 2 ^ 127 := low_lt a (by decide) (by decide)
    have hplace : shiftLeft 1 127 = -2 ^ 127 := by decide
    have hwraps : wrap (low a 127 + 2 ^ 127) = wrap (low a 127 - 2 ^ 127) := by
      have heq : low a 127 + 2 ^ 127 = low a 127 - 2 ^ 127 + ((Nat.pow 2 128 : Nat) : Int) := by
        norm_num
        omega
      rw [wrap, heq, Int.add_bmod_right, wrap]
    rw [sub, hplace, Int.sub_neg, hwraps, wrap_of_inRange (inRange_iff.mpr ⟨by omega, by omega⟩)]
  · exact fitBy_eq subtracts_sub a h signed

theorem low_eq_fit (a : Int) (bits : Nat) : low a bits = fit a bits false := by
  simp only [low, fit, Bool.false_eq_true, ↓reduceIte]

theorem fit_modEq (a : Int) {bits : Nat} (h : 0 < bits) (h' : bits < 128) (signed : Bool) :
    fit a bits signed ≡ a [ZMOD 2 ^ bits] := by
  rw [fit_of_narrow h h']
  cases signed with
  | true =>
      have hbmod :
          Int.bmod a (2 ^ bits) % ((2 ^ bits : Nat) : Int) = a % ((2 ^ bits : Nat) : Int) :=
        Int.bmod_emod
      push_cast at hbmod
      exact hbmod
  | false => exact Int.mod_modEq a (2 ^ bits)

theorem Fits.unique {bits : Nat} {signed : Bool} {m n : Int} (h : 0 < bits)
    (hm : Fits bits signed m)
    (hn : Fits bits signed n) (hmn : m ≡ n [ZMOD 2 ^ bits]) : m = n := by
  have hhalf : (2 : Int) ^ bits = 2 * 2 ^ (bits - 1) := by exact_mod_cast two_pow_pred h
  have hlt : |n - m| < 2 ^ bits := by
    rw [abs_lt]
    cases signed <;> simp only [Fits, Bool.false_eq_true, ↓reduceIte] at hm hn <;> omega
  have hzero := Int.eq_zero_of_abs_lt_dvd hmn.dvd hlt
  omega

theorem eq_fit_iff {a n : Int} {bits : Nat} (h : 0 < bits) (h' : bits < 128) (signed : Bool) :
    n = fit a bits signed ↔ Fits bits signed n ∧ n ≡ a [ZMOD 2 ^ bits] := by
  constructor
  · rintro rfl
    exact ⟨fits_fit h h' a signed, fit_modEq a h h' signed⟩
  · rintro ⟨hn, hmod⟩
    exact hn.unique h (fits_fit h h' a signed) (hmod.trans (fit_modEq a h h' signed).symm)

theorem fit_fit_of_le (a : Int) {narrow bits : Nat} (h : 0 < narrow) (hle : narrow ≤ bits)
    (h' : bits ≤ 128) (signed signed' : Bool) :
    fit (fit a bits signed) narrow signed' = fit a narrow signed' := by
  by_cases hbits : bits = 128
  · rw [hbits]
    rfl
  · have hlt : bits < 128 := by omega
    have hdvd : (2 ^ narrow : Int) ∣ 2 ^ bits := pow_dvd_pow 2 hle
    have hwide : fit a bits signed ≡ a [ZMOD 2 ^ narrow] :=
      (fit_modEq a (by omega) hlt signed).of_dvd hdvd
    have hnarrow : narrow < 128 := by omega
    refine (eq_fit_iff h hnarrow signed').mpr ⟨fits_fit h hnarrow _ signed', ?_⟩
    exact (fit_modEq _ h hnarrow signed').trans hwide

end Word

theorem Elaboration.widthOf_eq_ok {v : Value} {bits : Nat} (h : widthOf v = .ok bits) :
    0 < bits ∧ bits ≤ 128 := by
  unfold widthOf at h
  split at h
  · cases h
  · split at h
    · cases h
      omega
    · cases h

/-- At a width that a field may ask for, a word is cut down to the one number of that width that is
congruent to it, and wider cuts before do not matter. If all steps have to be words it comes out at
every width but 127, and never at 127; if subtraction wraps around it comes out at 127 as well. -/
theorem masking_exact_unless_127 {width : Value} {bits : Nat}
    (h : Elaboration.widthOf width = .ok bits) (a : Int) (signed : Bool) :
    (Value.int a).fit? bits signed =
        (if bits = 127 then none else some ((Value.int a).fit bits signed)) ∧
      Word.low? a bits = (if bits = 127 then none else some (Word.low a bits)) ∧
      Word.fitBy (fun a b => some (Word.sub a b)) a bits signed = some (Word.fit a bits signed) ∧
      Word.lowBy (fun a b => some (Word.sub a b)) a bits = some (Word.low a bits) ∧
      (bits ≤ 127 → ∀ n, n = Word.fit a bits signed ↔
        Word.Fits bits signed n ∧ n ≡ a [ZMOD 2 ^ bits]) ∧
      (bits ≤ 127 → ∀ n, n = Word.low a bits ↔
        Word.Fits bits false n ∧ n ≡ a [ZMOD 2 ^ bits]) ∧
      Word.fit (Word.fit a bits signed) bits signed = Word.fit a bits signed ∧
      ∀ narrow signed', 0 < narrow → narrow ≤ bits →
        Word.fit (Word.fit a bits signed) narrow signed' = Word.fit a narrow signed' := by
  obtain ⟨hpos, hle⟩ := Elaboration.widthOf_eq_ok h
  refine ⟨?_, ?_, Word.fitBy_sub a bits signed, Word.lowBy_sub a bits, fun hle n => ?_,
    fun hle n => ?_, Word.fit_fit a bits signed, fun narrow signed' hnarrow hwide => ?_⟩
  · split
    · rename_i h127
      rw [h127, Value.fit?, Word.fit?_127]
      rfl
    · rename_i hother
      rw [Value.fit?, Word.fit?, Word.fitBy_eq Word.subtracts_sub? a hother]
      rfl
  · split
    · rename_i h127
      rw [h127, Word.low?_127]
    · rename_i hother
      exact Word.lowBy_eq Word.subtracts_sub? a hother
  · exact Word.eq_fit_iff hpos (by omega) signed
  · rw [Word.low_eq_fit]
    exact Word.eq_fit_iff hpos (by omega) false
  · exact Word.fit_fit_of_le a hnarrow hwide hle signed signed'

/-- A negative number at the widest width below the gap. -/
theorem masking_exact_unless_127_at_126 : Elaboration.widthOf (.int 126) = .ok 126 ∧
    (Value.int (-5)).fit? 126 true = some (.int (-5)) ∧
      Word.low? (-5) 126 = some (2 ^ 126 - 5) := by
  have hwidth : Elaboration.widthOf (.int 126) = .ok 126 := rfl
  obtain ⟨hfit, hlow, -⟩ := masking_exact_unless_127 hwidth (-5) true
  exact ⟨hwidth, hfit, hlow⟩

/-- A field may ask for 127 bits, but one less than the place beyond them is no word. -/
theorem mask_of_127_no_word : Elaboration.widthOf (.int 127) = .ok 127 ∧
    (Value.int 5).fit? 127 false = none ∧ Word.low? 5 127 = none := ⟨rfl, rfl, rfl⟩

end Clockwork
