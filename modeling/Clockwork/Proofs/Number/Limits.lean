import Mathlib.Data.Int.ModEq
import Mathlib.Data.Rat.Floor
import Clockwork.Proofs.Number.Masks
import Clockwork.Simulation.Function
/-!
Division rounded towards minus infinity and ranges, up to the ends of the words. Both come to what
integers without a limit have, since their steps stay within the words as long as the results do.

A quotient rounded towards zero is corrected only if something remains; then it has at most half the
size of the dividend. A remainder that is corrected does not have the sign of the divisor. A range
goes on from term to term until one is past the end, is no word or finds no room; as the end is a
word, a term that is none is past the end as well.
-/

namespace Clockwork

namespace Word

variable {a b : Int}

theorem two_mul_natAbs_tdiv_le (a : Int) (h : b.natAbs ≠ 1) :
    2 * (Int.tdiv a b).natAbs ≤ a.natAbs := by
  rw [Int.natAbs_tdiv]
  change 2 * (a.natAbs / b.natAbs) ≤ a.natAbs
  by_cases hzero : b.natAbs = 0
  · rw [hzero, Nat.div_zero]
    exact Nat.zero_le _
  · have hle : a.natAbs / b.natAbs ≤ a.natAbs / 2 := Nat.div_le_div_left (by omega) (by decide)
    omega

theorem natAbs_ne_one_of_remainder (h : remainder a b ≠ 0) : b.natAbs ≠ 1 := by
  intro hone
  have hdvd : b ∣ a := Int.natAbs_dvd_natAbs.mp (by rw [hone]; exact Nat.one_dvd _)
  exact h (Int.tmod_eq_zero_of_dvd hdvd)

theorem inRange_tdiv (ha : InRange a) (h : ¬(a = -2 ^ 127 ∧ b = -1)) : InRange (Int.tdiv a b) := by
  rw [inRange_iff] at ha ⊢
  by_cases hone : b.natAbs = 1
  · obtain rfl | rfl : b = 1 ∨ b = -1 := by omega
    · rwa [Int.tdiv_one]
    · rw [Int.tdiv_neg, Int.tdiv_one]
      omega
  · have hhalf := two_mul_natAbs_tdiv_le a hone
    omega

theorem quotient_of_remainder (ha : InRange a) (h : remainder a b ≠ 0) :
    quotient a b = Int.tdiv a b := by
  have hone := natAbs_ne_one_of_remainder h
  refine wrap_of_inRange (inRange_tdiv ha fun hspecial => hone ?_)
  rw [hspecial.2]
  rfl

theorem inRange_tdiv_sub_one (ha : InRange a) (h : remainder a b ≠ 0) :
    InRange (Int.tdiv a b - 1) := by
  have hhalf := two_mul_natAbs_tdiv_le a (natAbs_ne_one_of_remainder h)
  rw [inRange_iff] at ha ⊢
  omega

theorem remainder_eq_zero_iff : remainder a b = 0 ↔ b ∣ a := Int.dvd_iff_tmod_eq_zero.symm

theorem remainder_neg_iff (h : remainder a b ≠ 0) : remainder a b < 0 ↔ a < 0 := by
  have hsign : (remainder a b).sign = a.sign :=
    (Int.sign_tmod a b).trans (if_neg fun hdvd => h (remainder_eq_zero_iff.mpr hdvd))
  rw [← Int.sign_eq_neg_one_iff_neg, hsign, Int.sign_eq_neg_one_iff_neg]

theorem natAbs_remainder_lt (a : Int) (hzero : b ≠ 0) : (remainder a b).natAbs < b.natAbs := by
  rw [remainder, Int.natAbs_tmod]
  exact Nat.mod_lt _ (Int.natAbs_pos.mpr hzero)

theorem fdiv_eq (hzero : b ≠ 0) : Int.fdiv a b =
    if remainder a b ≠ 0 ∧ ¬(a < 0 ↔ b < 0) then Int.tdiv a b - 1 else Int.tdiv a b := by
  have hpos : 0 < b → b.sign = 1 := Int.sign_eq_one_of_pos
  have hneg : b < 0 → b.sign = -1 := Int.sign_eq_neg_one_of_neg
  simp only [Int.fdiv_eq_tdiv, ne_eq, remainder_eq_zero_iff]
  split_ifs <;> omega

theorem fmod_eq (a b : Int) : Int.fmod a b =
    if remainder a b ≠ 0 ∧ ¬(remainder a b < 0 ↔ b < 0) then remainder a b + b
    else remainder a b := by
  have hsign : remainder a b ≠ 0 → (remainder a b < 0 ↔ a < 0) := remainder_neg_iff
  have hdvd : b ∣ a ↔ remainder a b = 0 := remainder_eq_zero_iff.symm
  rw [Int.fmod_eq_tmod]
  change remainder a b + _ = _
  simp only [hdvd]
  split_ifs <;> omega

section Steps

variable {m : Type → Type} [Monad m]

theorem floorDivBy_eq {sub : Int → Int → m Int}
    (hsub : ∀ q n, InRange (q - n) → sub q n = pure (q - n)) (ha : InRange a) (hzero : b ≠ 0) :
    floorDivBy sub a b = pure (wrap (Int.fdiv a b)) := by
  rw [floorDivBy, fdiv_eq hzero]
  split
  · rename_i hcorrected
    have hless := inRange_tdiv_sub_one ha hcorrected.1
    rw [quotient_of_remainder ha hcorrected.1, hsub _ _ hless, wrap_of_inRange hless]
  · rfl

theorem floorModBy_eq {add : Int → Int → m Int}
    (hadd : ∀ r n, InRange (r + n) → add r n = pure (r + n)) (hb : InRange b) (hzero : b ≠ 0) :
    floorModBy add a b = pure (Int.fmod a b) := by
  have hlt := natAbs_remainder_lt a hzero
  rw [floorModBy, fmod_eq]
  split
  · rename_i hcorrected
    refine hadd _ _ ?_
    rw [inRange_iff] at hb ⊢
    omega
  · rfl

end Steps

theorem floorDiv_eq (ha : InRange a) (hzero : b ≠ 0) : floorDiv a b = wrap (Int.fdiv a b) :=
  congrArg Id.run (floorDivBy_eq (fun _ _ h => congrArg pure (wrap_of_inRange h)) ha hzero)

theorem floorDiv?_eq (ha : InRange a) (hzero : b ≠ 0) :
    floorDiv? a b = some (wrap (Int.fdiv a b)) :=
  floorDivBy_eq (fun _ _ h => if_pos h) ha hzero

theorem floorMod_eq (a : Int) (hb : InRange b) (hzero : b ≠ 0) : floorMod a b = Int.fmod a b :=
  congrArg Id.run (floorModBy_eq (fun _ _ h => congrArg pure (wrap_of_inRange h)) hb hzero)

theorem floorMod?_eq (a : Int) (hb : InRange b) (hzero : b ≠ 0) :
    floorMod? a b = some (Int.fmod a b) :=
  floorModBy_eq (fun _ _ h => if_pos h) hb hzero

theorem inRange_fdiv (ha : InRange a) (hzero : b ≠ 0) (h : ¬(a = -2 ^ 127 ∧ b = -1)) :
    InRange (Int.fdiv a b) := by
  rw [fdiv_eq hzero]
  split
  · rename_i hcorrected
    exact inRange_tdiv_sub_one ha hcorrected.1
  · exact inRange_tdiv ha h

theorem fmod_of_neg (a : Int) (h : b < 0) : b < Int.fmod a b ∧ Int.fmod a b ≤ 0 := by
  have hnonneg := Int.fmod_nonneg_of_pos (-a) (Int.neg_pos_of_neg h)
  have hlt := Int.fmod_lt_of_pos (-a) (Int.neg_pos_of_neg h)
  rw [Int.neg_fmod_neg] at hnonneg hlt
  omega

theorem fmod_spec (a : Int) (hzero : b ≠ 0) :
    (Int.fmod a b = 0 ∨ (Int.fmod a b).sign = b.sign) ∧ |Int.fmod a b| < |b| := by
  obtain hneg | hpos := Int.lt_or_gt_of_ne hzero
  · obtain ⟨hlt, hnonpos⟩ := fmod_of_neg a hneg
    refine ⟨hnonpos.eq_or_lt.imp_right fun h => ?_, ?_⟩
    · rw [Int.sign_eq_neg_one_of_neg h, Int.sign_eq_neg_one_of_neg hneg]
    · rw [abs_of_nonpos hnonpos, abs_of_neg hneg]
      exact Int.neg_lt_neg hlt
  · have hnonneg := Int.fmod_nonneg_of_pos a hpos
    refine ⟨hnonneg.eq_or_lt.imp Eq.symm fun h => ?_, ?_⟩
    · rw [Int.sign_eq_one_of_pos h, Int.sign_eq_one_of_pos hpos]
    · rw [abs_of_nonneg hnonneg, abs_of_pos hpos]
      exact Int.fmod_lt_of_pos a hpos

theorem wrap_modEq (n : Int) : wrap n ≡ n [ZMOD 2 ^ 128] := by
  have hbmod : Int.bmod n (Nat.pow 2 128) % ((Nat.pow 2 128 : Nat) : Int) = _ := Int.bmod_emod
  exact hbmod

theorem floor_div_of_pos (a : Int) (h : 0 < b) : ⌊(a : ℚ) / b⌋ = Int.fdiv a b := by
  obtain ⟨d, rfl⟩ := Int.eq_ofNat_of_zero_le h.le
  rw [Int.fdiv_eq_ediv_of_nonneg a h.le, ← Rat.floor_intCast_div_natCast]
  rfl

theorem floor_div (a : Int) (hzero : b ≠ 0) : ⌊(a : ℚ) / b⌋ = Int.fdiv a b := by
  obtain hneg | hpos := Int.lt_or_gt_of_ne hzero
  · rw [← Int.neg_fdiv_neg, ← floor_div_of_pos (-a) (by omega)]
    push_cast
    rw [neg_div_neg_eq]
  · exact floor_div_of_pos a hpos

end Word

/-- A word divided by another one that is not zero has a quotient and a remainder, and no step to
them leaves the words. The remainder is what the floor of the rational quotient leaves of the
dividend, and the quotient is that floor, which wraps around in one case only. -/
theorem division_floors_exactly {a b : Int} (ha : Word.InRange a) (hb : Word.InRange b)
    (hzero : b ≠ 0) :
    ∃ q r : Int, Value.floorDiv a b = .ok q ∧ Value.floorMod a b = .ok r ∧
      Word.floorDiv? a b = some q ∧ Word.floorMod? a b = some r ∧
      r = a - b * ⌊(a : ℚ) / b⌋ ∧ (r = 0 ∨ r.sign = b.sign) ∧ |r| < |b| ∧
      q = Word.wrap ⌊(a : ℚ) / b⌋ ∧ (q = ⌊(a : ℚ) / b⌋ ↔ ¬(a = -2 ^ 127 ∧ b = -1)) ∧
      a ≡ b * q + r [ZMOD 2 ^ 128] := by
  obtain ⟨hsign, hless⟩ := Word.fmod_spec a hzero
  rw [Word.floor_div a hzero]
  refine ⟨Word.wrap (Int.fdiv a b), Int.fmod a b, ?_, ?_, Word.floorDiv?_eq ha hzero,
    Word.floorMod?_eq a hb hzero, Int.fmod_def a b, hsign, hless, rfl, ⟨?_, fun h => ?_⟩, ?_⟩
  · rw [Value.floorDiv, if_neg hzero, Word.floorDiv_eq ha hzero]
  · rw [Value.floorMod, if_neg hzero, Word.floorMod_eq a hb hzero]
  · rintro hexact ⟨rfl, rfl⟩
    exact absurd hexact (by decide)
  · exact Word.wrap_of_inRange (Word.inRange_fdiv ha hzero h)
  · have hwraps := ((Word.wrap_modEq (Int.fdiv a b)).mul_left b).add_right (Int.fmod a b)
    rw [Int.mul_fdiv_add_fmod] at hwraps
    exact hwraps.symm

/-- The least word divided by 3: one is taken off the quotient rounded towards zero, and what
remains has the sign of the divisor. -/
theorem division_floors_exactly_at_least_word : Word.InRange (-2 ^ 127) ∧ Word.InRange 3 ∧
    Word.floorDiv? (-2 ^ 127) 3 = some ⌊((-2 ^ 127 : Int) : ℚ) / (3 : Int)⌋ ∧
      Value.floorDiv (-2 ^ 127) 3 = .ok (-((2 ^ 127 + 1) / 3)) ∧
      Value.floorMod (-2 ^ 127) 3 = .ok 1 := by
  have hleast : Word.InRange (-2 ^ 127) := by decide
  have hthree : Word.InRange 3 := by decide
  obtain ⟨q, r, -, -, hsteps, -, -, -, -, -, hexact, -⟩ :=
    division_floors_exactly hleast hthree (by decide)
  rw [hsteps, hexact.mpr (by decide)]
  exact ⟨hleast, hthree, rfl, rfl, rfl⟩

namespace Simulation

variable {start stop step i : Int}

theorem before_iff (hstep : step ≠ 0) :
    Before stop step i ↔ if 0 < step then i < stop else stop < i := by
  rw [Before]
  split <;> omega

theorem exists_mul_lt_iff {s : Int} (hs : 0 < s) (d : Int) :
    ∃ n : Nat, ∀ k : Nat, s * k < d ↔ k < n := by
  refine ⟨((d + s - 1) / s).toNat, fun k => ?_⟩
  have hle : (k + 1 : Int) ≤ (d + s - 1) / s ↔ (k + 1) * s ≤ d + s - 1 := Int.le_ediv_iff_mul_le hs
  rw [Int.add_mul, Int.one_mul, Int.mul_comm] at hle
  omega

theorem exists_before_iff (start stop : Int) (hstep : step ≠ 0) :
    ∃ n : Nat, ∀ k : Nat, Before stop step (start + step * k) ↔ k < n := by
  obtain hneg | hpos := Int.lt_or_gt_of_ne hstep
  · obtain ⟨n, hn⟩ := exists_mul_lt_iff (Int.neg_pos_of_neg hneg) (start - stop)
    refine ⟨n, fun k => ?_⟩
    rw [← hn k, Before, Int.neg_mul]
    omega
  · obtain ⟨n, hn⟩ := exists_mul_lt_iff hpos (stop - start)
    refine ⟨n, fun k => ?_⟩
    rw [← hn k, Before]
    omega

theorem term_succ (i step : Int) (k : Nat) :
    i + step * ((k + 1 : Nat) : Int) = i + step + step * k := by
  rw [Nat.cast_succ, Int.mul_add, Int.mul_one]
  omega

/-- What a range goes on with stands for a term: it is that term, or it is missing and the term is
past the end. -/
def StandsFor (stop step : Int) (next : Option Int) (i : Int) : Prop :=
  next = some i ∧ Word.InRange i ∨ next = none ∧ ¬Before stop step i

theorem StandsFor.of_before {next : Option Int} (h : StandsFor stop step next i)
    (hbefore : Before stop step i) : next = some i ∧ Word.InRange i :=
  h.resolve_right fun hpast => hpast.2 hbefore

theorem standsFor_add? (hstop : Word.InRange stop) (hi : Word.InRange i) :
    StandsFor stop step (Word.add? i step) (i + step) := by
  by_cases hnext : Word.InRange (i + step)
  · exact .inl ⟨if_pos hnext, hnext⟩
  · refine .inr ⟨if_neg hnext, ?_⟩
    rw [Word.inRange_iff] at hstop hi hnext
    rw [Before]
    omega

theorem rangeFrom_past {room : Nat} {items : List Value} {next : Option Int}
    (hnext : StandsFor stop step next i) (h : ¬Before stop step i) :
    rangeFrom stop step room items next = .ok items.reverse := by
  rw [rangeFrom.eq_def]
  obtain ⟨rfl, -⟩ | ⟨rfl, -⟩ := hnext
  · exact if_neg h
  · rfl

theorem rangeFrom_full {items : List Value} (h : Before stop step i) :
    rangeFrom stop step 0 items (some i) =
      .error (.evaluation s!"range() is longer than {maxRange} items") :=
  if_pos h

theorem rangeFrom_room {room : Nat} {items : List Value} (h : Before stop step i) :
    rangeFrom stop step (room + 1) items (some i) =
      rangeFrom stop step room (.int i :: items) (Word.add? i step) :=
  if_pos h

/-- If `n` terms are before the end, a range that goes on with the first of them gets all of them,
or fails if there is no room for them. -/
theorem rangeFrom_eq {room n : Nat} {items : List Value} {next : Option Int}
    (hstop : Word.InRange stop) (hnext : StandsFor stop step next i)
    (hn : ∀ k : Nat, Before stop step (i + step * k) ↔ k < n) :
    rangeFrom stop step room items next =
      if n ≤ room then .ok (items.reverse ++
        (List.range n).map fun (k : Nat) => .int (i + step * k))
      else .error (.evaluation s!"range() is longer than {maxRange} items") := by
  -- The induction is on the terms that are left; each item takes one of them and one place.
  induction n generalizing room items next i with
  | zero =>
      have hpast : ¬Before stop step i := by simpa using hn 0
      rw [rangeFrom_past hnext hpast, if_pos (Nat.zero_le room)]
      simp
  | succ n ih =>
      have hbefore : Before stop step i := by simpa using hn 0
      have hrest : ∀ k : Nat, Before stop step (i + step + step * k) ↔ k < n := by
        intro k
        rw [← term_succ, hn (k + 1), Nat.add_lt_add_iff_right]
      obtain ⟨rfl, hi⟩ := hnext.of_before hbefore
      cases room with
      | zero => rw [rangeFrom_full hbefore, if_neg (by omega)]
      | succ room =>
          rw [rangeFrom_room hbefore, ih (standsFor_add? hstop hi) hrest]
          simp only [Nat.add_le_add_iff_right, List.reverse_cons, List.append_assoc,
            List.range_succ_eq_map, List.map_cons, List.map_map, Function.comp_def, term_succ]
          simp

/-- A range between words has the terms `start`, `start + step`, … of integers without a limit that
are before its end, however near the ends of the words are. It fails if there are more than 2^20 of
them or if the step is zero, and only then. -/
theorem range_exact {start stop : Int} (hstart : Word.InRange start) (hstop : Word.InRange stop)
    (step : Int) :
    (step = 0 →
      range start stop step = .error (.evaluation "range() step must not be zero")) ∧
    (step ≠ 0 → ∃ n : Nat,
      (∀ k : Nat, k < n ↔
        if 0 < step then start + step * k < stop else stop < start + step * k) ∧
      range start stop step =
        if n ≤ 2 ^ 20 then .ok ((List.range n).map fun (k : Nat) => .int (start + step * k))
        else .error (.evaluation s!"range() is longer than {maxRange} items")) := by
  refine ⟨fun h => if_pos h, fun h => ?_⟩
  obtain ⟨n, hn⟩ := exists_before_iff start stop h
  refine ⟨n, fun k => (hn k).symm.trans (before_iff h), ?_⟩
  rw [range, if_neg h, rangeFrom_eq hstop (.inl ⟨rfl, hstart⟩) hn]
  rfl

/-- A range that ends before the largest word, with a step that leads beyond it. -/
theorem range_exact_at_greatest : Word.InRange (2 ^ 127 - 2) ∧ Word.InRange (2 ^ 127 - 1) ∧
    range (2 ^ 127 - 2) (2 ^ 127 - 1) 5 = .ok [.int (2 ^ 127 - 2)] := by
  have hstart : Word.InRange (2 ^ 127 - 2) := by decide
  have hstop : Word.InRange (2 ^ 127 - 1) := by decide
  obtain ⟨n, hn, hrange⟩ := (range_exact hstart hstop 5).2 (by decide)
  have hsome : 0 < n := (hn 0).mpr (by decide)
  have hone : ¬1 < n := fun h => absurd ((hn 1).mp h) (by decide)
  obtain rfl : n = 1 := by omega
  exact ⟨hstart, hstop, hrange⟩

end Simulation

end Clockwork
