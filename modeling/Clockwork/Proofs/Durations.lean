import Mathlib.Algebra.Order.Floor.Semifield
import Mathlib.Data.Rat.Floor
import Clockwork.Proofs.Json.RoundTrip
import Clockwork.Settings.Reader
/-!
What durations stand for: the number in front, read as an exact decimal fraction, times the unit.
Reading them digit by digit comes to the same whole number of femtoseconds, since all units are
powers of ten of a femtosecond: the digits before the last place that counts are exact, and those
after it count nothing. A time is shown as a whole number of a unit, so what is shown is read as
the time that it was.
-/

namespace Clockwork

open Bounded (max64 nat64?)
open Text (decimal digit isBlank isDigit trimChars)

namespace Text

theorem toNat_of_isDigit {c : Char} (h : isDigit c = true) : 48 ≤ c.toNat ∧ c.toNat ≤ 57 := by
  obtain ⟨hlow, hhigh⟩ : '0' ≤ c ∧ c ≤ '9' := by simpa [isDigit] using h
  exact ⟨hlow, hhigh⟩

theorem isBlank_of_isDigit {c : Char} (h : isDigit c = true) : isBlank c = false := by
  obtain ⟨hlow, hhigh⟩ := toNat_of_isDigit h
  simp only [isBlank, Bool.or_eq_false_iff, Bool.and_eq_false_iff, decide_eq_false_iff_not,
    beq_eq_false_iff_ne]
  omega

theorem trimChars_of_ends {cs : List Char} (hfirst : ∀ c ∈ cs.head?, isBlank c = false)
    (hlast : ∀ c ∈ cs.getLast?, isBlank c = false) : trimChars cs = cs := by
  have hdrop : ∀ l : List Char, (∀ c ∈ l.head?, isBlank c = false) → l.dropWhile isBlank = l := by
    intro l hl
    cases l with
    | nil => rfl
    | cons c l => rw [List.dropWhile_cons_of_neg (by simp [hl c rfl])]
  rw [trimChars, hdrop cs hfirst, hdrop cs.reverse (by rwa [List.head?_reverse]),
    List.reverse_reverse]

theorem trimChars_eq_self {cs : List Char} (h : ∀ c ∈ cs, isBlank c = false) :
    trimChars cs = cs :=
  trimChars_of_ends (fun c hc => h c (List.mem_of_head? hc))
    fun c hc => h c (List.mem_of_getLast? hc)

theorem decimal_append (front back : List Char) :
    decimal (front ++ back) = decimal front * 10 ^ back.length + decimal back := by
  change Nat.ofDigitChars 10 (front ++ back) 0 = _
  rw [Nat.ofDigitChars_append, Nat.ofDigitChars_eq_ofDigitChars_zero, Nat.mul_comm]
  rfl

theorem decimal_lt {digits : List Char} (h : ∀ c ∈ digits, isDigit c = true) :
    decimal digits < 10 ^ digits.length := by
  induction digits with
  | nil => decide
  | cons c rest ih =>
      have hrest := ih fun d hd => h d (List.mem_cons_of_mem c hd)
      have hc : digit c ≤ 9 := Nat.sub_le_iff_le_add.mpr (toNat_of_isDigit (h c (by simp))).2
      have hcons : decimal (c :: rest) = digit c * 10 ^ rest.length + decimal rest := by
        simpa [decimal] using decimal_append [c] rest
      have hmul := Nat.mul_le_mul_right (10 ^ rest.length) hc
      rw [hcons, List.length_cons, Nat.pow_succ]
      omega

end Text

namespace Duration

/-- The digits and points that a text begins with, after blanks. -/
def numeral (s : String) : List Char := (trimChars s.toList).takeWhile isNumeral

/-- What follows the number, without blanks at its ends. -/
def unitText (s : String) : String :=
  String.ofList (trimChars ((trimChars s.toList).dropWhile isNumeral))

/-- The number that digits stand for that may have a point among them. -/
def value (numeral : List Char) : ℚ :=
  decimal (numeral.filter isDigit) / 10 ^ ((numeral.dropWhile (· != '.')).filter isDigit).length

/-- A text says how many femtoseconds something lasts. What is below one femtosecond is left out. -/
structure Means (s : String) (u : TimeUnit) (n : Nat) : Prop where
  number : numeral s ≠ []
  point : (numeral s).count '.' ≤ 1
  unit : unitText s = u.symbol ∨ unitText s = "" ∧ u = .ns
  value : n = ⌊value (numeral s) * u.femtoseconds⌋₊
  fits : n ≤ max64

theorem unit?_eq_some_iff {text : String} {u : TimeUnit} :
    unit? text = some u ↔ text = u.symbol ∨ text = "" ∧ u = .ns := by
  by_cases hempty : text = ""
  · subst hempty
    cases u <;> simp [unit?, TimeUnit.symbol]
  · simp only [unit?, hempty, ↓reduceIte, false_and, or_false]
    constructor
    · intro h
      have hsymbol : u.symbol = text := by simpa using List.find?_some h
      exact hsymbol.symm
    · rintro rfl
      cases u <;> decide

theorem exists_femtoseconds_eq (u : TimeUnit) : ∃ k, u.femtoseconds = 10 ^ k := by
  cases u
  exacts [⟨0, rfl⟩, ⟨3, rfl⟩, ⟨6, rfl⟩, ⟨9, rfl⟩, ⟨12, rfl⟩, ⟨15, rfl⟩]

theorem femtoseconds_le (u : TimeUnit) : u.femtoseconds ≤ max64 := by
  cases u <;> decide

theorem fraction?_zero (places : List Char) {sum : Nat} (h : sum ≤ max64) :
    fraction? places 0 sum = some sum := by
  induction places with
  | nil => rfl
  | cons c rest ih =>
      have hzero : sum + 0 ≤ max64 := h
      rw [(fraction?_cons c rest hzero).1]
      simpa using ih

/-- The digits of a fraction come to their exact value, without what is below one. -/
theorem fraction?_eq {places : List Char} (hp : ∀ c ∈ places, isDigit c = true) {k sum : Nat}
    (h : sum + 10 ^ k ≤ max64) :
    fraction? places (10 ^ k) sum = some (sum + decimal places * 10 ^ k / 10 ^ places.length) := by
  induction places generalizing k sum with
  | nil => simp [fraction?, decimal]
  | cons c rest ih =>
      have hrest : ∀ d ∈ rest, isDigit d = true := fun d hd => hp d (List.mem_cons_of_mem c hd)
      have hplace : place c = digit c := if_pos (hp c (by simp))
      have hcons : decimal (c :: rest) = digit c * 10 ^ rest.length + decimal rest := by
        simpa [decimal] using Text.decimal_append [c] rest
      obtain ⟨hstep, hle⟩ := fraction?_cons c rest h
      rw [hstep]
      cases k with
      | zero =>
          have hbelow : decimal (c :: rest) * 10 ^ 0 / 10 ^ (c :: rest).length = 0 := by
            rw [Nat.pow_zero, Nat.mul_one]
            exact Nat.div_eq_of_lt (Text.decimal_lt hp)
          rw [hbelow]
          have hsum : sum ≤ max64 := by omega
          simpa using fraction?_zero rest hsum
      | succ k =>
          have hscale : 10 ^ (k + 1) / 10 = 10 ^ k := by
            rw [Nat.pow_succ, Nat.mul_div_cancel _ (by decide)]
          rw [hscale, hplace] at hle ⊢
          have hexact : decimal (c :: rest) * 10 ^ (k + 1) / 10 ^ (c :: rest).length =
              digit c * 10 ^ k + decimal rest * 10 ^ k / 10 ^ rest.length := by
            rw [hcons, List.length_cons, Nat.pow_succ, Nat.pow_succ, ← Nat.mul_assoc,
              Nat.mul_div_mul_right _ _ (by decide), Nat.add_mul, Nat.mul_right_comm, Nat.add_comm,
              Nat.add_mul_div_right _ _ (Nat.pow_pos (by decide)), Nat.add_comm]
          rw [ih hrest hle, hexact, Nat.add_assoc]

theorem ne_point_of_isDigit {c : Char} (h : isDigit c = true) : (c != '.') = true := by
  rw [bne_iff_ne]
  rintro rfl
  exact absurd h (by decide)

/-- What a numeral is worth in units of a scale: digits before and after the point together, without
what is below one. -/
theorem floor_value {front places : List Char} (hfront : ∀ c ∈ front, isDigit c = true)
    (hplaces : ∀ c ∈ places, isDigit c = true) (scale : Nat) :
    ⌊value (front ++ '.' :: places) * scale⌋₊ =
      decimal front * scale + decimal places * scale / 10 ^ places.length := by
  have hdigits : (front ++ '.' :: places).filter isDigit = front ++ places := by
    rw [List.filter_append, List.filter_cons_of_neg (by decide), List.filter_eq_self.mpr hfront,
      List.filter_eq_self.mpr hplaces]
  have hback : (front ++ '.' :: places).dropWhile (· != '.') = '.' :: places := by
    rw [List.dropWhile_append_of_pos fun c hc => ne_point_of_isDigit (hfront c hc)]
    rfl
  have hvalue : value (front ++ '.' :: places) * scale =
      ((decimal (front ++ places) * scale : Nat) : ℚ) / ((10 ^ places.length : Nat) : ℚ) := by
    rw [value, hdigits, hback, List.filter_cons_of_neg (by decide), List.filter_eq_self.mpr hplaces]
    push_cast
    ring
  rw [hvalue, Nat.floor_div_eq_div, Text.decimal_append, Nat.add_mul, Nat.mul_right_comm,
    Nat.add_comm, Nat.add_mul_div_right _ _ (Nat.pow_pos (by decide)), Nat.add_comm]

theorem nat64?_eq_some_iff {a b : Nat} : nat64? a = some b ↔ b = a ∧ a ≤ max64 := by
  rw [nat64?, Option.ite_none_right_eq_some, Option.some.injEq, eq_comm, and_comm]

theorem inRange_eq_ok_iff {o : Option Nat} {n : Nat} : inRange o = .ok n ↔ o = some n := by
  cases o <;> simp [inRange]

theorem isDigit_of_isNumeral {c : Char} (h : isNumeral c = true) (hc : c ≠ '.') :
    isDigit c = true := by
  simpa [isNumeral, hc] using h

theorem value_whole {numeral : List Char} (h : ∀ c ∈ numeral, isDigit c = true) :
    value numeral = decimal numeral := by
  have hback : numeral.dropWhile (· != '.') = [] :=
    List.dropWhile_eq_nil_iff.mpr fun c hc => ne_point_of_isDigit (h c hc)
  rw [value, hback, List.filter_eq_self.mpr h]
  simp

theorem scaled?_whole {numeral : List Char} (h : ∀ c ∈ numeral, isDigit c = true) {scale : Nat}
    (hs : 0 < scale) (n : Nat) :
    scaled? numeral scale = some (.ok n) ↔ n = ⌊value numeral * scale⌋₊ ∧ n ≤ max64 := by
  have hpoint : ∀ c ∈ numeral, (c != '.') = true := fun c hc => ne_point_of_isDigit (h c hc)
  have hback : numeral.dropWhile (· != '.') = [] := List.dropWhile_eq_nil_iff.mpr hpoint
  have hvalue : ⌊value numeral * scale⌋₊ = decimal numeral * scale := by
    rw [value_whole h, ← Nat.cast_mul, Nat.floor_natCast]
  rw [scaled?, List.span_eq_takeWhile_dropWhile, hback,
    List.takeWhile_eq_self_iff.mpr hpoint, hvalue]
  simp only [Option.some.injEq, inRange_eq_ok_iff, Option.bind_eq_some_iff, nat64?_eq_some_iff]
  constructor
  · rintro ⟨whole, ⟨rfl, -⟩, rfl, hle⟩
    exact ⟨rfl, hle⟩
  · rintro ⟨rfl, hle⟩
    exact ⟨_, ⟨rfl, (Nat.le_mul_of_pos_right _ hs).trans hle⟩, rfl, hle⟩

theorem span_point {front : List Char} (h : ∀ c ∈ front, isDigit c = true) (places : List Char) :
    (front ++ '.' :: places).span (· != '.') = (front, '.' :: places) := by
  have hpoint : ∀ c ∈ front, (c != '.') = true := fun c hc => ne_point_of_isDigit (h c hc)
  rw [List.span_eq_takeWhile_dropWhile, List.takeWhile_append_of_pos hpoint,
    List.dropWhile_append_of_pos hpoint]
  simp

/-- A numeral with a point is what stands before it and the part of one that stands after it. -/
theorem scaled?_point {front places : List Char} (hfront : ∀ c ∈ front, isDigit c = true)
    (hplaces : ∀ c ∈ places, isDigit c = true) {k : Nat} (hk : 10 ^ k ≤ max64) (n : Nat) :
    scaled? (front ++ '.' :: places) (10 ^ k) = some (.ok n) ↔
      n = ⌊value (front ++ '.' :: places) * (10 ^ k : Nat)⌋₊ ∧ n ≤ max64 := by
  have hnone : places.contains '.' = false := by
    rw [List.contains_eq_mem, decide_eq_false_iff_not]
    exact fun hmem => absurd (hplaces '.' hmem) (by decide)
  have hscale : 0 + 10 ^ k ≤ max64 := by rwa [Nat.zero_add]
  have hpart := fraction?_eq hplaces hscale
  have hpos : 0 < 10 ^ k := Nat.pow_pos (by decide)
  rw [floor_value hfront hplaces, scaled?, span_point hfront]
  simp only [hnone, Bool.false_eq_true, ↓reduceIte]
  cases hwhole : nat64? (decimal front) with
  | none =>
      have hover : max64 < decimal front := by simpa [nat64?] using hwhole
      have hmul : decimal front ≤ decimal front * 10 ^ k := Nat.le_mul_of_pos_right _ hpos
      simp only [Option.some.injEq, reduceCtorEq, false_iff, not_and]
      rintro rfl
      exact Nat.not_le.mpr (hover.trans_le (hmul.trans (Nat.le_add_right _ _)))
  | some whole =>
      obtain ⟨rfl, -⟩ := nat64?_eq_some_iff.mp hwhole
      rw [hpart, Nat.zero_add]
      simp only [Option.map_some, Option.some.injEq, inRange_eq_ok_iff, Option.bind_eq_some_iff,
        nat64?_eq_some_iff]
      constructor
      · rintro ⟨whole, ⟨rfl, -⟩, rfl, hle⟩
        exact ⟨rfl, hle⟩
      · rintro ⟨rfl, hle⟩
        exact ⟨_, ⟨rfl, (Nat.le_add_right _ _).trans hle⟩, rfl, hle⟩

theorem scaled?_eq_ok_iff {numeral : List Char} (h : ∀ c ∈ numeral, isNumeral c = true) {k : Nat}
    (hk : 10 ^ k ≤ max64) (n : Nat) :
    scaled? numeral (10 ^ k) = some (.ok n) ↔
      numeral.count '.' ≤ 1 ∧ n = ⌊value numeral * (10 ^ k : Nat)⌋₊ ∧ n ≤ max64 := by
  by_cases hpoint : '.' ∈ numeral
  · obtain ⟨front, places, rfl, hfront⟩ := List.eq_append_cons_of_mem hpoint
    have hdigits : ∀ c ∈ front, isDigit c = true := fun c hc =>
      isDigit_of_isNumeral (h c (by simp [hc])) fun heq => hfront (heq ▸ hc)
    have hcount : (front ++ '.' :: places).count '.' ≤ 1 ↔ '.' ∉ places := by
      rw [List.count_append, List.count_eq_zero.mpr hfront, List.count_cons_self,
        ← List.count_eq_zero]
      omega
    rw [hcount]
    by_cases hmore : '.' ∈ places
    · have hpoints : places.contains '.' = true := by simpa using hmore
      rw [scaled?, span_point hdigits]
      simp only [hpoints, ↓reduceIte]
      simp [hmore]
    · have hplaces : ∀ c ∈ places, isDigit c = true := fun c hc =>
        isDigit_of_isNumeral (h c (by simp [hc])) fun heq => hmore (heq ▸ hc)
      rw [scaled?_point hdigits hplaces hk, and_iff_right hmore]
  · have hdigits : ∀ c ∈ numeral, isDigit c = true := fun c hc =>
      isDigit_of_isNumeral (h c hc) fun heq => hpoint (heq ▸ hc)
    rw [scaled?_whole hdigits (Nat.pow_pos (by decide)), List.count_eq_zero.mpr hpoint,
      and_iff_right (Nat.zero_le 1)]

theorem isNumeral_of_mem {s : String} {c : Char} (h : c ∈ numeral s) : isNumeral c = true :=
  List.mem_takeWhile_imp h

/-- A text is read as a duration if it is one, for as long as it says. -/
theorem parse?_eq_ok_iff (s : String) (n : Nat) : parse? s = some (.ok n) ↔ ∃ u, Means s u n := by
  have hspan := List.span_eq_takeWhile_dropWhile isNumeral (trimChars s.toList)
  by_cases hnumber : numeral s = []
  · have hempty : ((trimChars s.toList).takeWhile isNumeral).isEmpty = true := by
      simpa [numeral] using hnumber
    have hnot : ¬ ∃ u, Means s u n := fun ⟨_, h⟩ => h.number hnumber
    simp only [hnot, iff_false, parse?, hspan, hempty, ↓reduceIte]
    split <;> simp
  · have hempty : ((trimChars s.toList).takeWhile isNumeral).isEmpty = false := by
      simpa [numeral] using hnumber
    have hchars : (trimChars s.toList).isEmpty = false := by
      cases htext : trimChars s.toList with
      | nil => exact absurd (by simp [numeral, htext]) hnumber
      | cons c rest => rfl
    have hparse : ∀ unit, unit? (unitText s) = unit → parse? s = unit.elim
        (some (.error ⟨Text.trim s, .unknownUnit (unitText s)⟩))
        fun u => (scaled? (numeral s) u.femtoseconds).map
        (·.mapError (Invalid.mk (Text.trim s))) := by
      intro unit hunit
      rw [unitText] at hunit
      simp only [parse?, hspan, hempty, hchars, hunit, Bool.false_eq_true, ↓reduceIte]
      cases unit <;> rfl
    cases hunit : unit? (unitText s) with
    | none =>
        have hnot : ¬ ∃ u, Means s u n := by
          rintro ⟨u, h⟩
          rw [unit?_eq_some_iff.mpr h.unit] at hunit
          cases hunit
        simp [hparse none hunit, hnot]
    | some u =>
        obtain ⟨k, hk⟩ := exists_femtoseconds_eq u
        have hscaled := scaled?_eq_ok_iff (fun c => isNumeral_of_mem (s := s))
          (hk ▸ femtoseconds_le u) n
        rw [← hk] at hscaled
        have hmap :
            (scaled? (numeral s) u.femtoseconds).map (·.mapError (Invalid.mk (Text.trim s))) =
            some (.ok n) ↔ scaled? (numeral s) u.femtoseconds = some (.ok n) := by
          rcases scaled? (numeral s) u.femtoseconds with _ | _ | _ <;> simp [Except.mapError]
        rw [hparse (some u) hunit, Option.elim_some, hmap, hscaled]
        constructor
        · rintro ⟨hpoint, hvalue, hle⟩
          exact ⟨u, hnumber, hpoint, unit?_eq_some_iff.mp hunit, hvalue, hle⟩
        · rintro ⟨u', h⟩
          cases hunit.symm.trans (unit?_eq_some_iff.mpr h.unit)
          exact ⟨h.point, h.value, h.fits⟩

theorem parse?_error_text {s : String} {e : Invalid} (h : parse? s = some (.error e)) :
    e.text = Text.trim s := by
  simp only [parse?] at h
  split at h
  · cases h
    rfl
  · split at h
    · cases h
      rfl
    · split at h
      · cases h
        rfl
      · obtain ⟨r, -, hr⟩ := Option.map_eq_some_iff.mp h
        cases r <;> cases hr
        rfl

theorem isDigit_of_numeral {s : String} {k : Nat} (h : numeral s = Nat.toDigits 10 k) :
    ∀ c ∈ numeral s, isDigit c = true := by
  rw [h]
  exact fun c => Json.isDigit_of_mem_toDigits

theorem floor_value_digits {s : String} {k : Nat}
    (h : numeral s = Nat.toDigits 10 k) (scale : Nat) :
    ⌊value (numeral s) * scale⌋₊ = k * scale := by
  have hdecimal : decimal (Nat.toDigits 10 k) = k := Nat.ofDigitChars_ten_toDigits
  rw [value_whole (isDigit_of_numeral h), h, hdecimal, ← Nat.cast_mul, Nat.floor_natCast]

theorem means_of_digits {s : String} {k : Nat} {u : TimeUnit} (h : numeral s = Nat.toDigits 10 k)
    (hunit : unitText s = u.symbol ∨ unitText s = "" ∧ u = .ns)
    (hle : k * u.femtoseconds ≤ max64) : Means s u (k * u.femtoseconds) := by
  refine ⟨?_, ?_, hunit, (floor_value_digits h _).symm, hle⟩
  · rw [h]
    exact Nat.toDigits_ne_nil
  · have hnone : '.' ∉ numeral s := fun hmem =>
      absurd (isDigit_of_numeral h '.' hmem) (by decide)
    rw [List.count_eq_zero.mpr hnone]
    exact Nat.zero_le 1

theorem numeral_toString (n : Nat) : numeral (toString n) = Nat.toDigits 10 n ∧
    unitText (toString n) = "" := by
  have htrim : trimChars (toString n).toList = Nat.toDigits 10 n := by
    have hlist : (toString n).toList = Nat.toDigits 10 n := Nat.toList_repr
    rw [hlist]
    exact Text.trimChars_eq_self fun c hc =>
      Text.isBlank_of_isDigit (Json.isDigit_of_mem_toDigits hc)
  have hall : ∀ c ∈ Nat.toDigits 10 n, isNumeral c = true := fun c hc => by
    simp [isNumeral, Json.isDigit_of_mem_toDigits hc]
  constructor
  · rw [numeral, htrim, List.takeWhile_eq_self_iff.mpr hall]
  · rw [unitText, htrim, List.dropWhile_eq_nil_iff.mpr hall]
    rfl

theorem means_toString_iff (i n : Nat) : (∃ u, Means (toString i) u n) ↔
    n = i * TimeUnit.ns.femtoseconds ∧ n ≤ max64 := by
  obtain ⟨hnumeral, hunit⟩ := numeral_toString i
  constructor
  · rintro ⟨u, h⟩
    have hns : u = .ns := by
      rcases h.unit with hu | ⟨-, hu⟩
      · rw [hunit] at hu
        exact absurd hu (by cases u <;> decide)
      · exact hu
    subst hns
    exact ⟨h.value.trans (floor_value_digits hnumeral _), h.fits⟩
  · rintro ⟨rfl, hle⟩
    exact ⟨.ns, means_of_digits hnumeral (.inr ⟨hunit, rfl⟩) hle⟩

theorem unitFor_dvd (n : Nat) : (Instant.unitFor n).femtoseconds ∣ n := by
  rw [Instant.unitFor]
  cases hunit : [TimeUnit.ms, .us, .ns, .ps].find? fun u =>
      u.femtoseconds ≤ n && n % u.femtoseconds == 0 with
  | none => exact Nat.one_dvd n
  | some u =>
      have hfits := List.find?_some hunit
      simp only [Bool.and_eq_true, beq_iff_eq] at hfits
      exact Nat.dvd_of_mod_eq_zero hfits.2

theorem symbol_ends (u : TimeUnit) : u.symbol.toList ≠ [] ∧
    (∀ c ∈ u.symbol.toList.getLast?, isBlank c = false) ∧
    trimChars (' ' :: u.symbol.toList) = u.symbol.toList := by
  refine ⟨by cases u <;> decide, fun c hc => ?_, by cases u <;> decide⟩
  cases u <;> cases hc <;> rfl

/-- A number with a unit behind a blank is read as these two. -/
theorem numeral_shown (k : Nat) (u : TimeUnit) :
    numeral (toString k ++ " " ++ u.symbol) = Nat.toDigits 10 k ∧
      unitText (toString k ++ " " ++ u.symbol) = u.symbol := by
  have hdigit : ∀ c ∈ Nat.toDigits 10 k, isDigit c = true := fun c => Json.isDigit_of_mem_toDigits
  have hnumeral : ∀ c ∈ Nat.toDigits 10 k, isNumeral c = true := fun c hc => by
    simp [isNumeral, hdigit c hc]
  have hblank : ¬ isNumeral ' ' = true := by decide
  obtain ⟨hne, hlast, hunit⟩ := symbol_ends u
  have hchars : (toString k ++ " " ++ u.symbol).toList =
      Nat.toDigits 10 k ++ ' ' :: u.symbol.toList := by
    have hlist : (toString k).toList = Nat.toDigits 10 k := Nat.toList_repr
    rw [String.toList_append, String.toList_append, hlist, List.append_assoc]
    rfl
  have htrim : trimChars (toString k ++ " " ++ u.symbol).toList =
      Nat.toDigits 10 k ++ ' ' :: u.symbol.toList := by
    rw [hchars]
    refine Text.trimChars_of_ends (fun c hc => ?_) fun c hc => hlast c ?_
    · rw [List.head?_append_of_ne_nil _ Nat.toDigits_ne_nil] at hc
      exact Text.isBlank_of_isDigit (hdigit c (List.mem_of_head? hc))
    · rwa [List.getLast?_append_of_ne_nil _ (by simp), List.getLast?_cons_of_ne_nil hne] at hc
  constructor
  · rw [numeral, htrim, List.takeWhile_append_of_pos hnumeral, List.takeWhile_cons_of_neg hblank,
      List.append_nil]
  · rw [unitText, htrim, List.dropWhile_append_of_pos hnumeral, List.dropWhile_cons_of_neg hblank,
      hunit, String.ofList_toList]

theorem means_render {n : Nat} (h : n ≤ max64) :
    Means (Instant.renderFs n) (Instant.unitFor n) n := by
  obtain ⟨hnumeral, hunit⟩ := numeral_shown (n / (Instant.unitFor n).femtoseconds)
    (Instant.unitFor n)
  have hexact : n / (Instant.unitFor n).femtoseconds * (Instant.unitFor n).femtoseconds = n :=
    Nat.div_mul_cancel (unitFor_dvd n)
  have hmeans := means_of_digits hnumeral (.inl hunit) (hexact.trans_le h)
  rwa [hexact] at hmeans

end Duration

/-- A text is read as a duration exactly if it is one: some digits with at most one point, then a
unit or nothing. The result is the number that is written times the unit, exactly, without what is
below one femtosecond, and no step on the way leaves 64 bits. A whole number in a document means
the same as its text. -/
theorem durations_read_exactly (s : String) :
    Duration.parse? s = some (Duration.parse s) ∧
      (∀ n, Duration.parse s = .ok n ↔ ∃ u, Duration.Means s u n) ∧
      (∀ e, Duration.parse s = .error e → e.text = Text.trim s) ∧
      ∀ i : Nat, (Toml.Item.integer i).duration? = (Duration.parse (toString i)).toOption := by
  have hparse : ∀ s, Duration.parse? s = some (Duration.parse s) := fun s =>
    (Option.some_get (Duration.parse?_isSome s)).symm
  have hok : ∀ s n, Duration.parse s = .ok n ↔ ∃ u, Duration.Means s u n := by
    intro s n
    rw [← Duration.parse?_eq_ok_iff, hparse, Option.some.injEq]
  refine ⟨hparse s, hok s, fun e he => ?_, fun i => ?_⟩
  · exact Duration.parse?_error_text ((hparse s).trans (congrArg some he))
  · ext n
    have htext : (Duration.parse (toString i)).toOption = some n ↔
        n = i * TimeUnit.ns.femtoseconds ∧ n ≤ max64 := by
      rw [← Duration.means_toString_iff, ← hok]
      cases Duration.parse (toString i) <;> simp [Except.toOption]
    have hinteger : (Toml.Item.integer i).duration? = some n ↔
        n = i * TimeUnit.ns.femtoseconds ∧ n ≤ max64 := by
      rw [eq_comm (a := n)]
      simp [Toml.Item.duration?, Toml.Item.natural?, Toml.Item.integer?]
    rw [hinteger, htext]

/-- A time that is shown is read back as it was, for every number of femtoseconds in 64 bits. -/
theorem printed_times_read_back {n : Nat} (h : n ≤ max64) :
    Duration.parse (Instant.ofFs n).render = .ok n := by
  have hread : Duration.parse? (Instant.renderFs n) = some (.ok n) :=
    (Duration.parse?_eq_ok_iff _ n).mpr ⟨_, Duration.means_render h⟩
  have htotal : Duration.parse? (Instant.renderFs n) = some (Duration.parse (Instant.renderFs n)) :=
    (Option.some_get (Duration.parse?_isSome _)).symm
  exact Option.some.inj (htotal.symm.trans hread)

theorem printed_times_read_back_in_milliseconds : 18446744000000000000 ≤ max64 ∧
    (Instant.ofFs 18446744000000000000).render = "18446744 ms" ∧
    Duration.parse (Instant.ofFs 18446744000000000000).render = .ok 18446744000000000000 :=
  ⟨by decide, by decide +kernel, printed_times_read_back (by decide)⟩

end Clockwork
