import Clockwork.Number.Bounded
import Clockwork.Text
import Clockwork.Time.Instant
/-!
Durations as people write them: a decimal number and a unit, such as `2.5 ns`. A number alone
counts nanoseconds. `Duration.parse` gives whole femtoseconds; what a fraction has below one
femtosecond is dropped. The whole part and the result are checked against 64 bits, and the steps
of the fraction never leave them.
-/

namespace Clockwork.Duration

inductive Reason where
  | empty
  | noNumber
  | unknownUnit (unit : String)
  | malformedNumber
  | outOfRange
  deriving DecidableEq, Repr, Inhabited

def Reason.message : Reason → String
  | empty => "empty duration"
  | noNumber => "no numeric value"
  | unknownUnit unit => s!"unknown unit '{unit}'"
  | malformedNumber => "malformed number"
  | outOfRange => "value out of range"

/-- A text that is not a duration, without blanks at its ends, and the reason. -/
structure Invalid where
  text : String
  reason : Reason
  deriving DecidableEq, Repr, Inhabited

def Invalid.message (e : Invalid) : String := s!"invalid duration '{e.text}': {e.reason.message}"

def isNumeral (c : Char) : Bool := Text.isDigit c || c == '.'

def unit? (text : String) : Option TimeUnit :=
  if text = "" then some .ns
  else [TimeUnit.fs, .ps, .ns, .us, .ms, .s].find? fun u => u.symbol = text

/-- What a digit after the point counts. What is no digit counts nothing. -/
def place (c : Char) : Nat := if Text.isDigit c then Text.digit c else 0

theorem place_le (c : Char) : place c ≤ 9 := by
  unfold place
  split
  · rename_i h
    have hle : c ≤ '9' := by
      simp only [Text.isDigit, Bool.and_eq_true, decide_eq_true_eq] at h
      exact h.2
    have hnat : c.toNat ≤ '9'.toNat := hle
    exact Nat.sub_le_iff_le_add.mpr hnat
  · exact Nat.zero_le 9

/-- What digits after the point are worth, after digits that are worth `sum`, when a one in front
of them is worth `scale`, a power of ten. A digit whose place is worth less than one counts
nothing. There is no result if a product or a sum does not fit in 64 bits. -/
def fraction? : List Char → Nat → Nat → Option Nat
  | [], _, sum => some sum
  | c :: rest, scale, sum => do
    let worth ← Bounded.nat64? (place c * (scale / 10))
    fraction? rest (scale / 10) (← Bounded.nat64? (sum + worth))

theorem fraction?_cons (c : Char) (rest : List Char) {scale sum : Nat}
    (h : sum + scale ≤ Bounded.max64) :
    fraction? (c :: rest) scale sum = fraction? rest (scale / 10) (sum + place c * (scale / 10)) ∧
      sum + place c * (scale / 10) + scale / 10 ≤ Bounded.max64 := by
  have hplace := Nat.mul_le_mul_right (scale / 10) (place_le c)
  have hscale := Nat.div_mul_le_self scale 10
  have hworth : Bounded.nat64? (place c * (scale / 10)) = some (place c * (scale / 10)) :=
    if_pos (by omega)
  have hsum : Bounded.nat64? (sum + place c * (scale / 10)) =
      some (sum + place c * (scale / 10)) := if_pos (by omega)
  refine ⟨?_, by omega⟩
  rw [fraction?, hworth, Option.bind_eq_bind, Option.bind_some, hsum, Option.bind_some]

theorem fraction?_isSome (places : List Char) {scale sum : Nat} (h : sum + scale ≤ Bounded.max64) :
    (fraction? places scale sum).isSome = true := by
  induction places generalizing scale sum with
  | nil => rfl
  | cons c rest ih =>
      obtain ⟨hstep, hrest⟩ := fraction?_cons c rest h
      rw [hstep]
      exact ih hrest

def inRange (n : Option Nat) : Except Reason Nat := n.elim (.error .outOfRange) .ok

/-- The number written by `numeral`, times `scale`. The whole part has to fit in 64 bits, and so
does the result. -/
def scaled? (numeral : List Char) (scale : Nat) : Option (Except Reason Nat) :=
  let (front, back) := numeral.span (· != '.')
  match back with
  | [] =>
    some (inRange ((Bounded.nat64? (Text.decimal front)).bind fun n => Bounded.nat64? (n * scale)))
  | _ :: places =>
    if places.contains '.' then some (.error .malformedNumber)
    else
      match Bounded.nat64? (Text.decimal front) with
      | none => some (.error .malformedNumber)
      | some whole =>
        (fraction? places scale 0).map fun part =>
          inRange ((Bounded.nat64? (whole * scale)).bind fun n => Bounded.nat64? (n + part))

theorem scaled?_isSome (numeral : List Char) {scale : Nat} (h : scale ≤ Bounded.max64) :
    (scaled? numeral scale).isSome = true := by
  simp only [scaled?]
  split
  · rfl
  · split
    · rfl
    · split
      · rfl
      · rw [Option.isSome_map]
        exact fraction?_isSome _ (by rwa [Nat.zero_add])

/-- Reads a duration as femtoseconds. There is no result if a step that is not checked does not
fit in 64 bits. -/
def parse? (s : String) : Option (Except Invalid Nat) :=
  let cs := Text.trimChars s.toList
  let invalid (reason : Reason) : Invalid := ⟨String.ofList cs, reason⟩
  if cs.isEmpty then some (.error (invalid .empty))
  else
    let (numeral, rest) := cs.span isNumeral
    if numeral.isEmpty then some (.error (invalid .noNumber))
    else
      let name := String.ofList (Text.trimChars rest)
      match unit? name with
      | none => some (.error (invalid (.unknownUnit name)))
      | some u => (scaled? numeral u.femtoseconds).map (·.mapError invalid)

theorem parse?_isSome (s : String) : (parse? s).isSome = true := by
  simp only [parse?]
  split
  · rfl
  · split
    · rfl
    · split
      · rfl
      · rename_i u _
        rw [Option.isSome_map]
        exact scaled?_isSome _ (by cases u <;> decide)

def parse (s : String) : Except Invalid Nat := (parse? s).get (parse?_isSome s)

end Clockwork.Duration
