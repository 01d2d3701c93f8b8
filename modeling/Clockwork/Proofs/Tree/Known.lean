import Clockwork.Tree.Structural
import Clockwork.Proofs.Results
import Clockwork.Proofs.Tree.Storage

namespace Clockwork

namespace Value

/-- All interfaces in a value are among the first `n`. -/
inductive Known (n : Nat) : Value → Prop
  | none : Known n .none
  | bool (b : Bool) : Known n (.bool b)
  | int (i : Int) : Known n (.int i)
  | str (s : String) : Known n (.str s)
  | tuple {items : List Value} (h : ∀ v ∈ items, Known n v) : Known n (.tuple items)
  | obj {o : Handle} (h : ∀ i, o = .interface i → i < n) : Known n (.obj o)

theorem Known.mono {n m : Nat} (hle : n ≤ m) {v : Value} (h : v.Known n) : v.Known m := by
  induction h with
  | none => exact .none
  | bool b => exact .bool b
  | int i => exact .int i
  | str s => exact .str s
  | tuple _ ih => exact .tuple ih
  | obj h => exact .obj fun i hi => Nat.lt_of_lt_of_le (h i hi) hle

theorem Known.items {n : Nat} {items : List Value} (h : (Value.tuple items).Known n) :
    ∀ v ∈ items, v.Known n := by
  cases h with
  | tuple h => exact h

theorem Known.interface {n i : Nat} (h : (Value.obj (.interface i)).Known n) : i < n := by
  cases h with
  | obj h => exact h i rfl

variable {n : Nat} {a b v : Value}

theorem known_ofLiteral (l : Literal) : (ofLiteral l).Known n := by
  cases l with
  | none => exact .none
  | bool b => exact .bool b
  | int i => exact .int _
  | str s => exact .str s

theorem binary_known {op : BinOp} (ha : a.Known n) (hb : b.Known n) (h : binary op a b = .ok v) :
    v.Known n := by
  have hint : ∀ op : BinOp, (do return int (← arithmetic op (← a.asInt) (← b.asInt))) =
      (Except.ok v : Except SimError Value) → v.Known n := by
    intro op h
    obtain ⟨_, -, h⟩ := bind_eq_ok h
    obtain ⟨_, -, h⟩ := bind_eq_ok h
    obtain ⟨_, -, h⟩ := bind_eq_ok h
    cases h
    exact .int _
  simp only [binary] at h
  split at h
  case h_1 | h_2 | h_7 | h_8 =>
    cases h
    exact .bool _
  case h_3 | h_4 | h_5 | h_6 =>
    obtain ⟨_, -, h⟩ := bind_eq_ok h
    cases h
    exact .bool _
  · split at h
    · cases h
      exact .str _
    · cases h
      refine .tuple fun v hv => ?_
      rcases List.mem_append.mp hv with hv | hv
      · exact ha.items v hv
      · exact hb.items v hv
    · exact hint _ h

theorem unary_known {op : UnaryOp} (h : unary op a = .ok v) : v.Known n := by
  cases op with
  | not =>
      cases h
      exact .bool _
  | _ =>
      obtain ⟨i, -, h⟩ := bind_eq_ok h
      cases h
      exact .int _

theorem item_known {items : List Value} (hitems : ∀ v ∈ items, v.Known n) {i : Int}
    (h : item items i = .ok v) : v.Known n := by
  simp only [item] at h
  split at h
  · rename_i k _
    cases h
    cases hk : items[k]? with
    | none => exact .none
    | some v => exact hitems v (List.mem_of_getElem? hk)
  · cases h

theorem asTuple_known {items : List Value} (ha : a.Known n) (h : a.asTuple = .ok items) :
    ∀ v ∈ items, v.Known n := by
  cases a with
  | tuple l =>
      cases h
      exact ha.items
  | _ => cases h

end Value

namespace Tree

/-- All interfaces behind fields are among the first `n`. -/
def Known (t : Tree) (n : Nat) : Prop :=
  ∀ f v, t.storage? f = some (.object v) ∨ t.storage? f = some (.const v) → v.Known n

variable {t : Tree} {n id : Nat}

theorem fixedValue_known (ht : t.Known n) {index : Nat} {v : Value}
    (h : t.fixedValue id index = .ok v) : v.Known n := by
  simp only [fixedValue] at h
  split at h
  · cases h
  · rename_i s hs
    have hst : t.storage? ⟨id, index⟩ = some s.storage := storage?_of_slot hs
    split at h
    · rename_i w hw
      cases h
      exact ht _ _ (.inr (hst.trans (congrArg some hw)))
    · rename_i w hw
      cases h
      exact ht _ _ (.inl (hst.trans (congrArg some hw)))
    · cases h
      exact .obj (by simp)
    · cases h
    · cases h

theorem structuralBuiltin_known {b : Builtin} {args : List Value} (hargs : ∀ v ∈ args, v.Known n)
    {v : Value} (h : structuralBuiltin b args = .ok v) : v.Known n := by
  cases b with
  | min | max =>
      obtain ⟨i, -, h⟩ := bind_eq_ok h
      cases i with
      | some i =>
          cases h
          exact .int i
      | none => cases h
  | abs =>
      simp only [structuralBuiltin] at h
      split at h
      · obtain ⟨i, -, h⟩ := bind_eq_ok h
        cases h
        exact .int _
      · cases h
  | len =>
      simp only [structuralBuiltin] at h
      split at h
      · obtain ⟨l, -, h⟩ := bind_eq_ok h
        cases h
        exact .int _
      · cases h
  | mapAt =>
      simp only [structuralBuiltin] at h
      split at h
      · cases h
        exact .tuple hargs
      · cases h
  | cycles | range | print => cases h

theorem structuralCompare_known {l : List Expr} {left v : Value} {ops : List CmpOp}
    (h : t.structuralCompare id left ops l = .ok v) : v.Known n := by
  induction l generalizing left ops with
  | nil =>
      simp only [structuralCompare] at h
      cases h
      exact .bool _
  | cons x rest ih =>
      simp only [structuralCompare] at h
      split at h
      · cases h
        exact .bool _
      · obtain ⟨right, -, h⟩ := bind_eq_ok h
        obtain ⟨b, -, h⟩ := bind_eq_ok h
        split at h
        · exact ih h
        · cases h
          exact .bool _

mutual

theorem structural_known (ht : t.Known n) : ∀ (x : Expr) {v : Value},
    t.structural id x = .ok v → v.Known n
  | .constant c, v, h => by
      simp only [structural] at h
      cases h
      exact Value.known_ofLiteral c
  | .self, v, h => by
      simp only [structural] at h
      cases h
      exact .obj (by simp)
  | .field base index, v, h => by
      simp only [structural] at h
      obtain ⟨_, -, h⟩ := bind_eq_ok h
      obtain ⟨_, -, h⟩ := bind_eq_ok h
      exact fixedValue_known ht h
  | .builtin b, v, h => by
      simp only [structural] at h
      cases h
      exact .obj (by simp)
  | .binary lhs op rhs, v, h => by
      simp only [structural] at h
      obtain ⟨a, ha, h⟩ := bind_eq_ok h
      obtain ⟨b, hb, h⟩ := bind_eq_ok h
      exact Value.binary_known (structural_known ht lhs ha) (structural_known ht rhs hb) h
  | .unary op operand, v, h => by
      simp only [structural] at h
      obtain ⟨a, -, h⟩ := bind_eq_ok h
      exact Value.unary_known h
  | .logical op values, v, h => by
      simp only [structural] at h
      exact structuralLogical_known ht values (.bool _) h
  | .compare left ops comparators, v, h => by
      simp only [structural] at h
      obtain ⟨a, -, h⟩ := bind_eq_ok h
      exact structuralCompare_known h
  | .conditional test body orelse, v, h => by
      simp only [structural] at h
      obtain ⟨a, -, h⟩ := bind_eq_ok h
      split at h
      · exact structural_known ht body h
      · exact structural_known ht orelse h
  | .tuple items, v, h => by
      simp only [structural] at h
      obtain ⟨l, hl, h⟩ := bind_eq_ok h
      cases h
      exact .tuple (structuralAll_known ht items hl)
  | .subscript value index, v, h => by
      simp only [structural] at h
      obtain ⟨a, ha, h⟩ := bind_eq_ok h
      obtain ⟨l, hl, h⟩ := bind_eq_ok h
      obtain ⟨i, -, h⟩ := bind_eq_ok h
      obtain ⟨j, -, h⟩ := bind_eq_ok h
      exact Value.item_known (Value.asTuple_known (structural_known ht value ha) hl) h
  | .call callee args keywords, v, h => by
      cases callee with
      | builtin b =>
          simp only [structural] at h
          obtain ⟨l, hl, h⟩ := bind_eq_ok h
          exact structuralBuiltin_known (structuralAll_known ht args hl) h
      | _ =>
          simp only [structural] at h
          cases h
  | .member _ _, _, h | .param _ _, _, h | .var _, _, h | .await _, _, h => by
      simp only [structural, notStructural] at h
      cases h

theorem structuralAll_known (ht : t.Known n) : ∀ (l : List Expr) {vs : List Value},
    t.structuralAll id l = .ok vs → ∀ v ∈ vs, v.Known n
  | [], vs, h => by
      simp only [structuralAll] at h
      cases h
      simp
  | x :: rest, vs, h => by
      simp only [structuralAll] at h
      obtain ⟨v, hv, h⟩ := bind_eq_ok h
      obtain ⟨vs, hvs, h⟩ := bind_eq_ok h
      cases h
      intro w hw
      rcases List.mem_cons.mp hw with rfl | hw
      · exact structural_known ht x hv
      · exact structuralAll_known ht rest hvs w hw

theorem structuralLogical_known (ht : t.Known n) : ∀ (l : List Expr) {op : BoolOp} {last v : Value},
    last.Known n → t.structuralLogical id op last l = .ok v → v.Known n
  | [], op, last, v, hlast, h => by
      simp only [structuralLogical] at h
      cases h
      exact hlast
  | x :: rest, op, last, v, hlast, h => by
      simp only [structuralLogical] at h
      obtain ⟨w, hw, h⟩ := bind_eq_ok h
      split at h
      · cases h
        exact structural_known ht x hw
      · exact structuralLogical_known ht rest (structural_known ht x hw) h

end

end Tree

end Clockwork
