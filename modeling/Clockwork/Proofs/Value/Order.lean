import Mathlib.Logic.ExistsUnique
import Clockwork.Value.Operators
/-!
Equality and order of values. Two values are equal if they are the same once every truth value in
them is read as a number. Values that have an order have one in both directions, it agrees with
equality, and a value that comes before another one comes before all that the other one comes
before.
-/

namespace Clockwork

namespace Value

@[elab_as_elim]
theorem byItems {P : Value → Prop} (flat : ∀ v, (∀ items, v ≠ .tuple items) → P v)
    (tuple : ∀ items, (∀ v ∈ items, P v) → P (.tuple items)) (v : Value) : P v :=
  Value.rec (motive_1 := P) (motive_2 := fun items => ∀ v ∈ items, P v) (flat _ (by simp))
    (fun _ => flat _ (by simp)) (fun _ => flat _ (by simp)) (fun _ => flat _ (by simp)) tuple
    (fun _ => flat _ (by simp)) (by simp)
    (fun _ _ hv hrest => List.forall_mem_cons.mpr ⟨hv, hrest⟩) v

mutual

def plain : Value → Value
  | bool b => int (ofTruth b)
  | tuple items => tuple (plainAll items)
  | v => v

def plainAll : List Value → List Value
  | [] => []
  | v :: rest => v.plain :: plainAll rest

end

theorem sameAll_iff {as bs : List Value}
    (h : ∀ a ∈ as, ∀ b, a.same b = true ↔ a.plain = b.plain) :
    sameAll as bs = true ↔ plainAll as = plainAll bs := by
  induction as generalizing bs with
  | nil => cases bs <;> simp [sameAll, plainAll]
  | cons a as ih =>
      cases bs with
      | nil => simp [sameAll, plainAll]
      | cons b bs =>
          obtain ⟨ha, has⟩ := List.forall_mem_cons.mp h
          rw [sameAll, Bool.and_eq_true, ha, ih has, plainAll, plainAll, List.cons.injEq]

theorem same_iff {a b : Value} : a.same b = true ↔ a.plain = b.plain := by
  induction a using byItems generalizing b with
  | flat a hflat =>
      cases a with
      | tuple items => exact absurd rfl (hflat items)
      | bool p =>
          cases b with
          | bool q => cases p <;> cases q <;> simp [same, plain, ofTruth]
          | _ => simp [same, plain]
      | _ => cases b <;> simp [same, plain]
  | tuple items ih =>
      cases b with
      | tuple items' =>
          rw [same, sameAll_iff fun a ha b => ih a ha, plain, plain, tuple.injEq]
      | _ => simp [same, plain]

theorem same_refl (v : Value) : v.same v = true := same_iff.mpr rfl

theorem same_equivalence : Equivalence fun a b : Value => a.same b = true where
  refl := same_refl
  symm h := same_iff.mpr (same_iff.mp h).symm
  trans h h' := same_iff.mpr ((same_iff.mp h).trans (same_iff.mp h'))

theorem plain_of_asInt {a : Value} {n : Int} (h : a.asInt = .ok n) : a.plain = .int n := by
  cases a <;> cases h <;> rfl

/-- The values that have an order are two texts, two tuples, or two numbers. -/
inductive Ordered : Value → Value → Ordering → Prop
  | texts (s t : String) : Ordered (.str s) (.str t) (Ord.compare s t)
  | tuples {as bs : List Value} {o : Ordering} (h : orderAll as bs = .ok o) :
      Ordered (.tuple as) (.tuple bs) o
  | numbers {a b : Value} {m n : Int} (ha : a.asInt = .ok m) (hb : b.asInt = .ok n) :
      Ordered a b (Ord.compare m n)

/-- The order of two lists is that of the first items that differ, or that of the lengths. -/
inductive OrderedAll : List Value → List Value → Ordering → Prop
  | ends : OrderedAll [] [] .eq
  | shorter {b : Value} {bs : List Value} : OrderedAll [] (b :: bs) .lt
  | longer {a : Value} {as : List Value} : OrderedAll (a :: as) [] .gt
  | goesOn {a b : Value} {as bs : List Value} {o : Ordering} (h : order a b = .ok .eq)
      (hrest : orderAll as bs = .ok o) : OrderedAll (a :: as) (b :: bs) o
  | differs {a b : Value} {as bs : List Value} {o : Ordering} (h : order a b = .ok o)
      (ho : o ≠ .eq) : OrderedAll (a :: as) (b :: bs) o

variable {a b c : Value} {as bs cs : List Value} {o o' : Ordering}

theorem order_eq_ok_iff : order a b = .ok o ↔ Ordered a b o := by
  constructor
  · intro h
    cases a <;> cases b <;> simp only [order] at h
    case str.str => cases h; exact .texts _ _
    case tuple.tuple => exact .tuples h
    all_goals first
      | (cases h; exact .numbers rfl rfl)
      | cases h
  · intro h
    cases h with
    | texts => rfl
    | tuples h => rwa [order]
    | numbers ha hb => cases a <;> cases ha <;> cases b <;> cases hb <;> rfl

theorem orderAll_eq_ok_iff : orderAll as bs = .ok o ↔ OrderedAll as bs o := by
  constructor
  · intro h
    cases as with
    | nil => cases bs <;> cases h <;> constructor
    | cons a as =>
        cases bs with
        | nil => cases h; constructor
        | cons b bs =>
            rw [orderAll] at h
            split at h
            · rename_i hab
              exact .goesOn hab h
            · rename_i hne
              exact .differs h fun ho => hne (ho ▸ h)
  · intro h
    cases h with
    | ends | shorter | longer => rfl
    | goesOn h hrest => rw [orderAll, h, hrest]
    | differs h ho =>
        rw [orderAll, h]
        cases o <;> first | rfl | exact absurd rfl ho

theorem orderAll_swap (ih : ∀ a ∈ as, ∀ b o, order a b = .ok o → order b a = .ok o.swap)
    (h : orderAll as bs = .ok o) : orderAll bs as = .ok o.swap := by
  induction as generalizing bs with
  | nil => cases orderAll_eq_ok_iff.mp h <;> rfl
  | cons a as ihas =>
      obtain ⟨ha, has⟩ := List.forall_mem_cons.mp ih
      cases orderAll_eq_ok_iff.mp h with
      | longer => rfl
      | goesOn hab hrest =>
          exact orderAll_eq_ok_iff.mpr (.goesOn (ha _ _ hab) (ihas has hrest))
      | differs hab ho =>
          exact orderAll_eq_ok_iff.mpr
            (.differs (ha _ _ hab) fun hswap => ho (by simpa using hswap))

theorem order_swap (h : order a b = .ok o) : order b a = .ok o.swap := by
  induction a using byItems generalizing b o with
  | flat a hflat =>
      cases order_eq_ok_iff.mp h with
      | texts s t =>
          rw [← Std.OrientedOrd.eq_swap]
          exact order_eq_ok_iff.mpr (.texts t s)
      | tuples => exact absurd rfl (hflat _)
      | numbers ha hb =>
          rw [← Std.OrientedOrd.eq_swap]
          exact order_eq_ok_iff.mpr (.numbers hb ha)
  | tuple items ih =>
      cases order_eq_ok_iff.mp h with
      | tuples h => exact order_eq_ok_iff.mpr (.tuples (orderAll_swap (fun a ha b o => ih a ha) h))
      | numbers ha => cases ha

theorem orderAll_eq_iff (ih : ∀ a ∈ as, ∀ b o, order a b = .ok o → (o = .eq ↔ a.same b = true))
    (h : orderAll as bs = .ok o) : o = .eq ↔ sameAll as bs = true := by
  induction as generalizing bs with
  | nil => cases orderAll_eq_ok_iff.mp h <;> simp [sameAll]
  | cons a as ihas =>
      obtain ⟨ha, has⟩ := List.forall_mem_cons.mp ih
      cases orderAll_eq_ok_iff.mp h with
      | longer => simp [sameAll]
      | goesOn hab hrest =>
          rw [sameAll, (ha _ _ hab).mp rfl, Bool.true_and, ihas has hrest]
      | differs hab ho =>
          have hne := mt (ha _ _ hab).mpr ho
          simp [sameAll, ho, hne]

theorem order_eq_iff (h : order a b = .ok o) : o = .eq ↔ a.same b = true := by
  induction a using byItems generalizing b o with
  | flat a hflat =>
      cases order_eq_ok_iff.mp h with
      | texts s t => rw [Std.LawfulEqOrd.compare_eq_iff_eq, same, beq_iff_eq]
      | tuples => exact absurd rfl (hflat _)
      | numbers ha hb =>
          rw [Std.LawfulEqOrd.compare_eq_iff_eq, same_iff, plain_of_asInt ha, plain_of_asInt hb,
            int.injEq]
  | tuple items ih =>
      cases order_eq_ok_iff.mp h with
      | tuples h =>
          rw [same]
          exact orderAll_eq_iff (fun a ha b o => ih a ha) h
      | numbers ha => cases ha

theorem compare_then {α : Type} [Ord α] [Std.TransOrd α] [Std.LawfulEqOrd α] {x y z : α}
    (hxy : (Ord.compare x y).isLE) (hyz : (Ord.compare y z).isLE) :
    Ord.compare x z = (Ord.compare x y).then (Ord.compare y z) := by
  cases h : Ord.compare x y with
  | lt => exact Std.TransCmp.lt_of_lt_of_isLE h hyz
  | eq =>
      rw [Std.LawfulEqOrd.compare_eq_iff_eq.mp h]
      rfl
  | gt =>
      rw [h] at hxy
      cases hxy

theorem eq_lt_of_isLE (hle : o.isLE) (hne : o ≠ .eq) : o = .lt := by
  cases o with
  | lt => rfl
  | eq => exact absurd rfl hne
  | gt => cases hle

theorem orderAll_trans (ih : ∀ a ∈ as, ∀ b c o o', order a b = .ok o → order b c = .ok o' →
      o.isLE → o'.isLE → order a c = .ok (o.then o'))
    (h : orderAll as bs = .ok o) (h' : orderAll bs cs = .ok o') (ho : o.isLE) (ho' : o'.isLE) :
    orderAll as cs = .ok (o.then o') := by
  induction as generalizing bs cs o o' with
  | nil =>
      cases orderAll_eq_ok_iff.mp h with
      | ends => exact h'
      | shorter =>
          cases orderAll_eq_ok_iff.mp h' with
          | longer => cases ho'
          | goesOn | differs => rfl
  | cons a as ihas =>
      obtain ⟨ha, has⟩ := List.forall_mem_cons.mp ih
      rw [orderAll_eq_ok_iff]
      cases orderAll_eq_ok_iff.mp h with
      | longer => cases ho
      | goesOn hab hrest =>
          cases orderAll_eq_ok_iff.mp h' with
          | longer => cases ho'
          | goesOn hbc hrest' =>
              exact .goesOn (ha _ _ _ _ hab hbc rfl rfl) (ihas has hrest hrest' ho ho')
          | differs hbc hne =>
              obtain rfl := eq_lt_of_isLE ho' hne
              have hac := ha _ _ _ _ hab hbc rfl rfl
              cases o with
              | gt => cases ho
              | lt | eq => exact .differs hac hne
      | differs hab hne =>
          obtain rfl := eq_lt_of_isLE ho hne
          cases orderAll_eq_ok_iff.mp h' with
          | longer => cases ho'
          | goesOn hbc => exact .differs (ha _ _ _ .eq hab hbc rfl rfl) hne
          | differs hbc => exact .differs (ha _ _ _ _ hab hbc rfl ho') hne

theorem order_trans (h : order a b = .ok o) (h' : order b c = .ok o') (ho : o.isLE)
    (ho' : o'.isLE) : order a c = .ok (o.then o') := by
  induction a using byItems generalizing b c o o' with
  | flat a hflat =>
      rw [order_eq_ok_iff]
      cases order_eq_ok_iff.mp h with
      | texts s t =>
          cases order_eq_ok_iff.mp h' with
          | texts _ u =>
              rw [← compare_then ho ho']
              exact .texts s u
          | numbers hb => cases hb
      | tuples => exact absurd rfl (hflat _)
      | numbers ha hb =>
          cases order_eq_ok_iff.mp h' with
          | texts | tuples => cases hb
          | numbers hb' hc =>
              cases hb.symm.trans hb'
              rw [← compare_then ho ho']
              exact .numbers ha hc
  | tuple items ih =>
      rw [order_eq_ok_iff]
      cases order_eq_ok_iff.mp h with
      | tuples h =>
          cases order_eq_ok_iff.mp h' with
          | tuples h' =>
              exact .tuples (orderAll_trans (fun a ha b c o o' => ih a ha) h h' ho ho')
          | numbers hb => cases hb
      | numbers ha => cases ha

/-- A comparison of two values comes out true. -/
def Holds (op : CmpOp) (a b : Value) : Prop := Value.compare op a b = .ok true

/-- Two values have an order: no comparison by order fails. -/
def Comparable (a b : Value) : Prop :=
  ∀ op ∈ [CmpOp.lt, .le, .gt, .ge], ∃ r, Value.compare op a b = .ok r

/-- The comparison that an operator of expressions stands for. -/
def comparison? : BinOp → Option CmpOp
  | .eq => some .eq
  | .ne => some .ne
  | .lt => some .lt
  | .le => some .le
  | .gt => some .gt
  | .ge => some .ge
  | _ => Option.none

theorem compare_of_order (h : order a b = .ok o) :
    Value.compare .lt a b = .ok o.isLT ∧ Value.compare .le a b = .ok o.isLE ∧
      Value.compare .gt a b = .ok o.isGT ∧ Value.compare .ge a b = .ok o.isGE := by
  simp only [Value.compare, h]
  exact ⟨rfl, rfl, rfl, rfl⟩

theorem order_of_compare_lt {r : Bool} (h : Value.compare .lt a b = .ok r) :
    ∃ o, order a b = .ok o ∧ o.isLT = r := by
  cases ho : order a b with
  | ok o =>
      rw [(compare_of_order ho).1] at h
      exact ⟨o, rfl, Except.ok.inj h⟩
  | error e =>
      simp only [Value.compare, ho] at h
      cases h

theorem comparable_iff : Comparable a b ↔ ∃ o, order a b = .ok o := by
  constructor
  · intro h
    obtain ⟨r, hr⟩ := h .lt (by simp)
    obtain ⟨o, ho, -⟩ := order_of_compare_lt hr
    exact ⟨o, ho⟩
  · rintro ⟨o, ho⟩
    obtain ⟨hlt, hle, hgt, hge⟩ := compare_of_order ho
    intro op hop
    simp only [List.mem_cons, List.not_mem_nil, or_false] at hop
    obtain rfl | rfl | rfl | rfl := hop
    · exact ⟨_, hlt⟩
    · exact ⟨_, hle⟩
    · exact ⟨_, hgt⟩
    · exact ⟨_, hge⟩

theorem holds_lt_iff : Holds .lt a b ↔ order a b = .ok .lt := by
  constructor
  · intro h
    obtain ⟨o, ho, hlt⟩ := order_of_compare_lt h
    rw [ho, Ordering.isLT_iff_eq_lt.mp hlt]
  · exact fun h => (compare_of_order h).1

theorem holds_of_order (h : order a b = .ok o) :
    (Holds .lt a b ↔ o = .lt) ∧ (Holds .eq a b ↔ o = .eq) ∧ (Holds .gt a b ↔ o = .gt) ∧
      (Holds .le a b ↔ o ≠ .gt) ∧ (Holds .ge a b ↔ o ≠ .lt) := by
  obtain ⟨hlt, hle, hgt, hge⟩ := compare_of_order h
  have heq : Holds .eq a b ↔ o = .eq := by
    rw [order_eq_iff h, Holds, Value.compare, Except.ok.injEq]
  rw [heq]
  simp only [Holds, hlt, hle, hgt, hge, Except.ok.injEq]
  cases o <;> decide

theorem holds_unique (h : order a b = .ok o) : ∃! op, op ∈ [CmpOp.lt, .eq, .gt] ∧ Holds op a b := by
  obtain ⟨hlt, heq, hgt, -⟩ := holds_of_order h
  cases o with
  | lt => exact ⟨.lt, by simp [hlt], by simp [heq, hgt]⟩
  | eq => exact ⟨.eq, by simp [heq], by simp [hlt, hgt]⟩
  | gt => exact ⟨.gt, by simp [hgt], by simp [hlt, heq]⟩

theorem binary_of_comparison {op : BinOp} {op' : CmpOp} (h : comparison? op = some op') :
    Value.binary op a b = (Value.compare op' a b).map Value.bool := by
  cases op <;> cases h
  case eq | ne => rfl
  all_goals
    simp only [Value.binary, Value.compare]
    cases order a b <;> rfl

end Value

open Value

/-- Equality of values is an equivalence. Of two values that have an order exactly one is before
the other or they are equal, and the comparisons say so in either direction; what is before
another value is before all that this one is before. The operators of expressions compare in the
same way. -/
theorem comparison_coherent :
    (Equivalence fun a b : Value => a.same b = true) ∧
    (∀ a b, Comparable a b → Comparable b a ∧
      (∃! op, op ∈ [CmpOp.lt, .eq, .gt] ∧ Holds op a b) ∧
      (Holds .le a b ↔ Holds .lt a b ∨ Holds .eq a b) ∧ (Holds .ge a b ↔ Holds .le b a)) ∧
    (∀ a b c, Holds .lt a b → Holds .lt b c → Holds .lt a c) ∧
    ∀ op op' a b, comparison? op = some op' →
      Value.binary op a b = (Value.compare op' a b).map Value.bool := by
  refine ⟨same_equivalence, fun a b h => ?_, fun a b c hab hbc => ?_,
    fun op op' a b hop => binary_of_comparison hop⟩
  · obtain ⟨o, ho⟩ := comparable_iff.mp h
    have hswap := order_swap ho
    obtain ⟨hlt, heq, -, hle, hge⟩ := holds_of_order ho
    obtain ⟨-, -, -, hle', -⟩ := holds_of_order hswap
    refine ⟨comparable_iff.mpr ⟨_, hswap⟩, holds_unique ho, ?_, ?_⟩
    · rw [hle, hlt, heq]
      cases o <;> decide
    · rw [hge, hle']
      cases o <;> decide
  · rw [holds_lt_iff] at hab hbc ⊢
    exact order_trans hab hbc rfl rfl

theorem nested_tuples_coherent :
    let a := tuple [.int 1, tuple [.str "a"]]
    let b := tuple [.bool true, tuple [.str "a", .bool false]]
    let c := tuple [.int 2]
    Comparable a b ∧ Holds .lt a b ∧ Holds .lt b c ∧
      (∃! op, op ∈ [CmpOp.lt, .eq, .gt] ∧ Holds op a b) ∧ Holds .lt a c ∧
      Value.binary .lt a c = .ok (.bool true) := by
  intro a b c
  have hab : Holds .lt a b := rfl
  have hbc : Holds .lt b c := rfl
  have hcomparable : Comparable a b := comparable_iff.mpr ⟨_, holds_lt_iff.mp hab⟩
  obtain ⟨-, htotal, htrans, hbinary⟩ := comparison_coherent
  have hac : Holds .lt a c := htrans a b c hab hbc
  refine ⟨hcomparable, hab, hbc, (htotal a b hcomparable).2.1, hac, ?_⟩
  rw [hbinary .lt .lt a c rfl, hac]
  rfl

end Clockwork
