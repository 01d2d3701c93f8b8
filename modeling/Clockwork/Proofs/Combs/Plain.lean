import Clockwork.Proofs.Combs.Wiring
import Clockwork.Proofs.Machine.Step

namespace Clockwork

namespace Expr

mutual

/-- Whether an expression takes fields at the end of paths only, and calls nothing. -/
def plain : Expr → Bool
  | constant _ | param _ _ | var _ | builtin _ => true
  | field base index => (field base index).fieldPath?.isSome
  | binary lhs _ rhs => lhs.plain && rhs.plain
  | unary _ operand => operand.plain
  | logical _ values => plainAll values
  | compare left _ comparators => left.plain && plainAll comparators
  | subscript value index => value.plain && index.plain
  | conditional test body orelse => test.plain && (body.plain && orelse.plain)
  | await value => value.plain
  | tuple items => plainAll items
  | self | member _ _ | call _ _ _ => false

def plainAll : List Expr → Bool
  | [] => true
  | e :: rest => e.plain && plainAll rest

end

mutual

/-- Whether an expression can be assigned to without a look at a field: an item is replaced in a
variable only, since the container is read for it. -/
def plainTarget : Expr → Bool
  | var _ | param _ _ => true
  | field base index => (field base index).fieldPath?.isSome
  | tuple items => plainTargets items
  | subscript value index =>
    value.plain && value.reads.isEmpty && index.plain && value.plainTarget
  | _ => false

def plainTargets : List Expr → Bool
  | [] => true
  | e :: rest => e.plainTarget && plainTargets rest

end

end Expr

namespace Stmt

mutual

/-- Whether a statement takes fields at the end of paths only, and calls nothing. -/
def plain : Stmt → Bool
  | assign targets value => value.plain && Expr.plainTargets targets
  | update target _ value => value.plain && (target.plain && target.plainTarget)
  | result value => Expr.plainAll value.toList
  | branch test body orelse => test.plain && (plainAll body && plainAll orelse)
  | each target items body orelse =>
    items.plain && (target.plainTarget && (plainAll body && plainAll orelse))
  | loop test body orelse => test.plain && (plainAll body && plainAll orelse)
  | assertion _ test message => test.plain && Expr.plainAll message.toList
  | select subject cases =>
    Expr.plainAll (exprs (select subject cases)) && plainCases cases
  | expr e => e.plain
  | leave | again | pass => true

def plainAll : List Stmt → Bool
  | [] => true
  | s :: rest => s.plain && plainAll rest

def plainCases : List Case → Bool
  | [] => true
  | ⟨_, _, body⟩ :: rest => plainAll body && plainCases rest

end

end Stmt

namespace Access

def path : Access → FieldPath
  | read p => p
  | write p => p

end Access

attribute [simp] Expr.plain Expr.plainAll Expr.plainTarget Expr.plainTargets Expr.reads
  Expr.readsAll Expr.writes Expr.writesAll Stmt.plain Stmt.plainAll Stmt.plainCases Stmt.accesses
  Stmt.accessesAll Stmt.accessesCases

section Fits

variable (A : List Access)

def Expr.Fits (e : Expr) : Prop := e.plain = true ∧ ∀ a ∈ e.reads, a ∈ A

def Expr.TargetFits (e : Expr) : Prop := e.plainTarget = true ∧ ∀ a ∈ e.writes, a ∈ A

def Stmt.Fits (s : Stmt) : Prop := s.plain = true ∧ ∀ a ∈ s.accesses, a ∈ A

def Stmt.AllFit (l : List Stmt) : Prop :=
  Stmt.plainAll l = true ∧ ∀ a ∈ Stmt.accessesAll l, a ∈ A

def Pattern.Fits (p : Pattern) : Prop := ∀ e ∈ p.values, e.Fits A

structure Case.Fits (c : Case) : Prop where
  pattern : c.pattern.Fits A
  guard : ∀ e ∈ c.guard, e.Fits A
  body : Stmt.AllFit A c.body

end Fits

section Parts

variable {A : List Access}

theorem Expr.allFit_iff {l : List Expr} :
    (Expr.plainAll l = true ∧ ∀ a ∈ Expr.readsAll l, a ∈ A) ↔ ∀ e ∈ l, e.Fits A := by
  induction l with
  | nil => simp [plainAll, readsAll]
  | cons e l ih =>
      rw [List.forall_mem_cons, ← ih]
      simp only [plainAll, readsAll, Bool.and_eq_true, List.forall_mem_append, Fits]
      exact and_and_and_comm

theorem Expr.targetsFit_iff {l : List Expr} :
    (Expr.plainTargets l = true ∧ ∀ a ∈ Expr.writesAll l, a ∈ A) ↔ ∀ e ∈ l, e.TargetFits A := by
  induction l with
  | nil => simp [plainTargets, writesAll]
  | cons e l ih =>
      rw [List.forall_mem_cons, ← ih]
      simp only [plainTargets, writesAll, Bool.and_eq_true, List.forall_mem_append, TargetFits]
      exact and_and_and_comm

namespace Expr

@[simp] theorem fits_binary {lhs rhs : Expr} {op : BinOp} :
    (binary lhs op rhs).Fits A ↔ lhs.Fits A ∧ rhs.Fits A := by
  simp only [Fits, plain, reads, Bool.and_eq_true, List.forall_mem_append]
  exact and_and_and_comm

@[simp] theorem fits_unary {op : UnaryOp} {e : Expr} : (unary op e).Fits A ↔ e.Fits A := by
  simp only [Fits, plain, reads]

@[simp] theorem fits_logical {op : BoolOp} {values : List Expr} :
    (logical op values).Fits A ↔ ∀ e ∈ values, e.Fits A := by
  rw [Fits, plain, reads, allFit_iff]

@[simp] theorem fits_compare {left : Expr} {ops : List CmpOp} {comparators : List Expr} :
    (compare left ops comparators).Fits A ↔ left.Fits A ∧ ∀ e ∈ comparators, e.Fits A := by
  rw [← allFit_iff]
  simp only [Fits, plain, reads, Bool.and_eq_true, List.forall_mem_append]
  exact and_and_and_comm

@[simp] theorem fits_subscript {value index : Expr} :
    (subscript value index).Fits A ↔ value.Fits A ∧ index.Fits A := by
  simp only [Fits, plain, reads, Bool.and_eq_true, List.forall_mem_append]
  exact and_and_and_comm

@[simp] theorem fits_conditional {test body orelse : Expr} :
    (conditional test body orelse).Fits A ↔ test.Fits A ∧ body.Fits A ∧ orelse.Fits A := by
  simp only [Fits, plain, reads, Bool.and_eq_true, List.forall_mem_append]
  exact and_and_and_comm.trans (and_congr_right' and_and_and_comm)

@[simp] theorem fits_await {e : Expr} : (await e).Fits A ↔ e.Fits A := by
  simp only [Fits, plain, reads]

@[simp] theorem fits_tuple {items : List Expr} :
    (tuple items).Fits A ↔ ∀ e ∈ items, e.Fits A := by
  rw [Fits, plain, reads, allFit_iff]

@[simp] theorem not_fits_self : ¬ self.Fits A := by simp [Fits, plain]

@[simp] theorem not_fits_member {e : Expr} {name : String} : ¬ (member e name).Fits A := by
  simp [Fits, plain]

@[simp] theorem not_fits_call {callee : Expr} {args : List Expr}
    {keywords : List (String × Expr)} : ¬ (call callee args keywords).Fits A := by
  simp [Fits, plain]

theorem Fits.field {base : Expr} {index : Nat} (h : (field base index).Fits A) :
    ∃ p, (Expr.field base index).fieldPath? = some p ∧ .read p ∈ A := by
  obtain ⟨hplain, hreads⟩ := h
  rw [plain, Option.isSome_iff_exists] at hplain
  obtain ⟨p, hp⟩ := hplain
  refine ⟨p, hp, hreads _ ?_⟩
  simp [reads, hp]

theorem TargetFits.field {base : Expr} {index : Nat} (h : (Expr.field base index).TargetFits A) :
    ∃ p, (Expr.field base index).fieldPath? = some p ∧ .write p ∈ A := by
  obtain ⟨hplain, hwrites⟩ := h
  rw [plainTarget, Option.isSome_iff_exists] at hplain
  obtain ⟨p, hp⟩ := hplain
  refine ⟨p, hp, hwrites _ ?_⟩
  simp [writes, hp]

@[simp] theorem targetFits_tuple {items : List Expr} :
    (tuple items).TargetFits A ↔ ∀ e ∈ items, e.TargetFits A := by
  rw [TargetFits, plainTarget, writes, targetsFit_iff]

theorem fieldPath?_of_reads {e : Expr} (h : e.reads = []) : e.fieldPath? = none := by
  cases e with
  | field base index =>
      rw [reads] at h
      split at h
      · cases h
      · assumption
  | _ => rfl

@[simp] theorem targetFits_subscript {value index : Expr} :
    (subscript value index).TargetFits A ↔
      value.reads = [] ∧ value.Fits A ∧ value.TargetFits A ∧ index.Fits A := by
  simp only [TargetFits, Fits, plainTarget, writes, Bool.and_eq_true, List.forall_mem_append,
    List.isEmpty_iff]
  constructor
  · rintro ⟨⟨⟨⟨hplain, hreads⟩, hindex⟩, htarget⟩, hmem, hmem'⟩
    rw [fieldPath?_of_reads hreads] at hmem'
    refine ⟨hreads, ⟨hplain, by simp [hreads]⟩, ⟨htarget, hmem'⟩, hindex, hmem⟩
  · rintro ⟨hreads, ⟨hplain, -⟩, ⟨htarget, hmem'⟩, hindex, hmem⟩
    rw [fieldPath?_of_reads hreads]
    exact ⟨⟨⟨⟨hplain, hreads⟩, hindex⟩, htarget⟩, hmem, hmem'⟩

theorem eq_path_of_fieldPath? (e : Expr) {p : FieldPath} (h : e.fieldPath? = some p) :
    e = path p := by
  cases e with
  | field base index =>
      by_cases hself : base = self
      · subst hself
        cases h
        rfl
      · have hbase : (field base index).fieldPath? = base.fieldPath?.map (· ++ [index]) := by
          cases base with
          | self => exact absurd rfl hself
          | _ => rfl
        rw [hbase] at h
        obtain ⟨q, hq, rfl⟩ := Option.map_eq_some_iff.mp h
        rw [eq_path_of_fieldPath? base hq, path, path, List.foldl_append]
        rfl
  | _ => cases h

end Expr

namespace Stmt

theorem allFit_cons {s : Stmt} {l : List Stmt} : AllFit A (s :: l) ↔ s.Fits A ∧ AllFit A l := by
  simp only [AllFit, Fits, plainAll, accessesAll, Bool.and_eq_true, List.forall_mem_append]
  exact and_and_and_comm

@[simp] theorem fits_assign {targets : List Expr} {value : Expr} :
    (assign targets value).Fits A ↔ value.Fits A ∧ ∀ e ∈ targets, e.TargetFits A := by
  rw [← Expr.targetsFit_iff]
  simp only [Fits, plain, accesses, Bool.and_eq_true, List.forall_mem_append, Expr.Fits]
  exact and_and_and_comm

@[simp] theorem fits_update {target value : Expr} {op : AugOp} :
    (update target op value).Fits A ↔ value.Fits A ∧ target.Fits A ∧ target.TargetFits A := by
  simp only [Fits, plain, accesses, Bool.and_eq_true, List.forall_mem_append, Expr.Fits,
    Expr.TargetFits]
  exact and_and_and_comm.trans (and_congr_right' and_and_and_comm)

@[simp] theorem fits_result {value : Option Expr} :
    (result value).Fits A ↔ ∀ e ∈ value, e.Fits A := by
  rw [Fits, plain, accesses, Expr.allFit_iff]
  simp only [Option.mem_toList, Option.mem_def]

@[simp] theorem fits_branch {test : Expr} {body orelse : List Stmt} :
    (branch test body orelse).Fits A ↔ test.Fits A ∧ AllFit A body ∧ AllFit A orelse := by
  simp only [Fits, AllFit, plain, accesses, Bool.and_eq_true, List.forall_mem_append, Expr.Fits]
  exact and_and_and_comm.trans (and_congr_right' and_and_and_comm)

@[simp] theorem fits_each {target items : Expr} {body orelse : List Stmt} :
    (each target items body orelse).Fits A ↔
      items.Fits A ∧ target.TargetFits A ∧ AllFit A body ∧ AllFit A orelse := by
  simp only [Fits, AllFit, plain, accesses, Bool.and_eq_true, List.forall_mem_append, Expr.Fits,
    Expr.TargetFits]
  exact and_and_and_comm.trans (and_congr_right'
    (and_and_and_comm.trans (and_congr_right' and_and_and_comm)))

@[simp] theorem fits_loop {test : Expr} {body orelse : List Stmt} :
    (loop test body orelse).Fits A ↔ test.Fits A ∧ AllFit A body ∧ AllFit A orelse := by
  simp only [Fits, AllFit, plain, accesses, Bool.and_eq_true, List.forall_mem_append, Expr.Fits]
  exact and_and_and_comm.trans (and_congr_right' and_and_and_comm)

@[simp] theorem fits_assertion {kind : AssertionKind} {test : Expr} {message : Option Expr} :
    (assertion kind test message).Fits A ↔ test.Fits A ∧ ∀ e ∈ message, e.Fits A := by
  have hmessage : (∀ e ∈ message, e.Fits A) ↔ ∀ e ∈ message.toList, e.Fits A := by
    simp only [Option.mem_toList, Option.mem_def]
  rw [hmessage, ← Expr.allFit_iff]
  simp only [Fits, plain, accesses, Bool.and_eq_true, List.forall_mem_append, Expr.Fits]
  exact and_and_and_comm

@[simp] theorem fits_expr {e : Expr} : (expr e).Fits A ↔ e.Fits A := by
  simp only [Fits, plain, accesses, Expr.Fits]

theorem casesFit_iff {cases : List Case} :
    (plainCases cases = true ∧ ∀ a ∈ accessesCases cases, a ∈ A) ↔
      ∀ c ∈ cases, AllFit A c.body := by
  induction cases with
  | nil => simp [plainCases, accessesCases]
  | cons c cases ih =>
      obtain ⟨pattern, guard, body⟩ := c
      rw [List.forall_mem_cons, ← ih]
      simp only [plainCases, accessesCases, Bool.and_eq_true, List.forall_mem_append, AllFit]
      exact and_and_and_comm

@[simp] theorem fits_select {subject : Expr} {cases : List Case} :
    (select subject cases).Fits A ↔ subject.Fits A ∧ ∀ c ∈ cases, c.Fits A := by
  have hparts : (select subject cases).Fits A ↔
      (∀ e ∈ exprs (select subject cases), e.Fits A) ∧ ∀ c ∈ cases, AllFit A c.body := by
    rw [← Expr.allFit_iff, ← casesFit_iff]
    simp only [Fits, plain, accesses, Bool.and_eq_true, List.forall_mem_append]
    exact and_and_and_comm
  rw [hparts]
  simp only [exprs, List.forall_mem_cons, List.mem_flatMap, caseExprs, List.mem_append,
    Option.mem_toList]
  constructor
  · rintro ⟨⟨hsubject, hexprs⟩, hbodies⟩
    exact ⟨hsubject, fun c hc => ⟨fun e he => hexprs e ⟨c, hc, .inl he⟩,
      fun e he => hexprs e ⟨c, hc, .inr he⟩, hbodies c hc⟩⟩
  · rintro ⟨hsubject, hcases⟩
    refine ⟨⟨hsubject, ?_⟩, fun c hc => (hcases c hc).body⟩
    rintro e ⟨c, hc, he | he⟩
    · exact (hcases c hc).pattern e he
    · exact (hcases c hc).guard e he

end Stmt

namespace Pattern

theorem valuesAll_eq (l : List Pattern) : valuesAll l = l.flatMap values := by
  induction l with
  | nil => rfl
  | cons p l ih => rw [valuesAll, ih, List.flatMap_cons]

@[simp] theorem fits_value {e : Option Expr} :
    (value e).Fits A ↔ ∀ x ∈ e, x.Fits A := by
  simp [Fits, values]

@[simp] theorem fits_bind {inner : Pattern} {name : String} :
    (bind (some inner) name).Fits A ↔ inner.Fits A := by
  simp [Fits, values]

@[simp] theorem fits_alternatives {l : List Pattern} :
    (alternatives l).Fits A ↔ ∀ p ∈ l, p.Fits A := by
  simp only [Fits, values, valuesAll_eq, List.mem_flatMap]
  exact ⟨fun h p hp e he => h e ⟨p, hp, he⟩, fun h e ⟨p, hp, he⟩ => h p hp e he⟩

end Pattern

end Parts

end Clockwork
