import Clockwork.Proofs.Combs.Plain

namespace Clockwork

namespace Expr

mutual

/-- Whether an expression refers to fields at the ends of paths only. -/
def byPath : Expr → Bool
  | field base index => (field base index).fieldPath?.isSome
  | binary lhs _ rhs => lhs.byPath && rhs.byPath
  | unary _ operand => operand.byPath
  | logical _ values => byPathAll values
  | compare left _ comparators => left.byPath && byPathAll comparators
  | member value _ => value.byPath
  | subscript value index => value.byPath && index.byPath
  | call callee args keywords => callee.byPath && (byPathAll args && byPathKeywords keywords)
  | conditional test body orelse => test.byPath && (body.byPath && orelse.byPath)
  | await value => value.byPath
  | tuple items => byPathAll items
  | constant _ | self | param _ _ | var _ | builtin _ => true

def byPathAll : List Expr → Bool
  | [] => true
  | e :: rest => e.byPath && byPathAll rest

def byPathKeywords : List (String × Expr) → Bool
  | [] => true
  | (_, e) :: rest => e.byPath && byPathKeywords rest

end

def parts : Expr → List Expr
  | binary lhs _ rhs => [lhs, rhs]
  | unary _ operand => [operand]
  | logical _ values => values
  | compare left _ comparators => left :: comparators
  | member value _ => [value]
  | subscript value index => [value, index]
  | call callee args keywords => callee :: (args ++ keywords.map Prod.snd)
  | conditional test body orelse => [test, body, orelse]
  | await value => [value]
  | tuple items => items
  | constant _ | self | field _ _ | param _ _ | var _ | builtin _ => []

theorem byPathAll_iff {l : List Expr} : byPathAll l = true ↔ ∀ e ∈ l, e.byPath = true := by
  induction l with
  | nil => simp [byPathAll]
  | cons e l ih => simp [byPathAll, ih]

theorem byPathKeywords_iff {l : List (String × Expr)} :
    byPathKeywords l = true ↔ ∀ e ∈ l.map Prod.snd, e.byPath = true := by
  induction l with
  | nil => simp [byPathKeywords]
  | cons k l ih => rw [byPathKeywords, Bool.and_eq_true, ih, List.map_cons, List.forall_mem_cons]

theorem mem_readsAll {a : Access} {l : List Expr} : a ∈ readsAll l ↔ ∃ e ∈ l, a ∈ e.reads := by
  induction l with
  | nil => simp [readsAll]
  | cons e l ih => simp [readsAll, ih]

theorem mem_readsKeywords {a : Access} {l : List (String × Expr)} :
    a ∈ readsKeywords l ↔ ∃ e ∈ l.map Prod.snd, a ∈ e.reads := by
  induction l with
  | nil => simp [readsKeywords]
  | cons k l ih => simp only [readsKeywords, List.mem_append, ih, List.map_cons, List.mem_cons,
      or_and_right, exists_or, exists_eq_left]

theorem mem_writesAll {a : Access} {l : List Expr} : a ∈ writesAll l ↔ ∃ e ∈ l, a ∈ e.writes := by
  induction l with
  | nil => simp [writesAll]
  | cons e l ih => simp [writesAll, ih]

theorem byPath_of_parts {e x : Expr} (h : e.byPath = true) (hx : x ∈ e.parts) :
    x.byPath = true := by
  cases e with
  | binary | unary | subscript | member | conditional | await =>
      simp only [parts, List.mem_cons, List.not_mem_nil, or_false] at hx
      simp only [byPath, Bool.and_eq_true] at h
      grind
  | logical op values => exact byPathAll_iff.mp h x hx
  | tuple items => exact byPathAll_iff.mp h x hx
  | compare left ops comparators =>
      simp only [byPath, Bool.and_eq_true, byPathAll_iff] at h
      rcases List.mem_cons.mp hx with rfl | hx
      · exact h.1
      · exact h.2 x hx
  | call callee args keywords =>
      simp only [byPath, Bool.and_eq_true, byPathAll_iff, byPathKeywords_iff] at h
      rcases List.mem_cons.mp hx with rfl | hx
      · exact h.1
      · rcases List.mem_append.mp hx with hx | hx
        · exact h.2.1 x hx
        · exact h.2.2 x hx
  | constant | self | field | param | var | builtin => cases hx

theorem mem_reads_of_parts {e x : Expr} {a : Access} (hx : x ∈ e.parts) (ha : a ∈ x.reads) :
    a ∈ e.reads := by
  cases e with
  | binary | unary | subscript | member | conditional | await =>
      simp only [parts, List.mem_cons, List.not_mem_nil, or_false] at hx
      simp only [reads, List.mem_append]
      grind
  | logical op values => exact mem_readsAll.mpr ⟨x, hx, ha⟩
  | tuple items => exact mem_readsAll.mpr ⟨x, hx, ha⟩
  | compare left ops comparators =>
      rw [reads, List.mem_append, mem_readsAll]
      rcases List.mem_cons.mp hx with rfl | hx
      · exact .inl ha
      · exact .inr ⟨x, hx, ha⟩
  | call callee args keywords =>
      rw [reads, List.mem_append, List.mem_append, mem_readsAll, mem_readsKeywords]
      rcases List.mem_cons.mp hx with rfl | hx
      · exact .inl ha
      · rcases List.mem_append.mp hx with hx | hx
        · exact .inr (.inl ⟨x, hx, ha⟩)
        · exact .inr (.inr ⟨x, hx, ha⟩)
  | constant | self | field | param | var | builtin => cases hx

theorem reads_of_fieldPath? {e : Expr} {p : FieldPath} (h : e.fieldPath? = some p) :
    e.reads = [.read p] := by
  cases e with
  | field base index => simp [reads, h]
  | _ => cases h

/-- What is read when an assigned expression is evaluated has the path of one of its accesses. -/
theorem exists_writes_of_mem_reads (e : Expr) {a : Access} (ha : a ∈ e.reads) :
    ∃ b ∈ e.writes, b.path = a.path := by
  cases e with
  | field base index =>
      cases hp : (field base index).fieldPath? with
      | some p =>
          rw [reads_of_fieldPath? hp, List.mem_singleton] at ha
          subst ha
          exact ⟨.write p, by simp [writes, hp], rfl⟩
      | none =>
          refine ⟨a, ?_, rfl⟩
          rwa [writes, hp]
  | subscript value index =>
      rw [reads, List.mem_append] at ha
      rw [writes]
      rcases ha with ha | ha
      · cases hp : value.fieldPath? with
        | some p =>
            rw [reads_of_fieldPath? hp, List.mem_singleton] at ha
            subst ha
            exact ⟨.write p, by simp, rfl⟩
        | none =>
            obtain ⟨b, hb, hpath⟩ := exists_writes_of_mem_reads value ha
            exact ⟨b, List.mem_append_right _ hb, hpath⟩
      · exact ⟨a, List.mem_append_left _ ha, rfl⟩
  | tuple items =>
      obtain ⟨x, hx, ha⟩ := mem_readsAll.mp ha
      obtain ⟨b, hb, hpath⟩ := exists_writes_of_mem_reads x ha
      exact ⟨b, mem_writesAll.mpr ⟨x, hx, hb⟩, hpath⟩
  | _ => exact ⟨a, ha, rfl⟩

end Expr

namespace Stmt

mutual

/-- Whether a statement refers to fields at the ends of paths only. -/
def byPath : Stmt → Bool
  | branch test body orelse => test.byPath && (byPathAll body && byPathAll orelse)
  | each target items body orelse =>
    Expr.byPathAll [target, items] && (byPathAll body && byPathAll orelse)
  | loop test body orelse => test.byPath && (byPathAll body && byPathAll orelse)
  | select subject cases => Expr.byPathAll (exprs (select subject cases)) && byPathCases cases
  | s => Expr.byPathAll (exprs s)

/-- Whether a body refers to fields at the ends of paths only. -/
def byPathAll : List Stmt → Bool
  | [] => true
  | s :: rest => s.byPath && byPathAll rest

def byPathCases : List Case → Bool
  | [] => true
  | ⟨_, _, body⟩ :: rest => byPathAll body && byPathCases rest

end

def values : Stmt → List Expr
  | assign _ value => [value]
  | update target _ value => [target, value]
  | result value => value.toList
  | branch test _ _ | loop test _ _ => [test]
  | each _ items _ _ => [items]
  | assertion _ test message => test :: message.toList
  | select subject cases => subject :: cases.flatMap caseExprs
  | expr e => [e]
  | leave | again | pass => []

def targets : Stmt → List Expr
  | assign targets _ => targets
  | update target _ _ | each target _ _ _ => [target]
  | _ => []

theorem byPathAll_iff {l : List Stmt} : byPathAll l = true ↔ ∀ s ∈ l, s.byPath = true := by
  induction l with
  | nil => simp [byPathAll]
  | cons s l ih => simp [byPathAll, ih]

theorem byPathCases_iff {l : List Case} :
    byPathCases l = true ↔ ∀ c ∈ l, byPathAll c.body = true := by
  induction l with
  | nil => simp [byPathCases]
  | cons c l ih =>
      obtain ⟨pattern, guard, body⟩ := c
      rw [byPathCases, Bool.and_eq_true, ih, List.forall_mem_cons]

theorem mem_accessesAll {a : Access} {l : List Stmt} :
    a ∈ accessesAll l ↔ ∃ s ∈ l, a ∈ s.accesses := by
  induction l with
  | nil => simp [accessesAll]
  | cons s l ih => simp [accessesAll, ih]

theorem mem_accessesCases {a : Access} {l : List Case} :
    a ∈ accessesCases l ↔ ∃ c ∈ l, a ∈ accessesAll c.body := by
  induction l with
  | nil => simp [accessesCases]
  | cons c l ih =>
      obtain ⟨pattern, guard, body⟩ := c
      simp [accessesCases, ih]

theorem byPath_of_values {s : Stmt} {x : Expr} (h : s.byPath = true)
    (hx : x ∈ s.values ∨ x ∈ s.targets) : x.byPath = true := by
  cases s with
  | branch | loop =>
      simp only [values, targets, List.mem_singleton, List.not_mem_nil, or_false] at hx
      simp only [byPath, Bool.and_eq_true] at h
      grind
  | each =>
      simp only [values, targets, List.mem_singleton] at hx
      simp only [byPath, Bool.and_eq_true, Expr.byPathAll_iff] at h
      grind
  | select =>
      simp only [values, targets, List.not_mem_nil, or_false] at hx
      simp only [byPath, Bool.and_eq_true, Expr.byPathAll_iff, exprs] at h
      exact h.1 x hx
  | _ =>
      simp only [byPath, Expr.byPathAll_iff, exprs] at h
      refine h x ?_
      simp only [values, targets] at hx
      grind

theorem byPathAll_of_blocks {s : Stmt} {b : List Stmt} (h : s.byPath = true)
    (hb : b ∈ s.blocks) : byPathAll b = true := by
  cases s with
  | branch | each | loop =>
      simp only [blocks, List.mem_cons, List.not_mem_nil, or_false] at hb
      simp only [byPath, Bool.and_eq_true] at h
      grind
  | select subject cases =>
      obtain ⟨c, hc, rfl⟩ := List.mem_map.mp hb
      simp only [byPath, Bool.and_eq_true, byPathCases_iff] at h
      exact h.2 c hc
  | _ => cases hb

theorem mem_accesses_of_values {s : Stmt} {x : Expr} {a : Access} (hx : x ∈ s.values)
    (ha : a ∈ x.reads) : a ∈ s.accesses := by
  cases s with
  | result | assertion | select =>
      simp only [values] at hx
      simp only [accesses, exprs, List.mem_append, Expr.mem_readsAll]
      grind
  | leave | again | pass => cases hx
  | _ =>
      simp only [values, List.mem_cons, List.not_mem_nil, or_false] at hx
      simp only [accesses, List.mem_append]
      grind

theorem mem_accesses_of_targets {s : Stmt} {x : Expr} {a : Access} (hx : x ∈ s.targets)
    (ha : a ∈ x.writes) : a ∈ s.accesses := by
  cases s with
  | assign targets value =>
      rw [accesses, List.mem_append, Expr.mem_writesAll]
      exact .inr ⟨x, hx, ha⟩
  | update | each =>
      simp only [targets, List.mem_singleton] at hx
      simp only [accesses, List.mem_append]
      grind
  | _ => cases hx

theorem mem_accesses_of_blocks {s : Stmt} {b : List Stmt} {a : Access} (hb : b ∈ s.blocks)
    (ha : a ∈ accessesAll b) : a ∈ s.accesses := by
  cases s with
  | branch | each | loop =>
      simp only [blocks, List.mem_cons, List.not_mem_nil, or_false] at hb
      simp only [accesses, List.mem_append]
      grind
  | select subject cases =>
      obtain ⟨c, hc, rfl⟩ := List.mem_map.mp hb
      rw [accesses, List.mem_append, mem_accessesCases]
      exact .inr ⟨c, hc, ha⟩
  | _ => cases hb

end Stmt

section Within

def Access.Name (A : List Access) (p : FieldPath) : Prop := ∃ a ∈ A, a.path = p

variable (A : List Access)

def Expr.Within (e : Expr) : Prop := e.byPath = true ∧ ∀ a ∈ e.reads, Access.Name A a.path

def Expr.TargetWithin (e : Expr) : Prop := e.byPath = true ∧ ∀ a ∈ e.writes, a ∈ A

def Stmt.Within (s : Stmt) : Prop := s.byPath = true ∧ ∀ a ∈ s.accesses, a ∈ A

def Stmt.AllWithin (l : List Stmt) : Prop := ∀ s ∈ l, s.Within A

def Pattern.Within (p : Pattern) : Prop := ∀ e ∈ p.values, e.Within A

structure Case.Within (c : Case) : Prop where
  pattern : c.pattern.Within A
  guard : ∀ e ∈ c.guard, e.Within A
  body : Stmt.AllWithin A c.body

end Within

section Parts

variable {A : List Access}

namespace Expr

theorem Within.part {e x : Expr} (h : e.Within A) (hx : x ∈ e.parts) : x.Within A :=
  ⟨byPath_of_parts h.1 hx, fun a ha => h.2 a (mem_reads_of_parts hx ha)⟩

theorem Within.field {base : Expr} {index : Nat} (h : (field base index).Within A) :
    ∃ p, (Expr.field base index).fieldPath? = some p ∧ Access.Name A p := by
  obtain ⟨hpath, hreads⟩ := h
  rw [byPath, Option.isSome_iff_exists] at hpath
  obtain ⟨p, hp⟩ := hpath
  refine ⟨p, hp, hreads (.read p) ?_⟩
  rw [reads_of_fieldPath? hp]
  exact List.mem_singleton_self _

theorem TargetWithin.field {base : Expr} {index : Nat}
    (h : (Expr.field base index).TargetWithin A) :
    ∃ p, (Expr.field base index).fieldPath? = some p ∧ .write p ∈ A := by
  obtain ⟨hpath, hwrites⟩ := h
  rw [byPath, Option.isSome_iff_exists] at hpath
  obtain ⟨p, hp⟩ := hpath
  refine ⟨p, hp, hwrites (.write p) ?_⟩
  simp [writes, hp]

theorem TargetWithin.within {e : Expr} (h : e.TargetWithin A) : e.Within A := by
  refine ⟨h.1, fun a ha => ?_⟩
  obtain ⟨b, hb, hpath⟩ := e.exists_writes_of_mem_reads ha
  exact ⟨b, h.2 b hb, hpath⟩

theorem TargetWithin.item {items : List Expr} {x : Expr} (h : (tuple items).TargetWithin A)
    (hx : x ∈ items) : x.TargetWithin A :=
  ⟨byPath_of_parts h.1 hx, fun a ha => h.2 a (mem_writesAll.mpr ⟨x, hx, ha⟩)⟩

theorem TargetWithin.container {value index : Expr} (h : (subscript value index).TargetWithin A) :
    value.TargetWithin A := by
  refine ⟨byPath_of_parts h.1 (by simp [parts]), fun a ha => h.2 a ?_⟩
  rw [writes]
  refine List.mem_append_right _ ?_
  cases hp : value.fieldPath? with
  | none => exact ha
  | some p =>
      cases value with
      | field base index => simpa [writes, hp] using ha
      | _ => cases hp

end Expr

namespace Stmt

theorem Within.value {s : Stmt} {x : Expr} (h : s.Within A) (hx : x ∈ s.values) : x.Within A :=
  ⟨byPath_of_values h.1 (.inl hx), fun a ha => ⟨a, h.2 a (mem_accesses_of_values hx ha), rfl⟩⟩

theorem Within.target {s : Stmt} {x : Expr} (h : s.Within A) (hx : x ∈ s.targets) :
    x.TargetWithin A :=
  ⟨byPath_of_values h.1 (.inr hx), fun a ha => h.2 a (mem_accesses_of_targets hx ha)⟩

theorem allWithin_of_accesses {l : List Stmt} (h : byPathAll l = true)
    (hA : ∀ a ∈ accessesAll l, a ∈ A) : AllWithin A l :=
  fun s hs => ⟨byPathAll_iff.mp h s hs, fun a ha => hA a (mem_accessesAll.mpr ⟨s, hs, ha⟩)⟩

theorem Within.block {s : Stmt} {b : List Stmt} (h : s.Within A) (hb : b ∈ s.blocks) :
    AllWithin A b :=
  allWithin_of_accesses (byPathAll_of_blocks h.1 hb)
    fun a ha => h.2 a (mem_accesses_of_blocks hb ha)

theorem Within.case {subject : Expr} {cases : List Case} {c : Case}
    (h : (select subject cases).Within A) (hc : c ∈ cases) : c.Within A := by
  have hexprs : ∀ e ∈ caseExprs c, e.Within A := fun e he =>
    h.value (List.mem_cons_of_mem _ (List.mem_flatMap.mpr ⟨c, hc, he⟩))
  refine ⟨fun e he => hexprs e (List.mem_append_left _ he), fun e he => hexprs e ?_,
    h.block (List.mem_map_of_mem hc)⟩
  exact List.mem_append_right _ (Option.mem_toList.mpr he)

end Stmt

theorem Pattern.Within.alternative {l : List Pattern} {p : Pattern}
    (h : (Pattern.alternatives l).Within A) (hp : p ∈ l) : p.Within A := by
  intro e he
  refine h e ?_
  rw [values, valuesAll_eq]
  exact List.mem_flatMap.mpr ⟨p, hp, he⟩

end Parts

end Clockwork
