import Clockwork.Design.Stmt

namespace Clockwork

/-- One access to the field at the end of a path. -/
inductive Access where
  | read (p : FieldPath)
  | write (p : FieldPath)
  deriving DecidableEq, Repr, Inhabited

namespace Expr

mutual

/-- The accesses of an expression that is evaluated: a path as a whole, otherwise those of the
parts. -/
def reads : Expr → List Access
  | field base index =>
    match (field base index).fieldPath? with
    | some p => [.read p]
    | none => base.reads
  | binary lhs _ rhs => lhs.reads ++ rhs.reads
  | unary _ operand => operand.reads
  | logical _ values => readsAll values
  | compare left _ comparators => left.reads ++ readsAll comparators
  | member value _ => value.reads
  | subscript value index => value.reads ++ index.reads
  | call callee args keywords => callee.reads ++ (readsAll args ++ readsKeywords keywords)
  | conditional test body orelse => test.reads ++ (body.reads ++ orelse.reads)
  | await value => value.reads
  | tuple items => readsAll items
  | constant _ | self | param _ _ | var _ | builtin _ => []

def readsAll : List Expr → List Access
  | [] => []
  | e :: rest => e.reads ++ readsAll rest

def readsKeywords : List (String × Expr) → List Access
  | [] => []
  | (_, e) :: rest => e.reads ++ readsKeywords rest

end

mutual

/-- The accesses of an expression that is assigned to. An item of a field counts as a write of the
field. -/
def writes : Expr → List Access
  | field base index =>
    match (field base index).fieldPath? with
    | some p => [.write p]
    | none => (field base index).reads
  | subscript value index =>
    index.reads ++ match value.fieldPath? with
      | some p => [.write p]
      | none => value.writes
  | tuple items => writesAll items
  | e => e.reads

def writesAll : List Expr → List Access
  | [] => []
  | e :: rest => e.writes ++ writesAll rest

end

mutual

def hasAwait : Expr → Bool
  | await _ => true
  | field base _ => base.hasAwait
  | binary lhs _ rhs => lhs.hasAwait || rhs.hasAwait
  | unary _ operand => operand.hasAwait
  | logical _ values => hasAwaitAll values
  | compare left _ comparators => left.hasAwait || hasAwaitAll comparators
  | member value _ => value.hasAwait
  | subscript value index => value.hasAwait || index.hasAwait
  | call callee args keywords =>
    callee.hasAwait || hasAwaitAll args || hasAwaitKeywords keywords
  | conditional test body orelse => test.hasAwait || body.hasAwait || orelse.hasAwait
  | tuple items => hasAwaitAll items
  | constant _ | self | param _ _ | var _ | builtin _ => false

def hasAwaitAll : List Expr → Bool
  | [] => false
  | e :: rest => e.hasAwait || hasAwaitAll rest

def hasAwaitKeywords : List (String × Expr) → Bool
  | [] => false
  | (_, e) :: rest => e.hasAwait || hasAwaitKeywords rest

end

end Expr

namespace Pattern

mutual

def values : Pattern → List Expr
  | value e => e.toList
  | bind none _ => []
  | bind (some inner) _ => inner.values
  | alternatives patterns => valuesAll patterns

def valuesAll : List Pattern → List Expr
  | [] => []
  | p :: rest => p.values ++ valuesAll rest

end

end Pattern

namespace Stmt

def caseExprs (c : Case) : List Expr := c.pattern.values ++ c.guard.toList

/-- The expressions that a statement holds outside its blocks. -/
def exprs : Stmt → List Expr
  | assign targets value => targets ++ [value]
  | update target _ value => [target, value]
  | result value => value.toList
  | branch test _ _ => [test]
  | each target items _ _ => [target, items]
  | loop test _ _ => [test]
  | assertion _ test message => test :: message.toList
  | select subject cases => subject :: cases.flatMap caseExprs
  | expr e => [e]
  | leave | again | pass => []

mutual

/-- The accesses of a statement: its own, in the order of execution, then those of its blocks. -/
def accesses : Stmt → List Access
  | assign targets value => value.reads ++ Expr.writesAll targets
  | update target _ value => value.reads ++ (target.reads ++ target.writes)
  | each target items body orelse =>
    items.reads ++ (target.writes ++ (accessesAll body ++ accessesAll orelse))
  | branch test body orelse => test.reads ++ (accessesAll body ++ accessesAll orelse)
  | loop test body orelse => test.reads ++ (accessesAll body ++ accessesAll orelse)
  | select subject cases =>
    Expr.readsAll (exprs (select subject cases)) ++ accessesCases cases
  | result value => Expr.readsAll value.toList
  | assertion _ test message => test.reads ++ Expr.readsAll message.toList
  | expr e => e.reads
  | leave | again | pass => []

def accessesAll : List Stmt → List Access
  | [] => []
  | s :: rest => s.accesses ++ accessesAll rest

def accessesCases : List Case → List Access
  | [] => []
  | ⟨_, _, body⟩ :: rest => accessesAll body ++ accessesCases rest

end

mutual

def hasAwait : Stmt → Bool
  | branch test body orelse => test.hasAwait || hasAwaitAll body || hasAwaitAll orelse
  | each target items body orelse =>
    Expr.hasAwaitAll [target, items] || hasAwaitAll body || hasAwaitAll orelse
  | loop test body orelse => test.hasAwait || hasAwaitAll body || hasAwaitAll orelse
  | select subject cases =>
    Expr.hasAwaitAll (exprs (select subject cases)) || hasAwaitCases cases
  | s => Expr.hasAwaitAll (exprs s)

def hasAwaitAll : List Stmt → Bool
  | [] => false
  | s :: rest => s.hasAwait || hasAwaitAll rest

def hasAwaitCases : List Case → Bool
  | [] => false
  | ⟨_, _, body⟩ :: rest => hasAwaitAll body || hasAwaitCases rest

end

end Stmt

/-- The members of a list without repetitions, in order of first appearance. -/
def firsts {α : Type} [DecidableEq α] (l : List α) : List α :=
  l.foldl (fun seen a => if a ∈ seen then seen else seen ++ [a]) []

/-- The fields that a body reads and writes, in order of first appearance. -/
structure AccessSet where
  reads : List FieldPath
  writes : List FieldPath
  deriving DecidableEq, Repr, Inhabited

namespace AccessSet

def ofBody (body : List Stmt) : AccessSet :=
  let all := Stmt.accessesAll body
  ⟨firsts (all.filterMap fun | .read p => some p | .write _ => none),
   firsts (all.filterMap fun | .write p => some p | .read _ => none)⟩

def sensitivity (a : AccessSet) : List FieldPath := a.reads.filter (· ∉ a.writes)

end AccessSet

/-- The fields that a body reads and does not write, as expressions. -/
def derivedSensitivity (body : List Stmt) : List Expr :=
  (AccessSet.ofBody body).sensitivity.map Expr.path

end Clockwork
