import Clockwork.Design.Expr

namespace Clockwork

inductive AssertionKind where
  | assert
  | assume
  /-- Counts how often the condition held. -/
  | cover
  deriving DecidableEq, Repr, Inhabited

namespace AssertionKind

def all : List AssertionKind := [assert, assume, cover]

def label : AssertionKind → String
  | assert => "Assert" | assume => "Assume" | cover => "Cover"

end AssertionKind

inductive Pattern where
  | value (e : Option Expr)
  /-- The inner pattern matches, or there is none; the subject then gets the name. -/
  | bind (inner : Option Pattern) (name : String)
  | alternatives (patterns : List Pattern)
  deriving Repr, Inhabited

mutual

inductive Stmt where
  | assign (targets : List Expr) (value : Expr)
  | update (target : Expr) (op : AugOp) (value : Expr)
  | result (value : Option Expr)
  | branch (test : Expr) (body : List Stmt) (orelse : List Stmt)
  /-- Runs the body for every item; `orelse` follows unless the loop was left. -/
  | each (target : Expr) (items : Expr) (body : List Stmt) (orelse : List Stmt)
  /-- Runs the body as long as the test holds; `orelse` follows unless the loop was left. -/
  | loop (test : Expr) (body : List Stmt) (orelse : List Stmt)
  | leave
  | again
  | pass
  | assertion (kind : AssertionKind) (test : Expr) (message : Option Expr)
  | select (subject : Expr) (cases : List Case)
  | expr (e : Expr)

structure Case where
  pattern : Pattern
  /-- A condition that is evaluated after the pattern has matched. -/
  guard : Option Expr
  body : List Stmt

end

instance : Inhabited Stmt := ⟨.pass⟩

namespace Stmt

def set (target value : Expr) : Stmt := assign [target] value

def branchOnly (test : Expr) (body : List Stmt) : Stmt := branch test body []

/-- The statement lists that a statement holds directly. -/
def blocks : Stmt → List (List Stmt)
  | branch _ body orelse => [body, orelse]
  | each _ _ body orelse => [body, orelse]
  | loop _ body orelse => [body, orelse]
  | select _ cases => cases.map Case.body
  | _ => []

end Stmt

end Clockwork
