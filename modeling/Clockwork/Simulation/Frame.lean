import Clockwork.Concurrency.Kernel
import Clockwork.Design.DataType
import Clockwork.Simulation.Wiring
/-!
What is left to do when a piece of a design is run. A run is a stack of frames; the frame on top
takes what the piece before it came to. A task that waits is its stack with the wait it is in, so
it can be gone on with, or be given up.
-/

namespace Clockwork

/-- How writes of signals take effect. -/
inductive WriteMode where
  | staged
  /-- At once, and all that depends on the signal follows before anything else. -/
  | immediate
  deriving DecidableEq, Repr, Inhabited

/-- The run of one body: the instance it belongs to and its variables. -/
structure Activation where
  owner : Nat
  name : String
  mode : WriteMode
  params : Array Value
  locals : Table String Value
  deriving Repr, Inhabited

def Activation.begin (owner : Nat) (name : String) (mode : WriteMode) : Activation :=
  ⟨owner, name, mode, #[], .empty⟩

/-- What a piece of a design came to. -/
inductive Completion where
  /-- An expression has a value; anything else came to its end, and the value is nothing. -/
  | value (v : Value)
  | leave
  | again
  | result (v : Value)
  | failed (e : SimError)
  deriving Repr, Inhabited

inductive Gathered where
  | tuple
  | builtin (b : Builtin)
  | arguments (callee : Value) (keywords : List (String × Expr))
  | keywords (callee : Value) (args : List Value) (names : List String)
  deriving Inhabited

inductive Frame where
  | fieldOf (index : Nat)
  | rightOf (op : BinOp) (rhs : Expr)
  | binary (op : BinOp) (lhs : Value)
  | unary (op : UnaryOp)
  | logical (op : BoolOp) (rest : List Expr)
  | comparing (ops : List CmpOp) (comparators : List Expr)
  | compared (left : Value) (op : CmpOp) (ops : List CmpOp) (comparators : List Expr)
  | memberOf (name : String)
  | indexOf (index : Expr)
  | subscript (container : Value)
  | calleeOf (args : List Expr) (keywords : List (String × Expr))
  /-- Collects values; `done` are those so far, the latest first. -/
  | gather (use : Gathered) (done : List Value) (rest : List Expr)
  | conditional (body orelse : Expr)
  | storeField (index : Nat) (v : Value)
  | storeMember (name : String) (v : Value)
  | storeRest (rest : List (Expr × Value))
  | storeIndex (container index : Expr) (v : Value)
  | storeItem (container : Expr) (held : Value) (v : Value)
  | block (rest : List Stmt)
  | assign (targets : List Expr)
  | updateBy (target : Expr) (op : AugOp) (value : Expr)
  | updateWith (target : Expr) (op : AugOp) (current : Value)
  | resultOf
  | branch (body orelse : List Stmt)
  | eachOf (target : Expr) (body orelse : List Stmt)
  | eachItem (target : Expr) (rest : List Value) (body orelse : List Stmt)
  | eachRound (target : Expr) (rest : List Value) (body orelse : List Stmt)
  | loopTest (test : Expr) (body orelse : List Stmt)
  | loopRound (test : Expr) (body orelse : List Stmt)
  | assertionTest (kind : AssertionKind) (message : Option Expr)
  | assertionText (kind : AssertionKind) (holds : Bool)
  | select (cases : List Case)
  | caseMatched (subject : Value) (c : Case) (rest : List Case)
  | caseGuard (subject : Value) (c : Case) (rest : List Case)
  | equals (subject : Value)
  | bindPattern (name : String) (subject : Value)
  | alternatives (rest : List Pattern) (subject : Value)
  | discard
  | returning (caller : Activation)
  /-- The end of a body that must not wait; who began it goes on. -/
  | boundary (process : String) (caller : Activation)
  | calling (owner : Nat) (function : String)
  /-- Gives a value to fields that follow a signal. -/
  | propagate (targets : List FieldRef) (v : Value)
  | combs (rest : List ProcessRef)
  /-- The end of a combinational process that ran at a depth. -/
  | combOver (p : ProcessRef) (depth : Nat)
  /-- The end of an immediate write, or of several that settle together. -/
  | driven
  | settled
  | round
  | syncs (rest : List ProcessRef)
  | syncStep (p : ProcessRef) (next : Nat) (rest : List Stmt)
  /-- Pauses a clocked process for a number of cycles; it goes on at the statement `next`. -/
  | syncPause (p : ProcessRef) (next : Nat)
  | commit
  | changes (rest : List (FieldRef × Value × Value))
  /-- Lets a clock wait for its next edge, which leads to `level`. -/
  | clock (field : FieldRef) (low high : Nat) (level : Bool)
  | clockEdge (field : FieldRef) (low high : Nat) (level : Bool)
  deriving Inhabited

/-- A task that does not run now. -/
structure Task where
  wait : Option Wait
  activation : Activation
  stack : List Frame
  deriving Inhabited

/-- Where a clocked process goes on after a pause. -/
structure Pause where
  next : Nat
  /-- How many edges it lets pass before. -/
  skip : Nat
  locals : Table String Value
  deriving Repr, Inhabited

end Clockwork
