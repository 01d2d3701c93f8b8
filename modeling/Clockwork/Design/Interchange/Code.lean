import Clockwork.Design.Interchange.Shape
import Clockwork.Design.Stmt

namespace Clockwork

open Interchange

namespace Literal

def toJson : Literal → Json
  | none => .text "None"
  | bool b => tagged "Bool" (.bool b)
  | int n => tagged "Int" (.ofInt n)
  | str s => tagged "Str" (.text s)

def ofJson? (j : Json) : Option Literal := do
  let t ← Tagged.of? j
  match t.tag with
  | "None" => t.alone none
  | "Bool" => (t.one bool?).map bool
  | "Int" => (t.one word?).map int
  | "Str" => (t.one text?).map str
  | _ => Option.none

end Literal

def Interchange.keywordJson (arg : String) (value : Json) : Json :=
  .object [("arg", .text arg), ("value", value)]

def Interchange.keyword? {α : Type} (read : Json → Option α) (j : Json) :
    Option (String × α) := do
  let r ← Record.of? ["arg", "value"] j
  return (← r.get "arg" text?, ← r.get "value" read)

namespace Expr

mutual

def toJson : Expr → Json
  | constant c => tagged "Constant" c.toJson
  | self => .text "RefSelf"
  | field base index =>
    taggedRecord "RefField" [("base", base.toJson), ("index", .ofNat index)]
  | param name index =>
    taggedRecord "RefParam" [("name", .text name), ("index", .ofNat index)]
  | var name => taggedRecord "RefLocal" [("name", .text name)]
  | builtin b => tagged "Builtin" (.text b.label)
  | binary lhs op rhs =>
    taggedRecord "Bin" [("lhs", lhs.toJson), ("op", .text op.label), ("rhs", rhs.toJson)]
  | unary op operand =>
    taggedRecord "Unary" [("op", .text op.label), ("operand", operand.toJson)]
  | logical op values =>
    taggedRecord "Bool" [("op", .text op.label), ("values", .array (toJsonAll values))]
  | compare left ops comparators =>
    taggedRecord "Compare" [("left", left.toJson),
      ("ops", .array (ops.map fun op => .text op.label)),
      ("comparators", .array (toJsonAll comparators))]
  | member value name =>
    taggedRecord "Attribute" [("value", value.toJson), ("attr", .text name)]
  | subscript value index =>
    taggedRecord "Subscript" [("value", value.toJson), ("index", index.toJson)]
  | call callee args keywords =>
    taggedRecord "Call" [("func", callee.toJson), ("args", .array (toJsonAll args)),
      ("keywords", .array (toJsonKeywords keywords))]
  | conditional test body orelse =>
    taggedRecord "IfExp" [("test", test.toJson), ("body", body.toJson),
      ("orelse", orelse.toJson)]
  | await value => taggedRecord "Await" [("value", value.toJson)]
  | tuple items => taggedRecord "Tuple" [("elts", .array (toJsonAll items))]

def toJsonAll : List Expr → List Json
  | [] => []
  | e :: rest => e.toJson :: toJsonAll rest

def toJsonKeywords : List (String × Expr) → List Json
  | [] => []
  | (arg, e) :: rest => keywordJson arg e.toJson :: toJsonKeywords rest

end

/-- Reads an expression that nests at most `depth` deep. -/
def read : (depth : Nat) → Json → Option Expr
  | 0, _ => none
  | depth + 1, j => do
    let inner := read depth
    let t ← Tagged.of? j
    match t.tag with
    | "Constant" => (t.one Literal.ofJson?).map constant
    | "RefSelf" => t.alone self
    | "RefField" =>
      let r ← t.record ["base", "index"]
      return field (← r.get "base" inner) (← r.get "index" natural32?)
    | "RefParam" =>
      let r ← t.record ["name", "index"]
      return param (← r.get "name" text?) (← r.get "index" natural32?)
    | "RefLocal" =>
      let r ← t.record ["name"]
      return var (← r.get "name" text?)
    | "Builtin" => (t.one (choice? Builtin.all Builtin.label)).map builtin
    | "Bin" =>
      let r ← t.record ["lhs", "op", "rhs"]
      return binary (← r.get "lhs" inner) (← r.get "op" (choice? BinOp.all BinOp.label))
        (← r.get "rhs" inner)
    | "Unary" =>
      let r ← t.record ["op", "operand"]
      return unary (← r.get "op" (choice? UnaryOp.all UnaryOp.label)) (← r.get "operand" inner)
    | "Bool" =>
      let r ← t.record ["op", "values"]
      return logical (← r.get "op" (choice? BoolOp.all BoolOp.label))
        (← r.get "values" (list? inner))
    | "Compare" =>
      let r ← t.record ["left", "ops", "comparators"]
      return compare (← r.get "left" inner)
        (← r.get "ops" (list? (choice? CmpOp.all CmpOp.label)))
        (← r.get "comparators" (list? inner))
    | "Attribute" =>
      let r ← t.record ["value", "attr"]
      return member (← r.get "value" inner) (← r.get "attr" text?)
    | "Subscript" =>
      let r ← t.record ["value", "index"]
      return subscript (← r.get "value" inner) (← r.get "index" inner)
    | "Call" =>
      let r ← t.record ["func", "args", "keywords"]
      return call (← r.get "func" inner) (← r.get "args" (list? inner))
        (← r.get "keywords" (list? (keyword? inner)))
    | "IfExp" =>
      let r ← t.record ["test", "body", "orelse"]
      return conditional (← r.get "test" inner) (← r.get "body" inner)
        (← r.get "orelse" inner)
    | "Await" =>
      let r ← t.record ["value"]
      return await (← r.get "value" inner)
    | "Tuple" =>
      let r ← t.record ["elts"]
      return tuple (← r.get "elts" (list? inner))
    | _ => none

def ofJson? (j : Json) : Option Expr := read (j.depth + 1) j

end Expr

namespace Pattern

mutual

def toJson : Pattern → Json
  | value e => tagged "Value" (Json.ofOption Expr.toJson e)
  | bind none name => taggedRecord "As" [("pattern", .null), ("name", .text name)]
  | bind (some inner) name =>
    taggedRecord "As" [("pattern", inner.toJson), ("name", .text name)]
  | alternatives patterns => tagged "Or" (.array (toJsonAll patterns))

def toJsonAll : List Pattern → List Json
  | [] => []
  | p :: rest => p.toJson :: toJsonAll rest

end

/-- Reads a pattern that nests at most `depth` deep. -/
def read : (depth : Nat) → Json → Option Pattern
  | 0, _ => none
  | depth + 1, j => do
    let inner := read depth
    let t ← Tagged.of? j
    match t.tag with
    | "Value" => (t.one (nullable? Expr.ofJson?)).map value
    | "As" =>
      let r ← t.record ["pattern", "name"]
      return bind (← r.optional "pattern" inner) (← r.get "name" text?)
    | "Or" => (t.one (list? inner)).map alternatives
    | _ => none

def ofJson? (j : Json) : Option Pattern := read (j.depth + 1) j

end Pattern

def Case.read (block? : Json → Option (List Stmt)) (j : Json) : Option Case := do
  let r ← Record.of? ["pattern", "guard", "body"] j
  return ⟨← r.get "pattern" Pattern.ofJson?, ← r.optional "guard" Expr.ofJson?,
    ← r.get "body" block?⟩

namespace Stmt

mutual

def toJson : Stmt → Json
  | assign targets value =>
    taggedRecord "Assign" [("targets", .array (targets.map Expr.toJson)),
      ("value", value.toJson)]
  | update target op value =>
    taggedRecord "AugAssign" [("target", target.toJson), ("op", .text op.label),
      ("value", value.toJson)]
  | result value => tagged "Return" (Json.ofOption Expr.toJson value)
  | branch test body orelse =>
    taggedRecord "If" [("test", test.toJson), ("body", .array (toJsonAll body)),
      ("orelse", .array (toJsonAll orelse))]
  | each target items body orelse =>
    taggedRecord "For" [("target", target.toJson), ("iter", items.toJson),
      ("body", .array (toJsonAll body)), ("orelse", .array (toJsonAll orelse))]
  | loop test body orelse =>
    taggedRecord "While" [("test", test.toJson), ("body", .array (toJsonAll body)),
      ("orelse", .array (toJsonAll orelse))]
  | leave => .text "Break"
  | again => .text "Continue"
  | pass => .text "Pass"
  | assertion kind test message =>
    taggedRecord "Assertion" [("kind", .text kind.label), ("test", test.toJson),
      ("msg", Json.ofOption Expr.toJson message)]
  | select subject cases =>
    taggedRecord "Match" [("subject", subject.toJson), ("cases", .array (toJsonCases cases))]
  | expr e => tagged "Expr" e.toJson

def toJsonAll : List Stmt → List Json
  | [] => []
  | s :: rest => s.toJson :: toJsonAll rest

def toJsonCases : List Case → List Json
  | [] => []
  | ⟨pattern, guard, body⟩ :: rest =>
    .object [("pattern", pattern.toJson), ("guard", Json.ofOption Expr.toJson guard),
      ("body", .array (toJsonAll body))] :: toJsonCases rest

end

/-- Reads a statement that nests at most `depth` deep. -/
def read : (depth : Nat) → Json → Option Stmt
  | 0, _ => none
  | depth + 1, j => do
    let block := list? (read depth)
    let t ← Tagged.of? j
    match t.tag with
    | "Assign" =>
      let r ← t.record ["targets", "value"]
      return assign (← r.get "targets" (list? Expr.ofJson?)) (← r.get "value" Expr.ofJson?)
    | "AugAssign" =>
      let r ← t.record ["target", "op", "value"]
      return update (← r.get "target" Expr.ofJson?)
        (← r.get "op" (choice? AugOp.all AugOp.label)) (← r.get "value" Expr.ofJson?)
    | "Return" => (t.one (nullable? Expr.ofJson?)).map result
    | "If" =>
      let r ← t.record ["test", "body", "orelse"]
      return branch (← r.get "test" Expr.ofJson?) (← r.get "body" block)
        (← r.get "orelse" block)
    | "For" =>
      let r ← t.record ["target", "iter", "body", "orelse"]
      return each (← r.get "target" Expr.ofJson?) (← r.get "iter" Expr.ofJson?)
        (← r.get "body" block) (← r.get "orelse" block)
    | "While" =>
      let r ← t.record ["test", "body", "orelse"]
      return loop (← r.get "test" Expr.ofJson?) (← r.get "body" block)
        (← r.get "orelse" block)
    | "Break" => t.alone leave
    | "Continue" => t.alone again
    | "Pass" => t.alone pass
    | "Assertion" =>
      let r ← t.record ["kind", "test", "msg"]
      return assertion (← r.get "kind" (choice? AssertionKind.all AssertionKind.label))
        (← r.get "test" Expr.ofJson?) (← r.optional "msg" Expr.ofJson?)
    | "Match" =>
      let r ← t.record ["subject", "cases"]
      return select (← r.get "subject" Expr.ofJson?) (← r.get "cases" (list? (Case.read block)))
    | "Expr" => (t.one Expr.ofJson?).map expr
    | _ => none

def ofJson? (j : Json) : Option Stmt := read (j.depth + 1) j

end Stmt

end Clockwork
