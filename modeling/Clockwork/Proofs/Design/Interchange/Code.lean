import Clockwork.Design.Interchange.Code
import Clockwork.Proofs.Design.Interchange.Shape

namespace Clockwork

open Interchange

theorem BinOp.choice?_label (op : BinOp) : choice? all label (.text op.label) = some op := by
  cases op <;> rfl

theorem UnaryOp.choice?_label (op : UnaryOp) : choice? all label (.text op.label) = some op := by
  cases op <;> rfl

theorem BoolOp.choice?_label (op : BoolOp) : choice? all label (.text op.label) = some op := by
  cases op <;> rfl

theorem CmpOp.decodes (op : CmpOp) : Decodes (choice? all label) (.text op.label) op :=
  ⟨.text _, by cases op <;> rfl⟩

theorem CmpOp.decodesAll (ops : List CmpOp) :
    Decodes (list? (choice? all label)) (.array (ops.map fun op => .text op.label)) ops :=
  .map fun op _ => op.decodes

theorem AugOp.choice?_label (op : AugOp) : choice? all label (.text op.label) = some op := by
  cases op <;> rfl

theorem AssertionKind.choice?_label (kind : AssertionKind) :
    choice? all label (.text kind.label) = some kind := by
  cases kind <;> rfl

theorem Builtin.choice?_label (b : Builtin) : choice? all label (.text b.label) = some b := by
  cases b <;> rfl

namespace Literal

def InLimits : Literal → Prop
  | int n => Word.InRange n
  | _ => True

theorem decodes {c : Literal} (h : c.InLimits) : Decodes ofJson? c.toJson c := by
  cases c with
  | none => exact ⟨by simp [toJson], by simp [toJson, ofJson?]⟩
  | bool b => exact ⟨by simp [toJson], by simp [toJson, ofJson?, bool?_bool]⟩
  | int n => exact ⟨by simp [toJson], by simp [toJson, ofJson?, word?_ofInt h]⟩
  | str s => exact ⟨by simp [toJson], by simp [toJson, ofJson?, text?_text]⟩

end Literal

namespace Interchange

theorem integral_keywordJson {arg : String} {j : Json} :
    (keywordJson arg j).Integral ↔ j.Integral := by
  simp [keywordJson]

theorem keyword?_keywordJson {α : Type} {read : Json → Option α} {j : Json} {a : α} (arg : String)
    (h : read j = some a) : keyword? read (keywordJson arg j) = some (arg, a) := by
  simp [keywordJson, keyword?, text?_text, h]

end Interchange

namespace Expr

mutual

/-- The positions and literals of an expression fit the numbers of a design. -/
def InLimits : Expr → Prop
  | constant c => c.InLimits
  | field base index => base.InLimits ∧ index ≤ Bounded.max32
  | param _ index => index ≤ Bounded.max32
  | binary lhs _ rhs => lhs.InLimits ∧ rhs.InLimits
  | unary _ operand => operand.InLimits
  | logical _ values => AllInLimits values
  | compare left _ comparators => left.InLimits ∧ AllInLimits comparators
  | member value _ => value.InLimits
  | subscript value index => value.InLimits ∧ index.InLimits
  | call callee args keywords =>
      callee.InLimits ∧ AllInLimits args ∧ KeywordsInLimits keywords
  | conditional test body orelse => test.InLimits ∧ body.InLimits ∧ orelse.InLimits
  | await value => value.InLimits
  | tuple items => AllInLimits items
  | _ => True

def AllInLimits : List Expr → Prop
  | [] => True
  | e :: rest => e.InLimits ∧ AllInLimits rest

def KeywordsInLimits : List (String × Expr) → Prop
  | [] => True
  | (_, e) :: rest => e.InLimits ∧ KeywordsInLimits rest

end

mutual

theorem reads_toJson : ∀ {e : Expr}, e.InLimits → Reads read e.toJson e
  | constant c, h => by
      have hc := Literal.decodes (c := c) h
      exact .intro (by simp [toJson, hc.integral]) fun n _ => by simp [toJson, read, hc.eq]
  | self, _ => .intro (by simp [toJson]) fun n _ => by simp [toJson, read]
  | field base _, ⟨hbase, hindex⟩ => by
      have ih := reads_toJson hbase
      refine .intro (by simp [toJson, ih.integral]) fun n hn => ?_
      simp only [toJson, depth_taggedRecord, Json.depthMembers] at hn
      simp [toJson, read, ih.eq (n := n) (by omega), natural32?, natural?_ofNat hindex]
  | param _ _, hindex => .intro (by simp [toJson]) fun n _ => by
      simp [toJson, read, text?_text, natural32?, natural?_ofNat (show _ ≤ _ from hindex)]
  | var _, _ => .intro (by simp [toJson]) fun n _ => by simp [toJson, read, text?_text]
  | builtin _, _ => .intro (by simp [toJson]) fun n _ => by
      simp [toJson, read, Builtin.choice?_label]
  | binary _ _ _, ⟨hlhs, hrhs⟩ => by
      have ihl := reads_toJson hlhs
      have ihr := reads_toJson hrhs
      refine .intro (by simp [toJson, ihl.integral, ihr.integral]) fun n hn => ?_
      simp only [toJson, depth_taggedRecord, Json.depthMembers, Json.depth] at hn
      simp [toJson, read, ihl.eq (n := n) (by omega), ihr.eq (n := n) (by omega),
        BinOp.choice?_label]
  | unary _ operand, h => by
      have ih := reads_toJson (e := operand) h
      refine .intro (by simp [toJson, ih.integral]) fun n hn => ?_
      simp only [toJson, depth_taggedRecord, Json.depthMembers, Json.depth] at hn
      simp [toJson, read, ih.eq (n := n) (by omega), UnaryOp.choice?_label]
  | logical _ values, h => by
      have ih := reads_toJsonAll (l := values) h
      refine .intro (by simp [toJson, ih.integral]) fun n hn => ?_
      simp only [toJson, depth_taggedRecord, Json.depthMembers, Json.depth] at hn
      simp [toJson, read, list?_array (ih.eq (n := n) (by omega)),
        BoolOp.choice?_label]
  | compare _ ops _, ⟨hleft, hcomparators⟩ => by
      have ihl := reads_toJson hleft
      have ihc := reads_toJsonAll hcomparators
      have hops := CmpOp.decodesAll ops
      refine .intro (by simp [toJson, ihl.integral, hops.integral, ihc.integral]) fun n hn => ?_
      simp only [toJson, depth_taggedRecord, Json.depthMembers, Json.depth] at hn
      simp [toJson, read, ihl.eq (n := n) (by omega), hops.eq,
        list?_array (ihc.eq (n := n) (by omega))]
  | member value _, h => by
      have ih := reads_toJson (e := value) h
      refine .intro (by simp [toJson, ih.integral]) fun n hn => ?_
      simp only [toJson, depth_taggedRecord, Json.depthMembers, Json.depth] at hn
      simp [toJson, read, ih.eq (n := n) (by omega), text?_text]
  | subscript _ _, ⟨hvalue, hindex⟩ => by
      have ihv := reads_toJson hvalue
      have ihi := reads_toJson hindex
      refine .intro (by simp [toJson, ihv.integral, ihi.integral]) fun n hn => ?_
      simp only [toJson, depth_taggedRecord, Json.depthMembers] at hn
      simp [toJson, read, ihv.eq (n := n) (by omega), ihi.eq (n := n) (by omega)]
  | call _ _ _, ⟨hcallee, hargs, hkeywords⟩ => by
      have ihc := reads_toJson hcallee
      have iha := reads_toJsonAll hargs
      have ihk := reads_toJsonKeywords hkeywords
      refine .intro (by simp [toJson, ihc.integral, iha.integral, ihk.integral]) fun n hn => ?_
      simp only [toJson, depth_taggedRecord, Json.depthMembers, Json.depth] at hn
      simp [toJson, read, ihc.eq (n := n) (by omega), list?_array (iha.eq (n := n) (by omega)),
        list?_array (ihk.eq (n := n) (by omega))]
  | conditional _ _ _, ⟨htest, hbody, horelse⟩ => by
      have iht := reads_toJson htest
      have ihb := reads_toJson hbody
      have iho := reads_toJson horelse
      refine .intro (by simp [toJson, iht.integral, ihb.integral, iho.integral]) fun n hn => ?_
      simp only [toJson, depth_taggedRecord, Json.depthMembers] at hn
      simp [toJson, read, iht.eq (n := n) (by omega), ihb.eq (n := n) (by omega),
        iho.eq (n := n) (by omega)]
  | await value, h => by
      have ih := reads_toJson (e := value) h
      refine .intro (by simp [toJson, ih.integral]) fun n hn => ?_
      simp only [toJson, depth_taggedRecord, Json.depthMembers] at hn
      simp [toJson, read, ih.eq (n := n) (by omega)]
  | tuple items, h => by
      have ih := reads_toJsonAll (l := items) h
      refine .intro (by simp [toJson, ih.integral]) fun n hn => ?_
      simp only [toJson, depth_taggedRecord, Json.depthMembers, Json.depth] at hn
      simp [toJson, read, list?_array (ih.eq (n := n) (by omega))]

theorem reads_toJsonAll : ∀ {l : List Expr}, AllInLimits l → ReadsAll read (toJsonAll l) l
  | [], _ => .nil
  | _ :: _, ⟨h, hs⟩ => .cons (reads_toJson h) (reads_toJsonAll hs)

theorem reads_toJsonKeywords : ∀ {keywords : List (String × Expr)}, KeywordsInLimits keywords →
    ReadsAll (fun n => keyword? (read n)) (toJsonKeywords keywords) keywords
  | [], _ => .nil
  | (arg, _) :: _, ⟨h, hs⟩ => by
      have ih := reads_toJson h
      refine .cons ⟨integral_keywordJson.mpr ih.integral, fun {n} hn => ?_⟩
        (reads_toJsonKeywords hs)
      simp only [keywordJson, Json.depth, Json.depthMembers] at hn
      exact keyword?_keywordJson arg (ih.eq (by omega))

end

theorem decodes {e : Expr} (h : e.InLimits) : Decodes ofJson? e.toJson e :=
  ⟨(reads_toJson h).integral, (reads_toJson h).eq (Nat.lt_succ_self _)⟩

theorem decodesKeywords : ∀ {keywords : List (String × Expr)}, KeywordsInLimits keywords →
    Decodes (list? (keyword? ofJson?)) (.array (toJsonKeywords keywords)) keywords
  | [], _ => .nil
  | (arg, _) :: _, ⟨h, hs⟩ =>
      .cons ⟨integral_keywordJson.mpr (decodes h).integral,
        keyword?_keywordJson arg (decodes h).eq⟩ (decodesKeywords hs)

theorem decodesOption {o : Option Expr} (h : ∀ e ∈ o, e.InLimits) :
    Decodes (nullable? ofJson?) (Json.ofOption toJson o) o :=
  .ofOption rfl fun e he => decodes (h e he)

end Expr

namespace Pattern

mutual

def InLimits : Pattern → Prop
  | value e => ∀ x ∈ e, x.InLimits
  | bind none _ => True
  | bind (some inner) _ => inner.InLimits
  | alternatives patterns => AllInLimits patterns

def AllInLimits : List Pattern → Prop
  | [] => True
  | p :: rest => p.InLimits ∧ AllInLimits rest

end

theorem read_null (n : Nat) : read n .null = none := by
  cases n <;> rfl

mutual

theorem reads_toJson : ∀ {p : Pattern}, p.InLimits → Reads read p.toJson p
  | value e, h => by
      have hread := Decodes.ofOption (f := Expr.toJson) rfl fun x hx => Expr.decodes (h x hx)
      exact .intro (by simp [toJson, hread.integral]) fun n _ => by simp [toJson, read, hread.eq]
  | bind none _, _ => .intro (by simp [toJson]) fun n _ => by
      simp [toJson, read, text?_text, nullable?]
  | bind (some inner) _, h => by
      have ih := reads_toJson (p := inner) h
      refine .intro (by simp [toJson, ih.integral]) fun n hn => ?_
      simp only [toJson, depth_taggedRecord, Json.depthMembers, Json.depth] at hn
      simp [toJson, read, nullable?_of_read (read_null n) (ih.eq (n := n) (by omega)), text?_text]
  | alternatives patterns, h => by
      have ih := reads_toJsonAll (l := patterns) h
      refine .intro (by simp [toJson, ih.integral]) fun n hn => ?_
      simp only [toJson, depth_tagged, Json.depth] at hn
      simp [toJson, read, list?_array (ih.eq (n := n) (by omega))]

theorem reads_toJsonAll : ∀ {l : List Pattern}, AllInLimits l →
    ReadsAll read (toJsonAll l) l
  | [], _ => .nil
  | _ :: _, ⟨h, hs⟩ => .cons (reads_toJson h) (reads_toJsonAll hs)

end

theorem decodes {p : Pattern} (h : p.InLimits) : Decodes ofJson? p.toJson p :=
  ⟨(reads_toJson h).integral, (reads_toJson h).eq (Nat.lt_succ_self _)⟩

end Pattern

namespace Stmt

mutual

def InLimits : Stmt → Prop
  | assign targets value => (∀ e ∈ targets, e.InLimits) ∧ value.InLimits
  | update target _ value => target.InLimits ∧ value.InLimits
  | result value => ∀ e ∈ value, e.InLimits
  | branch test body orelse => test.InLimits ∧ AllInLimits body ∧ AllInLimits orelse
  | each target items body orelse =>
      target.InLimits ∧ items.InLimits ∧ AllInLimits body ∧ AllInLimits orelse
  | loop test body orelse => test.InLimits ∧ AllInLimits body ∧ AllInLimits orelse
  | assertion _ test message => test.InLimits ∧ ∀ e ∈ message, e.InLimits
  | select subject cases => subject.InLimits ∧ CasesInLimits cases
  | expr e => e.InLimits
  | _ => True

def AllInLimits : List Stmt → Prop
  | [] => True
  | s :: rest => s.InLimits ∧ AllInLimits rest

def CasesInLimits : List Case → Prop
  | [] => True
  | ⟨pattern, guard, body⟩ :: rest =>
      (pattern.InLimits ∧ (∀ e ∈ guard, e.InLimits) ∧ AllInLimits body) ∧ CasesInLimits rest

end

mutual

theorem reads_toJson : ∀ {s : Stmt}, s.InLimits → Reads read s.toJson s
  | assign _ _, ⟨htargets, hvalue⟩ => by
      have ht := Decodes.map fun e he => Expr.decodes (htargets e he)
      have hv := Expr.decodes hvalue
      exact .intro (by simp [toJson, ht.integral, hv.integral]) fun n _ => by
        simp [toJson, read, ht.eq, hv.eq]
  | update _ _ _, ⟨htarget, hvalue⟩ => by
      have ht := Expr.decodes htarget
      have hv := Expr.decodes hvalue
      exact .intro (by simp [toJson, ht.integral, hv.integral]) fun n _ => by
        simp [toJson, read, ht.eq, hv.eq, AugOp.choice?_label]
  | result _, h => by
      have hv := Expr.decodesOption h
      exact .intro (by simp [toJson, hv.integral]) fun n _ => by simp [toJson, read, hv.eq]
  | branch _ body orelse, ⟨htest, hbody, horelse⟩ => by
      have ht := Expr.decodes htest
      have ihb := reads_toJsonAll hbody
      have iho := reads_toJsonAll horelse
      refine .intro (by simp [toJson, ht.integral, ihb.integral, iho.integral]) fun n hn => ?_
      simp only [toJson, depth_taggedRecord, Json.depthMembers, Json.depth] at hn
      simp [toJson, read, ht.eq, list?_array (ihb.eq (n := n) (by omega)),
        list?_array (iho.eq (n := n) (by omega))]
  | each _ _ _ _, ⟨htarget, hitems, hbody, horelse⟩ => by
      have ht := Expr.decodes htarget
      have hi := Expr.decodes hitems
      have ihb := reads_toJsonAll hbody
      have iho := reads_toJsonAll horelse
      refine .intro (by simp [toJson, ht.integral, hi.integral, ihb.integral, iho.integral])
        fun n hn => ?_
      simp only [toJson, depth_taggedRecord, Json.depthMembers, Json.depth] at hn
      simp [toJson, read, ht.eq, hi.eq, list?_array (ihb.eq (n := n) (by omega)),
        list?_array (iho.eq (n := n) (by omega))]
  | loop _ _ _, ⟨htest, hbody, horelse⟩ => by
      have ht := Expr.decodes htest
      have ihb := reads_toJsonAll hbody
      have iho := reads_toJsonAll horelse
      refine .intro (by simp [toJson, ht.integral, ihb.integral, iho.integral]) fun n hn => ?_
      simp only [toJson, depth_taggedRecord, Json.depthMembers, Json.depth] at hn
      simp [toJson, read, ht.eq, list?_array (ihb.eq (n := n) (by omega)),
        list?_array (iho.eq (n := n) (by omega))]
  | leave, _ => .intro (by simp [toJson]) fun n _ => by simp [toJson, read]
  | again, _ => .intro (by simp [toJson]) fun n _ => by simp [toJson, read]
  | pass, _ => .intro (by simp [toJson]) fun n _ => by simp [toJson, read]
  | assertion _ _ _, ⟨htest, hmessage⟩ => by
      have ht := Expr.decodes htest
      have hm := Expr.decodesOption hmessage
      exact .intro (by simp [toJson, ht.integral, hm.integral]) fun n _ => by
        simp [toJson, read, ht.eq, hm.eq, AssertionKind.choice?_label]
  | select _ _, ⟨hsubject, hcases⟩ => by
      have hs := Expr.decodes hsubject
      have ih := reads_toJsonCases hcases
      refine .intro (by simp [toJson, hs.integral, ih.integral]) fun n hn => ?_
      simp only [toJson, depth_taggedRecord, Json.depthMembers, Json.depth] at hn
      simp [toJson, read, hs.eq, list?_array (ih.eq (n := n) (by omega))]
  | expr e, h => by
      have he := Expr.decodes (e := e) h
      exact .intro (by simp [toJson, he.integral]) fun n _ => by simp [toJson, read, he.eq]

theorem reads_toJsonAll : ∀ {l : List Stmt}, AllInLimits l → ReadsAll read (toJsonAll l) l
  | [], _ => .nil
  | _ :: _, ⟨h, hs⟩ => .cons (reads_toJson h) (reads_toJsonAll hs)

theorem reads_toJsonCases : ∀ {cases : List Case}, CasesInLimits cases →
    ReadsAll (fun n => Case.read (list? (read n))) (toJsonCases cases) cases
  | [], _ => .nil
  | ⟨_, _, _⟩ :: _, ⟨⟨hpattern, hguard, hbody⟩, hs⟩ => by
      have hp := Pattern.decodes hpattern
      have hg := Expr.decodesOption hguard
      have ihb := reads_toJsonAll hbody
      refine .cons ⟨by simp [hp.integral, hg.integral, ihb.integral], fun {n} hn => ?_⟩
        (reads_toJsonCases hs)
      simp only [Json.depth, Json.depthMembers] at hn
      simp [Case.read, hp.eq, hg.eq, list?_array (ihb.eq (n := n) (by omega))]

end

theorem decodes {s : Stmt} (h : s.InLimits) : Decodes ofJson? s.toJson s :=
  ⟨(reads_toJson h).integral, (reads_toJson h).eq (Nat.lt_succ_self _)⟩

theorem decodesAll : ∀ {body : List Stmt}, AllInLimits body →
    Decodes (list? ofJson?) (.array (toJsonAll body)) body
  | [], _ => .nil
  | _ :: _, ⟨h, hs⟩ => .cons (decodes h) (decodesAll hs)

end Stmt

end Clockwork
