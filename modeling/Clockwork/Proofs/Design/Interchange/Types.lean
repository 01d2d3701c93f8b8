import Clockwork.Design.Interchange.Document
import Clockwork.Proofs.Design.Interchange.Code
import Clockwork.Proofs.Json.RoundTrip
/-!
Designs as texts. A design that was written as a text is read again as it was (`ofText_toText`),
as long as its text does not nest deeper than the reader allows.
-/

namespace Clockwork

open Interchange

theorem ProcessKind.choice?_label (kind : ProcessKind) :
    choice? all label (.text kind.label) = some kind := by
  cases kind <;> rfl

theorem FieldKind.choice?_label (kind : FieldKind) :
    choice? all label (.text kind.label) = some kind := by
  cases kind <;> rfl

theorem Direction.decodes (d : Direction) : Decodes (choice? all label) (.text d.label) d :=
  ⟨.text _, by cases d <;> rfl⟩

theorem Direction.decodesOption (o : Option Direction) :
    Decodes (nullable? (choice? all label)) (Json.ofOption (fun d => .text d.label) o) o :=
  .ofOption rfl fun d _ => d.decodes

namespace ProcessInfo

/-- The expressions of a process fit the numbers of a design. -/
def InLimits (p : ProcessInfo) : Prop :=
  (∀ e ∈ p.clock, e.InLimits) ∧ (∀ e ∈ p.reset, e.InLimits) ∧ ∀ e ∈ p.sensitivity, e.InLimits

theorem decodes {p : ProcessInfo} (h : p.InLimits) : Decodes ofJson? p.toJson p := by
  obtain ⟨hclock, hreset, hsensitivity⟩ := h
  have hc := Expr.decodesOption hclock
  have hr := Expr.decodesOption hreset
  have hs := Decodes.map fun e he => Expr.decodes (hsensitivity e he)
  exact ⟨by simp [toJson, hc.integral, hr.integral, hs.integral], by
    simp [toJson, ofJson?, hc.eq, hr.eq, hs.eq, ProcessKind.choice?_label]⟩

end ProcessInfo

namespace RegisterDecl

/-- The width and the offset of a register fit the numbers of a design. -/
def InLimits (r : RegisterDecl) : Prop :=
  r.bits ≤ Bounded.max32 ∧ ∀ offset ∈ r.offset, offset ≤ Bounded.max64

theorem decodes {r : RegisterDecl} (h : r.InLimits) : Decodes ofJson? r.toJson r := by
  have hoffset : Decodes (nullable? natural64?) (Json.ofOption Json.ofNat r.offset) r.offset :=
    .ofOption rfl fun n hn => ⟨Json.integral_ofNat n, natural?_ofNat (h.2 n hn)⟩
  exact ⟨by simp [toJson, hoffset.integral], by
    simp [toJson, ofJson?, text?_text, natural32?, natural?_ofNat h.1, hoffset.eq]⟩

end RegisterDecl

namespace Bind

/-- The two sides of a connection fit the numbers of a design. -/
def InLimits (b : Bind) : Prop := b.lhs.InLimits ∧ b.rhs.InLimits

theorem decodes {b : Bind} (h : b.InLimits) : Decodes ofJson? b.toJson b := by
  have hl := Expr.decodes h.1
  have hr := Expr.decodes h.2
  exact ⟨by simp [toJson, hl.integral, hr.integral], by simp [toJson, ofJson?, hl.eq, hr.eq]⟩

end Bind

mutual

/-- The numbers in a type fit the numbers of a design: 32 bits for widths, 64 bits for sizes, and
words for what variants stand for. -/
def DataType.InLimits : DataType → Prop
  | .int bits _ => bits ≤ Bounded.max32
  | .enum _ variants => ∀ v ∈ variants, Word.InRange v.2
  | .struct b => b.InLimits
  | .object b => b.InLimits
  | .component c => c.InLimits
  | .external c _ => c.InLimits
  | .protocol _ methods => functionsInLimits methods
  | .memory element size => element.InLimits ∧ size ≤ Bounded.max64
  | .regFile _ registers => ∀ r ∈ registers, r.InLimits
  | .channel element depth => element.InLimits ∧ depth ≤ Bounded.max64
  | .getEnd element => element.InLimits
  | .putEnd element => element.InLimits
  | .tuple element size => element.InLimits ∧ size ≤ Bounded.max64
  | _ => True

def Body.InLimits : Body → Prop
  | ⟨_, super?, fields, functions⟩ =>
      typeInLimits super? ∧ fieldsInLimits fields ∧ functionsInLimits functions

def Component.InLimits : Component → Prop
  | ⟨body, binds, syncs, combs, processes⟩ =>
      body.InLimits ∧ (∀ b ∈ binds, b.InLimits) ∧ functionsInLimits syncs ∧
        functionsInLimits combs ∧ functionsInLimits processes

def Field.InLimits : Field → Prop
  | ⟨_, type, _, _, initial, width, arguments, _⟩ =>
      type.InLimits ∧ (∀ e ∈ initial, e.InLimits) ∧ (∀ e ∈ width, e.InLimits) ∧
        ∀ l ∈ arguments, Expr.KeywordsInLimits l

def Function.InLimits : Function → Prop
  | ⟨_, params, body, returns, _, process⟩ =>
      paramsInLimits params ∧ Stmt.AllInLimits body ∧ typeInLimits returns ∧
        ∀ p ∈ process, p.InLimits

def typeInLimits : Option DataType → Prop
  | none => True
  | some t => t.InLimits

def fieldsInLimits : List Field → Prop
  | [] => True
  | f :: rest => f.InLimits ∧ fieldsInLimits rest

def functionsInLimits : List Function → Prop
  | [] => True
  | f :: rest => f.InLimits ∧ functionsInLimits rest

def paramsInLimits : List Param → Prop
  | [] => True
  | ⟨_, type⟩ :: rest => typeInLimits type ∧ paramsInLimits rest

end

theorem decodes_variants {l : List (String × Int)} (h : ∀ v ∈ l, Word.InRange v.2) :
    Decodes (list? (pair? text? word?))
      (.array (l.map fun v => .array [.text v.1, .ofInt v.2])) l :=
  .map fun v hv => ⟨by simp [Json.integral_array], by
    simp [pair?, text?_text, word?_ofInt (h v hv)]⟩

theorem DataType.read_null (n : Nat) : read n .null = none := by
  cases n <;> rfl

mutual

theorem DataType.reads_toJson : ∀ {t : DataType}, t.InLimits → Reads DataType.read t.toJson t
  | .int _ _, h => .intro (by simp [DataType.toJson]) fun n _ => by
      simp [DataType.toJson, DataType.read, natural32?, natural?_ofNat (show _ ≤ _ from h),
        bool?_bool]
  | .string, _ => .intro (by simp [DataType.toJson]) fun n _ => by
      simp [DataType.toJson, DataType.read]
  | .enum _ variants, h => by
      have hv := decodes_variants (l := variants) h
      exact .intro (by simp [DataType.toJson, hv.integral]) fun n _ => by
        simp [DataType.toJson, DataType.read, text?_text, hv.eq]
  | .struct b, h => by
      have ih := Body.reads_toJson (b := b) h
      refine .intro (by simp [DataType.toJson, ih.integral]) fun n hn => ?_
      simp only [DataType.toJson, depth_tagged] at hn
      simp [DataType.toJson, DataType.read, ih.eq (n := n) (by omega)]
  | .object b, h => by
      have ih := Body.reads_toJson (b := b) h
      refine .intro (by simp [DataType.toJson, ih.integral]) fun n hn => ?_
      simp only [DataType.toJson, depth_tagged] at hn
      simp [DataType.toJson, DataType.read, ih.eq (n := n) (by omega)]
  | .component c, h => by
      have ih := Component.reads_toJson (c := c) h
      refine .intro (by simp [DataType.toJson, ih.integral]) fun n hn => ?_
      simp only [DataType.toJson, depth_tagged] at hn
      simp [DataType.toJson, DataType.read, ih.eq (n := n) (by omega)]
  | .external c _, h => by
      have ih := Component.reads_toJson (c := c) h
      refine .intro (by simp [DataType.toJson, ih.integral]) fun n hn => ?_
      simp only [DataType.toJson, depth_taggedRecord, Json.depthMembers] at hn
      simp [DataType.toJson, DataType.read, ih.eq (n := n) (by omega), text?_text]
  | .protocol _ methods, h => by
      have ih := reads_functionsJson (l := methods) h
      refine .intro (by simp [DataType.toJson, ih.integral]) fun n hn => ?_
      simp only [DataType.toJson, depth_taggedRecord, Json.depthMembers, Json.depth] at hn
      simp [DataType.toJson, DataType.read, text?_text, list?_array (ih.eq (n := n) (by omega))]
  | .lock, _ => .intro (by simp [DataType.toJson]) fun n _ => by
      simp [DataType.toJson, DataType.read]
  | .event, _ => .intro (by simp [DataType.toJson]) fun n _ => by
      simp [DataType.toJson, DataType.read]
  | .memory _ _, ⟨helement, hsize⟩ => by
      have ih := DataType.reads_toJson helement
      refine .intro (by simp [DataType.toJson, ih.integral]) fun n hn => ?_
      simp only [DataType.toJson, depth_taggedRecord, Json.depthMembers] at hn
      simp [DataType.toJson, DataType.read, ih.eq (n := n) (by omega), natural64?,
        natural?_ofNat hsize]
  | .regFile _ registers, h => by
      have hr := Decodes.map fun r hr => RegisterDecl.decodes (h r hr)
      exact .intro (by simp [DataType.toJson, hr.integral]) fun n _ => by
        simp [DataType.toJson, DataType.read, text?_text, hr.eq]
  | .addressSpace, _ => .intro (by simp [DataType.toJson]) fun n _ => by
      simp [DataType.toJson, DataType.read]
  | .addrHandle, _ => .intro (by simp [DataType.toJson]) fun n _ => by
      simp [DataType.toJson, DataType.read]
  | .channel _ _, ⟨helement, hdepth⟩ => by
      have ih := DataType.reads_toJson helement
      refine .intro (by simp [DataType.toJson, ih.integral]) fun n hn => ?_
      simp only [DataType.toJson, depth_taggedRecord, Json.depthMembers] at hn
      simp [DataType.toJson, DataType.read, ih.eq (n := n) (by omega), natural64?,
        natural?_ofNat hdepth]
  | .getEnd element, h => by
      have ih := DataType.reads_toJson (t := element) h
      refine .intro (by simp [DataType.toJson, ih.integral]) fun n hn => ?_
      simp only [DataType.toJson, depth_taggedRecord, Json.depthMembers] at hn
      simp [DataType.toJson, DataType.read, ih.eq (n := n) (by omega)]
  | .putEnd element, h => by
      have ih := DataType.reads_toJson (t := element) h
      refine .intro (by simp [DataType.toJson, ih.integral]) fun n hn => ?_
      simp only [DataType.toJson, depth_taggedRecord, Json.depthMembers] at hn
      simp [DataType.toJson, DataType.read, ih.eq (n := n) (by omega)]
  | .tuple _ _, ⟨helement, hsize⟩ => by
      have ih := DataType.reads_toJson helement
      refine .intro (by simp [DataType.toJson, ih.integral]) fun n hn => ?_
      simp only [DataType.toJson, depth_taggedRecord, Json.depthMembers] at hn
      simp [DataType.toJson, DataType.read, ih.eq (n := n) (by omega), natural64?,
        natural?_ofNat hsize]
  | .ref _, _ => .intro (by simp [DataType.toJson]) fun n _ => by
      simp [DataType.toJson, DataType.read, text?_text]

theorem Body.reads_toJson : ∀ {b : Body}, b.InLimits →
    Reads (fun n => Body.read (DataType.read n)) b.toJson b
  | ⟨_, _, _, _⟩, ⟨hsuper, hfields, hfunctions⟩ => by
      have ihs := reads_typeJson? hsuper
      have ihf := reads_fieldsJson hfields
      have ihg := reads_functionsJson hfunctions
      refine ⟨by simp [Body.toJson, ihs.integral, ihf.integral, ihg.integral], fun {n} hn => ?_⟩
      simp only [Body.toJson, Json.depth, Json.depthMembers] at hn
      simp [Body.toJson, Body.read, text?_text, ihs.eq (n := n) (by omega),
        list?_array (ihf.eq (n := n) (by omega)), list?_array (ihg.eq (n := n) (by omega))]

theorem Component.reads_toJson : ∀ {c : Component}, c.InLimits →
    Reads (fun n => Component.read (DataType.read n)) c.toJson c
  | ⟨_, _, _, _, _⟩, ⟨hbody, hbinds, hsyncs, hcombs, hprocesses⟩ => by
      have ihb := Body.reads_toJson hbody
      have hb := Decodes.map fun b hb => Bind.decodes (hbinds b hb)
      have ihs := reads_functionsJson hsyncs
      have ihc := reads_functionsJson hcombs
      have ihp := reads_functionsJson hprocesses
      refine ⟨by simp [Component.toJson, ihb.integral, hb.integral, ihs.integral, ihc.integral,
        ihp.integral], fun {n} hn => ?_⟩
      simp only [Component.toJson, Json.depth, Json.depthMembers] at hn
      simp [Component.toJson, Component.read, hb.eq, ihb.eq (n := n) (by omega),
        list?_array (ihs.eq (n := n) (by omega)), list?_array (ihc.eq (n := n) (by omega)),
        list?_array (ihp.eq (n := n) (by omega))]

theorem Field.reads_toJson : ∀ {f : Field}, f.InLimits →
    Reads (fun n => Field.read (DataType.read n)) f.toJson f
  | ⟨_, _, _, direction, _, _, _, _⟩, ⟨htype, hinitial, hwidth, harguments⟩ => by
      have iht := DataType.reads_toJson htype
      have hd := Direction.decodesOption direction
      have hi := Expr.decodesOption hinitial
      have hw := Expr.decodesOption hwidth
      have ha := Decodes.ofOption rfl fun l hl => Expr.decodesKeywords (harguments l hl)
      refine ⟨by simp [Field.toJson, iht.integral, hd.integral, hi.integral, hw.integral,
        ha.integral], fun {n} hn => ?_⟩
      simp only [Field.toJson, Json.depth, Json.depthMembers] at hn
      simp [Field.toJson, Field.read, text?_text, iht.eq (n := n) (by omega),
        FieldKind.choice?_label,
        hd.eq, hi.eq, hw.eq, ha.eq, bool?_bool]

theorem Function.reads_toJson : ∀ {f : Function}, f.InLimits →
    Reads (fun n => Function.read (DataType.read n)) f.toJson f
  | ⟨_, _, _, _, _, _⟩, ⟨hparams, hbody, hreturns, hprocess⟩ => by
      have ihp := reads_paramsJson hparams
      have hb := Stmt.decodesAll hbody
      have ihr := reads_typeJson? hreturns
      have hp := Decodes.ofOption rfl fun p hp => ProcessInfo.decodes (hprocess p hp)
      refine ⟨by simp [Function.toJson, ihp.integral, hb.integral, ihr.integral, hp.integral],
        fun {n} hn => ?_⟩
      simp only [Function.toJson, Json.depth, Json.depthMembers] at hn
      simp [Function.toJson, Function.read, text?_text, list?_array (ihp.eq (n := n) (by omega)),
        hb.eq,
        ihr.eq (n := n) (by omega), hp.eq, bool?_bool]

theorem reads_typeJson? : ∀ {o : Option DataType}, typeInLimits o →
    Reads (fun n => nullable? (DataType.read n)) (typeJson? o) o
  | none, _ => ⟨.null, fun _ => rfl⟩
  | some t, h => by
      have ih := DataType.reads_toJson (t := t) h
      exact ⟨ih.integral, fun {n} hn => nullable?_of_read (DataType.read_null n) (ih.eq hn)⟩

theorem reads_fieldsJson : ∀ {fields : List Field}, fieldsInLimits fields →
    ReadsAll (fun n => Field.read (DataType.read n)) (fieldsJson fields) fields
  | [], _ => .nil
  | _ :: _, ⟨h, hs⟩ => .cons (Field.reads_toJson h) (reads_fieldsJson hs)

theorem reads_functionsJson : ∀ {l : List Function}, functionsInLimits l →
    ReadsAll (fun n => Function.read (DataType.read n)) (functionsJson l) l
  | [], _ => .nil
  | _ :: _, ⟨h, hs⟩ => .cons (Function.reads_toJson h) (reads_functionsJson hs)

theorem reads_paramsJson : ∀ {params : List Param}, paramsInLimits params →
    ReadsAll (fun n => Param.read (DataType.read n)) (paramsJson params) params
  | [], _ => .nil
  | ⟨_, _⟩ :: _, ⟨h, hs⟩ => by
      have ih := reads_typeJson? h
      refine .cons ⟨by simp [Param.toJson, ih.integral], fun {n} hn => ?_⟩ (reads_paramsJson hs)
      simp only [Param.toJson, Json.depth, Json.depthMembers] at hn
      simp [Param.toJson, Param.read, text?_text, ih.eq (n := n) (by omega)]

end

namespace TypeTable

/-- The numbers in the types of a design fit. -/
def InLimits (t : TypeTable) : Prop := ∀ n ∈ t.types, n.type.InLimits

theorem decodes_namedType {n : NamedType} (h : n.type.InLimits) :
    Decodes namedType? (.object [("name", .text n.name), ("datatype", n.type.toJson)]) n := by
  have ht := DataType.reads_toJson h
  have hread : DataType.ofJson? n.type.toJson = some n.type := ht.eq (Nat.lt_succ_self _)
  exact ⟨by simp [ht.integral], by simp [namedType?, text?_text, hread]⟩

theorem decodes {t : TypeTable} (h : t.InLimits) : Decodes typesOf? t.toJson t.types := by
  have htypes := Decodes.map fun n hn => decodes_namedType (h n hn)
  exact ⟨by simp [toJson, htypes.integral], by simp [toJson, typesOf?, htypes.eq]⟩

/-- The types of a table may be registered one after the other behind those that it starts with. -/
theorem foldlM_add (l : List NamedType) {t t' : TypeTable} (h : t'.types = t.types ++ l) :
    l.foldlM (fun t n => t.add n.name n.type) t = .ok t' := by
  induction l generalizing t with
  | nil =>
      obtain ⟨types, _⟩ := t
      obtain ⟨types', _⟩ := t'
      rw [List.append_nil] at h
      cases h
      rfl
  | cons n l ih =>
      have hfree : n.name ∉ t.names := by
        have hdistinct := t'.distinct
        rw [h, List.map_append, List.nodup_append] at hdistinct
        intro hmem
        exact hdistinct.2.2 n.name hmem n.name (by simp) rfl
      have hadd : ∃ t₁, t.add n.name n.type = .ok t₁ ∧ t₁.types = t.types ++ [n] := by
        rw [add, dif_neg hfree]
        exact ⟨_, rfl, rfl⟩
      obtain ⟨t₁, hadd, htypes⟩ := hadd
      rw [List.foldlM_cons, hadd]
      exact ih (by rw [h, htypes, List.append_assoc, List.singleton_append])

theorem ofList_types (t : TypeTable) : ofList t.types = .ok t :=
  foldlM_add t.types (List.nil_append t.types).symm

/-- A design whose text does not nest too deep is read from its text as it was: with the same types
under the same names in the same order, so that its text is the same again. -/
theorem ofText_toText {t : TypeTable} (h : t.InLimits) (hd : t.toJson.depth ≤ depthLimit) :
    ofText t.toText = .ok t ∧ (ofText t.toText).map toText = .ok t.toText := by
  have hdecodes := decodes h
  have hread : ofText t.toText = .ok t := by
    simp only [ofText, toText, Json.parse?_pretty hdecodes.integral hd, ofJson, hdecodes.eq]
    exact ofList_types t
  exact ⟨hread, by rw [hread]; rfl⟩

/-- A design with the smallest and the largest word, a name that needs escapes, members that are
absent, and cases with a guard and without one. -/
def guardedCounter : TypeTable where
  types :=
    [⟨"range", .enum "range" [("least", Word.least), ("greatest", Word.greatest)]⟩,
     ⟨"a \"name\"\n\x01\\ é", .ref "range"⟩,
     ⟨"counter", .component {
        body := ⟨"counter", some (.ref "range"),
          [⟨"n", .int 8 true, .port, some .input, some (.int (-1)), none,
            some [("step", .field .self 2)], true⟩],
          [⟨"next", [⟨"x", none⟩, ⟨"y", some (.tuple .string 2)⟩],
            [.select (.param "x" 0)
              [⟨.bind none "any", some (.compareWith (.var "any") .isNot (.int 0)), [.result none]⟩,
               ⟨.alternatives [.value none], none, [.expr (.call (.builtin .print) [] [])]⟩]],
            none, false, some ⟨.sync, some (.ownField 0), none, []⟩⟩]⟩
        binds := [⟨.ownField 0, .bool false⟩]
        syncs := []
        combs := []
        processes := [] }⟩,
     ⟨"bank", .regFile "bank" [⟨"r", 32, none⟩, ⟨"s", 16, some 8⟩]⟩]

theorem ofText_toText_guardedCounter : guardedCounter.InLimits ∧
    guardedCounter.toJson.depth ≤ depthLimit ∧
      ofText guardedCounter.toText = .ok guardedCounter := by
  have hlimits : guardedCounter.InLimits := by
    simp +decide [InLimits, guardedCounter, DataType.InLimits, Component.InLimits, Body.InLimits,
      fieldsInLimits, functionsInLimits, Field.InLimits, Function.InLimits, paramsInLimits,
      typeInLimits, Stmt.AllInLimits, Stmt.InLimits, Stmt.CasesInLimits, Pattern.InLimits,
      Pattern.AllInLimits, Expr.InLimits, Expr.AllInLimits, Expr.KeywordsInLimits,
      Literal.InLimits, RegisterDecl.InLimits, ProcessInfo.InLimits, Bind.InLimits, Expr.int,
      Expr.bool, Expr.ownField, Expr.compareWith]
  have hdepth : guardedCounter.toJson.depth ≤ depthLimit := by decide
  exact ⟨hlimits, hdepth, (ofText_toText hlimits hdepth).1⟩

end TypeTable

end Clockwork
