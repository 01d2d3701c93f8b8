import Clockwork.Design.Builder
import Clockwork.Elaboration.Instance
import Clockwork.Proofs.Design.Lineage
/-!
What a component inherits. Its processes and functions come from its ancestors, and a position of a
field in an ancestor is the position of the same field in every heir. The builder gives these
positions to the fields of a component before the component and its heirs are there.
-/

namespace Clockwork

open TypeTable

namespace Elaboration

def componentAbove (types : TypeTable) (c : Component) : Except ElabError (Option Component) :=
  match c.body.super? with
  | none => .ok none
  | some type =>
    match types.resolve type with
    | .error error => .error (.ofDesign c.name error)
    | .ok type => .ok type.component?

variable {types : TypeTable} {c : Component}

theorem body?_of_component? {type : DataType} (h : type.component? = some c) :
    type.body? = some c.body := by
  cases type <;> cases h <;> rfl

theorem componentAbove_eq_some {s : Component} (h : componentAbove types c = .ok (some s)) :
    ∃ super type, c.body.super? = some super ∧ types.resolve super = .ok type ∧
      type.component? = some s := by
  simp only [componentAbove] at h
  split at h
  · cases h
  · rename_i super hsuper
    split at h
    · cases h
    · rename_i type htype
      exact ⟨super, type, hsuper, htype, Except.ok.inj h⟩

/-- The way from a component up to the oldest component that it inherits from. -/
abbrev ComponentClimbs (types : TypeTable) :
    List Component → Component → Except ElabError (List Component) → Prop :=
  Ascends Component.name (componentAbove types) .recursiveInstance

theorem componentClimbs_lineLimit (types : TypeTable) (c : Component) :
    ComponentClimbs types [c] c (lineFrom types (types.lineLimit c.body) [c] c) := by
  refine Ascends.of_limit (P := fun s : Component => lineWithin s.body ⊆ types.pool c.body) ?_
    (fun s => name_mem_pool) ?_ ?_ (by simp) ?_ (types.lineWithin_subset_pool c.body)
  · intro limit line oldest
    rw [lineFrom, componentAbove]
    rcases oldest.body.super? with _ | type
    · rfl
    · dsimp only
      rcases types.resolve type with e | type
      · rfl
      · dsimp only
        rcases type.component? with _ | s <;> rfl
  · intro x s hx hs
    obtain ⟨super, type, hsuper, htype, hbody⟩ := componentAbove_eq_some hs
    exact lineWithin_super hx hsuper htype (body?_of_component? hbody)
  · rw [← length_pool, List.length_map, List.length_singleton]
    omega
  · simpa using name_mem_pool (types.lineWithin_subset_pool c.body)

theorem inherits_of_next {a : Component}
    (h : Relation.ReflTransGen (Ascends.Next (componentAbove types)) c a) :
    types.Inherits c.body a.body := by
  refine h.lift Component.body fun x s hs => ?_
  obtain ⟨super, type, hsuper, htype, hs⟩ := componentAbove_eq_some hs
  simp only [Ascends.Next, superOf, hsuper, htype, body?_of_component? hs]

theorem mem_allProcesses {own : Component → List Function} {line : List Component}
    (h : lineOf types c = .ok line) {g : Function} (hg : g ∈ allProcesses own line) :
    ∃ a, types.Inherits c.body a.body ∧ g ∈ own a := by
  rcases mem_of_mem_overridden hg with hnone | hmem
  · cases hnone
  obtain ⟨a, ha, hg⟩ := List.mem_flatMap.mp hmem
  refine ⟨a, ?_, hg⟩
  rw [lineOf] at h
  have hclimbs := componentClimbs_lineLimit types c
  cases hup : lineFrom types (types.lineLimit c.body) [c] c with
  | error e =>
      rw [hup] at h
      cases h
  | ok up =>
      rw [hup] at h hclimbs
      cases h
      rcases hclimbs.reaches (List.mem_reverse.mp ha) with hself | habove
      · rw [List.mem_singleton.mp hself]
        exact .refl
      · exact inherits_of_next habove

end Elaboration

theorem getElem?_of_longer {α : Type} {l l' : List α} (h : l <+: l') {i : Nat} {a : α}
    (hi : l[i]? = some a) : l'[i]? = some a := by
  obtain ⟨rest, rfl⟩ := h
  rw [List.getElem?_append_left (List.getElem?_eq_some_iff.mp hi).1, hi]

namespace ComponentBuilder

/-- A call on a builder. -/
inductive Call where
  | extend (super : String) (count : Nat)
  | add (f : Field)
  | input (name : String) (bits : Nat)
  | output (name : String) (bits : Nat)
  | signal (name : String) (bits : Nat)
  | constant (name : String) (value : Int)
  | instanceOf (name type : String)
  | instanceWith (name type : String) (arguments : List (String × Expr))
  | connection (name : String) (type : DataType) (kind : FieldKind)
  | bind (lhs rhs : Expr)
  | sync (name : String) (clock : Nat) (reset : Option Nat) (body : List Stmt)
  | comb (name : String) (body : List Stmt)
  | combWith (name : String) (sensitivity : List Expr) (body : List Stmt)
  | process (name : String) (body : List Stmt)
  | addFunction (f : Function)

/-- The field that a call adds. -/
def Call.field? : Call → Option Field
  | .add f => some f
  | .input name bits => some { Field.ofType name (.int bits false) with
      kind := .port, direction := some .input }
  | .output name bits => some { Field.ofType name (.int bits false) with
      kind := .port, direction := some .output }
  | .signal name bits => some (Field.ofType name (.int bits false))
  | .constant name value => some { Field.ofType name (.int 64 true) with
      initial := some (.int value), isConst := true }
  | .instanceOf name type => some (Field.ofType name (.ref type))
  | .instanceWith name type arguments => some { Field.ofType name (.ref type) with
      arguments := some arguments }
  | .connection name type kind => some { Field.ofType name type with kind := kind }
  | _ => none

/-- The builder after a call, and the position that the call gives. -/
def call (b : ComponentBuilder) : Call → ComponentBuilder × Option Nat
  | .extend super count => (b.extend super count, none)
  | .add f => (b.add f).map id some
  | .input name bits => (b.input name bits).map id some
  | .output name bits => (b.output name bits).map id some
  | .signal name bits => (b.signal name bits).map id some
  | .constant name value => (b.constant name value).map id some
  | .instanceOf name type => (b.instanceOf name type).map id some
  | .instanceWith name type arguments => (b.instanceWith name type arguments).map id some
  | .connection name type kind => (b.connection name type kind).map id some
  | .bind lhs rhs => (b.bind lhs rhs, none)
  | .sync name clock reset body => (b.sync name clock reset body, none)
  | .comb name body => (b.comb name body, none)
  | .combWith name sensitivity body => (b.combWith name sensitivity body, none)
  | .process name body => (b.process name body, none)
  | .addFunction f => (b.addFunction f, none)

/-- The builder after a number of calls. -/
def calls (b : ComponentBuilder) (l : List Call) : ComponentBuilder :=
  l.foldl (fun b c => (b.call c).1) b

def fields (b : ComponentBuilder) : List Field := b.component.body.fields

/-- A builder that inherits from a type under a name with `n` fields. -/
structure Extends (b : ComponentBuilder) (super : String) (n : Nat) : Prop where
  super : b.component.body.super? = some (.ref super)
  inherited : b.inherited = n

variable {b : ComponentBuilder} {c : Call} {super : String} {n : Nat}

theorem call_spec (b : ComponentBuilder) (c : Call) :
    (b.call c).1.fields = b.fields ++ c.field?.toList ∧
      (b.call c).2 = c.field?.map fun _ => b.inherited + b.fields.length := by
  cases c <;> simp [call, Call.field?, fields, extend, input, output, port, signal, constant,
    instanceOf, instanceWith, connection, add, bind, sync, comb, combWith, process, addFunction]

theorem Extends.call (hb : b.Extends super n)
    (hc : ∀ s m, c = .extend s m → s = super ∧ m = n) : (b.call c).1.Extends super n := by
  obtain ⟨hsuper, hn⟩ := hb
  cases c with
  | extend s m =>
      obtain ⟨rfl, rfl⟩ := hc s m rfl
      exact ⟨rfl, rfl⟩
  | _ => exact ⟨hsuper, hn⟩

theorem Extends.calls {l : List Call} (hb : b.Extends super n)
    (hl : ∀ s m, .extend s m ∈ l → s = super ∧ m = n) : (b.calls l).Extends super n := by
  induction l generalizing b with
  | nil => exact hb
  | cons c l ih =>
      refine ih (hb.call ?_) fun s m hmem => hl s m (List.mem_cons_of_mem _ hmem)
      rintro s m rfl
      exact hl s m List.mem_cons_self

theorem fields_calls (b : ComponentBuilder) (l : List Call) : b.fields <+: (b.calls l).fields := by
  induction l generalizing b with
  | nil => exact List.prefix_refl _
  | cons c l ih =>
      refine List.IsPrefix.trans ?_ (ih _)
      rw [(b.call_spec c).1]
      exact List.prefix_append _ _

theorem position_own {before after : List Call} {f : Field} (hf : c.field? = some f) :
    (b.calls (before ++ c :: after)).fields[(b.calls before).fields.length]? = some f := by
  have hsplit : b.calls (before ++ c :: after) = (((b.calls before).call c).1).calls after := by
    simp [ComponentBuilder.calls]
  have hfirst := fields_calls ((b.calls before).call c).1 after
  rw [← hsplit, (call_spec _ c).1, hf] at hfirst
  exact getElem?_of_longer hfirst (by simp)

theorem Extends.allFields {t t' : TypeTable} {type : DataType} {base : Body}
    {inherited fields : List Field} (hb : b.Extends super n) (ht : t.Within t')
    (htype : t.resolve (.ref super) = .ok type) (hbase : type.body? = some base)
    (hinherited : t.allFields base = .ok inherited)
    (hfields : t'.allFields b.component.body = .ok fields) : fields = inherited ++ b.fields := by
  have hsuper : t'.superOf b.component.body = .ok (some base) := by
    have htype' := resolveFrom_within ht htype
    rw [← resolve] at htype'
    simp only [superOf, hb.super, htype', hbase]
  obtain ⟨inherited', hinherited', rfl⟩ := allFields_eq_append hsuper hfields
  rw [allFields_within ht hinherited] at hinherited'
  cases hinherited'
  rfl

end ComponentBuilder

/-- The fields of a type are also fields of another one, in the same positions. -/
def TypeTable.PositionsKept (t : TypeTable) (a d : Body) : Prop :=
  ∃ inherited fields, t.allFields a = .ok inherited ∧ t.allFields d = .ok fields ∧
    ∀ (i : Nat) f, inherited[i]? = some f → fields[i]? = some f

theorem TypeTable.Inherits.positionsKept {t : TypeTable} {d a : Body} {fields : List Field}
    (ha : t.Inherits d a) (h : t.allFields d = .ok fields) : t.PositionsKept a d := by
  obtain ⟨inherited, hinherited, hfirst⟩ := ha.allFields h
  exact ⟨inherited, fields, hinherited, h, fun _ _ => getElem?_of_longer hfirst⟩

/-- The fields of a type have distinct names, those of its super type come first and in order, and
what a type inherits finds its fields where they were. A builder that inherits from a type with as
many fields as it is told to gives each field its position, whatever else it is called for, and
whenever the types are registered. -/
theorem field_positions_inherited :
    (∀ (t : TypeTable) (d b : Body) (fields : List Field), t.superOf d = .ok (some b) →
      t.allFields d = .ok fields → (fields.map Field.name).Nodup ∧
        ∃ inherited, t.allFields b = .ok inherited ∧ inherited <+: fields) ∧
    (∀ (t : TypeTable) (d : Body) (fields : List Field) (functions : List Function),
      t.allFields d = .ok fields → t.allFunctions d = .ok functions → ∀ g ∈ functions,
        ∃ a, g ∈ a.functions ∧ t.Inherits d a ∧ t.PositionsKept a d) ∧
    (∀ (t : TypeTable) (c : Component) (fields : List Field) (line : List Component)
      (own : Component → List Function), t.allFields c.body = .ok fields →
      Elaboration.lineOf t c = .ok line → ∀ g ∈ Elaboration.allProcesses own line,
        ∃ a, g ∈ own a ∧ t.Inherits c.body a.body ∧ t.PositionsKept a.body c.body) ∧
    ∀ (t t' : TypeTable) (name super : String) (type : DataType) (base : Body)
      (inherited fields : List Field) (start : ComponentBuilder)
      (calls : List ComponentBuilder.Call), t.resolve (.ref super) = .ok type →
      type.body? = some base → t.allFields base = .ok inherited →
      start = (ComponentBuilder.ofName name).extend super inherited.length →
      (∀ s m, .extend s m ∈ calls → s = super ∧ m = inherited.length) → t.Within t' →
      t'.allFields (start.calls calls).component.body = .ok fields →
      ∀ before c after f, calls = before ++ c :: after → c.field? = some f →
        ∃ i, ((start.calls before).call c).2 = some i ∧ fields[i]? = some f := by
  refine ⟨?_, ?_, ?_, ?_⟩
  · intro t d b fields hs hfields
    obtain ⟨-, -, -, hnodup⟩ := allFields_eq_ok_iff.mp hfields
    exact ⟨hnodup, Inherits.allFields (.single hs) hfields⟩
  · intro t d fields functions hfields hfunctions g hg
    obtain ⟨a, ha, hga⟩ := mem_allFunctions hfunctions hg
    exact ⟨a, hga, ha, ha.positionsKept hfields⟩
  · intro t c fields line own hfields hline g hg
    obtain ⟨a, ha, hga⟩ := Elaboration.mem_allProcesses hline hg
    exact ⟨a, hga, ha, ha.positionsKept hfields⟩
  · rintro t t' name super type base inherited fields start calls htype hbase hinherited rfl hcalls
      ht hfields before c after f rfl hf
    generalize hstart : (ComponentBuilder.ofName name).extend super inherited.length = start at *
    have hextends : start.Extends super inherited.length := hstart ▸ ⟨rfl, rfl⟩
    have hbuilt := (hextends.calls hcalls).allFields ht htype hbase hinherited hfields
    have hbefore : (start.calls before).Extends super inherited.length :=
      hextends.calls fun s m hmem => hcalls s m (List.mem_append_left _ hmem)
    refine ⟨inherited.length + (start.calls before).fields.length, ?_, ?_⟩
    · rw [((start.calls before).call_spec c).2, hf, Option.map_some, hbefore.inherited]
    · rw [hbuilt, List.getElem?_append_right (Nat.le_add_right _ _), Nat.add_sub_cancel_left]
      exact ComponentBuilder.position_own hf

def baseComponent : Component :=
  { Component.ofName "Base" with
    body := { Body.ofName "Base" with
      fields := [.ofType "a" (.int 8 false), .ofType "b" (.int 8 false)]
      functions := [.ofName "f"] }
    syncs := [.ofName "tick"] }

def baseDesign : TypeTable :=
  ⟨[⟨"Base", .component baseComponent⟩, ⟨"Alias", .ref "Base"⟩], by decide⟩

def heirStart : ComponentBuilder := (ComponentBuilder.ofName "Heir").extend "Alias" 2

def heirCalls : List ComponentBuilder.Call :=
  [.input "x" 8, .sync "step" 2 none [], .extend "Alias" 2, .signal "y" 1]

def heirComponent : Component := (heirStart.calls heirCalls).component

def heirDesign : TypeTable :=
  ⟨baseDesign.types ++ [⟨"Heir", .component heirComponent⟩], by decide⟩

theorem heirDesign_register :
    (heirStart.calls heirCalls).register baseDesign = .ok heirDesign := rfl

theorem baseDesign_resolve :
    baseDesign.resolve (.ref "Alias") = .ok (.component baseComponent) := by
  rw [resolve, resolveFrom_of_some (by simp) (rfl : baseDesign.type? "Alias" = some (.ref "Base")),
    resolveFrom_of_some (by decide)
    (rfl : baseDesign.type? "Base" = some (.component baseComponent)),
    resolveFrom_of_not_ref (by simp)]

theorem heirDesign_resolve :
    heirDesign.resolve (.ref "Alias") = .ok (.component baseComponent) :=
  resolveFrom_within (within_of_add heirDesign_register) baseDesign_resolve

theorem heirDesign_superOf :
    heirDesign.superOf heirComponent.body = .ok (some baseComponent.body) := by
  have hsuper : heirComponent.body.super? = some (.ref "Alias") := rfl
  simp only [superOf, hsuper, heirDesign_resolve]
  rfl

theorem heirDesign_lineage :
    heirDesign.lineage heirComponent.body = .ok [baseComponent.body, heirComponent.body] :=
  lineage_eq_ok_iff.mpr (.goesOn heirDesign_superOf (by decide) (.ends rfl))

theorem heirDesign_lineOf :
    Elaboration.lineOf heirDesign heirComponent = .ok [baseComponent, heirComponent] := by
  have habove : Elaboration.componentAbove heirDesign heirComponent =
      .ok (some baseComponent) := by
    have hsuper : heirComponent.body.super? = some (.ref "Alias") := rfl
    simp only [Elaboration.componentAbove, hsuper, heirDesign_resolve]
    rfl
  have hline := (Elaboration.componentClimbs_lineLimit heirDesign heirComponent).unique
    (.goesOn habove (by decide) (.ends rfl))
  rw [Elaboration.lineOf, hline]
  rfl

theorem field_positions_inherited_through_alias : ∃ t fields i,
    (heirStart.calls heirCalls).register baseDesign = .ok t ∧
      t.allFields heirComponent.body = .ok fields ∧
      fields.map Field.name = ["a", "b", "x", "y"] ∧ (fields.map Field.name).Nodup ∧
      (∃ inherited, t.allFields baseComponent.body = .ok inherited ∧ inherited <+: fields) ∧
      (∃ a, Function.ofName "f" ∈ a.functions ∧ t.Inherits heirComponent.body a ∧
        t.PositionsKept a heirComponent.body) ∧
      (∃ a : Component, Function.ofName "tick" ∈ a.syncs ∧ t.Inherits heirComponent.body a.body ∧
        t.PositionsKept a.body heirComponent.body) ∧
      ((heirStart.calls (heirCalls.take 3)).call (.signal "y" 1)).2 = some i ∧
      fields[i]? = some (.ofType "y" (.int 1 false)) := by
  have hfields : ∃ fields, heirDesign.allFields heirComponent.body = .ok fields ∧
      fields.map Field.name = ["a", "b", "x", "y"] :=
    ⟨_, allFields_eq_ok_iff.mpr ⟨_, heirDesign_lineage, rfl, by decide⟩, rfl⟩
  obtain ⟨fields, hfields, hnames⟩ := hfields
  obtain ⟨hfirst, hfunctions, hprocesses, hbuilder⟩ := field_positions_inherited
  obtain ⟨hnodup, hinherited⟩ := hfirst heirDesign heirComponent.body baseComponent.body fields
    heirDesign_superOf hfields
  have hallFunctions : ∃ functions, heirDesign.allFunctions heirComponent.body = .ok functions ∧
      Function.ofName "f" ∈ functions := by
    simp only [allFunctions, heirDesign_lineage]
    exact ⟨_, rfl, List.mem_cons_self⟩
  obtain ⟨functions, hallFunctions, hf⟩ := hallFunctions
  have hbase : baseDesign.allFields baseComponent.body =
      .ok [.ofType "a" (.int 8 false), .ofType "b" (.int 8 false)] :=
    allFields_eq_ok_iff.mpr ⟨[baseComponent.body],
      lineage_eq_ok_iff.mpr (.ends rfl), rfl, by decide⟩
  obtain ⟨i, hi, hfield⟩ := hbuilder baseDesign heirDesign "Heir" "Alias"
    (.component baseComponent) baseComponent.body _ fields heirStart heirCalls
    baseDesign_resolve rfl
    hbase rfl (by simp [heirCalls]) (within_of_add heirDesign_register) hfields (heirCalls.take 3)
    (.signal "y" 1) [] _ rfl rfl
  exact ⟨heirDesign, fields, i, heirDesign_register, hfields, hnames, hnodup, hinherited,
    hfunctions heirDesign heirComponent.body fields functions hfields hallFunctions _ hf,
    hprocesses heirDesign heirComponent fields _ Component.syncs hfields heirDesign_lineOf _
      List.mem_cons_self, hi, hfield⟩

end Clockwork
