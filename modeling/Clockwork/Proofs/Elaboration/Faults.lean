import Clockwork.Elaboration.Design
import Clockwork.Proofs.Design.References
import Clockwork.Proofs.Elaboration.Inheritance
import Clockwork.Proofs.Elaboration.Instances
import Clockwork.Proofs.Elaboration.Links
import Clockwork.Proofs.Results
import Clockwork.Proofs.Tree.Storage
/-!
Which faults an elaboration notes. Those of connections are never about types. If every reference in
the types of a design leads somewhere, then no type is missed anywhere in an elaboration.
-/

namespace Clockwork

/-- A type is missed. -/
def ElabError.IsUnresolved : ElabError → Prop
  | .unresolvedType _ _ => True
  | .design e => e.IsUnresolved
  | _ => False

theorem ElabError.isUnresolved_ofDesign {e : DesignError} (h : ¬ e.IsUnresolved)
    (referencedBy : String) : ¬ (ofDesign referencedBy e).IsUnresolved := by
  cases e with
  | unresolvedType name owner => exact absurd trivial h
  | _ => exact id

namespace Elaboration

/-- A part of an elaboration keeps the types and the faults noted so far. If all types that it needs
are `resolved`, then it misses none. -/
structure Noted (resolved : Prop) (e e' : Elaboration) : Prop where
  types : e'.types = e.types
  errors : ∃ new, e'.errors = e.errors ++ new ∧ (resolved → ∀ x ∈ new, ¬ x.IsUnresolved)

/-- What connections do to an elaboration: they miss no type, and the tree keeps its shape. -/
structure Connected (e e' : Elaboration) : Prop where
  noted : Noted True e e'
  tree : e.tree.Alike e'.tree

/-- Something that is connected, or cannot be for another reason than a missing type. -/
abbrev Connects (e : Elaboration) : Except ElabError Elaboration → Prop :=
  Ends (fun x => ¬ x.IsUnresolved) (Connected e)

variable {resolved : Prop} {e e₁ e' : Elaboration} {id : Nat}

namespace Noted

theorem same (ht : e'.types = e.types) (he : e'.errors = e.errors) : Noted resolved e e' :=
  ⟨ht, [], by rw [he, List.append_nil], fun _ _ h => by cases h⟩

theorem refl (e : Elaboration) : Noted resolved e e := same rfl rfl

theorem trans (h : Noted resolved e e₁) (h₁ : Noted resolved e₁ e') : Noted resolved e e' := by
  obtain ⟨new, hnew, hall⟩ := h.errors
  obtain ⟨new₁, hnew₁, hall₁⟩ := h₁.errors
  refine ⟨h₁.types.trans h.types, new ++ new₁, by rw [hnew₁, hnew, List.append_assoc], ?_⟩
  intro hr x hx
  rcases List.mem_append.mp hx with hx | hx
  · exact hall hr x hx
  · exact hall₁ hr x hx

theorem fault (e : Elaboration) {x : ElabError} (hx : resolved → ¬ x.IsUnresolved) :
    Noted resolved e (e.fault x) :=
  ⟨rfl, [x], rfl, fun hr _ hy => List.mem_singleton.mp hy ▸ hx hr⟩

theorem mono {resolved' : Prop} (h : Noted resolved e e') (hr : resolved' → resolved) :
    Noted resolved' e e' := by
  obtain ⟨new, hnew, hall⟩ := h.errors
  exact ⟨h.types, new, hnew, fun h => hall (hr h)⟩

theorem attempt {r : Except ElabError Elaboration}
    (h : Ends (fun x => resolved → ¬ x.IsUnresolved) (Noted resolved e) r) :
    Noted resolved e (e.attempt r) := by
  cases r with
  | ok e' => exact h
  | error x => exact fault e h

theorem mem_errors (h : Noted resolved e e') {x : ElabError} (hx : x ∈ e.errors) :
    x ∈ e'.errors := by
  obtain ⟨new, hnew, -⟩ := h.errors
  rw [hnew]
  exact List.mem_append_left _ hx

theorem errors_eq_nil (h : Noted resolved e e') (he : e'.errors = []) : e.errors = [] := by
  obtain ⟨new, hnew, -⟩ := h.errors
  exact (List.append_eq_nil_iff.mp (hnew.symm.trans he)).1

end Noted

namespace Connected

theorem same (ht : e'.types = e.types) (he : e'.errors = e.errors)
    (hi : e'.tree.instances = e.tree.instances) : Connected e e' :=
  ⟨.same ht he, .of_instances hi⟩

theorem refl (e : Elaboration) : Connected e e := same rfl rfl rfl

theorem trans (h : Connected e e₁) (h₁ : Connected e₁ e') : Connected e e' :=
  ⟨h.noted.trans h₁.noted, h.tree.trans h₁.tree⟩

theorem attempt {r : Except ElabError Elaboration} (h : Connects e r) :
    Connected e (e.attempt r) := by
  cases r with
  | ok e' => exact h
  | error x => exact ⟨.fault e fun _ => h, .of_instances rfl⟩

theorem foldl {α : Type} {step : Elaboration → α → Elaboration}
    (hstep : ∀ (e : Elaboration) (x : α), Connected e (step e x)) (l : List α) :
    Connected e (l.foldl step e) := by
  induction l generalizing e with
  | nil => exact .refl e
  | cons x l ih => exact (hstep e x).trans ih

theorem record (h : Connected e e') (target source : String) :
    Connected e (e'.record target source) := h.trans (same rfl rfl rfl)

theorem setInitial (e : Elaboration) (f : FieldRef) (s : FieldSlot) (v : Value) :
    Connected e (e.setInitial f s v) := same rfl rfl rfl

theorem setStorage {f : FieldRef} {st : Storage} (hf : e.tree.child? f = none)
    (hst : ∀ c, st ≠ .component c) : Connected e (e.setStorage f st) :=
  ⟨.same rfl rfl, Tree.alike_setStorage hf hst⟩

theorem bindFrom (v : Value) (room : Nat) (work seen : List FieldRef)
    (hwork : ∀ f ∈ work, e.tree.child? f = none) :
    Connected e (bindFrom v room work seen e) := by
  refine bindFrom_induction (P := fun e f => e.tree.child? f = none) refl .trans
    (fun hg => Tree.child?_eq_none (isUnbound_iff.mp hg) (by simp))
    (fun v hf => setStorage hf (by simp)) (fun {e f g} v hf hg => ?_) v room seen hwork
  have hset : Connected e (e.setStorage f (.object v)) := setStorage hf (by simp)
  exact (hset.tree.child g).trans hg

theorem bindObject {f : FieldRef} (hf : e.tree.storage? f = some .unbound) (v : Value) :
    Connected e (e.bindObject f v) := by
  refine bindFrom v _ _ _ fun g hg => ?_
  rw [List.mem_singleton.mp hg]
  exact Tree.child?_eq_none hf (by simp)

end Connected

namespace Connects

theorem slot (e : Elaboration) (f : FieldRef) :
    Ends (fun x => ¬ x.IsUnresolved) (fun s => e.tree.storage? f = some s.storage) (e.slot f) := by
  rw [Elaboration.slot]
  split
  · rename_i s hs
    exact Tree.storage?_of_slot hs
  · exact id

theorem endpoint (e : Elaboration) (id : Nat) (x : Expr) :
    Ends (fun x => ¬ x.IsUnresolved) (fun _ => True) (e.endpoint id x) := by
  rw [Elaboration.endpoint]
  split
  · trivial
  · rename_i error _
    cases error <;> exact fun h => h

theorem connectSignals (l r : FieldRef) (ls rs : FieldSlot) :
    Connects e (e.connectSignals id l r ls rs) := by
  have hbind : ∀ d f : FieldRef, (e.tree.bind d f).instances = e.tree.instances := by
    intro d f
    unfold Tree.bind
    dsimp only
    split <;> rfl
  simp only [Elaboration.connectSignals]
  split <;> split
  · exact fun h => h
  · exact .same rfl rfl (hbind _ _)
  · exact fun h => h
  · exact .same rfl rfl (hbind _ _)

theorem connectFields (l r : FieldRef) : Connects e (e.connectFields id l r) := by
  refine (slot e l).bind fun ls hls => (slot e r).bind fun rs hrs => ?_
  split
  · exact connectSignals l r ls rs
  · exact .setInitial _ _ _ _
  · exact .same rfl rfl rfl
  · rename_i hst _
    exact .bindObject (hst ▸ hls) _
  · rename_i _ hst
    exact .bindObject (hst ▸ hrs) _
  · rename_i hst _
    exact .bindObject (hst ▸ hls) _
  · exact fun h => h

theorem connect (target : FieldRef) (source : Endpoint) :
    Connects e (e.connect id target source) := by
  refine (slot e target).bind fun s hs => ?_
  cases source with
  | field r =>
      cases hst : s.storage
      case const => exact fun h => h
      all_goals exact (connectFields target r).bind fun e' he' => he'.record _ _
  | method owner name =>
      cases hst : s.storage
      case unbound => exact (Connected.bindObject (hst ▸ hs) _).record _ _
      all_goals exact fun h => h
  | value v =>
      cases hst : s.storage
      case signal => exact (Connected.setInitial _ _ _ _).record _ _
      case unbound => exact (Connected.bindObject (hst ▸ hs) _).record _ _
      all_goals exact fun h => h
  | member f name =>
      cases hst : s.storage
      all_goals exact fun h => h

theorem mapEntry (e : Elaboration) (id : Nat) (entry : Expr) :
    Ends (fun x => ¬ x.IsUnresolved) (fun _ => True) (e.mapEntry id entry) := by
  unfold Elaboration.mapEntry
  split
  · rename_i offset storage _
    cases (e.tree.structural id offset).bind Value.asNat64 with
    | error error => split <;> exact fun h => h
    | ok n =>
        split
        · exact fun h => h
        · trivial
        · trivial
        · exact fun h => h
  · exact fun h => h

theorem mapRegion (space : Nat) (path : String) (entry : Expr) :
    Connects e (e.mapRegion id space path entry) := by
  refine (mapEntry e id entry).bind fun ⟨base, backing⟩ _ => ?_
  dsimp only
  split
  · exact fun h => h
  · exact fun h => h
  · exact .same rfl rfl rfl

theorem mapRegions (f : FieldRef) (entries : Expr) : Connects e (e.mapRegions id f entries) := by
  refine (slot e f).bind fun s _ => ?_
  dsimp only
  split
  · exact Connected.foldl (fun e x => .attempt (mapRegion _ _ _)) _
  · exact fun h => h

theorem hookEvent (f : FieldRef) (callback : Expr) : Connects e (e.hookEvent id f callback) := by
  refine (slot e f).bind fun s _ => ?_
  dsimp only
  split
  · refine (endpoint e id callback).bind fun p _ => ?_
    split
    · exact .same rfl rfl rfl
    · exact fun h => h
  · exact fun h => h

theorem memberValue (e : Elaboration) (id : Nat) (name : String) (source : Endpoint) :
    Ends (fun x => ¬ x.IsUnresolved) (fun _ => True) (e.memberValue id name source) := by
  unfold Elaboration.memberValue
  split
  · trivial
  · trivial
  · refine (slot e _).bind fun s _ => ?_
    split
    · trivial
    · trivial
    · exact fun h => h
  · exact fun h => h

theorem addMember (f : FieldRef) (name : String) (v : Value) :
    Connects e (e.addMember id f name v) := by
  refine (slot e f).bind fun s hs => ?_
  dsimp only
  split
  · rename_i hst
    have hobjects : Connected e { e with objects :=
        (e.objects.addInterface (Table.empty.insert name v)).1 } := .same rfl rfl rfl
    exact hobjects.trans (.bindObject (hst ▸ hs) _)
  · rename_i i hst
    have hobjects : Connected e { e with objects :=
        (e.objects.addInterface ((e.objects.interface i).insert name v)).1 } := .same rfl rfl rfl
    exact hobjects.trans (.setStorage (Tree.child?_eq_none (hst ▸ hs) (by simp)) (by simp))
  · exact fun h => h

theorem connectMember (f : FieldRef) (name : String) (source : Expr) :
    Connects e (e.connectMember id f name source) := by
  simp only [Elaboration.connectMember]
  split
  · exact fun h => h
  · refine (endpoint e id source).bind fun p _ => ?_
    refine (memberValue e id name p).bind fun v _ => ?_
    exact (addMember f name v).bind fun e' he' => he'.record _ _

theorem applyBind (b : Bind) : Connects e (e.applyBind id b) := by
  simp only [Elaboration.applyBind]
  split
  · exact fun h => h
  · refine (endpoint e id b.lhs).bind fun p _ => ?_
    cases p with
    | field target => exact (endpoint e id b.rhs).bind fun source _ => connect target source
    | member f name =>
        dsimp only
        split
        · exact mapRegions f b.rhs
        · split
          · exact hookEvent f b.rhs
          · exact connectMember f name b.rhs
    | method owner name => exact fun h => h
    | value v => exact fun h => h

theorem bindTop (name : String) (v : Value) : Connects e (e.bindTop id name v) := by
  simp only [Elaboration.bindTop]
  split
  · exact fun h => h
  · refine (slot e _).bind fun s hs => ?_
    cases hst : s.storage
    case signal => exact (Connected.setInitial _ _ _ _).record _ _
    case unbound => exact (Connected.bindObject (hst ▸ hs) _).record _ _
    all_goals exact fun h => h

end Connects

theorem Connected.applyBinds (e : Elaboration) (id : Nat) (binds : List Bind) :
    Connected e (e.applyBinds id binds) :=
  .foldl (fun _ _ => .attempt (Connects.applyBind _)) _

theorem Connected.withTops (outside : Table String Value) (id : Nat) (parent : Option Nat)
    (e : Elaboration) : Connected e (withTops outside id parent e) := by
  rw [Elaboration.withTops]
  split
  · exact .foldl (fun _ _ => .attempt (Connects.bindTop _ _)) _
  · exact .refl e

open TypeTable

abbrev Misses (resolved : Prop) {α : Type} : (α → Prop) → Except ElabError α → Prop :=
  Ends fun x => resolved → ¬ x.IsUnresolved

theorem misses_mapError {α : Type} {path : String} {done : α → Prop} {r : Except DesignError α}
    (h : Ends (fun e => resolved → ¬ e.IsUnresolved) done r) :
    Misses resolved done (r.mapError (.ofDesign path)) := by
  cases r with
  | ok a => exact h
  | error e => exact fun hr => ElabError.isUnresolved_ofDesign (h hr) path

theorem componentOf_misses {types : TypeTable} {type : DataType} (path : String)
    (h : resolved → types.Complete ∧ types.Covers type) :
    Misses resolved (fun c => resolved → types.Complete ∧ types.CoversBody c.body)
      (componentOf types type path) := by
  rw [componentOf]
  split
  · rename_i error herror
    exact fun hr => ElabError.isUnresolved_ofDesign ((h hr).2.resolve_error herror) path
  · rename_i r hr
    split
    · rename_i c hc
      exact fun hres => ⟨(h hres).1,
        ((h hres).2.resolve (h hres).1 hr).body (body?_of_component? hc)⟩
    · exact fun _ h => h

theorem allFields_misses {types : TypeTable} {b : Body}
    (h : resolved → types.Complete ∧ types.CoversBody b) :
    Ends (fun e => resolved → ¬ e.IsUnresolved)
      (fun fields => resolved → ∀ f ∈ fields, types.Covers f.type) (types.allFields b) := by
  refine Ends.of_cases (fun e he hr => ?_) fun fields hfields hr => ?_
  all_goals
    have hends := (h hr).2.allFields_ends (h hr).1
    first
      | rw [he] at hends
      | rw [hfields] at hends
    exact hends

theorem allFunctions_misses {types : TypeTable} {b : Body}
    (h : resolved → types.Complete ∧ types.CoversBody b) :
    Ends (fun e => resolved → ¬ e.IsUnresolved) (fun _ => True) (types.allFunctions b) :=
  Ends.of_cases (fun _ he hr => (h hr).2.allFunctions_error (h hr).1 he) fun _ _ => trivial

theorem lineOf_misses {types : TypeTable} {c : Component}
    (h : resolved → types.Complete ∧ types.CoversBody c.body) :
    Misses resolved (fun _ => True) (lineOf types c) := by
  refine Ends.of_cases (fun x hx hr => ?_) fun _ _ => trivial
  obtain ⟨ht, hc⟩ := h hr
  have hclimbs := componentClimbs_lineLimit types c
  rw [lineOf] at hx
  cases hup : lineFrom types (types.lineLimit c.body) [c] c with
  | ok line =>
      rw [hup] at hx
      cases hx
  | error x' =>
      rw [hup] at hx hclimbs
      cases hx
      rcases hclimbs.of_error with ⟨a, ha, hx⟩ | ⟨names, rfl⟩
      · have ha := hc.inherits ht (inherits_of_next ha)
        simp only [componentAbove] at hx
        split at hx
        · cases hx
        · rename_i super hsuper
          split at hx
          · rename_i herror
            cases hx
            exact ElabError.isUnresolved_ofDesign ((ha.super _ hsuper).resolve_error herror) _
          · cases hx
      · exact fun h => h

theorem fieldExpr_misses (e : Elaboration) (id : Nat) (f : Field) (x : Expr) :
    Misses resolved (fun _ => True) (e.fieldExpr id f x) := by
  rw [fieldExpr]
  split
  · trivial
  · exact fun _ h => h

theorem fieldWidth_misses (e : Elaboration) (id : Nat) (f : Field) :
    Misses resolved (fun _ => True) (e.fieldWidth id f) := by
  rw [fieldWidth]
  split
  · trivial
  · split
    · trivial
    · exact fun _ h => h

theorem fieldArguments_misses (e : Elaboration) (id : Nat) (f : Field) :
    Misses resolved (fun _ => True) (e.fieldArguments id f) := by
  refine Ends.mapM fun ⟨name, x⟩ _ => ?_
  exact (fieldExpr_misses e id f x).bind fun _ _ => trivial

namespace Noted

variable {index : Nat} {f : Field} {argument : Option Value}

theorem addInstance (e : Elaboration) (name path : String) (parent : Option Nat) (c : Component)
    (line : List Component) (fields : List Field) (functions : List Function)
    (arguments : List (String × Value)) : Noted resolved e
      (e.addInstance name path parent c line fields functions arguments).1 := by
  have hfaults : ∀ (l : List (String × Value)) (e : Elaboration), Noted resolved e
      (l.foldl (fun e b =>
        if b.1 ∈ fields.map Field.name then e else e.fault (.unknownField path b.1)) e) := by
    intro l
    induction l with
    | nil => exact refl
    | cons x l ih =>
        intro e
        rw [List.foldl_cons]
        refine trans ?_ (ih _)
        split
        · exact refl e
        · exact fault e fun _ h => h
  exact (hfaults arguments e).trans (same rfl rfl)

theorem buildSignal (e : Elaboration) (id index : Nat) (f : Field) (argument : Option Value)
    (bits : Nat) (signed : Bool) :
    Misses resolved (Noted resolved e) (e.buildSignal id index f argument bits signed) := by
  simp only [Elaboration.buildSignal]
  split
  · exact same rfl rfl
  · have hinitial : ∀ x : Expr, Misses resolved (fun _ => True) (some <$> e.fieldExpr id f x) := by
      intro x
      rw [map_eq_pure_bind]
      exact (fieldExpr_misses e id f x).bind fun _ _ => trivial
    exact (hinitial _).bind fun _ _ => same rfl rfl
  · exact same rfl rfl

theorem buildConstant (e : Elaboration) (id index : Nat) (f : Field) (argument : Option Value) :
    Misses resolved (Noted resolved e) (e.buildConstant id index f argument) := by
  simp only [Elaboration.buildConstant]
  split
  · exact same rfl rfl
  · exact (fieldExpr_misses e id f _).bind fun _ _ => same rfl rfl
  · exact same rfl rfl

/-- A way to build instances that misses no type if those of the design are resolved. -/
def Builds (resolved : Prop) (build : Build) : Prop :=
  ∀ e type name parent arguments, (resolved → e.types.Complete ∧ e.types.Covers type) →
    Misses resolved (fun r => Noted resolved e r.1) (build e type name parent arguments)

theorem buildField {build : Build} (hbuild : Builds resolved build)
    (h : resolved → e.types.Complete ∧ e.types.Covers f.type) :
    Misses resolved (Noted resolved e) (e.buildField build id index f argument) := by
  simp only [Elaboration.buildField]
  split
  · rename_i type _
    refine (fieldWidth_misses e id f).bind fun width _ => ?_
    have hchild : Misses resolved (Noted resolved e)
        (e.fieldArguments id f >>= fun arguments =>
          build e f.type f.name (some id) arguments >>= fun r =>
            .ok (r.1.setStorage ⟨id, index⟩ (.component r.2))) := by
      refine (fieldArguments_misses e id f).bind fun arguments _ => ?_
      exact (hbuild e f.type f.name (some id) arguments h).bind fun r hr =>
        hr.trans (same rfl rfl)
    cases type with
    | int bits signed =>
        dsimp only
        split
        · exact fun _ h => h
        · exact buildSignal _ _ _ _ _ _ _
    | enum name variants => exact buildSignal _ _ _ _ _ _ _
    | string => exact buildSignal _ _ _ _ _ _ _
    | component c => exact hchild
    | «external» c name => exact hchild
    | _ =>
        cases argument <;> dsimp only
        all_goals
          try split
          all_goals first
            | exact same rfl rfl
            | exact fun _ h => h
  · rename_i error herror
    exact fun hr => ElabError.isUnresolved_ofDesign ((h hr).2.resolve_error herror) _

theorem buildEach {test : Field → Bool}
    {step : Elaboration → Nat → Field → Option Value → Except ElabError Elaboration}
    (arguments : List (String × Value)) {l : List (Field × Nat)}
    (hstep : ∀ e₁, ∀ x ∈ l, e₁.types = e.types → Misses resolved (Noted resolved e₁)
      (step e₁ x.2 x.1 (arguments.lookup x.1.name))) :
    Noted resolved e (l.foldl (fun e (f, index) =>
      if test f then e.attempt (step e index f (arguments.lookup f.name)) else e) e) := by
  induction l generalizing e with
  | nil => exact refl e
  | cons x l ih =>
      have hx : Noted resolved e (if test x.1 then
          e.attempt (step e x.2 x.1 (arguments.lookup x.1.name)) else e) := by
        split
        · exact attempt (hstep e x List.mem_cons_self rfl)
        · exact refl e
      rw [List.foldl_cons]
      exact hx.trans (ih fun e₁ y hy htypes =>
        hstep e₁ y (List.mem_cons_of_mem _ hy) (htypes.trans hx.types))

theorem buildFields {test : Field → Bool}
    {step : Elaboration → Nat → Field → Option Value → Except ElabError Elaboration}
    {fields : List Field} (arguments : List (String × Value))
    (hstep : ∀ e₁ index f argument, f ∈ fields → e₁.types = e.types →
      Misses resolved (Noted resolved e₁) (step e₁ index f argument)) :
    Noted resolved e (buildFields test step fields arguments e) :=
  buildEach arguments fun e₁ _ hx htypes =>
    hstep e₁ _ _ _ (List.fst_mem_of_mem_zipIdx hx) htypes

theorem withFields {build : Build} (hbuild : Builds resolved build) {fields : List Field}
    (arguments : List (String × Value))
    (h : resolved → e.types.Complete ∧ ∀ f ∈ fields, e.types.Covers f.type) :
    Noted resolved e (withFields build id fields arguments e) := by
  have hconsts : Noted resolved e (Elaboration.buildFields Field.isConst
      (fun e => e.buildConstant id) fields arguments e) :=
    buildFields arguments fun e₁ index f argument _ _ => buildConstant e₁ id index f argument
  refine hconsts.trans (buildFields arguments fun e₁ index f argument hf htypes => ?_)
  refine buildField hbuild fun hr => ?_
  rw [htypes, hconsts.types]
  exact ⟨(h hr).1, (h hr).2 f hf⟩

theorem withInstance (outside : Table String Value) {build : Build} (hbuild : Builds resolved build)
    (name : String) (parent : Option Nat) (c : Component) (line : List Component)
    {fields : List Field} (functions : List Function) (arguments : List (String × Value))
    (h : resolved → e.types.Complete ∧ ∀ f ∈ fields, e.types.Covers f.type) :
    Noted resolved e
      (withInstance outside build e name parent c line fields functions arguments).1 := by
  have hadded : Noted resolved e _ := addInstance e name (pathBelow e.tree name parent) parent c
    line fields functions arguments
  rw [Elaboration.withInstance]
  generalize e.addInstance name (pathBelow e.tree name parent) parent c line fields functions
    arguments = r at hadded
  obtain ⟨e₁, id⟩ := r
  have hfields : Noted resolved e₁ (Elaboration.withFields build id fields arguments e₁) :=
    withFields hbuild arguments (by rwa [hadded.types])
  have hconnected := (Connected.withTops outside id parent
    (Elaboration.withFields build id fields arguments e₁)).trans
      (.applyBinds _ id (line.flatMap Component.binds))
  exact (hadded.trans hfields).trans (hconnected.noted.mono fun _ => trivial)

theorem instantiate (outside : Table String Value) (room : Nat) (above : List String) :
    Builds resolved (instantiate outside room above) := by
  induction room generalizing above with
  | zero =>
      intro e type name parent arguments h
      rw [instantiate_zero]
      exact (componentOf_misses _ h).bind fun c _ => fun _ h => h
  | succ room ih =>
      intro e type name parent arguments h
      rw [instantiate_succ]
      refine (componentOf_misses _ h).bind fun c hc => ?_
      split
      · exact fun _ h => h
      refine (misses_mapError (allFields_misses hc)).bind fun fields hfields => ?_
      refine (lineOf_misses hc).bind fun line _ => ?_
      refine (misses_mapError (allFunctions_misses hc)).bind fun functions _ => ?_
      exact withInstance outside (ih _) name _ c line functions arguments
        fun hr => ⟨(hc hr).1, hfields hr⟩

end Noted

end Elaboration

open TypeTable Elaboration

theorem TypeTable.Complete.covers_ref {t : TypeTable} (ht : t.Complete) {name : String}
    (hname : (t.type? name).isSome) : t.Covers (.ref name) := by
  intro owner place name' hrefers hastray
  cases hrefers with
  | super hb => cases hb
  | field hb => cases hb
  | element hel => cases hel
  | ref =>
      cases hastray with
      | missing hnone =>
          rw [hnone] at hname
          cases hname
      | follow hnext hastray =>
          obtain ⟨n, hn, -, htype⟩ := type?_mem hnext
          exact ht n hn "" "" _ (htype ▸ .ref) hastray

/-- Types without faults are all found when a design is elaborated. -/
theorem elaborate_misses_no_type {types : TypeTable} (ht : types.faults = []) {objects : Objects}
    {top : String} {values : Table String Value} {settings : ElabSettings}
    {errors : List ElabError} {log : List LogRecord}
    (h : elaborate types objects top values settings = (.error errors, log)) :
    ∀ x ∈ errors, ¬ x.IsUnresolved := by
  have hcomplete := complete_of_faults ht
  simp only [elaborate] at h
  split at h
  · cases h
    intro x hx
    rw [List.mem_singleton.mp hx]
    exact id
  · rename_i hsome
    have htop : (types.type? top).isSome := by simpa [Option.isNone_iff_eq_none,
      Option.isSome_iff_ne_none] using hsome
    have hbuilds : Noted.Builds True (instantiate values (settings.maxDepth + 1) []) :=
      Noted.instantiate values _ []
    have hbuilt := hbuilds { Elaboration.ofTypes types with objects := objects } (.ref top) top none
      [] fun _ => ⟨hcomplete, hcomplete.covers_ref htop⟩
    split at h
    · rename_i error herror
      rw [herror] at hbuilt
      cases h
      intro x hx
      rw [List.mem_singleton.mp hx]
      exact hbuilt trivial
    · rename_i e id hok
      rw [hok] at hbuilt
      have hchecked : Noted True e (e.checkTop settings) := by
        simp only [checkTop]
        split
        · exact .fault e fun _ h => h
        · exact .refl e
      obtain ⟨new, hnew, hall⟩ := (Noted.trans hbuilt hchecked).errors
      obtain ⟨hfinish, -⟩ := Prod.mk.inj h
      simp only [finish] at hfinish
      split at hfinish
      · cases hfinish
      · cases hfinish
        intro x hx
        rw [hnew] at hx
        exact hall trivial x hx

/-- Of every reference that leads nowhere the fault is reported, or that of another one with the
same text. All such faults are reported if and only if they have different texts. If there are no
faults at all, then no elaboration misses a type. -/
theorem dangling_references_reported (t : TypeTable) :
    (∀ place name, t.Dangling place name → ∃ place' name', t.Dangling place' name' ∧
      .unresolvedType name' place' ∈ t.faults ∧
      (DesignError.unresolvedType name' place').message =
        (DesignError.unresolvedType name place).message) ∧
    ((∀ place name, t.Dangling place name → .unresolvedType name place ∈ t.faults) ↔
      ∀ place name place' name', t.Dangling place name → t.Dangling place' name' →
        (DesignError.unresolvedType name place).message =
          (DesignError.unresolvedType name' place').message → place = place' ∧ name = name') ∧
    (t.faults = [] → ∀ (objects : Objects) (top : String) (values : Table String Value)
      (settings : ElabSettings) (errors : List ElabError) (log : List LogRecord),
      elaborate t objects top values settings = (.error errors, log) →
        ∀ x ∈ errors, ¬ x.IsUnresolved) :=
  ⟨fun _ _ => Dangling.reported, t.all_reported_iff,
    fun ht _ _ _ _ _ _ h => elaborate_misses_no_type ht h⟩

def quotedDesign : TypeTable :=
  ⟨[⟨"c", .getEnd (.ref "a' referenced by 'b")⟩,
    ⟨"b' referenced by 'c", .getEnd (.ref "a")⟩], by decide⟩

theorem quotedDesign_dangling : quotedDesign.Dangling "b' referenced by 'c" "a" :=
  ⟨.missing rfl, _, List.mem_cons_of_mem _ List.mem_cons_self, .element rfl .ref⟩

def loopDesign : TypeTable :=
  ⟨[⟨"Top", .component { Component.ofName "Top" with
      body := { Body.ofName "Top" with fields := [.ofType "x" (.ref "Again")] } }⟩,
    ⟨"Again", .ref "Top"⟩], by decide⟩

theorem elaborate_eq_error {r : Except (List ElabError) Elaborated × List LogRecord}
    (errors : List ElabError)
    (h : (match r.1 with
      | .error x => decide (x = errors)
      | .ok _ => false) = true) : ∃ log, r = (.error errors, log) := by
  obtain ⟨x | x, log⟩ := r
  · exact ⟨log, by rw [of_decide_eq_true h]⟩
  · cases h

theorem dangling_references_reported_of_designs :
    (∃ place name, quotedDesign.Dangling place name ∧
      .unresolvedType name place ∈ quotedDesign.faults ∧
      (DesignError.unresolvedType name place).message =
        (DesignError.unresolvedType "a" "b' referenced by 'c").message) ∧
    loopDesign.faults = [] ∧
    ∃ errors log, elaborate loopDesign .empty "Top" .empty .standard = (.error errors, log) ∧
      errors ≠ [] ∧ ∀ x ∈ errors, ¬ x.IsUnresolved := by
  have hfaults : loopDesign.faults = [] := by decide +kernel
  obtain ⟨log, hlog⟩ : ∃ log, elaborate loopDesign .empty "Top" .empty .standard =
      (.error [.recursiveInstance ["Top", "Top"]], log) := elaborate_eq_error _ (by decide +kernel)
  exact ⟨(dangling_references_reported quotedDesign).1 _ _ quotedDesign_dangling, hfaults, _, log,
    hlog, by simp, (dangling_references_reported loopDesign).2.2 hfaults _ _ _ _ _ _ hlog⟩

/-- One of the two is not reported. -/
theorem quoted_reference_unreported :
    quotedDesign.Dangling "b' referenced by 'c" "a" ∧
      .unresolvedType "a" "b' referenced by 'c" ∉ quotedDesign.faults :=
  ⟨quotedDesign_dangling, by decide +kernel⟩

end Clockwork
