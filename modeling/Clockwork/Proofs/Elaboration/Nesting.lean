import Clockwork.Proofs.Elaboration.Ports
import Clockwork.Proofs.Elaboration.Shape
/-!
Why an elaboration ends. Ways up the ancestors and along the links of ports end by themselves, and
requests for instances are nested only so deep. Where a component would be built inside itself, this
is a fault, and without a fault no component contains itself.
-/

namespace Clockwork

/-- An instance is asked for inside another one of its component, or too deep. -/
def ElabError.IsRecursion : ElabError → Prop
  | .recursiveInstance _ => True
  | _ => False

/-- A component has a field for an instance of another one. -/
def TypeTable.Contains (types : TypeTable) (c d : Component) : Prop :=
  ∃ fields f type, types.allFields c.body = .ok fields ∧ f ∈ fields ∧ f.isConst = false ∧
    types.resolve f.type = .ok type ∧ type.component? = some d

namespace Elaboration

/-- It is noted that an instance was asked for inside another one of its component, or too deep. -/
def NotesRecursion (e : Elaboration) : Prop := ∃ error ∈ e.errors, error.IsRecursion

theorem notesRecursion_attempt (e : Elaboration) {r : Except ElabError Elaboration}
    (h : Ends ElabError.IsRecursion NotesRecursion r) : (e.attempt r).NotesRecursion := by
  cases r with
  | ok e' => exact h
  | error error => exact ⟨error, List.mem_append_right _ List.mem_cons_self, h⟩

theorem exists_of_attempt {e : Elaboration} {r : Except ElabError Elaboration}
    (h : (e.attempt r).errors = []) : ∃ e', r = .ok e' ∧ e'.errors = [] := by
  cases r with
  | ok e' => exact ⟨e', rfl, h⟩
  | error error => exact absurd h (List.append_ne_nil_of_right_ne_nil _ (List.cons_ne_nil _ _))

/-- A request for an instance: the components that are being built, the outermost first, and what is
asked for. -/
structure Request where
  above : List String
  e : Elaboration
  type : DataType
  name : String
  parent : Option Nat
  arguments : List (String × Value)

def fieldsTo (build : Build) (id : Nat) (fields : List Field) (arguments : List (String × Value))
    (index : Nat) (e : Elaboration) : Elaboration :=
  buildFields (fun f => !f.isConst) (fun e => e.buildField build id) (fields.take index) arguments
    (buildFields Field.isConst (fun e => e.buildConstant id) fields arguments e)

namespace Request

/-- The request that an elaboration starts with. -/
def start (types : TypeTable) (objects : Objects) (top : String) : Request :=
  ⟨[], begin types objects, .ref top, top, none, []⟩

def component (x : Request) : Except ElabError Component :=
  componentOf x.e.types x.type (pathBelow x.e.tree x.name x.parent)

/-- What becomes of a request. -/
def answer (outside : Table String Value) (maxDepth : Nat) (x : Request) :
    Except ElabError (Elaboration × Nat) :=
  instantiate outside (maxDepth + 1 - x.above.length) x.above x.e x.type x.name x.parent x.arguments

/-- An instance is made for a request, and its fields are about to be built. -/
structure Opens (maxDepth : Nat) (x : Request) (c : Component) (line : List Component)
    (fields : List Field) (e₁ : Elaboration) (id : Nat) : Prop where
  component : x.component = .ok c
  fresh : c.name ∉ x.above
  room : x.above.length ≤ maxDepth
  allFields : x.e.types.allFields c.body = .ok fields
  lineage : lineOf x.e.types c = .ok line
  added : ∃ functions, x.e.types.allFunctions c.body = .ok functions ∧
    x.e.addInstance x.name (pathBelow x.e.tree x.name x.parent) x.parent c line fields functions
      x.arguments = (e₁, id)

/-- When the turn of a field of the new instance comes, it asks for the instance that it is to
hold. -/
inductive Asks (outside : Table String Value) (maxDepth : Nat) (x : Request) (index : Nat) :
    Request → Prop
  | field {c : Component} {line : List Component} {fields : List Field} {e₁ e₂ : Elaboration}
      {id : Nat} {f : Field} {type : DataType} {width : Option Nat}
      {arguments : List (String × Value)} (hopens : x.Opens maxDepth c line fields e₁ id)
      (hf : fields[index]? = some f) (hconst : f.isConst = false)
      (hbefore : e₂ = fieldsTo (instantiate outside (maxDepth - x.above.length)
        (x.above ++ [c.name])) id fields x.arguments index e₁)
      (htype : e₂.types.resolve f.type = .ok type) (hchild : type.isComponent = true)
      (hwidth : e₂.fieldWidth id f = .ok width)
      (harguments : e₂.fieldArguments id f = .ok arguments) :
      Asks outside maxDepth x index ⟨x.above ++ [c.name], e₂, f.type, f.name, some id, arguments⟩

/-- One request makes another one. -/
def Makes (outside : Table String Value) (maxDepth : Nat) (x y : Request) : Prop :=
  ∃ index, x.Asks outside maxDepth index y

variable {outside : Table String Value} {maxDepth : Nat} {x y z : Request} {c : Component}
  {line : List Component} {fields : List Field} {e₁ e₂ e' : Elaboration}
  {id index : Nat} {f : Field}

theorem Opens.answer (h : x.Opens maxDepth c line fields e₁ id) :
    x.answer outside maxDepth = .ok ((withTops outside id x.parent
      (withFields (instantiate outside (maxDepth - x.above.length) (x.above ++ [c.name])) id fields
        x.arguments e₁)).applyBinds id (line.flatMap Component.binds), id) := by
  obtain ⟨functions, hfunctions, hadded⟩ := h.added
  have hc : componentOf x.e.types x.type (pathBelow x.e.tree x.name x.parent) = .ok c := h.component
  rw [Request.answer, Nat.sub_add_comm h.room, instantiate_succ, hc]
  change ite _ _ _ = _
  rw [if_neg h.fresh, h.allFields, h.lineage, hfunctions]
  change Except.ok (withInstance _ _ _ _ _ _ _ _ _ _) = _
  rw [withInstance, hadded]

theorem exists_opens (h : x.answer outside maxDepth = .ok (e', id)) :
    ∃ c line fields e₁, x.Opens maxDepth c line fields e₁ id := by
  rw [Request.answer] at h
  cases hroom : maxDepth + 1 - x.above.length with
  | zero =>
      rw [hroom, instantiate_zero] at h
      obtain ⟨c, -, h⟩ := bind_eq_ok h
      cases h
  | succ room =>
      rw [hroom] at h
      obtain ⟨c, fields, line, functions, e₁, hc, hfresh, hfields, hline, hfunctions, hadded, -⟩ :=
        instantiate_eq_ok h
      exact ⟨c, line, fields, e₁, hc, hfresh, by omega, hfields, hline, functions,
        hfunctions, hadded⟩

theorem Makes.above (h : x.Makes outside maxDepth y) :
    x.above.length ≤ maxDepth ∧ ∃ c, x.component = .ok c ∧ y.above = x.above ++ [c.name] := by
  obtain ⟨index, h⟩ := h
  cases h with
  | field hopens => exact ⟨hopens.room, _, hopens.component, rfl⟩

theorem makes_wellFounded (outside : Table String Value) (maxDepth : Nat) :
    WellFounded fun y x : Request => x.Makes outside maxDepth y := by
  refine Subrelation.wf (r := InvImage (· < ·) fun x : Request => maxDepth + 1 - x.above.length)
    (fun {y x} h => ?_) (InvImage.wf _ Nat.lt_wfRel.wf)
  obtain ⟨hroom, c, -, habove⟩ := h.above
  change maxDepth + 1 - y.above.length < maxDepth + 1 - x.above.length
  rw [habove, List.length_append, List.length_singleton]
  omega

theorem Opens.unique (h : x.Opens maxDepth c line fields e₁ id) {c' : Component}
    {line' : List Component} {fields' : List Field} {e₁' : Elaboration} {id' : Nat}
    (h' : x.Opens maxDepth c' line' fields' e₁' id') :
    c = c' ∧ fields = fields' ∧ e₁ = e₁' ∧ id = id' := by
  obtain rfl := Except.ok.inj (h.component.symm.trans h'.component)
  obtain rfl := Except.ok.inj (h.allFields.symm.trans h'.allFields)
  obtain rfl := Except.ok.inj (h.lineage.symm.trans h'.lineage)
  obtain ⟨functions, hfunctions, hadded⟩ := h.added
  obtain ⟨functions', hfunctions', hadded'⟩ := h'.added
  obtain rfl := Except.ok.inj (hfunctions.symm.trans hfunctions')
  obtain ⟨he, hid⟩ := Prod.mk.inj (hadded.symm.trans hadded')
  exact ⟨rfl, rfl, he, hid⟩

theorem Asks.unique (h : x.Asks outside maxDepth index y) (h' : x.Asks outside maxDepth index z) :
    y = z := by
  cases h with
  | field hopens hf _ hbefore _ _ _ harguments =>
    cases h' with
    | field hopens' hf' _ hbefore' _ _ _ harguments' =>
      obtain ⟨rfl, rfl, rfl, rfl⟩ := hopens.unique hopens'
      obtain rfl := Option.some.inj (hf.symm.trans hf')
      obtain rfl := hbefore.trans hbefore'.symm
      rw [Except.ok.inj (harguments.symm.trans harguments')]

theorem asks_listed (outside : Table String Value) (maxDepth : Nat) (x : Request) (n : Nat) :
    ∃ l : List Request, ∀ index < n, ∀ y, x.Asks outside maxDepth index y → y ∈ l := by
  induction n with
  | zero => exact ⟨[], fun _ h => absurd h (Nat.not_lt_zero _)⟩
  | succ n ih =>
      obtain ⟨l, hl⟩ := ih
      have hlast : ∃ l' : List Request, ∀ y, x.Asks outside maxDepth n y → y ∈ l' := by
        by_cases hz : ∃ z, x.Asks outside maxDepth n z
        · obtain ⟨z, hz⟩ := hz
          exact ⟨[z], fun y hy => List.mem_singleton.mpr (hy.unique hz)⟩
        · exact ⟨[], fun y hy => absurd ⟨y, hy⟩ hz⟩
      obtain ⟨l', hl'⟩ := hlast
      refine ⟨l ++ l', fun index hindex y hy => ?_⟩
      rcases Nat.lt_succ_iff_lt_or_eq.mp hindex with hlt | rfl
      · exact List.mem_append_left _ (hl index hlt y hy)
      · exact List.mem_append_right _ (hl' y hy)

theorem makes_listed (outside : Table String Value) (maxDepth : Nat) (x : Request) :
    ∃ l : List Request, ∀ y, x.Makes outside maxDepth y → y ∈ l := by
  have hbounded : ∃ n, ∀ index y, x.Asks outside maxDepth index y → index < n := by
    by_cases hx : ∃ c line fields e₁ id, x.Opens maxDepth c line fields e₁ id
    · obtain ⟨c, line, fields, e₁, id, hopens⟩ := hx
      refine ⟨fields.length, fun index y h => ?_⟩
      cases h with
      | field hopens' hf =>
          rw [(hopens.unique hopens').2.1]
          exact (List.getElem?_eq_some_iff.mp hf).1
    · refine ⟨0, fun index y h => ?_⟩
      cases h with
      | field hopens => exact absurd ⟨_, _, _, _, _, hopens⟩ hx
  obtain ⟨n, hn⟩ := hbounded
  obtain ⟨l, hl⟩ := asks_listed outside maxDepth x n
  refine ⟨l, ?_⟩
  rintro y ⟨index, h⟩
  exact hl index (hn index y h) y h

/-- A component is asked for while it is being built, or too deep. -/
def Recurs (maxDepth : Nat) (x : Request) : Prop :=
  ∃ c, x.component = .ok c ∧ (c.name ∈ x.above ∨ maxDepth < x.above.length)

/-- That a component is asked for inside itself is the fault of a request, or noted. -/
def Caught (outside : Table String Value) (maxDepth : Nat) (x : Request) : Prop :=
  Ends ElabError.IsRecursion (fun r => r.1.NotesRecursion) (x.answer outside maxDepth)

theorem Recurs.caught (h : x.Recurs maxDepth) : x.Caught outside maxDepth := by
  obtain ⟨c, hc, hrecurs⟩ := h
  have hc : componentOf x.e.types x.type (pathBelow x.e.tree x.name x.parent) = .ok c := hc
  rw [Caught, Request.answer]
  cases hroom : maxDepth + 1 - x.above.length with
  | zero =>
      rw [instantiate_zero, hc]
      trivial
  | succ room =>
      have hmem : c.name ∈ x.above := hrecurs.resolve_right (by omega)
      rw [instantiate_succ, hc]
      change Ends _ _ (ite _ _ _)
      rw [if_pos hmem]
      trivial

theorem buildField_of_asks {build : Build} {type : DataType} {width : Option Nat}
    {arguments : List (String × Value)} (htype : e₂.types.resolve f.type = .ok type)
    (hchild : type.isComponent = true) (hwidth : e₂.fieldWidth id f = .ok width)
    (harguments : e₂.fieldArguments id f = .ok arguments) (argument : Option Value) :
    e₂.buildField build id index f argument =
      build e₂ f.type f.name (some id) arguments >>= fun r =>
        .ok (r.1.setStorage ⟨id, index⟩ (.component r.2)) := by
  simp only [buildField, htype, hwidth]
  cases type with
  | component c | «external» c name =>
      rw [harguments]
      rfl
  | _ => cases hchild

theorem zipIdx_take_drop {α : Type} {l : List α} {i : Nat} (h : i ≤ l.length) :
    l.zipIdx = (l.take i).zipIdx ++ (l.drop i).zipIdx i := by
  conv_lhs => rw [← List.take_append_drop i l]
  rw [List.zipIdx_append, List.length_take, Nat.min_eq_left h, Nat.zero_add]

theorem zipIdx_split {α : Type} {l : List α} {i : Nat} {a : α} (h : l[i]? = some a) :
    l.zipIdx = (l.take i).zipIdx ++ (a, i) :: (l.drop (i + 1)).zipIdx (i + 1) := by
  obtain ⟨hlt, rfl⟩ := List.getElem?_eq_some_iff.mp h
  rw [zipIdx_take_drop (Nat.le_of_lt hlt), List.drop_eq_getElem_cons hlt, List.zipIdx_cons]

theorem buildFields_noted {test : Field → Bool}
    {step : Elaboration → Nat → Field → Option Value → Except ElabError Elaboration}
    (hstep : ∀ e index f argument, Misses False (Noted False e) (step e index f argument))
    (hf : fields[index]? = some f) (htest : test f = true) (arguments : List (String × Value))
    (e : Elaboration) :
    Noted False ((buildFields test step (fields.take index) arguments e).attempt
        (step (buildFields test step (fields.take index) arguments e) index f
          (arguments.lookup f.name)))
      (buildFields test step fields arguments e) := by
  generalize hto : buildFields test step (fields.take index) arguments e = e₁
  rw [buildFields] at hto ⊢
  rw [zipIdx_split hf, List.foldl_append, List.foldl_cons, hto]
  dsimp only
  rw [if_pos htest]
  exact Noted.buildEach arguments fun e y _ _ => hstep e _ _ _

variable {build : Build}

theorem fieldsTo_noted (hbuild : Noted.Builds False build) (arguments : List (String × Value)) :
    Noted False e₁ (fieldsTo build id fields arguments index e₁) := by
  have hconsts : Noted False e₁ (buildFields Field.isConst (fun e => e.buildConstant id) fields
      arguments e₁) :=
    .buildFields arguments fun e index f argument _ _ => Noted.buildConstant e id index f argument
  exact hconsts.trans (.buildFields arguments fun e index f argument _ _ =>
    Noted.buildField hbuild False.elim)

theorem withFields_noted (hbuild : Noted.Builds False build) (arguments : List (String × Value))
    (hf : fields[index]? = some f) (hconst : f.isConst = false) :
    Noted False ((fieldsTo build id fields arguments index e₁).attempt
        ((fieldsTo build id fields arguments index e₁).buildField build id index f
          (arguments.lookup f.name)))
      (withFields build id fields arguments e₁) :=
  buildFields_noted (fun _ _ _ _ => Noted.buildField hbuild False.elim) hf (by simp [hconst])
    arguments _

theorem Opens.noted (h : x.Opens maxDepth c line fields e₁ id)
    (hf : fields[index]? = some f) (hconst : f.isConst = false)
    (hbuild : build = instantiate outside (maxDepth - x.above.length) (x.above ++ [c.name]))
    (he₂ : e₂ = fieldsTo build id fields x.arguments index e₁) :
    ∃ e', x.answer outside maxDepth = .ok (e', id) ∧ Noted False
      (e₂.attempt (e₂.buildField build id index f (x.arguments.lookup f.name))) e' := by
  subst hbuild he₂
  refine ⟨_, h.answer, ?_⟩
  refine (withFields_noted (Noted.instantiate _ _ _) x.arguments hf hconst).trans ?_
  exact ((Connected.withTops outside id x.parent _).trans
    (.applyBinds _ id (line.flatMap Component.binds))).noted.mono False.elim

theorem Opens.types (h : x.Opens maxDepth c line fields e₁ id) (hbuild : Noted.Builds False build)
    (index : Nat) : (fieldsTo build id fields x.arguments index e₁).types = x.e.types := by
  obtain ⟨functions, -, hadded⟩ := h.added
  have hnew : Noted False x.e _ := Noted.addInstance x.e x.name
    (pathBelow x.e.tree x.name x.parent) x.parent c line fields functions x.arguments
  rw [hadded] at hnew
  exact (fieldsTo_noted hbuild x.arguments).types.trans hnew.types

theorem answer_of_asks {arguments : List (String × Value)} :
    answer outside maxDepth ⟨x.above ++ [c.name], e₂, f.type, f.name, some id, arguments⟩ =
      instantiate outside (maxDepth - x.above.length) (x.above ++ [c.name]) e₂ f.type f.name
        (some id) arguments := by
  rw [answer, List.length_append, List.length_singleton, Nat.add_sub_add_right]

theorem Makes.caught (h : x.Makes outside maxDepth y) (hy : y.Caught outside maxDepth) :
    x.Caught outside maxDepth := by
  obtain ⟨index, h⟩ := h
  cases h with
  | @field _ _ _ _ e₂ id f _ _ _ hopens hf hconst hbefore htype hchild hwidth harguments =>
      obtain ⟨e', hanswer, hnoted⟩ := hopens.noted hf hconst rfl hbefore
      rw [Caught, hanswer]
      rw [Caught, answer_of_asks] at hy
      have hstored : ∀ r : Elaboration × Nat, r.1.NotesRecursion → Ends ElabError.IsRecursion
          NotesRecursion (.ok (r.1.setStorage ⟨id, index⟩ (.component r.2))) := fun _ hr => hr
      have hfield := hy.bind hstored
      rw [← buildField_of_asks htype hchild hwidth harguments (x.arguments.lookup f.name)] at hfield
      obtain ⟨error, herror, hrecursion⟩ := notesRecursion_attempt e₂ hfield
      exact ⟨error, hnoted.mem_errors herror, hrecursion⟩

theorem caught_of_reaches (h : Relation.ReflTransGen (Makes outside maxDepth) x y)
    (hy : y.Recurs maxDepth) : x.Caught outside maxDepth := by
  induction h using Relation.ReflTransGen.head_induction_on with
  | refl => exact hy.caught
  | head hfirst _ ih => exact hfirst.caught ih

def Fulfilled (outside : Table String Value) (maxDepth : Nat) (x : Request) : Prop :=
  ∃ e' id, x.answer outside maxDepth = .ok (e', id) ∧ e'.errors = []

theorem exists_of_buildField {type : DataType} {e₃ : Elaboration} {argument : Option Value}
    (htype : e₂.types.resolve f.type = .ok type) (hchild : type.isComponent = true)
    (h : e₂.buildField build id index f argument = .ok e₃) :
    ∃ width arguments r, e₂.fieldWidth id f = .ok width ∧ e₂.fieldArguments id f = .ok arguments ∧
      build e₂ f.type f.name (some id) arguments = .ok r ∧
      e₃ = r.1.setStorage ⟨id, index⟩ (.component r.2) := by
  simp only [buildField, htype] at h
  obtain ⟨_, hpure, h⟩ := bind_eq_ok h
  cases hpure
  obtain ⟨width, hwidth, h⟩ := bind_eq_ok h
  cases type with
  | component c | «external» c name =>
      obtain ⟨arguments, harguments, h⟩ := bind_eq_ok h
      obtain ⟨r, hr, h⟩ := bind_eq_ok h
      cases h
      exact ⟨width, arguments, r, hwidth, harguments, hr, rfl⟩
  | _ => cases hchild

/-- Without a fault an instance is asked for wherever a component contains another one. -/
theorem Fulfilled.exists_makes (h : x.Fulfilled outside maxDepth) (hc : x.component = .ok c)
    {d : Component} (hd : x.e.types.Contains c d) : ∃ y, x.Makes outside maxDepth y ∧
      y.component = .ok d ∧ y.Fulfilled outside maxDepth ∧ y.e.types = x.e.types := by
  obtain ⟨e', id, hanswer, herrors⟩ := h
  obtain ⟨fields, f, type, hfields, hf, hconst, htype, hcomponent⟩ := hd
  have hchild : type.isComponent = true := by rw [DataType.isComponent, hcomponent, Option.isSome]
  obtain ⟨c', line, fields', e₁, hopens⟩ := exists_opens hanswer
  obtain rfl := Except.ok.inj (hc.symm.trans hopens.component)
  obtain rfl := Except.ok.inj (hfields.symm.trans hopens.allFields)
  obtain ⟨index, hindex⟩ := List.getElem?_of_mem hf
  generalize hbuild : instantiate outside (maxDepth - x.above.length) (x.above ++ [c.name]) = build
  have hnotes : Noted.Builds False build := hbuild ▸ Noted.instantiate _ _ _
  have htypes := hopens.types hnotes index
  generalize hbefore : fieldsTo build id fields x.arguments index e₁ = e₂ at htypes
  rw [← htypes] at htype
  obtain ⟨e'', hanswer', hnoted⟩ := hopens.noted hindex hconst hbuild.symm hbefore.symm
  obtain ⟨rfl, -⟩ := Prod.mk.inj (Except.ok.inj (hanswer.symm.trans hanswer'))
  obtain ⟨e₃, hbuilt, hnone⟩ := exists_of_attempt (hnoted.errors_eq_nil herrors)
  obtain ⟨width, arguments, ⟨e₄, child⟩, hwidth, harguments, hr, rfl⟩ :=
    exists_of_buildField htype hchild hbuilt
  refine ⟨_, ⟨index, .field hopens hindex hconst (hbuild ▸ hbefore.symm) htype hchild hwidth
    harguments⟩, ?_, ⟨e₄, child, ?_, hnone⟩, htypes⟩
  · simp only [Request.component, componentOf, htype, hcomponent]
  · rw [answer_of_asks, hbuild, hr]

theorem Fulfilled.reaches (h : x.Fulfilled outside maxDepth) (hc : x.component = .ok c)
    {d : Component} (hd : Relation.ReflTransGen x.e.types.Contains c d) :
    ∃ y, Relation.ReflTransGen (Makes outside maxDepth) x y ∧ y.component = .ok d ∧
      y.Fulfilled outside maxDepth ∧ y.e.types = x.e.types := by
  induction hd with
  | refl => exact ⟨x, .refl, hc, h, rfl⟩
  | tail _ hlast ih =>
      obtain ⟨y, hy, hcy, hfy, htypes⟩ := ih
      obtain ⟨z, hz, hcz, hfz, htypes'⟩ := hfy.exists_makes hcy (htypes ▸ hlast)
      exact ⟨z, hy.tail hz, hcz, hfz, htypes'.trans htypes⟩

theorem mem_above_of_reaches (h : Relation.ReflTransGen (Makes outside maxDepth) x y)
    {name : String} (hname : name ∈ x.above) : name ∈ y.above := by
  induction h with
  | refl => exact hname
  | tail _ hlast ih =>
      obtain ⟨-, c, -, habove⟩ := hlast.above
      rw [habove]
      exact List.mem_append_left _ ih

theorem Fulfilled.not_contains_self (h : x.Fulfilled outside maxDepth) (hc : x.component = .ok c)
    {d : Component} (hd : Relation.ReflTransGen x.e.types.Contains c d) :
    ¬ Relation.TransGen x.e.types.Contains d d := by
  intro hself
  obtain ⟨y, -, hcy, hfy, htypes⟩ := h.reaches hc hd
  obtain ⟨d', hfirst, hrest⟩ := Relation.TransGen.head'_iff.mp hself
  obtain ⟨z, hz, hcz, hfz, htypes'⟩ := hfy.exists_makes hcy (htypes ▸ hfirst)
  obtain ⟨u, hu, hcu, ⟨e', id, hanswer, -⟩, -⟩ := hfz.reaches hcz (htypes' ▸ htypes ▸ hrest)
  -- The request in the circle is for a component that is being built.
  have hmem : d.name ∈ z.above := by
    obtain ⟨-, c', hc', habove⟩ := hz.above
    obtain rfl := Except.ok.inj (hcy.symm.trans hc')
    rw [habove]
    exact List.mem_append_right _ List.mem_cons_self
  obtain ⟨c', line, fields, e₁, hopens⟩ := exists_opens hanswer
  obtain rfl := Except.ok.inj (hcu.symm.trans hopens.component)
  exact hopens.fresh (mem_above_of_reaches hu hmem)

end Request

end Elaboration

open Elaboration

theorem type?_of_componentOf {types : TypeTable} {name path : String} {c : Component}
    (h : componentOf types (.ref name) path = .ok c) : (types.type? name).isSome := by
  rw [Option.isSome_iff_ne_none]
  intro hnone
  rw [componentOf, TypeTable.resolve, TypeTable.resolveFrom_of_none List.not_mem_nil hnone] at h
  cases h

theorem elaborate_of_mem_errors {types : TypeTable} {objects : Objects} {top : String}
    {values : Table String Value} {settings : ElabSettings} (htop : (types.type? top).isSome)
    {e : Elaboration} {id : Nat}
    (h : (Request.start types objects top).answer values settings.maxDepth = .ok (e, id))
    {error : ElabError} (herror : error ∈ e.errors) : ∃ errors log,
      elaborate types objects top values settings = (.error errors, log) ∧ error ∈ errors := by
  have hnone : (types.type? top).isNone = false := Option.isNone_eq_false_iff.mpr htop
  have h : instantiate values (settings.maxDepth + 1) [] { ofTypes types with objects := objects }
      (.ref top) top none [] = .ok (e, id) := h
  have hmem : error ∈ (e.checkTop settings).errors := by
    simp only [checkTop]
    split
    · exact List.mem_append_left _ herror
    · exact herror
  have hsome : (e.checkTop settings).errors.isEmpty = false := by
    rw [List.isEmpty_eq_false_iff]
    exact List.ne_nil_of_mem hmem
  refine ⟨(e.checkTop settings).errors, openPortWarnings e.tree, ?_, hmem⟩
  simp [elaborate, hnone, h, finish, hsome]

theorem elaborate_of_caught {types : TypeTable} {objects : Objects} {top : String}
    {values : Table String Value} {settings : ElabSettings} (htop : (types.type? top).isSome)
    (h : (Request.start types objects top).Caught values settings.maxDepth) :
    ∃ errors log, elaborate types objects top values settings = (.error errors, log) ∧
      ∃ error ∈ errors, error.IsRecursion := by
  rw [Request.Caught] at h
  cases hbuilt : (Request.start types objects top).answer values settings.maxDepth with
  | error error =>
      rw [hbuilt] at h
      have hnone : (types.type? top).isNone = false := Option.isNone_eq_false_iff.mpr htop
      have hbuilt : instantiate values (settings.maxDepth + 1) []
          { ofTypes types with objects := objects } (.ref top) top none [] = .error error := hbuilt
      simp only [elaborate, hnone, hbuilt]
      exact ⟨_, _, rfl, error, List.mem_cons_self, h⟩
  | ok r =>
      rw [hbuilt] at h
      obtain ⟨error, herror, hrecursion⟩ := h
      obtain ⟨errors, log, herrors, hmem⟩ := elaborate_of_mem_errors htop hbuilt herror
      exact ⟨errors, log, herrors, error, hmem, hrecursion⟩

open Request

/-- An elaboration ends, and it catches what would have no end. -/
structure ElaborationEnds (types : TypeTable) (objects : Objects) (top : String)
    (values : Table String Value) (settings : ElabSettings) : Prop where
  /-- The ways up the ancestors end by themselves, those of bodies and those of components. -/
  bodies : ∀ b, types.Climbs [b] b (types.lineageFrom (types.lineLimit b) [b] b)
  components : ∀ c, ComponentClimbs types [c] c (lineFrom types (types.lineLimit c.body) [c] c)
  /-- So do the ways along the links of ports, whatever happened to the ports before. -/
  ports : ∀ h e, PortRun (begin types objects) h e → ∀ f v, Spreads v [f] [f] e (e.bindObject f v)
  /-- Requests for instances make a finite number of others, and are nested only so deep. -/
  branching : ∀ x : Request, ∃ l : List Request, ∀ y, x.Makes values settings.maxDepth y → y ∈ l
  nesting : WellFounded fun y x : Request => x.Makes values settings.maxDepth y
  depth : ∀ e id, (start types objects top).answer values settings.maxDepth = .ok (e, id) →
    ∀ i < e.tree.size, ∃ n ≤ settings.maxDepth, e.tree.Level Tree.root i n ∧
      ∀ m, e.tree.Level Tree.root i m → m = n
  /-- A component that is reached while it is being built is a fault. -/
  caught : ∀ y, Relation.ReflTransGen (Makes values settings.maxDepth) (start types objects top) y →
    y.Recurs settings.maxDepth → ∃ errors log chain,
      elaborate types objects top values settings = (.error errors, log) ∧
        .recursiveInstance chain ∈ errors
  /-- So without a fault no component below the root contains itself. -/
  hierarchy : ∀ r log, elaborate types objects top values settings = (.ok r, log) →
    ∀ c d, (start types objects top).component = .ok c → Relation.ReflTransGen types.Contains c d →
      ¬ Relation.TransGen types.Contains d d

theorem Elaboration.Request.Recurs.exists_component {outside : Table String Value} {maxDepth : Nat}
    {x y : Request} (h : Relation.ReflTransGen (Makes outside maxDepth) x y)
    (hy : y.Recurs maxDepth) : ∃ c, x.component = .ok c := by
  rcases Relation.ReflTransGen.cases_head h with rfl | ⟨z, hz, -⟩
  · obtain ⟨c, hc, -⟩ := hy
    exact ⟨c, hc⟩
  · obtain ⟨-, c, hc, -⟩ := hz.above
    exact ⟨c, hc⟩

/-- Every elaboration ends, whatever its types, values and settings are. -/
theorem elaboration_ends (types : TypeTable) (objects : Objects) (top : String)
    (values : Table String Value) (settings : ElabSettings) :
    ElaborationEnds types objects top values settings where
  bodies := types.climbs_lineLimit
  components := componentClimbs_lineLimit types
  ports h e hrun f v := spreads_bindObject (hrun.coupled (begin_portless types objects)).links f v
  branching := makes_listed values settings.maxDepth
  nesting := makes_wellFounded values settings.maxDepth
  depth e id hbuilt i hi := by
    have hplants := instantiate_plants values (settings.maxDepth + 1) [] (begin types objects)
      (.ref top) top none [] fun f c hc => by cases hc
    have hbuilt : instantiate values (settings.maxDepth + 1) [] (begin types objects) (.ref top) top
      none [] = .ok (e, id) := hbuilt
    rw [hbuilt] at hplants
    obtain ⟨rfl, -, -, -, hbranch, -⟩ := hplants
    obtain ⟨n, hn, hlevel⟩ := hbranch.level i (Nat.zero_le i) hi
    exact ⟨n, Nat.le_of_lt_succ hn, hlevel, fun m hm => hm.unique hlevel⟩
  caught y hreaches hy := by
    obtain ⟨c, hc⟩ := Recurs.exists_component hreaches hy
    obtain ⟨errors, log, herrors, error, hmem, hrecursion⟩ :=
      elaborate_of_caught (type?_of_componentOf hc) (caught_of_reaches hreaches hy)
    cases error with
    | recursiveInstance chain => exact ⟨errors, log, chain, herrors, hmem⟩
    | _ => cases hrecursion
  hierarchy r log hr c d hc hd := by
    obtain ⟨e, id, hbuilt, -, herrors⟩ := elaborate_eq_ok hr
    have hfulfilled : (start types objects top).Fulfilled values settings.maxDepth :=
      ⟨e, id, hbuilt, herrors⟩
    exact hfulfilled.not_contains_self hc hd

def loopTop : Component :=
  { Component.ofName "Top" with
    body := { Body.ofName "Top" with fields := [.ofType "x" (.ref "Again")] } }

theorem loopDesign_resolve {name : String} (h : name = "Top" ∨ name = "Again") :
    loopDesign.resolve (.ref name) = .ok (.component loopTop) := by
  have htop : ∀ followed : List String, "Top" ∉ followed →
      loopDesign.resolveFrom followed (.ref "Top") = .ok (.component loopTop) := by
    intro followed hnew
    have hnext : loopDesign.type? "Top" = some (.component loopTop) := rfl
    rw [TypeTable.resolveFrom_of_some hnew hnext, TypeTable.resolveFrom_of_not_ref (by simp)]
  rcases h with rfl | rfl
  · exact htop _ (by simp)
  · have hnext : loopDesign.type? "Again" = some (.ref "Top") := rfl
    rw [TypeTable.resolve, TypeTable.resolveFrom_of_some (by simp) hnext]
    exact htop _ (by simp)

theorem loopDesign_component {x : Request} (htypes : x.e.types = loopDesign) {name : String}
    (hname : name = "Top" ∨ name = "Again") (htype : x.type = .ref name) :
    x.component = .ok loopTop := by
  rw [Request.component, componentOf, htypes, htype, loopDesign_resolve hname]
  rfl

/-- The root of `loopDesign` asks for itself, and this is a fault of its elaboration. -/
theorem elaboration_ends_in_loop : ∃ y,
    (start loopDesign .empty "Top").Makes .empty 64 y ∧ y.Recurs 64 ∧ ∃ errors log chain,
      elaborate loopDesign .empty "Top" .empty .standard = (.error errors, log) ∧
        .recursiveInstance chain ∈ errors := by
  have hopens :
      (start loopDesign .empty "Top").Opens 64 loopTop [loopTop] loopTop.body.fields _ _ :=
    ⟨loopDesign_component rfl (.inl rfl) rfl, List.not_mem_nil, Nat.zero_le _, rfl,
      rfl, _, rfl, rfl⟩
  obtain ⟨y, hy, hcomponent, habove⟩ : ∃ y, (start loopDesign .empty "Top").Makes .empty 64 y ∧
      y.component = .ok loopTop ∧ y.above = ["Top"] :=
    ⟨_, ⟨0, .field hopens rfl rfl rfl (loopDesign_resolve (.inr rfl)) rfl rfl rfl⟩,
      loopDesign_component rfl (.inr rfl) rfl, rfl⟩
  have hrecurs : y.Recurs 64 := ⟨loopTop, hcomponent, .inl (habove ▸ List.mem_cons_self)⟩
  exact ⟨y, hy, hrecurs,
    (elaboration_ends loopDesign .empty "Top" .empty .standard).caught y (.single hy) hrecurs⟩

end Clockwork
