import Clockwork.Proofs.Elaboration.Changes
import Clockwork.Proofs.Elaboration.Nesting

namespace Clockwork.Elaboration

/-- What holds of an elaboration whenever an instance is asked for. -/
structure Ready (e : Elaboration) : Prop where
  sound : e.tree.Sound
  sane : e.Sane False

theorem begin_ready (types : TypeTable) (objects : Objects) : (begin types objects).Ready :=
  ⟨Tree.sound_empty, begin_sane False types objects⟩

/-- An instance whose constants are built, and of whose other fields those before some position: the
field there is the next one. -/
structure Turn (fields : List Field) (path : String) (id index : Nat) (e : Elaboration) : Prop where
  building : e.Building id index
  size : (e.tree.inst id).fields.size = fields.length
  sane : e.Sane False
  vacant : ∀ i f, index ≤ i → fields[i]? = some f → f.isConst = false → e.Vacant ⟨id, i⟩
  path : (e.tree.inst id).path = path

/-- A part of an elaboration with its history, in which only fields among `new` are built. -/
structure Later (new : FieldRef → Prop) (e : Elaboration) (h : History) (e' : Elaboration) :
    Prop where
  steps : Steps new e h e'
  ports : PortSteps False new e e'
  grows : e.Grows e'
  noted : Noted False e e'

namespace Later

variable {new new' : FieldRef → Prop} {e e₁ e' : Elaboration} {h h₁ : History}

theorem refl (he : e.Sane False) : Later new e [] e :=
  ⟨(Quiet.refl _ e).steps, .refl he, .refl, .refl e⟩

theorem trans (hs : Later new e h e₁) (hs₁ : Later new e₁ h₁ e') : Later new e (h ++ h₁) e' :=
  ⟨hs.steps.trans hs₁.steps, hs.ports.trans hs₁.ports, hs.grows.trans hs₁.grows,
    hs.noted.trans hs₁.noted⟩

theorem mono (hs : Later new e h e') (hnew : ∀ f, new f → new' f) : Later new' e h e' :=
  ⟨hs.steps.mono hnew, hs.ports.mono hnew, hs.grows, hs.noted⟩

theorem ready (hs : Later new e h e') (he : e.Ready) : e'.Ready :=
  ⟨hs.steps.tree.sound he.sound, hs.ports.sane⟩

theorem fault (he : e.Sane False) (error : ElabError) : Later new e [] (e.fault error) := by
  have hquiet : Quiet (fun _ => False) e (e.fault error) := .same rfl rfl rfl
  exact ⟨(hquiet.mono fun _ => False.elim).steps, .fault he error, Grows.same rfl rfl,
    .fault e False.elim⟩

theorem hold {place : FieldRef} {child : Nat} (he : e.Ready) (hv : e.Vacant place)
    (hlt : place.owner < child) :
    Later (· = place) e [] (e.setStorage place (.component child)) := by
  obtain ⟨s, hslot, hst⟩ := Tree.slot_of_storage? hv.2
  have hopen := storage_not_signal hslot (by simp [hst])
  have hcomponent : Storage.component child ≠ .signal := by simp
  have hfits : Fits False e.objects.interfaces.size place (.component child) := hlt
  exact ⟨((setStorage_quiet e place hcomponent hopen).mono fun _ => False.elim).steps,
    .built he.sane hv hfits rfl rfl rfl rfl, .setStorage e hopen _, .same rfl rfl⟩

end Later

def takeTurn (build : Build) (id : Nat) (arguments : List (String × Value)) (e : Elaboration)
    (x : Field × Nat) : Elaboration :=
  if !x.1.isConst then
    e.attempt (e.buildField build id x.2 x.1 (arguments.lookup x.1.name))
  else e

def turnHistory (build : Build)
    (inner : Elaboration → DataType → String → Option Nat → List (String × Value) → History)
    (id : Nat) (arguments : List (String × Value)) (e : Elaboration) (x : Field × Nat) : History :=
  if !x.1.isConst then e.fieldHistory build inner id x.2 x.1 (arguments.lookup x.1.name) else []

section Fields

variable {outside : Table String Value} {room : Nat} {above : List String} {fields : List Field}
  {arguments : List (String × Value)} {path : String} {id index : Nat} {e e' : Elaboration}
  {f : Field}

theorem instantiate_later {type : DataType} {name : String} {parent : Option Nat} {child : Nat}
    (he : e.Ready)
    (h : instantiate outside room above e type name parent arguments = .ok (e', child)) :
    Later (Within e.tree.size) e
      (instanceHistory outside room above e type name parent arguments) e' ∧
      child = e.tree.size := by
  obtain ⟨hports, hchild⟩ := PortSteps.instantiate (n := 0) (fun h => h.elim) room above _ _ _ _ _ _
    _ he.sane (Nat.zero_le _) (fun h => h.elim) h
  have hbuild : Noted.Builds False (instantiate outside room above) := Noted.instantiate _ _ _
  have hnoted := hbuild e type name parent arguments fun h => h.elim
  rw [h] at hnoted
  exact ⟨⟨instantiate_steps outside room above _ _ _ _ _ _ _ he.sound h, hports,
    Grows.instantiate outside room above _ _ _ _ _ _ _ he.sound h, hnoted⟩, hchild⟩

namespace Turn

theorem ready (h : Turn fields path id index e) : e.Ready := ⟨h.building.sound, h.sane⟩

theorem lt_size (h : Turn fields path id index e) (hf : fields[index]? = some f) :
    index < (e.tree.inst id).fields.size := by
  rw [h.size]
  exact (List.getElem?_eq_some_iff.mp hf).1

theorem built (h : Turn fields path id index e) (hf : fields[index]? = some f)
    (hconst : f.isConst = false) {argument : Option Value}
    (hbuilt : e.buildField (instantiate outside room above) id index f argument = .ok e') :
    Later (Below id index) e (fieldHistory (instantiate outside room above)
      (instanceHistory outside room above) e id index f argument) e' where
  steps := buildField_steps (instantiate_steps outside room above) h.building (h.lt_size hf) hbuilt
  ports := PortSteps.buildField (PortSteps.instantiate (n := 0) (fun h => h.elim) room above) h.sane
    (Nat.zero_le _) (h.vacant index f (Nat.le_refl _) hf hconst) (fun _ _ h => h.elim) hbuilt
  grows := Grows.buildField
    ⟨instantiate_steps outside room above, Grows.instantiate outside room above⟩ h.building
    (h.lt_size hf) hbuilt
  noted := by
    have hends : Misses False (Noted False e)
        (e.buildField (instantiate outside room above) id index f argument) :=
      Noted.buildField (Noted.instantiate outside room above) fun h => h.elim
    rwa [hbuilt] at hends

theorem taken (outside : Table String Value) (room : Nat) (above : List String)
    (arguments : List (String × Value)) (h : Turn fields path id index e)
    (hf : fields[index]? = some f) :
    Later (Below id index) e (turnHistory (instantiate outside room above)
        (instanceHistory outside room above) id arguments e (f, index))
      (takeTurn (instantiate outside room above) id arguments e (f, index)) := by
  cases hconst : f.isConst with
  | true =>
      simp only [turnHistory, takeTurn, hconst, Bool.not_true, Bool.false_eq_true, ↓reduceIte]
      exact .refl h.sane
  | false =>
      simp only [turnHistory, takeTurn, hconst, Bool.not_false, ↓reduceIte]
      cases hbuilt : e.buildField (instantiate outside room above) id index f
          (arguments.lookup f.name) with
      | ok e' => exact h.built hf hconst hbuilt
      | error error =>
          have hnone : fieldHistory (instantiate outside room above)
              (instanceHistory outside room above) e id index f (arguments.lookup f.name) = [] := by
            simp only [fieldHistory, hbuilt]
          rw [hnone]
          exact .fault h.sane error

theorem next {history : History} (h : Turn fields path id index e)
    (hs : Later (Below id index) e history e') : Turn fields path id (index + 1) e' where
  building := h.building.next hs.steps.tree
  size := (hs.steps.tree.fields id h.building.size).trans h.size
  sane := hs.ports.sane
  vacant i f hi hf hconst := by
    refine hs.ports.vacant _ ?_ (h.vacant i f (Nat.le_of_succ_le hi) hf hconst)
    rintro (heq | hbelow)
    · have hindex := (FieldRef.mk.inj heq).2
      omega
    · exact Nat.lt_irrefl id hbelow
  path := (hs.grows.path h.building.size).trans h.path

theorem along (outside : Table String Value) (room : Nat) (above : List String)
    (arguments : List (String × Value)) (h : Turn fields path id index e) (rest : List Field)
    (hrest : ∀ i f, rest[i]? = some f → fields[index + i]? = some f) :
    Later (Within id) e
      (historyAlong (takeTurn (instantiate outside room above) id arguments)
        (turnHistory (instantiate outside room above) (instanceHistory outside room above) id
          arguments) e (rest.zipIdx index))
      ((rest.zipIdx index).foldl (takeTurn (instantiate outside room above) id arguments) e) ∧
    Turn fields path id (index + rest.length)
      ((rest.zipIdx index).foldl (takeTurn (instantiate outside room above) id arguments) e) := by
  induction rest generalizing e index with
  | nil => exact ⟨.refl h.sane, h⟩
  | cons f rest ih =>
      have hself := h.taken outside room above arguments (hrest 0 f rfl)
      obtain ⟨hlater, hturn⟩ := ih (h.next hself) fun i g hg => by
        rw [Nat.add_right_comm, Nat.add_assoc]
        exact hrest (i + 1) g hg
      rw [List.zipIdx_cons, List.foldl_cons, historyAlong, List.length_cons,
        Nat.add_comm rest.length, ← Nat.add_assoc]
      refine ⟨(hself.mono ?_).trans hlater, hturn⟩
      rintro g (rfl | hbelow)
      · exact Nat.le_refl _
      · exact Nat.le_of_lt hbelow

end Turn

theorem turn_of_constants (arguments : List (String × Value)) (he : e.Building id 0)
    (hsize : (e.tree.inst id).fields.size = fields.length) (hsane : e.Sane False)
    (hv : ∀ i f, fields[i]? = some f → e.Vacant ⟨id, i⟩) (hpath : (e.tree.inst id).path = path) :
    Turn fields path id 0
      (buildFields Field.isConst (fun e => e.buildConstant id) fields arguments e) := by
  have hquiet := constants_quiet he.open' fields arguments
  have hargs : AllKnown False e arguments := fun h => h.elim
  have hports := PortSteps.buildConstants hsane hargs hv
  have hgrows : e.Grows
      (buildFields Field.isConst (fun e => e.buildConstant id) fields arguments e) :=
    Grows.buildFields (fun e index f argument e' he _ h => Grows.buildConstant he h) arguments he
      hsize
  refine ⟨⟨hquiet.tree.sound he.sound, Nat.lt_of_lt_of_le he.size hquiet.tree.size,
    he.open'.quiet hquiet⟩, (hquiet.tree.fields id he.size).trans hsize, hports.sane, ?_,
    (hgrows.path he.size).trans hpath⟩
  intro i f _ hf hconst
  exact PortSteps.vacant_of_constants hports hf hconst (hv i f hf)

theorem connected_later (outside : Table String Value) (id : Nat) (he : e.Ready)
    (parent : Option Nat) (binds : List Bind) :
    Later (Within id) e
      ((if parent.isNone then e.topsHistory id outside else []) ++
        (withTops outside id parent e).bindsHistory id binds)
      ((withTops outside id parent e).applyBinds id binds) := by
  have htops := withTops_steps he.sound outside id parent
  have hout : AllKnown False e outside.entries := fun h => h.elim
  have hports := PortSteps.withTops he.sane hout id parent
  have hbinds := applyBinds_steps (htops.tree.sound he.sound) id binds
  have hconnected := (Connected.withTops outside id parent e).trans (.applyBinds _ id binds)
  exact ⟨(htops.trans hbinds).mono fun _ => False.elim,
    hports.trans (PortSteps.applyBinds hports.sane id binds),
    (Grows.withTops outside id parent e).trans (Grows.applyBinds _ id binds),
    hconnected.noted.mono False.elim⟩

end Fields

namespace Request

variable {outside : Table String Value} {fields : List Field} {id index : Nat} {f : Field}
  {x y : Request} {maxDepth : Nat} {c : Component} {line : List Component} {e₁ e₂ e' : Elaboration}

/-- The path of an instance that is asked for. -/
def path (x : Request) : String := pathBelow x.e.tree x.name x.parent

/-- What gives signals a value to start with while an instance is built. -/
def history (outside : Table String Value) (maxDepth : Nat) (x : Request) : History :=
  instanceHistory outside (maxDepth + 1 - x.above.length) x.above x.e x.type x.name x.parent
    x.arguments

/-- The way to build the instances that the fields of an instance hold. -/
abbrev inner (outside : Table String Value) (maxDepth : Nat) (x : Request) (c : Component) :
    Build :=
  instantiate outside (maxDepth - x.above.length) (x.above ++ [c.name])

theorem Opens.vacant (h : x.Opens maxDepth c line fields e₁ id) (hx : x.e.Ready) :
    e₁.Building id 0 ∧ (e₁.tree.inst id).fields.size = fields.length ∧ e₁.Sane False ∧
      (∀ i f, fields[i]? = some f → e₁.Vacant ⟨id, i⟩) ∧ (e₁.tree.inst id).path = x.path := by
  obtain ⟨functions, -, hadded⟩ := h.added
  have hnew :=
    addInstance_added hx.sound x.name (pathBelow x.e.tree x.name x.parent) x.parent c line
    functions x.arguments (TypeTable.allFields_nodup h.allFields)
  obtain ⟨hports, rfl, hvacant⟩ := PortSteps.addInstance hx.sane _ _ _ _ _ _ _ _ hadded
  rw [hadded] at hnew
  obtain ⟨hquiet, -, hsize, hlength⟩ := hnew
  refine ⟨.start hx.sound hquiet hsize, hlength, hports.sane, hvacant, ?_⟩
  simp only [addInstance, noteUnknown_tree] at hadded
  obtain ⟨rfl, -⟩ := Prod.mk.inj hadded
  have hslots : (openSlots x.e.tree fields).1.size = x.e.tree.size :=
    congrArg Array.size (openSlots_opened x.e.tree fields).instances
  rw [← hslots]
  exact congrArg Instance.path (Tree.inst_add_self _ _)

theorem Opens.turn (outside : Table String Value) (h : x.Opens maxDepth c line fields e₁ id)
    (hx : x.e.Ready) (hindex : index ≤ fields.length) : Turn fields x.path id index
      (fieldsTo (x.inner outside maxDepth c) id fields x.arguments index e₁) := by
  obtain ⟨hbuilding, hsize, hsane, hvacant, hpath⟩ := h.vacant hx
  have hconsts := turn_of_constants x.arguments hbuilding hsize hsane hvacant hpath
  have hto := (hconsts.along outside (maxDepth - x.above.length) (x.above ++ [c.name]) x.arguments
    (fields.take index) ?_).2
  · rw [List.length_take, Nat.min_eq_left hindex, Nat.zero_add] at hto
    exact hto
  · intro i g hg
    rw [List.getElem?_take] at hg
    split at hg
    · rwa [Nat.zero_add]
    · cases hg

theorem fieldsTo_succ {build : Build} (hf : fields[index]? = some f)
    (arguments : List (String × Value)) (e : Elaboration) :
    fieldsTo build id fields arguments (index + 1) e =
      takeTurn build id arguments (fieldsTo build id fields arguments index e) (f, index) := by
  obtain ⟨hlt, rfl⟩ := List.getElem?_eq_some_iff.mp hf
  rw [fieldsTo, buildFields, List.take_succ_eq_append_getElem hlt, List.zipIdx_append,
    List.foldl_append, List.length_take, Nat.min_eq_left (Nat.le_of_lt hlt), Nat.zero_add]
  rfl

abbrev historyFrom (outside : Table String Value) (maxDepth : Nat) (x : Request) (c : Component)
    (fields : List Field) (id index : Nat) (e₁ : Elaboration) : History :=
  historyAlong (takeTurn (x.inner outside maxDepth c) id x.arguments)
    (turnHistory (x.inner outside maxDepth c)
      (instanceHistory outside (maxDepth - x.above.length) (x.above ++ [c.name])) id x.arguments)
    (fieldsTo (x.inner outside maxDepth c) id fields x.arguments index e₁)
    ((fields.drop index).zipIdx index)

/-- The history of an instance ends with that of its fields from some turn on and that of its
connections. -/
theorem Opens.history (h : x.Opens maxDepth c line fields e₁ id) (hindex : index ≤ fields.length)
    {e₂ : Elaboration}
    (he₂ : withFields (x.inner outside maxDepth c) id fields x.arguments e₁ = e₂) :
    ∃ before, x.history outside maxDepth =
      before ++ (historyFrom outside maxDepth x c fields id index e₁ ++
        ((if x.parent.isNone then e₂.topsHistory id outside else []) ++
          (withTops outside id x.parent e₂).bindsHistory id (line.flatMap Component.binds))) := by
  obtain ⟨functions, hfunctions, hadded⟩ := h.added
  have hc : componentOf x.e.types x.type (pathBelow x.e.tree x.name x.parent) = .ok c := h.component
  have hall : x.history outside maxDepth =
      historyAlong (takeTurn (x.inner outside maxDepth c) id x.arguments)
        (turnHistory (x.inner outside maxDepth c)
          (instanceHistory outside (maxDepth - x.above.length)
            (x.above ++ [c.name])) id x.arguments)
        (fieldsTo (x.inner outside maxDepth c) id fields x.arguments 0 e₁) fields.zipIdx ++
      ((if x.parent.isNone then e₂.topsHistory id outside else []) ++
        (withTops outside id x.parent e₂).bindsHistory id (line.flatMap Component.binds)) := by
    rw [Request.history, Nat.sub_add_comm h.room]
    simp only [instanceHistory, hc, h.allFields, h.lineage, hfunctions, hadded]
    subst he₂
    exact List.append_assoc _ _ _
  rw [hall, zipIdx_take_drop hindex, historyAlong_append, List.append_assoc]
  exact ⟨_, rfl⟩

theorem Opens.later (outside : Table String Value) (h : x.Opens maxDepth c line fields e₁ id)
    (hx : x.e.Ready) (hindex : index ≤ fields.length) :
    ∃ e' history, x.answer outside maxDepth = .ok (e', id) ∧
      Later (Within id) (fieldsTo
        (x.inner outside maxDepth c) id fields x.arguments index e₁) history
        e' ∧
      ∀ o ∈ history, o ∈ x.history outside maxDepth := by
  have hwith : withFields (x.inner outside maxDepth c) id fields x.arguments e₁ =
      ((fields.drop index).zipIdx index).foldl
      (takeTurn (x.inner outside maxDepth c) id x.arguments)
        (fieldsTo (x.inner outside maxDepth c) id fields x.arguments index e₁) := by
    change fields.zipIdx.foldl (takeTurn (x.inner outside maxDepth c) id x.arguments) _ = _
    rw [zipIdx_take_drop hindex, List.foldl_append]
    rfl
  obtain ⟨hrest, hend⟩ := (h.turn outside hx hindex).along outside (maxDepth - x.above.length)
    (x.above ++ [c.name]) x.arguments (fields.drop index) fun i g hg => by
      rwa [List.getElem?_drop] at hg
  have hconnected := connected_later outside id hend.ready x.parent (line.flatMap Component.binds)
  have hanswer : x.answer outside maxDepth = .ok ((withTops outside id x.parent
      (withFields (x.inner outside maxDepth c) id fields x.arguments e₁)).applyBinds
        id (line.flatMap Component.binds), id) := h.answer
  rw [hwith] at hanswer
  obtain ⟨before, hhistory⟩ := h.history hindex hwith
  refine ⟨_, _, hanswer, hrest.trans hconnected, fun o ho => ?_⟩
  rw [hhistory]
  exact List.mem_append_right _ ho

theorem Opens.later_of_turn (outside : Table String Value)
    (h : x.Opens maxDepth c line fields e₁ id) (hx : x.e.Ready) (hf : fields[index]? = some f)
    (hconst : f.isConst = false) : ∃ e₂ e' history,
      Turn fields x.path id index e₂ ∧ e₂.types = x.e.types ∧
      x.answer outside maxDepth = .ok (e', id) ∧
      Later (Within id) (e₂.attempt (e₂.buildField (x.inner outside maxDepth c) id index f
        (x.arguments.lookup f.name))) history e' ∧
      ∀ o ∈ history, o ∈ x.history outside maxDepth := by
  have hlt := (List.getElem?_eq_some_iff.mp hf).1
  obtain ⟨e', history, hanswer, hlater, hall⟩ := h.later outside hx hlt
  rw [Nat.succ_eq_add_one, fieldsTo_succ hf, takeTurn, if_pos (by simp [hconst])] at hlater
  exact ⟨_, e', history, h.turn outside hx (Nat.le_of_lt hlt),
    h.types (Noted.instantiate _ _ _) index,
    hanswer, hlater, hall⟩

theorem ready_of_reaches (h : Relation.ReflTransGen (Makes outside maxDepth) x y) (hx : x.e.Ready) :
    y.e.Ready := by
  induction h with
  | refl => exact hx
  | tail _ hlast ih =>
      obtain ⟨index, hlast⟩ := hlast
      cases hlast with
      | field hopens hf _ hbefore =>
          subst hbefore
          exact (hopens.turn outside ih (Nat.le_of_lt (List.getElem?_eq_some_iff.mp hf).1)).ready

theorem types_of_reaches (h : Relation.ReflTransGen (Makes outside maxDepth) x y) :
    y.e.types = x.e.types := by
  induction h with
  | refl => rfl
  | tail _ hlast ih =>
      obtain ⟨index, hlast⟩ := hlast
      cases hlast with
      | field hopens _ _ hbefore =>
          subst hbefore
          exact (hopens.types (Noted.instantiate _ _ _) index).trans ih

/-- What a request comes to goes on into what the request comes to that made it. -/
theorem Makes.later (h : x.Makes outside maxDepth y) (hx : x.e.Ready) {child : Nat}
    (hy : y.answer outside maxDepth = .ok (e', child)) : ∃ e'' id history,
      x.answer outside maxDepth = .ok (e'', id) ∧ Later (fun _ => True) e' history e'' ∧
        (∀ o ∈ history, o ∈ x.history outside maxDepth) ∧
        ∀ o ∈ y.history outside maxDepth, o ∈ x.history outside maxDepth := by
  obtain ⟨index, h⟩ := h
  cases h with
  | @field c line fields e₁ e₂ id f type width arguments hopens hf hconst hbefore
      htype hchild hwidth
      harguments =>
      obtain ⟨hlt, hget⟩ := List.getElem?_eq_some_iff.mp hf
      have hturn := hopens.turn outside hx (Nat.le_of_lt hlt)
      rw [← hbefore] at hturn
      rw [answer_of_asks] at hy
      obtain ⟨hinner, rfl⟩ := instantiate_later hturn.ready hy
      have hv := hinner.ports.vacant ⟨id, index⟩ (Nat.not_le_of_lt hturn.building.size)
        (hturn.vacant index f (Nat.le_refl _) hf hconst)
      have hheld := Later.hold (hinner.ready hturn.ready) hv hturn.building.size
      have hbuilt : e₂.buildField (x.inner outside maxDepth c) id index f
          (x.arguments.lookup f.name) =
          .ok (e'.setStorage ⟨id, index⟩ (.component e₂.tree.size)) := by
        have hy : x.inner outside maxDepth c e₂ f.type f.name (some id) arguments =
          .ok (e', e₂.tree.size) := hy
        rw [buildField_of_asks htype hchild hwidth harguments, hy]
        rfl
      obtain ⟨e'', history, hanswer, hlater, hhistory⟩ := hopens.later outside hx hlt
      rw [Nat.succ_eq_add_one, fieldsTo_succ hf, ← hbefore, takeTurn, if_pos (by simp [hconst]),
        hbuilt] at hlater
      refine ⟨e'', id, _, hanswer,
        (hheld.mono fun _ _ => trivial).trans (hlater.mono fun _ _ => trivial), hhistory, ?_⟩
      obtain ⟨before, hall⟩ := hopens.history (Nat.le_of_lt hlt) rfl
      intro o ho
      rw [hall, historyFrom, List.drop_eq_getElem_cons hlt, hget, List.zipIdx_cons, historyAlong,
        ← hbefore]
      refine List.mem_append_right _ (List.mem_append_left _ (List.mem_append_left _ ?_))
      simp only [turnHistory, hconst, Bool.not_false, ↓reduceIte, fieldHistory, hbuilt, htype,
        harguments]
      cases type with
      | component _ | «external» _ _ =>
          rw [Request.history, List.length_append, List.length_singleton] at ho
          rwa [Nat.add_sub_add_right] at ho
      | _ => cases hchild

theorem later_of_reaches (h : Relation.ReflTransGen (Makes outside maxDepth) x y) (hx : x.e.Ready)
    {child : Nat} (hy : y.answer outside maxDepth = .ok (e', child)) : ∃ e'' id history,
      x.answer outside maxDepth = .ok (e'', id) ∧ Later (fun _ => True) e' history e'' ∧
        (∀ o ∈ history, o ∈ x.history outside maxDepth) ∧
        ∀ o ∈ y.history outside maxDepth, o ∈ x.history outside maxDepth := by
  induction h using Relation.ReflTransGen.head_induction_on with
  | refl =>
      obtain ⟨hlater, -⟩ := instantiate_later hx hy
      exact ⟨e', child, [], hy, .refl (hlater.ready hx).sane, by simp, fun o ho => ho⟩
  | head hfirst _ ih =>
      obtain ⟨e₁, id, history, hanswer, hlater, hhistory, hinner⟩ :=
        ih (ready_of_reaches (.single hfirst) hx)
      obtain ⟨e₂, id', history', hanswer', hlater', hhistory', hinner'⟩ := hfirst.later hx hanswer
      refine ⟨e₂, id', _, hanswer', hlater.trans hlater', fun o ho => ?_,
        fun o ho => hinner' o (hinner o ho)⟩
      rcases List.mem_append.mp ho with ho | ho
      · exact hinner' o (hhistory o ho)
      · exact hhistory' o ho

/-- Without faults the turn of every field comes to something, from where it goes on to the tree of
the design. -/
theorem Opens.built {types : TypeTable} {objects : Objects} {top : String}
    {settings : ElabSettings} {r : Elaborated} {log : List LogRecord}
    (hr : elaborate types objects top outside settings = (.ok r, log))
    (hx : Relation.ReflTransGen (Makes outside settings.maxDepth) (start types objects top) x)
    (h : x.Opens settings.maxDepth c line fields e₁ id) (hf : fields[index]? = some f)
    (hconst : f.isConst = false) : ∃ e₂ e₃ e' history,
      Turn fields x.path id index e₂ ∧ e₂.types = types ∧
      e₂.buildField (x.inner outside settings.maxDepth c) id index f
        (x.arguments.lookup f.name) = .ok e₃ ∧
      Later (fun _ => True) e₃ history e' ∧ r.tree = e'.tree := by
  have hstart : (start types objects top).e.Ready := begin_ready types objects
  obtain ⟨e₂, e', history, hturn, htypes, hanswer, hlater, -⟩ :=
    h.later_of_turn outside (ready_of_reaches hx hstart) hf hconst
  obtain ⟨e'', root, history', hroot, hlater', -⟩ := later_of_reaches hx hstart hanswer
  obtain ⟨e, root', hbuilt, htree, herrors⟩ := elaborate_eq_ok hr
  have hsame : (start types objects top).answer outside settings.maxDepth = .ok (e, root') := hbuilt
  obtain ⟨rfl, -⟩ := Prod.mk.inj (Except.ok.inj (hroot.symm.trans hsame))
  have hall := (hlater.mono fun _ _ => trivial).trans hlater'
  cases hfield : e₂.buildField (x.inner outside settings.maxDepth c) id index f
      (x.arguments.lookup f.name) with
  | ok e₃ =>
      rw [hfield] at hall
      exact ⟨e₂, e₃, e'', _, hturn, htypes.trans (types_of_reaches hx), hfield, hall, htree⟩
  | error error =>
      rw [hfield] at hall
      have hmem : error ∈ e''.errors :=
        hall.noted.mem_errors (List.mem_append_right _ List.mem_cons_self)
      rw [herrors] at hmem
      cases hmem

end Request

end Clockwork.Elaboration
