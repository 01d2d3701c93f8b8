import Clockwork.Proofs.Elaboration.Turns
/-!
What becomes of the arguments of an instance. Constants, signals and fields for objects take them;
an argument for a field that is not there, or that cannot be built, is a fault. An argument for a
field that holds an instance is dropped without a word.
-/

namespace Clockwork

/-- A fault that names an argument of the instance at a path. -/
def ElabError.Names (path argument : String) : ElabError → Prop
  | .unknownField component field => component = path ∧ field = argument
  | .invalidField component field _ => component = path ∧ field = argument
  | .unresolvedType _ place => place = path ++ "." ++ argument
  | _ => False

namespace Elaboration

variable {e e' : Elaboration} {id index : Nat} {f : Field} {v : Value} {build : Build}

theorem buildSignal_starts {argument : Option Value} {bits : Nat} {signed : Bool}
    (he : e.tree.Sound) (hindex : index < (e.tree.inst id).fields.size)
    (h : e.buildSignal id index f argument bits signed = .ok e') :
    ∃ s, e'.tree.SignalAt ⟨id, index⟩ s ∧ s.width = bits ∧ s.signed = signed ∧
      ∀ v, argument = some v → e'.tree.initial ⟨id, index⟩ s = v.fit bits signed := by
  have hslot : e.tree.slot id index = .ok (e.tree.inst id).fields[index] := by
    rw [Tree.slot_eq_ok, Array.getElem?_eq_getElem hindex]
  have hkey : ((e.tree.inst id).fields[index]?.getD default).key =
      (e.tree.inst id).fields[index].key := by
    rw [Array.getElem?_eq_getElem hindex, Option.getD_some]
  have hlt : id < e.tree.signals.size := by
    rw [he.size]
    exact Tree.slot_lt_size hslot
  rcases buildSignal_eq_ok h with ⟨rfl, rfl⟩ | ⟨v, hv, rfl⟩
  · exact ⟨_, Tree.signalAt_asSignal (f := ⟨id, index⟩) hslot bits signed, rfl, rfl, by simp⟩
  · rw [hkey]
    refine ⟨_, Tree.signalAt_asSignal (t := e.tree.setSignal id _ _) (f := ⟨id, index⟩) hslot bits
      signed, rfl, rfl, ?_⟩
    intro w hw
    rw [hv w hw]
    change ((e.tree.setSignal id _ _).signalsOf id).read _ = _
    rw [Tree.signalsOf_setSignal, if_pos ⟨rfl, hlt⟩, SignalState.read, SignalState.set,
      Table.get?_insert_self, Option.getD_some]

/-- What a field holds that is no constant, after its turn with an argument: a signal starts with
the argument as far as it fits, any other field holds it as its type narrows it. -/
inductive Holds (types : TypeTable) (t : Tree) (place : FieldRef) (f : Field) (v : Value) : Prop
  | signal {s : FieldSlot} (hs : t.SignalAt place s)
      (hv : t.initial place s = v.fit s.width s.signed)
  | object {type : DataType} (htype : types.resolve f.type = .ok type)
      (hst : t.storage? place = some (.object (narrow (some type) v)))

/-- A fault of the turn of a field: it names the field, or the type of the field leads back to
itself. -/
def FieldFault (types : TypeTable) (path : String) (f : Field) (error : ElabError) : Prop :=
  error.Names path f.name ∨
    ∃ chain, types.resolve f.type = .error (.refCycle chain) ∧ error = .design (.refCycle chain)

/-- The turn of a field that holds no instance uses the argument, or ends with a fault. -/
theorem buildField_uses (build : Build) (v : Value) (he : e.Ready) (hv : e.Vacant ⟨id, index⟩)
    (hinstance : ∀ type, e.types.resolve f.type = .ok type → type.isComponent = false) :
    Ends (FieldFault e.types (e.tree.inst id).path f)
      (fun e' => Holds e.types e'.tree ⟨id, index⟩ f v)
      (e.buildField build id index f (some v)) := by
  obtain ⟨slot, hslot, -⟩ := Tree.slot_of_storage? hv.2
  have hindex : index < (e.tree.inst id).fields.size :=
    (Array.getElem?_eq_some_iff.mp (Tree.slot_eq_ok.mp hslot)).1
  have hsignal : ∀ bits signed, Ends (FieldFault e.types (e.tree.inst id).path f)
      (fun e' => Holds e.types e'.tree ⟨id, index⟩ f v)
      (e.buildSignal id index f (some v) bits signed) := by
    intro bits signed
    refine Ends.of_cases (fun error herror => by cases herror) fun e' he' => ?_
    obtain ⟨s, hs, rfl, rfl, hstarts⟩ := buildSignal_starts he.sound hindex he'
    exact .signal hs (hstarts v rfl)
  have hwidth : Ends (FieldFault e.types (e.tree.inst id).path f) (fun _ => True)
      (e.fieldWidth id f) := by
    rw [fieldWidth]
    split
    · trivial
    · split
      · trivial
      · exact .inl ⟨rfl, rfl⟩
  simp only [buildField]
  split
  · rename_i type htype
    refine hwidth.bind fun width _ => ?_
    have hchild := hinstance type htype
    cases type with
    | component c | «external» c name => cases hchild
    | int bits signed =>
        dsimp only
        split
        · exact .inl ⟨rfl, rfl⟩
        · exact hsignal _ _
    | enum name variants => exact hsignal _ _
    | string => exact hsignal _ _
    | _ =>
        refine .object htype ?_
        exact (e.tree.storage?_setStorage _ _ _).trans (by rw [if_pos rfl, hv.2, Option.map_some])
  · rename_i error herror
    rcases TypeTable.resolveFrom_eq_error herror with ⟨_, missing, first, -, rfl, -⟩ | ⟨chain, rfl⟩
    · exact .inl rfl
    · exact .inr ⟨chain, herror, rfl⟩

theorem buildField_unused {type : DataType} (htype : e.types.resolve f.type = .ok type)
    (hchild : type.isComponent = true) (argument argument' : Option Value) :
    e.buildField build id index f argument = e.buildField build id index f argument' := by
  simp only [buildField, htype]
  cases type with
  | component c | «external» c name => rfl
  | _ => cases hchild

theorem buildConstant_argument (e : Elaboration) (id index : Nat) (f : Field) (v : Value) :
    e.buildConstant id index f (some v) = .ok (e.setStorage ⟨id, index⟩ (.const v)) := rfl

theorem storage?_constants {fields : List Field} {start : Nat} (arguments : List (String × Value))
    (h : index < start) : ((fields.zipIdx start).foldl (fun e (f, i) =>
      if f.isConst then e.attempt (e.buildConstant id i f (arguments.lookup f.name)) else e)
      e).tree.storage? ⟨id, index⟩ = e.tree.storage? ⟨id, index⟩ := by
  induction fields generalizing e start with
  | nil => rfl
  | cons f fields ih =>
      rw [List.zipIdx_cons, List.foldl_cons, ih (Nat.lt_succ_of_lt h)]
      have hset : ∀ st, (e.setStorage ⟨id, start⟩ st).tree.storage? ⟨id, index⟩ =
          e.tree.storage? ⟨id, index⟩ := by
        intro st
        refine (e.tree.storage?_setStorage _ _ _).trans (if_neg ?_)
        rintro ⟨⟩
        exact Nat.lt_irrefl _ h
      dsimp only
      split
      · cases hbuilt : e.buildConstant id start f (arguments.lookup f.name) with
        | error error => rfl
        | ok e' =>
            simp only [buildConstant] at hbuilt
            split at hbuilt
            all_goals
              obtain ⟨v, -, hbuilt⟩ := bind_eq_ok hbuilt
              cases hbuilt
              exact hset _
      · rfl

theorem constants_hold {fields : List Field} {arguments : List (String × Value)} (he : e.Sane False)
    (hv : ∀ i g, fields[i]? = some g → e.Vacant ⟨id, i⟩) (hf : fields[index]? = some f)
    (hconst : f.isConst = true) (hargument : arguments.lookup f.name = some v) :
    (buildFields Field.isConst (fun e => e.buildConstant id) fields arguments e).tree.storage?
      ⟨id, index⟩ = some (.const v) := by
  have hargs : AllKnown False e arguments := fun h => h.elim
  have hbefore :=
    PortSteps.buildConstants he hargs fun i g (hg : (fields.take index)[i]? = some g) =>
    hv i g (by
      rw [List.getElem?_take] at hg
      split at hg
      · exact hg
      · cases hg)
  have hvacant := hbefore.vacant ⟨id, index⟩ (by
    rintro (hlt | ⟨-, g, hg, -⟩)
    · exact Nat.lt_irrefl id hlt
    · rw [List.getElem?_take, if_neg (Nat.lt_irrefl index)] at hg
      cases hg) (hv index f hf)
  rw [buildFields] at hvacant ⊢
  rw [Request.zipIdx_split hf, List.foldl_append, List.foldl_cons]
  generalize ((fields.take index).zipIdx).foldl _ e = e₁ at hvacant ⊢
  rw [storage?_constants arguments (Nat.lt_succ_self index)]
  simp only [hconst, ↓reduceIte, hargument, buildConstant_argument]
  refine (e₁.tree.storage?_setStorage _ _ _).trans ?_
  rw [if_pos rfl, hvacant.2, Option.map_some]

/-- An argument that a field of an instance has taken. It is the value of a constant, or the value
that a signal starts with as far as it fits, unless a connection gives it another one, or the object
that a field holds, as its type narrows it; an interface may have got members since. -/
inductive Takes (types : TypeTable) (history : History) (t : Tree) (place : FieldRef) (f : Field)
    (v : Value) : Prop
  | const (hf : f.isConst = true) (hst : t.storage? place = some (.const v))
  | signal {s : FieldSlot} (hf : f.isConst = false) (hs : t.SignalAt place s)
      (hv : t.initial place s = v.fit s.width s.signed ∨ ∃ o ∈ history, o.2.target = place)
  | object {type : DataType} (hf : f.isConst = false) (htype : types.resolve f.type = .ok type)
      (hst : t.storage? place = some (.object (narrow (some type) v)) ∨
        ∃ i j, narrow (some type) v = .obj (.interface i) ∧
          t.storage? place = some (.object (.obj (.interface j))))

theorem Holds.takes {types : TypeTable} {t : Tree} {place : FieldRef} (h : Holds types t place f v)
    (hconst : f.isConst = false) : Takes types [] t place f v := by
  cases h with
  | signal hs hv => exact .signal hconst hs (.inl hv)
  | object htype hst => exact .object hconst htype (.inl hst)

/-- What a field has taken stays. -/
theorem Takes.later {types : TypeTable} {new : FieldRef → Prop} {before history all : History}
    {place : FieldRef} (h : Takes types before e.tree place f v) (hs : Later new e history e')
    (hbefore : ∀ o ∈ before, o ∈ all) (hhistory : ∀ o ∈ history, o ∈ all) :
    Takes types all e'.tree place f v := by
  obtain ⟨_, hrun, -⟩ := hs.ports.run
  cases h with
  | const hf hst =>
      refine .const hf ((hrun.storage_kept hst (by simp)).resolve_right ?_)
      rintro ⟨hi, -⟩
      obtain ⟨k, hk⟩ := Option.isSome_iff_exists.mp hi
      rw [interface?_eq_some, hst] at hk
      cases hk
  | signal hf hsignal hv =>
      obtain ⟨hsignal', hkept | ⟨o, ho, htarget⟩⟩ := hs.steps.run.initial_kept hsignal
      · refine .signal hf hsignal' (hv.imp (fun hv => hkept.trans hv) ?_)
        rintro ⟨o, ho, htarget⟩
        exact ⟨o, hbefore o ho, htarget⟩
      · exact .signal hf hsignal' (.inr ⟨o, hhistory o ho, htarget⟩)
  | object hf htype hst =>
      refine .object hf htype ?_
      rcases hst with hst | ⟨i, j, hv, hst⟩
      · rcases hrun.storage_kept hst (by simp) with hkept | ⟨hi, hj⟩
        · exact .inl hkept
        · obtain ⟨i, hi⟩ := Option.isSome_iff_exists.mp hi
          obtain ⟨j, hj⟩ := Option.isSome_iff_exists.mp hj
          rw [interface?_eq_some, hst] at hi
          exact .inr ⟨i, j, Storage.object.inj (Option.some.inj hi), interface?_eq_some.mp hj⟩
      · rcases hrun.storage_kept hst (by simp) with hkept | ⟨-, hk⟩
        · exact .inr ⟨i, j, hv, hkept⟩
        · obtain ⟨k, hk⟩ := Option.isSome_iff_exists.mp hk
          exact .inr ⟨i, k, hv, interface?_eq_some.mp hk⟩

theorem lookup_of_mem {l : List (String × Value)} {a : String} (hl : (l.map Prod.fst).Nodup)
    (h : (a, v) ∈ l) : l.lookup a = some v := by
  obtain ⟨l₁, l₂, rfl⟩ := List.append_of_mem h
  refine List.lookup_eq_some_iff.mpr ⟨l₁, l₂, rfl, fun p hp => ?_⟩
  rw [List.map_append, List.map_cons, List.nodup_append] at hl
  have hne := hl.2.2 p.1 (List.mem_map_of_mem hp) a List.mem_cons_self
  simpa using Ne.symm hne

theorem lookup_filter_ne {a b : String} (h : b ≠ a) (l : List (String × Value)) :
    (l.filter (·.1 ≠ a)).lookup b = l.lookup b := by
  induction l with
  | nil => rfl
  | cons p l ih =>
      by_cases hp : p.1 = a
      · have hb : (b == p.1) = false := by simpa [hp] using h
        rw [List.filter_cons_of_neg (by simpa using hp), List.lookup_cons, hb, ih]
      · rw [List.filter_cons_of_pos (by simpa using hp), List.lookup_cons, List.lookup_cons, ih]

/-- A name is that of a field for an instance. -/
def InstanceField (types : TypeTable) (fields : List Field) (a : String) : Prop :=
  ∃ f ∈ fields, f.name = a ∧ f.isConst = false ∧
    ∃ type, types.resolve f.type = .ok type ∧ type.isComponent = true

namespace Request

variable {outside : Table String Value} {fields : List Field} {x : Request} {maxDepth : Nat}
  {c : Component} {line : List Component} {e₁ : Elaboration} {a : String}

/-- A request with one argument less. -/
def without (x : Request) (a : String) : Request :=
  { x with arguments := x.arguments.filter (·.1 ≠ a) }

theorem Opens.without (h : x.Opens maxDepth c line fields e₁ id) (ha : a ∈ fields.map Field.name) :
    (x.without a).Opens maxDepth c line fields e₁ id := by
  have hnoted : ∀ (l : List (String × Value)) (e : Elaboration),
      (l.filter (·.1 ≠ a)).foldl (fun e b => if b.1 ∈ fields.map Field.name then e else
          e.fault (.unknownField (pathBelow x.e.tree x.name x.parent) b.1)) e =
        l.foldl (fun e b => if b.1 ∈ fields.map Field.name then e else
          e.fault (.unknownField (pathBelow x.e.tree x.name x.parent) b.1)) e := by
    intro l
    induction l with
    | nil => exact fun _ => rfl
    | cons p l ih =>
        intro e
        by_cases hp : p.1 = a
        · rw [List.filter_cons_of_neg (by simpa using hp), ih, List.foldl_cons, if_pos (hp ▸ ha)]
        · rw [List.filter_cons_of_pos (by simpa using hp), List.foldl_cons, ih, List.foldl_cons]
  obtain ⟨functions, hfunctions, hadded⟩ := h.added
  refine ⟨h.component, h.fresh, h.room, h.allFields, h.lineage, functions, hfunctions, ?_⟩
  rw [← hadded]
  simp only [Request.without, addInstance, hnoted]

theorem takeTurn_types {build : Build} (id : Nat) (hbuild : Noted.Builds False build)
    (arguments : List (String × Value)) (e : Elaboration) (y : Field × Nat) :
    (takeTurn build id arguments e y).types = e.types := by
  rw [takeTurn]
  split
  · exact (Noted.attempt (Noted.buildField hbuild fun h => h.elim)).types
  · rfl

theorem takeTurns_congr {build : Build} (hbuild : Noted.Builds False build)
    {arguments arguments' : List (String × Value)} {l : List (Field × Nat)}
    (h : ∀ e₂, ∀ y ∈ l, e₂.types = e.types →
      takeTurn build id arguments e₂ y = takeTurn build id arguments' e₂ y) :
    l.foldl (takeTurn build id arguments) e = l.foldl (takeTurn build id arguments') e := by
  induction l generalizing e with
  | nil => rfl
  | cons y l ih =>
      have htypes := takeTurn_types id hbuild arguments' e y
      rw [List.foldl_cons, List.foldl_cons, h e y List.mem_cons_self rfl]
      exact ih fun e₂ z hz he₂ => h e₂ z (List.mem_cons_of_mem _ hz) (he₂.trans htypes)

/-- An argument for a field that holds an instance changes nothing. -/
theorem Opens.unused (h : x.Opens maxDepth c line fields e₁ id)
    (ha : InstanceField x.e.types fields a) :
    (x.without a).answer outside maxDepth = x.answer outside maxDepth := by
  obtain ⟨f, hf, rfl, hconst, type, htype, hchild⟩ := ha
  have hwithout := h.without (List.mem_map_of_mem hf)
  have hbuild : Noted.Builds False (x.inner outside maxDepth c) := Noted.instantiate _ _ _
  have htypes := h.types hbuild 0
  have hunique : ∀ g ∈ fields, g.name = f.name → g = f := fun g hg hname =>
    List.inj_on_of_nodup_map (TypeTable.allFields_nodup h.allFields) hg hf hname
  have hlookup : ∀ g ∈ fields, g ≠ f →
      (x.without f.name).arguments.lookup g.name = x.arguments.lookup g.name := fun g hg hne =>
    lookup_filter_ne (fun hname => hne (hunique g hg hname)) x.arguments
  have hconsts : buildFields Field.isConst (fun e => e.buildConstant id) fields
      (x.without f.name).arguments e₁ =
      buildFields Field.isConst (fun e => e.buildConstant id) fields x.arguments e₁ := by
    refine List.foldl_ext _ _ _ ?_
    rintro e ⟨g, i⟩ hy
    dsimp only
    split
    · rename_i hgconst
      have hne : g ≠ f := fun heq => by
        rw [heq, hconst] at hgconst
        cases hgconst
      rw [hlookup g (List.fst_mem_of_mem_zipIdx hy) hne]
    · rfl
  have hfields : withFields (x.inner outside maxDepth c) id fields (x.without f.name).arguments e₁ =
      withFields (x.inner outside maxDepth c) id fields x.arguments e₁ := by
    rw [withFields, withFields, hconsts]
    refine takeTurns_congr hbuild ?_
    rintro e₂ ⟨g, i⟩ hy he₂
    by_cases hgf : g = f
    · subst hgf
      have htype₂ : e₂.types.resolve g.type = .ok type := by
        rw [he₂]
        exact htypes.symm ▸ htype
      simp only [takeTurn]
      rw [buildField_unused htype₂ hchild]
    · simp only [takeTurn, hlookup g (List.fst_mem_of_mem_zipIdx hy) hgf]
  have hanswer : (x.without f.name).answer outside maxDepth = .ok ((withTops outside id x.parent
      (withFields (x.inner outside maxDepth c) id fields
        (x.without f.name).arguments e₁)).applyBinds
        id (line.flatMap Component.binds), id) := hwithout.answer
  rw [hanswer, hfields, h.answer]

theorem Opens.takes_constant (outside : Table String Value)
    (h : x.Opens maxDepth c line fields e₁ id) (hx : x.e.Ready) (hf : fields[index]? = some f)
    (hconst : f.isConst = true) (hargument : x.arguments.lookup f.name = some v) :
    ∃ e', x.answer outside maxDepth = .ok (e', id) ∧
      Takes x.e.types (x.history outside maxDepth) e'.tree ⟨id, index⟩ f v := by
  obtain ⟨e', history, hanswer, hlater, hall⟩ := h.later outside hx (Nat.zero_le _)
  obtain ⟨-, -, hsane, hvacant, -⟩ := h.vacant hx
  have hheld : (fieldsTo (x.inner outside maxDepth c) id fields x.arguments 0 e₁).tree.storage?
      ⟨id, index⟩ = some (.const v) := constants_hold hsane hvacant hf hconst hargument
  have htakes : Takes x.e.types [] _ ⟨id, index⟩ f v := .const hconst hheld
  exact ⟨e', hanswer, htakes.later hlater (by simp) hall⟩

theorem Opens.takes_or_fault (outside : Table String Value)
    (h : x.Opens maxDepth c line fields e₁ id) (hx : x.e.Ready) (hf : fields[index]? = some f)
    (hconst : f.isConst = false) (hargument : x.arguments.lookup f.name = some v)
    (hinstance : ∀ type, x.e.types.resolve f.type = .ok type → type.isComponent = false) :
    ∃ e', x.answer outside maxDepth = .ok (e', id) ∧
      (Takes x.e.types (x.history outside maxDepth) e'.tree ⟨id, index⟩ f v ∨
        ∃ error ∈ e'.errors, FieldFault x.e.types x.path f error) := by
  obtain ⟨e₂, e', history, hturn, htypes, hanswer, hlater, hall⟩ :=
    h.later_of_turn outside hx hf hconst
  have huses := buildField_uses (x.inner outside maxDepth c) v hturn.ready
    (hturn.vacant index f (Nat.le_refl _) hf hconst) (htypes.symm ▸ hinstance)
  rw [htypes, hturn.path] at huses
  rw [hargument] at hlater
  refine ⟨e', hanswer, ?_⟩
  cases hbuilt : e₂.buildField (x.inner outside maxDepth c) id index f (some v) with
  | ok e₃ =>
      rw [hbuilt] at hlater huses
      have hholds : Holds x.e.types e₃.tree ⟨id, index⟩ f v := huses
      exact .inl ((hholds.takes hconst).later hlater (by simp) hall)
  | error error =>
      rw [hbuilt] at hlater huses
      refine .inr ⟨error, hlater.noted.mem_errors ?_, huses⟩
      exact List.mem_append_right _ List.mem_cons_self

theorem Opens.unknown (outside : Table String Value) (h : x.Opens maxDepth c line fields e₁ id)
    (hx : x.e.Ready) (hargument : (a, v) ∈ x.arguments) (ha : a ∉ fields.map Field.name) :
    ∃ e', x.answer outside maxDepth = .ok (e', id) ∧ .unknownField x.path a ∈ e'.errors := by
  have hkept : ∀ (l : List (String × Value)) (e : Elaboration) (error : ElabError),
      error ∈ e.errors → error ∈ (l.foldl (fun e b => if b.1 ∈ fields.map Field.name then e else
        e.fault (.unknownField x.path b.1)) e).errors := by
    intro l
    induction l with
    | nil => exact fun _ _ h => h
    | cons b l ih =>
        intro e error herror
        rw [List.foldl_cons]
        refine ih _ _ ?_
        split
        · exact herror
        · exact List.mem_append_left _ herror
  have hnoted : .unknownField x.path a ∈ e₁.errors := by
    obtain ⟨l₁, l₂, hparts⟩ := List.append_of_mem hargument
    obtain ⟨functions, -, hadded⟩ := h.added
    obtain ⟨rfl, -⟩ := Prod.mk.inj hadded
    change _ ∈ (x.arguments.foldl (fun e b => if b.1 ∈ fields.map Field.name then e else
      e.fault (.unknownField x.path b.1)) x.e).errors
    rw [hparts, List.foldl_append, List.foldl_cons, if_neg ha]
    exact hkept l₂ _ _ (List.mem_append_right _ List.mem_cons_self)
  obtain ⟨e', history, hanswer, hlater, -⟩ := h.later outside hx (Nat.zero_le _)
  have hfields : Noted False e₁
      (fieldsTo (x.inner outside maxDepth c) id fields x.arguments 0 e₁) :=
    fieldsTo_noted (Noted.instantiate _ _ _) x.arguments
  exact ⟨e', hanswer, hlater.noted.mem_errors (hfields.mem_errors hnoted)⟩

/-- An argument is used, or a fault is noted for it, unless it names a field for an instance. -/
theorem Opens.used (outside : Table String Value) (h : x.Opens maxDepth c line fields e₁ id)
    (hx : x.e.Ready) (hdistinct : (x.arguments.map Prod.fst).Nodup)
    (hargument : (a, v) ∈ x.arguments) (ha : ¬ InstanceField x.e.types fields a) :
    ∃ e', x.answer outside maxDepth = .ok (e', id) ∧
      ((∃ f i, fields[i]? = some f ∧ f.name = a ∧
          Takes x.e.types (x.history outside maxDepth) e'.tree ⟨id, i⟩ f v) ∨
        .unknownField x.path a ∈ e'.errors ∨
        ∃ f ∈ fields, f.name = a ∧ ∃ error ∈ e'.errors, FieldFault x.e.types x.path f error) := by
  by_cases hname : a ∈ fields.map Field.name
  · obtain ⟨f, hmem, rfl⟩ := List.mem_map.mp hname
    obtain ⟨i, hf⟩ := List.getElem?_of_mem hmem
    have hlookup := lookup_of_mem hdistinct hargument
    cases hconst : f.isConst with
    | true =>
        obtain ⟨e', hanswer, htakes⟩ := h.takes_constant outside hx hf hconst hlookup
        exact ⟨e', hanswer, .inl ⟨f, i, hf, rfl, htakes⟩⟩
    | false =>
        have hinstance :
            ∀ type, x.e.types.resolve f.type = .ok type → type.isComponent = false := by
          intro type htype
          cases hchild : type.isComponent with
          | false => rfl
          | true => exact absurd ⟨f, hmem, rfl, hconst, type, htype, hchild⟩ ha
        obtain ⟨e', hanswer, htakes | hfault⟩ :=
          h.takes_or_fault outside hx hf hconst hlookup hinstance
        · exact ⟨e', hanswer, .inl ⟨f, i, hf, rfl, htakes⟩⟩
        · exact ⟨e', hanswer, .inr (.inr ⟨f, hmem, rfl, hfault⟩)⟩
  · obtain ⟨e', hanswer, hnoted⟩ := h.unknown outside hx hargument hname
    exact ⟨e', hanswer, .inr (.inl hnoted)⟩

end Request

end Elaboration

open Elaboration Elaboration.Request

section Reports

variable {types : TypeTable} {objects : Objects} {top : String} {values : Table String Value}
  {settings : ElabSettings}

/-- An elaboration ends with a fault of some kind. -/
def Reports (types : TypeTable) (objects : Objects) (top : String) (values : Table String Value)
    (settings : ElabSettings) (kind : ElabError → Prop) : Prop :=
  ∃ errors log, elaborate types objects top values settings = (.error errors, log) ∧
    ∃ error ∈ errors, kind error

/-- The arguments of an instance are used or reported, but for those that name fields for instances:
they are dropped. The tree is the one that the elaboration comes to, with faults or without. A type
that leads back to itself is reported by its own name. -/
theorem arguments_used_or_reported {x : Request} {c : Component} {line : List Component}
    {fields : List Field} {e₁ : Elaboration} {id : Nat} {a : String} {v : Value}
    (hx : Relation.ReflTransGen (Makes values settings.maxDepth) (start types objects top) x)
    (hopens : x.Opens settings.maxDepth c line fields e₁ id)
    (hdistinct : (x.arguments.map Prod.fst).Nodup) (hargument : (a, v) ∈ x.arguments) :
    (InstanceField types fields a →
      (x.without a).answer values settings.maxDepth = x.answer values settings.maxDepth) ∧
    (¬ InstanceField types fields a →
      (∃ e root, (start types objects top).answer values settings.maxDepth = .ok (e, root) ∧
        ∃ f i, fields[i]? = some f ∧ f.name = a ∧
          Takes types (elaborationHistory types objects top values settings) e.tree ⟨id, i⟩ f v) ∨
      Reports types objects top values settings (·.Names x.path a) ∨
      ∃ f ∈ fields, f.name = a ∧ ∃ chain, types.resolve f.type = .error (.refCycle chain) ∧
        Reports types objects top values settings (· = .design (.refCycle chain))) := by
  have hstart : (start types objects top).e.Ready := begin_ready types objects
  have htypes : x.e.types = types := types_of_reaches hx
  have htop : (types.type? top).isSome := by
    rcases Relation.ReflTransGen.cases_head hx with rfl | ⟨z, hz, -⟩
    · exact type?_of_componentOf hopens.component
    · obtain ⟨-, c, hc, -⟩ := hz.above
      exact type?_of_componentOf hc
  constructor
  · rintro ha
    exact hopens.unused (htypes ▸ ha)
  · intro ha
    obtain ⟨e', hanswer, hfate⟩ := hopens.used values (ready_of_reaches hx hstart) hdistinct
      hargument (htypes ▸ ha)
    obtain ⟨e, root, history, hroot, hlater, hhistory, hinner⟩ := later_of_reaches hx hstart hanswer
    have hreports : ∀ error ∈ e'.errors, ∀ kind : ElabError → Prop, kind error →
        Reports types objects top values settings kind := by
      intro error herror kind hkind
      obtain ⟨errors, log, herrors, hmem⟩ :=
        elaborate_of_mem_errors htop hroot (hlater.noted.mem_errors herror)
      exact ⟨errors, log, herrors, error, hmem, hkind⟩
    rw [htypes] at hfate
    rcases hfate with ⟨f, i, hf, hname, htakes⟩ | hunknown |
      ⟨f, hf, hname, error, herror, hnames | hcycle⟩
    · exact .inl ⟨e, root, hroot, f, i, hf, hname, htakes.later hlater hinner hhistory⟩
    · exact .inr (.inl (hreports _ hunknown _ ⟨rfl, rfl⟩))
    · exact .inr (.inl (hreports _ herror _ (hname ▸ hnames)))
    · obtain ⟨chain, hchain, rfl⟩ := hcycle
      exact .inr (.inr ⟨f, hf, hname, chain, hchain, hreports _ herror _ rfl⟩)

end Reports

theorem TypeTable.resolve_of_registered {types : TypeTable} {name : String} {type : DataType}
    (h : types.type? name = some type) (htype : ∀ next, type ≠ .ref next) :
    types.resolve (.ref name) = .ok type := by
  rw [resolve, resolveFrom_of_some List.not_mem_nil h, resolveFrom_of_not_ref htype]

theorem Elaboration.Request.component_of_registered {x : Request} {types : TypeTable}
    (hx : x.e.types = types) {name : String} (htype : x.type = .ref name) {c : Component}
    (h : types.type? name = some (.component c)) : x.component = .ok c := by
  rw [Request.component, componentOf, hx, htype, TypeTable.resolve_of_registered h (by simp)]
  rfl

def packedMid : Component :=
  { Component.ofName "Mid" with
    body := { Body.ofName "Mid" with
      fields := [.ofType "x" (.ref "Leaf"), .ofType "n" (.int 8 false)] } }

/-- A component whose field has arguments for both fields of the instance that it holds. -/
def packedTop : Component :=
  { Component.ofName "Top" with
    body := { Body.ofName "Top" with
      fields := [{ Field.ofType "c" (.ref "Mid") with
        arguments := some [("x", .int 5), ("n", .int 300)] }] } }

def packedDesign : TypeTable :=
  ⟨[⟨"Leaf", .component (.ofName "Leaf")⟩, ⟨"Mid", .component packedMid⟩,
    ⟨"Top", .component packedTop⟩], by decide⟩

theorem packedDesign_makes : ∃ x e₁, (start packedDesign .empty "Top").Makes .empty 64 x ∧
    x.Opens 64 packedMid [packedMid] packedMid.body.fields e₁ 1 ∧
    x.arguments = [("x", .int 5), ("n", .int 300)] ∧ x.path = "Top.c" := by
  have hopens : (start packedDesign .empty "Top").Opens 64 packedTop [packedTop]
      packedTop.body.fields _ _ :=
    ⟨component_of_registered rfl rfl rfl, List.not_mem_nil, Nat.zero_le _, rfl, rfl, _, rfl, rfl⟩
  exact ⟨_, _, ⟨0, .field hopens rfl rfl rfl (TypeTable.resolve_of_registered rfl (by simp)) rfl rfl
    rfl⟩, ⟨component_of_registered rfl rfl rfl, by decide, by decide, rfl, rfl, _,
    rfl, rfl⟩, rfl, rfl⟩

theorem packedDesign_elaboration : ∃ r log,
    elaborate packedDesign .empty "Top" .empty .standard = (.ok r, log) ∧
      r.tree.storage? ⟨1, 0⟩ = some (.component 2) := by
  have hchecked : ((elaborate packedDesign .empty "Top" .empty .standard).1.toOption.map fun r =>
      r.tree.child? ⟨1, 0⟩) = some (some 2) := by
    decide +kernel
  cases hr : elaborate packedDesign .empty "Top" .empty .standard with
  | mk r log =>
      rw [hr] at hchecked
      cases r with
      | error errors => cases hchecked
      | ok r =>
          have hchild : r.tree.child? ⟨1, 0⟩ = some 2 := Option.some.inj hchecked
          exact ⟨r, log, rfl, Tree.child?_eq_some.mp hchild⟩

theorem packedDesign_reports_nothing (kind : ElabError → Prop) :
    ¬ Reports packedDesign .empty "Top" .empty .standard kind := by
  rintro ⟨errors, log, herrors, -⟩
  obtain ⟨r, log', hr, -⟩ := packedDesign_elaboration
  rw [hr] at herrors
  cases herrors

theorem arguments_used_or_reported_of_number : ∃ r log,
    elaborate packedDesign .empty "Top" .empty .standard = (.ok r, log) ∧
      ∃ f i, packedMid.body.fields[i]? = some f ∧ f.name = "n" ∧
        Takes packedDesign (elaborationHistory packedDesign .empty "Top" .empty
          .standard) r.tree ⟨1, i⟩
          f (.int 300) := by
  obtain ⟨r, log, hr, -⟩ := packedDesign_elaboration
  obtain ⟨x, e₁, hx, hopens, harguments, -⟩ := packedDesign_makes
  have hfield : ¬ InstanceField packedDesign packedMid.body.fields "n" := by
    rintro ⟨f, hf, hname, -, type, htype, hchild⟩
    rcases List.mem_cons.mp hf with rfl | hf
    · exact absurd hname (by decide)
    · obtain rfl := List.mem_singleton.mp hf
      rw [TypeTable.resolve, Field.ofType, TypeTable.resolveFrom_of_not_ref (by simp)] at htype
      cases htype
      cases hchild
  have hreaches : Relation.ReflTransGen (Makes .empty ElabSettings.standard.maxDepth)
    (start packedDesign .empty "Top") x := .single hx
  have hused := (arguments_used_or_reported hreaches hopens (by rw [harguments]; decide)
    (harguments ▸ List.mem_cons_of_mem _ List.mem_cons_self)).2 hfield
  rcases hused with ⟨e, root, hanswer, htakes⟩ | hreports | ⟨_, _, _, _, _, hreports⟩
  · obtain ⟨e', id, hbuilt, htree, -⟩ := elaborate_eq_ok hr
    have hsame : (start packedDesign .empty "Top").answer .empty 64 = .ok (e', id) := hbuilt
    obtain ⟨rfl, -⟩ := Prod.mk.inj (Except.ok.inj (hanswer.symm.trans hsame))
    exact ⟨r, log, hr, htree ▸ htakes⟩
  · exact absurd hreports (packedDesign_reports_nothing _)
  · exact absurd hreports (packedDesign_reports_nothing _)

/-- The child's argument for the field `x` is nowhere, and there is no fault. -/
theorem argument_for_instance_dropped : ∃ x e₁ r log,
    (start packedDesign .empty "Top").Makes .empty 64 x ∧
      x.Opens 64 packedMid [packedMid] packedMid.body.fields e₁ 1 ∧
      (x.arguments.map Prod.fst).Nodup ∧ ("x", .int 5) ∈ x.arguments ∧
      elaborate packedDesign .empty "Top" .empty .standard = (.ok r, log) ∧
      (¬ ∃ f i, packedMid.body.fields[i]? = some f ∧ f.name = "x" ∧
        Takes packedDesign (elaborationHistory packedDesign .empty "Top" .empty
          .standard) r.tree ⟨1, i⟩
          f (.int 5)) ∧
      ¬ Reports packedDesign .empty "Top" .empty .standard (·.Names x.path "x") := by
  obtain ⟨r, log, hr, hheld⟩ := packedDesign_elaboration
  obtain ⟨x, e₁, hx, hopens, harguments, -⟩ := packedDesign_makes
  refine ⟨x, e₁, r, log, hx, hopens, by rw [harguments]; decide,
    harguments ▸ List.mem_cons_self, hr,
    ?_, packedDesign_reports_nothing _⟩
  rintro ⟨f, i, hf, hname, htakes⟩
  obtain ⟨rfl, rfl⟩ : i = 0 ∧ f = .ofType "x" (.ref "Leaf") := by
    match i with
    | 0 => exact ⟨rfl, (Option.some.inj hf).symm⟩
    | 1 => cases hf; exact absurd hname (by decide)
    | i + 2 => cases hf
  cases htakes with
  | const hconst => cases hconst
  | signal _ hs =>
      rw [Tree.storage?_of_slot hs.1, hs.2] at hheld
      cases hheld
  | object _ _ hst =>
      rw [hheld] at hst
      rcases hst with hst | ⟨_, _, _, hst⟩
      · cases hst
      · cases hst

end Clockwork
