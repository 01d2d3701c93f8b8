import Mathlib.Data.List.Induction
import Clockwork.Elaboration.Design
import Clockwork.Proofs.Elaboration.Connections

namespace Clockwork

namespace Interner

theorem name?_intern_self (t : Interner) (name : String) :
    (t.intern name).1.name? (t.intern name).2 = some name := by
  simp only [intern, id?]
  split
  · rename_i id hid
    obtain ⟨hlt, hname, -⟩ := Array.findIdx?_eq_some_iff_getElem.mp hid
    rw [name?, Array.getElem?_eq_getElem hlt, beq_iff_eq.mp hname]
  · simp [name?]

theorem name?_intern {t : Interner} {id : Nat} {name : String} (h : t.name? id = some name)
    (name' : String) : (t.intern name').1.name? id = some name := by
  simp only [intern]
  split
  · exact h
  · obtain ⟨hlt, -⟩ := Array.getElem?_eq_some_iff.mp h
    rw [name?, Array.getElem?_push_lt hlt, ← Array.getElem?_eq_getElem hlt]
    exact h

end Interner

theorem TypeTable.appendFields_nodup {type : String} {fields rest all : List Field}
    (h : appendFields type fields rest = .ok all) (hf : (fields.map Field.name).Nodup) :
    (all.map Field.name).Nodup := by
  induction rest generalizing fields with
  | nil =>
      cases h
      exact hf
  | cons f rest ih =>
      simp only [appendFields] at h
      split at h
      · cases h
      · rename_i hnew
        refine ih h ?_
        rw [List.map_append, List.map_singleton]
        exact List.nodup_append.mpr ⟨hf, by simp, by
          rintro a ha b hb rfl
          exact hnew (List.mem_singleton.mp hb ▸ ha)⟩

theorem TypeTable.allFields_nodup {t : TypeTable} {b : Body} {fields : List Field}
    (h : t.allFields b = .ok fields) : (fields.map Field.name).Nodup := by
  simp only [allFields] at h
  split at h
  · cases h
  · exact appendFields_nodup h (by simp)

namespace Elaboration

structure Opened (t : Tree) (fields : List Field) (r : Tree × List FieldSlot) : Prop where
  instances : r.1.instances = t.instances
  signals : r.1.signals = t.signals
  bindings : r.1.bindings = t.bindings
  names : r.2.map FieldSlot.name = fields.map Field.name
  keyed : ∀ s ∈ r.2, r.1.names.name? s.key = some s.name
  unbound : ∀ s ∈ r.2, s.storage = .unbound

theorem openSlots_opened (t : Tree) (fields : List Field) :
    Opened t fields (openSlots t fields) := by
  induction fields using List.reverseRecOn with
  | nil => exact ⟨rfl, rfl, rfl, rfl, by simp [openSlots], by simp [openSlots]⟩
  | append_singleton fields f ih =>
      have hstep : openSlots t (fields ++ [f]) =
          (((openSlots t fields).1.key f.name).1, (openSlots t fields).2 ++
            [⟨f.name, ((openSlots t fields).1.key f.name).2, f.kind, f.direction, 0, false,
              .unbound⟩]) := by
        simp [openSlots]
      rw [hstep]
      refine ⟨ih.instances, ih.signals, ih.bindings, by simp [ih.names], ?_, ?_⟩
      · intro s hs
        rcases List.mem_append.mp hs with hs | hs
        · exact Interner.name?_intern (ih.keyed s hs) f.name
        · rw [List.mem_singleton.mp hs]
          exact Interner.name?_intern_self _ _
      · intro s hs
        rcases List.mem_append.mp hs with hs | hs
        · exact ih.unbound s hs
        · rw [List.mem_singleton.mp hs]

theorem Opened.keys {t : Tree} {fields : List Field} {r : Tree × List FieldSlot}
    (h : Opened t fields r) (hf : (fields.map Field.name).Nodup) {j k : Nat} {sj sk : FieldSlot}
    (hj : r.2[j]? = some sj) (hk : r.2[k]? = some sk) (hkey : sj.key = sk.key) : j = k := by
  have hname : sj.name = sk.name := by
    have hsj := h.keyed sj (List.mem_of_getElem? hj)
    rw [hkey, h.keyed sk (List.mem_of_getElem? hk)] at hsj
    exact (Option.some.inj hsj).symm
  rw [← h.names] at hf
  have hlt : j < (r.2.map FieldSlot.name).length := by
    rw [List.length_map]
    exact (List.getElem?_eq_some_iff.mp hj).1
  refine (List.getElem?_inj hlt hf).mp ?_
  rw [List.getElem?_map, List.getElem?_map, hj, hk, Option.map_some, Option.map_some, hname]

theorem noteUnknown_tree (names : List String) (path : String) (l : List (String × Value))
    (e : Elaboration) : (l.foldl (fun e b =>
      if b.1 ∈ names then e else e.fault (.unknownField path b.1)) e).tree = e.tree := by
  induction l generalizing e with
  | nil => rfl
  | cons x l ih =>
      rw [List.foldl_cons, ih]
      split <;> rfl

structure Added (e : Elaboration) (fields : List Field) (r : Elaboration × Nat) : Prop where
  quiet : Quiet (fun _ => False) e r.1
  id : r.2 = e.tree.size
  size : r.2 < r.1.tree.size
  fields : (r.1.tree.inst r.2).fields.size = fields.length

theorem addInstance_added {e : Elaboration} (he : e.tree.Sound) (name path : String)
    (parent : Option Nat) (c : Component) (line : List Component) {fields : List Field}
    (functions : List Function) (arguments : List (String × Value))
    (hf : (fields.map Field.name).Nodup) :
    Added e fields (e.addInstance name path parent c line fields functions arguments) := by
  have hfaults := fun l e => noteUnknown_tree (fields.map Field.name) path l e
  have hopened := openSlots_opened e.tree fields
  have hopen : e.tree.Extends (fun _ => False) (openSlots e.tree fields).1 :=
    Tree.extends_of_instances hopened.instances (by rw [hopened.signals]) fun id => by
      rw [Tree.signalsOf, hopened.signals, Tree.signalsOf]
  have hkeep : e.tree.Keeps (openSlots e.tree fields).1 := by
    refine ⟨?_, hopened.bindings⟩
    intro f s _
    rw [Tree.initial, Tree.initial, Tree.signalsOf, Tree.signalsOf, hopened.signals]
  simp only [addInstance, hfaults]
  refine ⟨⟨hopen.trans (Tree.add_extends _ _ ?_ ?_), hkeep.trans hopen (Tree.add_keeps _ _ ?_)⟩,
    ?_, ?_, ?_⟩
  · intro j k sj sk hj hk hkey
    simp only [List.getElem?_toArray] at hj hk
    exact hopened.keys hf hj hk hkey
  · intro j s hs
    simp only [List.getElem?_toArray] at hs
    rw [hopened.unbound s (List.mem_of_getElem? hs)]
    simp
  · exact hopen.sound he
  · simp [Tree.add, Tree.size, hopened.instances]
  · simp [Tree.add, Tree.size]
  · have hlength := congrArg List.length hopened.names
    simpa [Tree.inst, Tree.add] using hlength

def fieldsHistory (test : Field → Bool)
    (step : Elaboration → Nat → Field → Option Value → Except ElabError Elaboration)
    (history : Elaboration → Nat → Field → Option Value → History) (fields : List Field)
    (arguments : List (String × Value)) (e : Elaboration) : History :=
  historyAlong
    (fun e (f, index) =>
      if test f then e.attempt (step e index f (arguments.lookup f.name)) else e)
    (fun e (f, index) =>
      if test f then history e index f (arguments.lookup f.name) else [])
    e fields.zipIdx

def fieldHistory (build : Build)
    (inner : Elaboration → DataType → String → Option Nat → List (String × Value) → History)
    (e : Elaboration) (id index : Nat) (f : Field) (argument : Option Value) : History :=
  match e.buildField build id index f argument, e.types.resolve f.type, e.fieldArguments id f with
  | .ok _, .ok (.component _), .ok arguments => inner e f.type f.name (some id) arguments
  | .ok _, .ok (.external _ _), .ok arguments => inner e f.type f.name (some id) arguments
  | _, _, _ => []

def OpenFrom (e : Elaboration) (id index : Nat) : Prop :=
  ∀ i s, index ≤ i → ¬ e.tree.SignalAt ⟨id, i⟩ s

/-- The fields that may become signals while a field of an instance is built: that field, and
those of instances below. -/
def Below (id index : Nat) (g : FieldRef) : Prop := g = ⟨id, index⟩ ∨ id < g.owner

theorem OpenFrom.next {e e' : Elaboration} {id index : Nat} (h : e.OpenFrom id index)
    (hs : e.tree.Extends (Below id index) e'.tree) : e'.OpenFrom id (index + 1) := by
  intro i s hi hsignal
  rcases hs.fresh _ s hsignal with hold | hnew | hbelow
  · exact h i s (by omega) hold
  · obtain ⟨-, rfl⟩ := FieldRef.mk.inj hnew
    omega
  · exact absurd hbelow (Nat.lt_irrefl id)

/-- An instance under construction whose field at some position is the next one. -/
structure Building (e : Elaboration) (id index : Nat) : Prop where
  sound : e.tree.Sound
  size : id < e.tree.size
  open' : e.OpenFrom id index

theorem Building.start {e e' : Elaboration} (he : e.tree.Sound)
    (hquiet : Quiet (fun _ => False) e e') (hsize : e.tree.size < e'.tree.size) :
    e'.Building e.tree.size 0 := by
  refine ⟨hquiet.tree.sound he, hsize, ?_⟩
  intro i s _ hsignal
  rcases hquiet.tree.fresh _ s hsignal with hold | hfalse
  · exact Nat.lt_irrefl _ (Tree.slot_lt_size hold.1)
  · exact hfalse

theorem Building.next {e e' : Elaboration} {id index : Nat} (h : e.Building id index)
    (hs : e.tree.Extends (Below id index) e'.tree) : e'.Building id (index + 1) :=
  ⟨hs.sound h.sound, Nat.lt_of_lt_of_le h.size hs.size, h.open'.next hs⟩

theorem fields_steps {test : Field → Bool}
    {step : Elaboration → Nat → Field → Option Value → Except ElabError Elaboration}
    {history : Elaboration → Nat → Field → Option Value → History} {id : Nat}
    (hstep : ∀ e index f argument, e.Building id index →
      index < (e.tree.inst id).fields.size → test f = true →
      Steps (Below id index) e (history e index f argument)
        (e.attempt (step e index f argument)))
    {fields : List Field} (arguments : List (String × Value)) {e : Elaboration}
    (he : e.Building id 0) (hfields : (e.tree.inst id).fields.size = fields.length) :
    Steps (fun g => id ≤ g.owner) e (fieldsHistory test step history fields arguments e)
      (buildFields test step fields arguments e) := by
  rw [fieldsHistory, buildFields]
  have hroom : 0 + fields.length ≤ (e.tree.inst id).fields.size := by omega
  clear hfields
  generalize 0 = index at he hroom ⊢
  induction fields generalizing e index with
  | nil => exact (Quiet.refl _ e).steps
  | cons f fields ih =>
      rw [List.length_cons] at hroom
      have hf : Steps (Below id index) e
          (if test f then history e index f (arguments.lookup f.name) else [])
          (if test f then e.attempt (step e index f (arguments.lookup f.name)) else e) := by
        split
        · rename_i htest
          exact hstep e index f _ he (by omega) htest
        · exact (Quiet.refl _ e).steps
      have hnext := ih (index + 1) (he.next hf.tree) (by rw [hf.tree.fields id he.size]; omega)
      rw [List.zipIdx_cons, List.foldl_cons, historyAlong]
      refine (hf.mono ?_).trans hnext
      rintro g (rfl | hbelow)
      · exact Nat.le_refl _
      · exact Nat.le_of_lt hbelow

theorem OpenFrom.quiet {e e' : Elaboration} {id index : Nat} (h : e.OpenFrom id index)
    (hq : Quiet (fun _ => False) e e') : e'.OpenFrom id index := by
  intro i s hi hsignal
  rcases hq.tree.fresh _ s hsignal with hold | hfalse
  · exact h i s hi hold
  · exact hfalse

theorem buildConstant_quiet {e e' : Elaboration} {id index : Nat} {f : Field}
    {argument : Option Value} (h : e.buildConstant id index f argument = .ok e')
    (hopen : e.OpenFrom id 0) : Quiet (fun _ => False) e e' := by
  obtain ⟨v, rfl⟩ : ∃ v, e' = e.setStorage ⟨id, index⟩ (.const v) := by
    simp only [buildConstant] at h
    split at h
    all_goals
      obtain ⟨v, -, h⟩ := bind_eq_ok h
      cases h
      exact ⟨v, rfl⟩
  exact setStorage_quiet e _ (by simp) fun s => hopen index s (Nat.zero_le _)

theorem constants_quiet {e : Elaboration} {id : Nat} (hopen : e.OpenFrom id 0)
    (fields : List Field) (arguments : List (String × Value)) :
    Quiet (fun _ => False) e
      (buildFields Field.isConst (fun e => e.buildConstant id) fields arguments e) := by
  refine foldl_quiet (P := fun e => e.OpenFrom id 0) (fun _ _ h hq => h.quiet hq) ?_ _ e hopen
  rintro e ⟨f, index⟩ hopen
  dsimp only
  split
  · exact attempt_quiet fun _ h => buildConstant_quiet h hopen
  · exact .refl _ e

def asSignal (t : Tree) (f : FieldRef) (bits : Nat) (signed : Bool) : Tree :=
  t.modifySlot f fun slot => { slot with width := bits, signed := signed, storage := .signal }

/-- A field becomes a signal with nothing to start with, or with a value, which is the argument if
there is one. -/
theorem buildSignal_eq_ok {e e' : Elaboration} {id index : Nat} {f : Field}
    {argument : Option Value}
    {bits : Nat} {signed : Bool} (h : e.buildSignal id index f argument bits signed = .ok e') :
    (argument = none ∧ e' = { e with tree := asSignal e.tree ⟨id, index⟩ bits signed }) ∨
    ∃ v, (∀ w, argument = some w → w = v) ∧ e' = { e with
      tree := asSignal (e.tree.setSignal id ((e.tree.inst id).fields[index]?.getD default).key
        (v.fit bits signed)) ⟨id, index⟩ bits signed } := by
  simp only [buildSignal] at h
  split at h
  · rename_i v
    cases h
    exact .inr ⟨v, by simp, rfl⟩
  · obtain ⟨initial, hinitial, h⟩ := bind_eq_ok h
    cases h
    cases initial with
    | none => exact .inl ⟨rfl, rfl⟩
    | some v => exact .inr ⟨v, by simp, rfl⟩
  · cases h
    exact .inl ⟨rfl, rfl⟩

theorem asSignal_quiet {e : Elaboration} {t : Tree}
    (hq : Quiet (fun _ => False) e { e with tree := t })
    {id index : Nat} (hopen : e.OpenFrom id index) (bits : Nat) (signed : Bool) :
    Quiet (Below id index) e { e with tree := asSignal t ⟨id, index⟩ bits signed } := by
  have hopen' : ∀ s, ¬ t.SignalAt ⟨id, index⟩ s := fun s => hopen.quiet hq index s (Nat.le_refl _)
  have hsignal := Tree.modifySlot_extends t ⟨id, index⟩ (fun slot =>
    { slot with width := bits, signed := signed, storage := .signal }) (fun _ => rfl) hopen'
  refine ⟨(hq.tree.mono fun _ => False.elim).trans (hsignal.mono fun _ => .inl), ?_⟩
  exact hq.keeps.trans hq.tree (t.modifySlot_keeps _ _)

theorem buildSignal_quiet {e e' : Elaboration} {id index : Nat} {f : Field}
    {argument : Option Value} {bits : Nat} {signed : Bool}
    (h : e.buildSignal id index f argument bits signed = .ok e') (he : e.Building id index)
    (hindex : index < (e.tree.inst id).fields.size) : Quiet (Below id index) e e' := by
  have hslot : e.tree.slot id index = .ok (e.tree.inst id).fields[index] := by
    rw [Tree.slot_eq_ok, Array.getElem?_eq_getElem hindex]
  -- The value is stored before the field is a signal; no other signal has its key.
  have hvalue : ∀ v, Quiet (fun _ => False) e { e with
      tree := e.tree.setSignal id ((e.tree.inst id).fields[index]?.getD default).key v } := by
    intro v
    refine ⟨e.tree.setSignal_extends _ _ _, ⟨?_, rfl⟩⟩
    intro g sg hg
    have hne : g ≠ ⟨id, index⟩ := by
      rintro rfl
      exact he.open' index sg (Nat.le_refl _) hg
    rw [Array.getElem?_eq_getElem hindex, Option.getD_some]
    exact Tree.initial_setSignal_of_ne _ (he.sound.key_ne hg.1 hslot hne) _
  rcases buildSignal_eq_ok h with ⟨-, rfl⟩ | ⟨v, -, rfl⟩
  · exact asSignal_quiet (.refl _ e) he.open' bits signed
  · exact asSignal_quiet (hvalue _) he.open' bits signed

theorem buildField_steps {build : Build}
    {inner : Elaboration → DataType → String → Option Nat → List (String × Value) → History}
    (hbuild : ∀ e type name parent arguments e' child, e.tree.Sound →
      build e type name parent arguments = .ok (e', child) →
      Steps (fun g => e.tree.size ≤ g.owner) e (inner e type name parent arguments) e')
    {e e' : Elaboration} {id index : Nat} {f : Field} {argument : Option Value}
    (he : e.Building id index) (hindex : index < (e.tree.inst id).fields.size)
    (h : e.buildField build id index f argument = .ok e') :
    Steps (Below id index) e (fieldHistory build inner e id index f argument) e' := by
  have hok := h
  have hopen : ∀ s, ¬ e.tree.SignalAt ⟨id, index⟩ s := fun s => he.open' index s (Nat.le_refl _)
  have hstorage : ∀ (e₁ : Elaboration) (st : Storage), st ≠ .signal →
      e₁.tree = e.tree.setStorage ⟨id, index⟩ st → Quiet (Below id index) e e₁ := by
    intro e₁ st hst htree
    have hq : Quiet (Below id index) e (e.setStorage ⟨id, index⟩ st) :=
      (setStorage_quiet e _ hst hopen).mono fun _ => False.elim
    exact ⟨htree ▸ hq.tree, htree ▸ hq.keeps⟩
  simp only [buildField] at h
  split at h
  case h_2 => cases h
  rename_i type htype
  obtain ⟨_, hpure, h⟩ := bind_eq_ok h
  cases hpure
  obtain ⟨width, -, h⟩ := bind_eq_ok h
  have hchild : ∀ arguments e₁ child, build e f.type f.name (some id) arguments = .ok (e₁, child) →
      Steps (Below id index) e (inner e f.type f.name (some id) arguments)
        (e₁.setStorage ⟨id, index⟩ (.component child)) := by
    intro arguments e₁ child hb
    have hs := hbuild e _ _ _ _ e₁ child he.sound hb
    have hopen₁ : ∀ s, ¬ e₁.tree.SignalAt ⟨id, index⟩ s := by
      intro s hsignal
      rcases hs.tree.fresh _ s hsignal with hold | hnew
      · exact hopen s hold
      · exact absurd hnew (Nat.not_le_of_lt he.size)
    refine (hs.mono fun g hg => ?_).quiet ?_
    · exact .inr (Nat.lt_of_lt_of_le he.size hg)
    · exact (setStorage_quiet e₁ _ (by simp) hopen₁).mono fun _ => False.elim
  have hquiet : ∀ {h : History}, h = [] → Quiet (Below id index) e e' →
      Steps (Below id index) e h e' := by
    rintro _ rfl hq
    exact hq.steps
  cases type with
  | int bits signed =>
      refine hquiet (by simp [fieldHistory, htype]) ?_
      dsimp only at h
      split at h
      · cases h
      · exact buildSignal_quiet h he hindex
  | enum name variants =>
      exact hquiet (by simp [fieldHistory, htype]) (buildSignal_quiet h he hindex)
  | string => exact hquiet (by simp [fieldHistory, htype]) (buildSignal_quiet h he hindex)
  | component c =>
      obtain ⟨arguments, hargs, h⟩ := bind_eq_ok h
      obtain ⟨⟨e₁, child⟩, hb, h⟩ := bind_eq_ok h
      cases h
      simp only [fieldHistory, hok, htype, hargs]
      exact hchild arguments e₁ child hb
  | «external» c name =>
      obtain ⟨arguments, hargs, h⟩ := bind_eq_ok h
      obtain ⟨⟨e₁, child⟩, hb, h⟩ := bind_eq_ok h
      cases h
      simp only [fieldHistory, hok, htype, hargs]
      exact hchild arguments e₁ child hb
  | _ =>
      refine hquiet (by simp [fieldHistory, htype]) ?_
      cases argument <;> dsimp only at h
      all_goals
        try split at h
        all_goals
          cases h
          try exact hstorage _ _ (by simp) rfl

def pathBelow (t : Tree) (name : String) : Option Nat → String
  | some p => (t.inst p).path ++ "." ++ name
  | none => name

def withFields (build : Build) (id : Nat) (fields : List Field) (arguments : List (String × Value))
    (e : Elaboration) : Elaboration :=
  buildFields (fun f => !f.isConst) (fun e => e.buildField build id) fields arguments
    (buildFields Field.isConst (fun e => e.buildConstant id) fields arguments e)

def withTops (outside : Table String Value) (id : Nat) (parent : Option Nat) (e : Elaboration) :
    Elaboration :=
  if parent.isNone then e.bindTops id outside else e

def withInstance (outside : Table String Value) (build : Build) (e : Elaboration) (name : String)
    (parent : Option Nat) (c : Component) (line : List Component) (fields : List Field)
    (functions : List Function) (arguments : List (String × Value)) : Elaboration × Nat :=
  let (e, id) := e.addInstance name (pathBelow e.tree name parent) parent c line fields functions
    arguments
  ((withTops outside id parent (withFields build id fields arguments e)).applyBinds id
    (line.flatMap Component.binds), id)

theorem instantiate_zero (outside : Table String Value) (above : List String) (e : Elaboration)
    (type : DataType) (name : String) (parent : Option Nat) (arguments : List (String × Value)) :
    instantiate outside 0 above e type name parent arguments =
      componentOf e.types type (pathBelow e.tree name parent) >>= fun c =>
        .error (.recursiveInstance
          ((if c.name ∈ above then above.dropWhile (· ≠ c.name) else above) ++ [c.name])) := by
  cases parent
  all_goals
    refine congrArg (Except.bind _) (funext fun c => ?_)
    dsimp only
    split <;> rfl

theorem instantiate_succ (outside : Table String Value) (room : Nat) (above : List String)
    (e : Elaboration) (type : DataType) (name : String) (parent : Option Nat)
    (arguments : List (String × Value)) :
    instantiate outside (room + 1) above e type name parent arguments =
      componentOf e.types type (pathBelow e.tree name parent) >>= fun c =>
        if c.name ∈ above then
          .error (.recursiveInstance (above.dropWhile (· ≠ c.name) ++ [c.name]))
        else do
          let fields ← (e.types.allFields c.body).mapError
            (.ofDesign (pathBelow e.tree name parent))
          let line ← lineOf e.types c
          let functions ← (e.types.allFunctions c.body).mapError
            (.ofDesign (pathBelow e.tree name parent))
          return withInstance outside (instantiate outside room (above ++ [c.name])) e name parent c
            line fields functions arguments := by
  cases parent
  all_goals
    refine congrArg (Except.bind _) (funext fun c => ?_)
    dsimp only
    split <;> rfl

theorem instantiate_eq_ok {outside : Table String Value} {room : Nat} {above : List String}
    {e e' : Elaboration} {type : DataType} {name : String} {parent : Option Nat}
    {arguments : List (String × Value)} {id : Nat}
    (h : instantiate outside (room + 1) above e type name parent arguments = .ok (e', id)) :
    ∃ c fields line functions e₁,
      componentOf e.types type (pathBelow e.tree name parent) = .ok c ∧ c.name ∉ above ∧
      e.types.allFields c.body = .ok fields ∧ lineOf e.types c = .ok line ∧
      e.types.allFunctions c.body = .ok functions ∧
      e.addInstance name (pathBelow e.tree name parent) parent c line fields functions arguments =
        (e₁, id) ∧
      e' = (withTops outside id parent
        (withFields (instantiate outside room (above ++ [c.name])) id fields
          arguments e₁)).applyBinds
          id (line.flatMap Component.binds) := by
  have mapError_ok : ∀ {α : Type} {x : Except DesignError α} {f : DesignError → ElabError} {a : α},
      x.mapError f = .ok a → x = .ok a := by
    intro α x f a hx
    cases x with
    | ok b =>
        cases hx
        rfl
    | error error => cases hx
  rw [instantiate_succ] at h
  obtain ⟨c, hc, h⟩ := bind_eq_ok h
  split at h
  · cases h
  · rename_i habove
    obtain ⟨fields, hfields, h⟩ := bind_eq_ok h
    obtain ⟨line, hline, h⟩ := bind_eq_ok h
    obtain ⟨functions, hfunctions, h⟩ := bind_eq_ok h
    cases h
    exact ⟨c, fields, line, functions, _, hc, habove, mapError_ok hfields, hline,
      mapError_ok hfunctions, rfl, rfl⟩

def instanceHistory (outside : Table String Value) : (room : Nat) → (above : List String) →
    Elaboration → DataType → String → Option Nat → List (String × Value) → History
  | 0, _, _, _, _, _, _ => []
  | room + 1, above, e, type, name, parent, arguments =>
    let path := pathBelow e.tree name parent
    match componentOf e.types type path with
    | .error _ => []
    | .ok c =>
      match e.types.allFields c.body, lineOf e.types c, e.types.allFunctions c.body with
      | .ok fields, .ok line, .ok functions =>
        let build := instantiate outside room (above ++ [c.name])
        let inner := instanceHistory outside room (above ++ [c.name])
        let (e, id) := e.addInstance name path parent c line fields functions arguments
        let below := fieldsHistory (fun f => !f.isConst) (fun e => e.buildField build id)
          (fun e => e.fieldHistory build inner id) fields arguments
          (buildFields Field.isConst (fun e => e.buildConstant id) fields arguments e)
        let e := withFields build id fields arguments e
        let tops := if parent.isNone then e.topsHistory id outside else []
        below ++ tops ++
          (withTops outside id parent e).bindsHistory id (line.flatMap Component.binds)
      | _, _, _ => []

theorem withFields_steps {build : Build}
    {inner : Elaboration → DataType → String → Option Nat → List (String × Value) → History}
    (hbuild : ∀ e type name parent arguments e' child, e.tree.Sound →
      build e type name parent arguments = .ok (e', child) →
      Steps (fun g => e.tree.size ≤ g.owner) e (inner e type name parent arguments) e')
    {e : Elaboration} {id : Nat} {fields : List Field} (arguments : List (String × Value))
    (he : e.Building id 0) (hfields : (e.tree.inst id).fields.size = fields.length) :
    Steps (fun g => id ≤ g.owner) e
      (fieldsHistory (fun f => !f.isConst) (fun e => e.buildField build id)
        (fun e => e.fieldHistory build inner id) fields arguments
        (buildFields Field.isConst (fun e => e.buildConstant id) fields arguments e))
      (withFields build id fields arguments e) := by
  have hquiet := constants_quiet he.open' fields arguments
  have hbuilding := (⟨hquiet.tree.sound he.sound, Nat.lt_of_lt_of_le he.size hquiet.tree.size,
    he.open'.quiet hquiet⟩ : Building _ id 0)
  have hsize := hquiet.tree.fields id he.size
  refine (hquiet.mono fun _ => False.elim).before ?_
  refine fields_steps ?_ arguments hbuilding (hsize.trans hfields)
  intro e index f argument he hindex _
  refine attempt_steps (fun e' h => buildField_steps hbuild he hindex h) ?_
  intro error h
  simp [fieldHistory, h]

theorem withTops_steps {e : Elaboration} (he : e.tree.Sound) (outside : Table String Value)
    (id : Nat) (parent : Option Nat) :
    Steps (fun _ => False) e (if parent.isNone then e.topsHistory id outside else [])
      (withTops outside id parent e) := by
  rw [withTops]
  split
  · exact bindTops_steps he id outside
  · exact (Quiet.refl _ e).steps

theorem instantiate_steps (outside : Table String Value) (room : Nat) (above : List String)
    (e : Elaboration) (type : DataType) (name : String) (parent : Option Nat)
    (arguments : List (String × Value)) (e' : Elaboration) (id : Nat) (he : e.tree.Sound)
    (h : instantiate outside room above e type name parent arguments = .ok (e', id)) :
    Steps (fun g => e.tree.size ≤ g.owner) e
      (instanceHistory outside room above e type name parent arguments) e' := by
  induction room generalizing above e type name parent arguments e' id with
  | zero =>
      obtain ⟨c, -, h⟩ := bind_eq_ok h
      split at h <;> cases h
  | succ room ih =>
      obtain ⟨c, fields, line, functions, e₁, hc, -, hfields, hline, hfunctions, hadd, rfl⟩ :=
        instantiate_eq_ok h
      have hadded := addInstance_added he name (pathBelow e.tree name parent) parent c line
        functions arguments (TypeTable.allFields_nodup hfields)
      simp only [instanceHistory, hc, hfields, hline, hfunctions, hadd]
      rw [hadd] at hadded
      obtain ⟨hquiet, rfl, hsize, hlength⟩ := hadded
      have hbuilding := Building.start he hquiet hsize
      have hinner := withFields_steps (ih (above ++ [c.name])) arguments hbuilding hlength
      have hsound := hinner.tree.sound hbuilding.sound
      have htops := withTops_steps hsound outside e.tree.size parent
      have hbinds := applyBinds_steps (htops.tree.sound hsound) e.tree.size
        (line.flatMap Component.binds)
      have hnone : ∀ f : FieldRef, False → e.tree.size ≤ f.owner := fun _ => False.elim
      exact (hquiet.mono hnone).before
        ((hinner.trans (htops.mono hnone)).trans (hbinds.mono hnone))

end Elaboration

/-- The occurrences of an elaboration in their order. -/
def elaborationHistory (types : TypeTable) (objects : Objects) (top : String)
    (values : Table String Value) (settings : ElabSettings) : History :=
  Elaboration.instanceHistory values (settings.maxDepth + 1) []
    { Elaboration.ofTypes types with objects := objects } (.ref top) top none []

/-- A design is elaborated as the tree of its root, if no fault is noted. -/
theorem elaborate_eq_ok {types : TypeTable} {objects : Objects} {top : String}
    {values : Table String Value} {settings : ElabSettings} {r : Elaborated}
    {log : List LogRecord} (h : elaborate types objects top values settings = (.ok r, log)) :
    ∃ e id, Elaboration.instantiate values (settings.maxDepth + 1) []
        { Elaboration.ofTypes types with objects := objects } (.ref top) top none [] = .ok (e, id) ∧
      r.tree = e.tree ∧ e.errors = [] := by
  simp only [elaborate] at h
  split at h
  · cases h
  split at h
  · cases h
  · rename_i e id hbuilt
    obtain ⟨hfinish, -⟩ := Prod.mk.inj h
    simp only [Elaboration.finish] at hfinish
    split at hfinish
    · rename_i hnone
      cases hfinish
      refine ⟨e, id, hbuilt, ?_⟩
      simp only [Elaboration.checkTop] at hnone ⊢
      split at hnone
      · simp [Elaboration.fault] at hnone
      · rename_i hcheck
        rw [if_neg hcheck]
        exact ⟨rfl, List.isEmpty_iff.mp hnone⟩
    · cases hfinish

theorem elaborate_run {types : TypeTable} {objects : Objects} {top : String}
    {values : Table String Value} {settings : ElabSettings} {r : Elaborated}
    {log : List LogRecord} (h : elaborate types objects top values settings = (.ok r, log)) :
    Tree.empty.Run (elaborationHistory types objects top values settings) r.tree := by
  obtain ⟨e, id, hbuilt, htree, -⟩ := elaborate_eq_ok h
  rw [htree]
  exact (Elaboration.instantiate_steps values _ [] _ _ _ none [] e id Tree.sound_empty hbuilt).run

end Clockwork
