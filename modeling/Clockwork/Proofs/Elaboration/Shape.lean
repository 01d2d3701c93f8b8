import Clockwork.Proofs.Combs.Wiring
import Clockwork.Proofs.Elaboration.Faults
import Clockwork.Proofs.Tree.Branch
/-!
The shape of the tree that an elaboration makes. An instance is added with free fields, each field
that is to hold an instance gets a new branch, and connections leave the shape alone.
-/

namespace Clockwork

open Clockwork.Tree

namespace Elaboration

variable {t₀ t t₁ t' : Tree} {e : Elaboration} {id index room c : Nat} {fields : List Field}
  {f : Field}

/-- The tree `t` while the fields of an instance from `index` on are still to be built; `t₀` is the
tree as the instance was added to it. -/
structure Growing (t₀ t : Tree) (id index room : Nat) (fields : List Field) : Prop where
  closed : t.Closed
  size : id < t.size
  branch : t.Branch id room
  free : ∀ i, index ≤ i → t.child? ⟨id, i⟩ = none
  names : ∀ (i : Nat) f, fields[i]? = some f → t.name? ⟨id, i⟩ = some f.name
  agrees : Agrees id t₀ t
  parent : (t.inst id).parent = (t₀.inst id).parent
  path : (t.inst id).path = (t₀.inst id).path

namespace Growing

theorem alike (h : Growing t₀ t id index room fields) (ha : t.Alike t') :
    Growing t₀ t' id index room fields where
  closed := h.closed.alike ha
  size := ha.size ▸ h.size
  branch := h.branch.alike ha
  free i hi := (ha.child _).trans (h.free i hi)
  names i f hf := (ha.agrees.name ⟨id, i⟩ h.size).trans (h.names i f hf)
  agrees := h.agrees.trans (ha.agrees.mono (Nat.le_of_lt h.size))
  parent := (ha.agrees.parent id h.size).trans h.parent
  path := (ha.agrees.path id h.size).trans h.path

theorem next (h : Growing t₀ t id index room fields) : Growing t₀ t id (index + 1) room fields :=
  { h with free := fun i hi => h.free i (Nat.le_of_succ_le hi) }

theorem plant (h : Growing t₀ t id index (room + 1) fields) (hf : fields[index]? = some f)
    (hp : t.Planted t₁ c room (some id) ((t.inst id).path ++ "." ++ f.name)) :
    Growing t₀ (t₁.setStorage ⟨id, index⟩ (.component c)) id (index + 1) (room + 1) fields where
  closed := hp.closed_setStorage _
  size := by
    rw [size_setStorage]
    exact Nat.lt_trans (hp.place ▸ h.size) hp.size
  branch := h.branch.plant (f := ⟨id, index⟩) h.closed hp rfl h.size (h.names index f hf)
    (h.free index (Nat.le_refl _))
  free i hi := by
    have hne : (⟨id, i⟩ : FieldRef) ≠ ⟨id, index⟩ := by
      rintro ⟨⟩
      exact Nat.lt_irrefl _ hi
    rw [t₁.child?_setStorage_of_ne _ hne, hp.agrees.child ⟨id, i⟩ h.size]
    exact h.free i (Nat.le_of_succ_le hi)
  names i f hf := by
    rw [name?_setStorage, hp.agrees.name ⟨id, i⟩ h.size]
    exact h.names i f hf
  agrees := (h.agrees.trans (hp.agrees.mono (Nat.le_of_lt h.size))).trans
    (t₁.agrees_setStorage ⟨id, index⟩ _)
  parent := (t₁.parent_modifySlot _ _ id).trans ((hp.agrees.parent id h.size).trans h.parent)
  path := (t₁.path_modifySlot _ _ id).trans ((hp.agrees.path id h.size).trans h.path)

theorem setStorage (h : Growing t₀ t id index room fields) {st : Storage}
    (hst : ∀ c, st ≠ .component c) :
    Growing t₀ (t.setStorage ⟨id, index⟩ st) id index room fields :=
  h.alike (alike_setStorage (h.free index (Nat.le_refl _)) hst)

end Growing

/-- A way to build instances that adds a branch to the tree. -/
def Plants (room : Nat) (build : Build) : Prop :=
  ∀ e type name parent arguments, e.tree.Closed →
    Ends (fun _ => True)
      (fun r => e.tree.Planted r.1.tree r.2 room parent (pathBelow e.tree name parent))
      (build e type name parent arguments)

theorem buildSignal_growing (h : Growing t₀ e.tree id index room fields) (f : Field)
    (argument : Option Value) (bits : Nat) (signed : Bool) :
    Ends (fun _ => True) (fun e' => Growing t₀ e'.tree id index room fields)
      (e.buildSignal id index f argument bits signed) := by
  refine Ends.of_cases (fun _ _ => trivial) fun e' he' => ?_
  obtain ⟨t, ht, rfl⟩ : ∃ t, e.tree.Alike t ∧
      e' = { e with tree := asSignal t ⟨id, index⟩ bits signed } := by
    rcases buildSignal_eq_ok he' with ⟨-, rfl⟩ | ⟨v, -, rfl⟩
    · exact ⟨_, .refl _, rfl⟩
    · refine ⟨_, ?_, rfl⟩
      exact .of_instances rfl
  have hfree := (ht.child ⟨id, index⟩).trans (h.free index (Nat.le_refl _))
  refine (h.alike ht).alike (alike_modifySlot _ (fun _ => rfl) ?_)
  rw [hfree]
  cases hc : (asSignal t ⟨id, index⟩ bits signed).child? ⟨id, index⟩ with
  | none => exact hc
  | some c =>
      obtain ⟨s, hs, hst⟩ := slot_of_storage? (child?_eq_some.mp hc)
      obtain ⟨_, -, rfl⟩ := (t.slot_modifySlot_self ⟨id, index⟩ _ s).mp hs
      cases hst

theorem buildConstant_growing (h : Growing t₀ e.tree id 0 room fields) (index : Nat) (f : Field)
    (argument : Option Value) :
    Ends (fun _ => True) (fun e' => Growing t₀ e'.tree id 0 room fields)
      (e.buildConstant id index f argument) := by
  have hconst : ∀ v, Growing t₀ (e.setStorage ⟨id, index⟩ (.const v)).tree id 0 room fields :=
    fun v => h.alike (alike_setStorage (h.free index (Nat.zero_le _)) (by simp))
  simp only [buildConstant]
  split
  · exact hconst _
  · exact (Ends.either _).bind fun v _ => hconst v
  · exact hconst _

theorem buildField_growing {build : Build} (hbuild : Plants room build)
    (h : Growing t₀ e.tree id index (room + 1) fields) (hf : fields[index]? = some f)
    (argument : Option Value) :
    Ends (fun _ => True) (fun e' => Growing t₀ e'.tree id (index + 1) (room + 1) fields)
      (e.buildField build id index f argument) := by
  have hsignal : ∀ bits signed, Ends (fun _ => True)
      (fun e' => Growing t₀ e'.tree id (index + 1) (room + 1) fields)
      (e.buildSignal id index f argument bits signed) := fun bits signed =>
    (buildSignal_growing h f argument bits signed).mono fun _ => Growing.next
  have hstorage : ∀ (e₁ : Elaboration) (st : Storage), (∀ c, st ≠ .component c) →
      e₁.tree = e.tree.setStorage ⟨id, index⟩ st →
      Growing t₀ e₁.tree id (index + 1) (room + 1) fields := by
    intro e₁ st hst htree
    rw [htree]
    exact (h.setStorage hst).next
  simp only [buildField]
  split
  · rename_i type _
    refine (Ends.either (e.fieldWidth id f)).bind fun width _ => ?_
    have hchild : Ends (fun _ => True)
        (fun e' => Growing t₀ e'.tree id (index + 1) (room + 1) fields)
        (e.fieldArguments id f >>= fun arguments =>
          build e f.type f.name (some id) arguments >>= fun r =>
            .ok (r.1.setStorage ⟨id, index⟩ (.component r.2))) := by
      refine (Ends.either _).bind fun arguments _ => ?_
      exact (hbuild e f.type f.name (some id) arguments h.closed).bind fun r hr => h.plant hf hr
    cases type with
    | int bits signed =>
        dsimp only
        split
        · trivial
        · exact hsignal _ _
    | enum name variants => exact hsignal _ _
    | string => exact hsignal _ _
    | component c => exact hchild
    | «external» c name => exact hchild
    | _ =>
        cases argument <;> dsimp only
        all_goals
          try split
          all_goals first
            | trivial
            | exact hstorage _ _ (by simp) rfl
  · trivial

theorem buildNext_tree {P : Nat → Tree → Prop} (test : Field → Bool)
    {step : Elaboration → Nat → Field → Option Value → Except ElabError Elaboration}
    (arguments : List (String × Value)) (hnext : ∀ k t, P k t → P (k + 1) t)
    (hstep : ∀ (e : Elaboration) k f argument, fields[k]? = some f → P k e.tree →
      Ends (fun _ => True) (fun e' => P (k + 1) e'.tree) (step e k f argument))
    {k : Nat} (hf : fields[k]? = some f) (h : P k e.tree) : P (k + 1)
      (if test f then e.attempt (step e k f (arguments.lookup f.name)) else e).tree := by
  split
  · have hends := hstep e k f (arguments.lookup f.name) hf h
    cases hbuilt : step e k f (arguments.lookup f.name) with
    | ok e' =>
        rw [hbuilt] at hends
        exact hends
    | error x => exact hnext k _ h
  · exact hnext k _ h

theorem buildEach_tree {P : Nat → Tree → Prop} (test : Field → Bool)
    {step : Elaboration → Nat → Field → Option Value → Except ElabError Elaboration}
    (arguments : List (String × Value)) (hnext : ∀ k t, P k t → P (k + 1) t)
    (hstep : ∀ (e : Elaboration) k f argument, fields[k]? = some f → P k e.tree →
      Ends (fun _ => True) (fun e' => P (k + 1) e'.tree) (step e k f argument))
    {rest : List Field} {k : Nat} (hrest : ∀ i : Nat, fields[k + i]? = rest[i]?)
    (h : P k e.tree) : P (k + rest.length) ((rest.zipIdx k).foldl (fun e (f, index) =>
      if test f then e.attempt (step e index f (arguments.lookup f.name)) else e) e).tree := by
  induction rest generalizing k e with
  | nil => exact h
  | cons f rest ih =>
      rw [List.zipIdx_cons, List.foldl_cons, List.length_cons, Nat.add_comm rest.length,
        ← Nat.add_assoc]
      refine ih (k := k + 1) (fun i => ?_) ?_
      · have hi := hrest (i + 1)
        rwa [List.getElem?_cons_succ, ← Nat.add_assoc, Nat.add_right_comm] at hi
      · exact buildNext_tree test arguments hnext hstep (hrest 0) h

theorem buildFields_tree {P : Nat → Tree → Prop} {test : Field → Bool}
    {step : Elaboration → Nat → Field → Option Value → Except ElabError Elaboration}
    (arguments : List (String × Value)) (hnext : ∀ k t, P k t → P (k + 1) t)
    (hstep : ∀ (e : Elaboration) k f argument, fields[k]? = some f → P k e.tree →
      Ends (fun _ => True) (fun e' => P (k + 1) e'.tree) (step e k f argument))
    (h : P 0 e.tree) : P fields.length (buildFields test step fields arguments e).tree := by
  have hall := buildEach_tree test arguments hnext hstep (k := 0)
    (fun i => by rw [Nat.zero_add]) h
  rwa [Nat.zero_add] at hall

theorem constants_growing (h : Growing t₀ e.tree id 0 room fields)
    (arguments : List (String × Value)) :
    Growing t₀ (buildFields Field.isConst
      (fun e => e.buildConstant id) fields arguments e).tree id 0
      room fields :=
  buildFields_tree (P := fun _ t => Growing t₀ t id 0 room fields) arguments
    (fun _ _ h => h) (fun _ k f argument _ h => buildConstant_growing h k f argument) h

theorem withFields_growing {build : Build} (hbuild : Plants room build)
    (h : Growing t₀ e.tree id 0 (room + 1) fields) (arguments : List (String × Value)) :
    Growing t₀ (withFields build id fields arguments e).tree id fields.length (room + 1) fields :=
  buildFields_tree (P := fun k t => Growing t₀ t id k (room + 1) fields) arguments
    (fun _ _ => Growing.next) (fun _ _ _ argument hf h => buildField_growing hbuild h hf argument)
    (constants_growing h arguments)

theorem addInstance_growing (he : e.tree.Closed) (room : Nat) (name path : String)
    (parent : Option Nat)
    (c : Component) (line : List Component) (functions : List Function)
    (arguments : List (String × Value)) {e₁ : Elaboration}
    (h : e.addInstance name path parent c line fields functions arguments = (e₁, id)) :
    id = e.tree.size ∧ Agrees e.tree.size e.tree e₁.tree ∧ (e₁.tree.inst id).parent = parent ∧
      (e₁.tree.inst id).path = path ∧ Growing e₁.tree e₁.tree id 0 (room + 1) fields := by
  have hopened := openSlots_opened e.tree fields
  simp only [addInstance, noteUnknown_tree] at h
  generalize openSlots e.tree fields = slots at h hopened
  obtain ⟨t, slots⟩ := slots
  obtain ⟨rfl, rfl⟩ := Prod.mk.inj h
  clear h
  dsimp only at hopened ⊢
  generalize hi : Instance.mk name path c.name parent slots.toArray _ _ _ _ = i
  obtain ⟨hname, hparent, hfields⟩ : i.path = path ∧ i.parent = parent ∧ i.fields = slots.toArray :=
    hi ▸ ⟨rfl, rfl, rfl⟩
  have hsize : t.size = e.tree.size := congrArg Array.size hopened.instances
  have hopen : ∀ s ∈ i.fields.toList, s.storage = .unbound := by
    rw [hfields]
    exact hopened.unbound
  have hold : e.tree.Alike t := .of_instances hopened.instances
  change t.size = _ ∧ _ ∧ ((t.add i).1.inst t.size).parent = _ ∧
    ((t.add i).1.inst t.size).path = _ ∧
    Growing _ _ t.size 0 _ _
  rw [t.inst_add_self i]
  refine ⟨hsize, hold.agrees.trans (hsize ▸ Agrees.add t i), hparent, hname, ?_⟩
  refine ⟨(he.alike hold).add hopen, ?_, Branch.add t hopen room, fun k _ => ?_, fun k f hf => ?_,
    .refl _ _, rfl, rfl⟩
  · rw [size_add]
    exact Nat.lt_succ_self _
  · rw [t.child?_add hopen]
    cases hc : t.child? ⟨t.size, k⟩ with
    | none => rfl
    | some c => exact absurd (lt_size_of_child? hc) (Nat.lt_irrefl _)
  · have hk := congrArg (·[k]?) hopened.names
    rw [name?, t.inst_add_self i, hfields]
    simpa [hf] using hk

theorem instantiate_plants (outside : Table String Value) (room : Nat) (above : List String) :
    Plants room (instantiate outside room above) := by
  induction room generalizing above with
  | zero =>
      intro e type name parent arguments _
      refine Ends.of_cases (fun _ _ => trivial) fun r hr => ?_
      obtain ⟨c, -, hr⟩ := bind_eq_ok hr
      split at hr <;> cases hr
  | succ room ih =>
      intro e type name parent arguments he
      refine Ends.of_cases (fun _ _ => trivial) fun ⟨e', id⟩ hr => ?_
      obtain ⟨c, fields, line, functions, e₁, -, -, -, -, -, hadd, rfl⟩ := instantiate_eq_ok hr
      obtain ⟨hid, hagrees, hparent, hpath, hgrowing⟩ :=
        addInstance_growing he room _ _ _ _ _ _ _ hadd
      have hfields := withFields_growing (ih (above ++ [c.name])) hgrowing arguments
      have hplanted : e.tree.Planted
          (withFields (instantiate outside room (above ++ [c.name])) id fields arguments e₁).tree id
          (room + 1) parent (pathBelow e.tree name parent) :=
        ⟨hid, hfields.size, hagrees.trans (hid ▸ hfields.agrees), hfields.closed, hfields.branch,
          hfields.parent.trans hparent, hfields.path.trans hpath⟩
      exact (hplanted.alike (Connected.withTops outside id parent _).tree).alike
        (Connected.applyBinds _ id _).tree

end Elaboration

namespace Tree

/-- A tree as an elaboration makes it. -/
structure WellFormed (t : Tree) : Prop where
  rooted : root < t.size
  parent : ∀ id < t.size, (t.inst id).parent = none ↔ id = root
  held : ∀ id < t.size, id ≠ root → ∃ f, t.Holds f id ∧ ∀ g, t.child? g = some id → g = f
  /-- A field holds only an instance that was made after its own. -/
  children : ∀ f id, t.child? f = some id → f.owner < id ∧ id < t.size
  bound : ∀ d, ∀ f ∈ t.targets d, (∃ s, t.SignalAt d s) ∧ ∃ s, t.SignalAt f s
  /-- What follows a field, directly or through others, is a signal. -/
  driven : ∀ d, ∀ f ∈ Wiring.driven t d, f = d ∨ ∃ s, t.SignalAt f s

theorem mem_drivenFrom {t : Tree} {P : FieldRef → Prop} (hP : ∀ d, ∀ f ∈ t.targets d, P f)
    {room : Nat} {work seen : List FieldRef} (hseen : ∀ f ∈ seen, P f) :
    ∀ f ∈ Wiring.drivenFrom t room work seen, P f := by
  induction room generalizing work seen with
  | zero => exact hseen
  | succ room ih =>
      cases work with
      | nil => exact hseen
      | cons g work =>
          refine ih fun f hf => ?_
          rcases List.mem_append.mp hf with hf | hf
          · exact hseen f hf
          · exact hP g f (List.mem_of_mem_filter (mem_firsts.mp hf))

end Tree

open Elaboration

/-- An elaboration that ends well makes a well-formed tree. -/
theorem elaborated_tree_wellFormed {types : TypeTable} {objects : Objects} {top : String}
    {values : Table String Value} {settings : ElabSettings} {r : Elaborated} {log : List LogRecord}
    (h : elaborate types objects top values settings = (.ok r, log)) : r.tree.WellFormed := by
  have hends := (elaborate_run h).ends fun _ => rfl
  obtain ⟨e, id, hbuilt, htree, -⟩ := elaborate_eq_ok h
  have hempty : ∀ f, Tree.empty.child? f = none := fun _ => rfl
  have hplants := instantiate_plants values (settings.maxDepth + 1) []
    { ofTypes types with objects := objects } (.ref top) top none [] fun f c hc => by cases hc
  rw [hbuilt, Ends, ← htree] at hplants
  obtain ⟨rfl, hsize, -, hclosed, hbranch, hparent, -⟩ := hplants
  have hheld : ∀ id < r.tree.size, id ≠ root →
      ∃ f, r.tree.Holds f id ∧ ∀ g, r.tree.child? g = some id → g = f :=
    fun id hid hne => hbranch.held id (Nat.pos_of_ne_zero hne) hid
  refine ⟨hsize, fun id hid => ⟨fun hnone => ?_, ?_⟩, hheld, fun f id hf => ?_, hends,
    fun d f hf => ?_⟩
  · by_contra hne
    obtain ⟨f, hf, -⟩ := hheld id hid hne
    rw [hf.parent] at hnone
    cases hnone
  · rintro rfl
    exact hparent
  · have hid := hclosed f id hf
    obtain ⟨f₀, hf₀, honly⟩ := hheld id hid (Nat.ne_of_gt (hbranch.child f id (Nat.zero_le _) hf))
    rw [honly f hf]
    exact ⟨hf₀.before, hid⟩
  · refine mem_drivenFrom (P := fun f => f = d ∨ ∃ s, r.tree.SignalAt f s)
      (fun d f hf => .inr (hends d f hf).2) (fun f hf => ?_) f hf
    exact .inl (List.mem_singleton.mp hf)

/-- The root gives its register `x` to `i` of `mid`, which passes it on to `i` of its `leaf`. -/
def chainDesign : TypeTable :=
  ⟨[⟨"Leaf", .component { Component.ofName "Leaf" with
      body := { Body.ofName "Leaf" with
        fields := [{ Field.ofType "i" (.int 8 false) with direction := some .input }] } }⟩,
    ⟨"Mid", .component { Component.ofName "Mid" with
      body := { Body.ofName "Mid" with
        fields := [{ Field.ofType "i" (.int 8 false) with direction := some .input },
          .ofType "leaf" (.ref "Leaf")] }
      binds := [⟨.childField 1 0, .ownField 0⟩] }⟩,
    ⟨"Top", .component { Component.ofName "Top" with
      body := { Body.ofName "Top" with
        fields := [{ Field.ofType "x" (.int 8 false) with initial := some (.int 5) },
          .ofType "mid" (.ref "Mid")] }
      binds := [⟨.childField 1 0, .ownField 0⟩] }⟩], by decide⟩

namespace Tree

def startOf (t : Tree) (f : FieldRef) : Option (Nat × Bool × Int) :=
  match t.slot f.owner f.index with
  | .ok s =>
    match s.storage, t.initial f s with
    | .signal, .int n => some (s.width, s.signed, n)
    | _, _ => none
  | .error _ => none

theorem signal_of_startOf {t : Tree} {f : FieldRef} {bits : Nat} {signed : Bool} {n : Int}
    (h : t.startOf f = some (bits, signed, n)) :
    ∃ s, t.SignalAt f s ∧ s.width = bits ∧ s.signed = signed ∧ t.initial f s = .int n := by
  unfold startOf at h
  split at h
  · rename_i s hs
    split at h
    · rename_i n' hst hn
      cases h
      exact ⟨s, ⟨hs, hst⟩, rfl, rfl, hn⟩
    · cases h
  · cases h

def drivers (t : Tree) (target : FieldRef) : List FieldRef :=
  (t.bindings.entries.filter fun e => e.2.contains target).map (·.1)

theorem mem_drivers {t : Tree} {d target : FieldRef} (h : target ∈ t.targets d) :
    d ∈ t.drivers target := by
  simp only [targets, Table.get?] at h
  cases hfind : t.bindings.entries.find? fun e => decide (e.1 = d) with
  | none => simp [hfind] at h
  | some e =>
      rw [hfind] at h
      have hkey : e.1 = d := by simpa using List.find?_some hfind
      refine List.mem_map.mpr ⟨e, List.mem_filter.mpr ⟨List.mem_of_find?_eq_some hfind, ?_⟩, hkey⟩
      simpa using h

end Tree

theorem chain_elaboration : ∃ r log,
    elaborate chainDesign .empty "Top" .empty .standard = (.ok r, log) ∧
      ⟨2, 0⟩ ∈ r.tree.targets ⟨1, 0⟩ ∧ r.tree.drivers ⟨2, 0⟩ = [⟨1, 0⟩] ∧
      r.tree.startOf ⟨1, 0⟩ = some (8, false, 5) ∧ r.tree.startOf ⟨2, 0⟩ = some (8, false, 0) := by
  have hchecked : ((elaborate chainDesign .empty "Top" .empty .standard).1.toOption.map fun r =>
      decide (⟨2, 0⟩ ∈ r.tree.targets ⟨1, 0⟩ ∧ r.tree.drivers ⟨2, 0⟩ = [⟨1, 0⟩] ∧
        r.tree.startOf ⟨1, 0⟩ = some (8, false, 5) ∧
        r.tree.startOf ⟨2, 0⟩ = some (8, false, 0))) = some true := by
    decide +kernel
  cases hr : elaborate chainDesign .empty "Top" .empty .standard with
  | mk r log =>
      rw [hr] at hchecked
      cases r with
      | error errors => cases hchecked
      | ok r => exact ⟨r, log, rfl, of_decide_eq_true (Option.some.inj hchecked)⟩

theorem elaborated_tree_wellFormed_chain : ∃ r log,
    elaborate chainDesign .empty "Top" .empty .standard = (.ok r, log) ∧ r.tree.WellFormed := by
  obtain ⟨r, log, hr, -⟩ := chain_elaboration
  exact ⟨r, log, hr, elaborated_tree_wellFormed hr⟩

end Clockwork
