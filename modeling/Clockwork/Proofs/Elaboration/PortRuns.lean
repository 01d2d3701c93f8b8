import Clockwork.Proofs.Elaboration.PortSteps

namespace Clockwork.Elaboration

variable {known : Prop} {e e₁ e' : Elaboration} {new : FieldRef → Prop} {f : FieldRef} {id : Nat}

def Within (id : Nat) (f : FieldRef) : Prop := id ≤ f.owner

theorem endpoint_within (he : e.Sane known) {x : Expr} {p : Endpoint} (h : e.endpoint id x = .ok p)
    (hf : p.place? = some f) : Within id f :=
  Endpoint.place?_resolve he.downward (endpoint_eq_ok h) hf

theorem endpoint_known (he : e.Sane known) {x : Expr} {v : Value}
    (h : e.endpoint id x = .ok (.value v)) : known → v.Known e.objects.interfaces.size :=
  fun hk => Endpoint.value_resolve (he.tree_known hk) (endpoint_eq_ok h)

theorem fieldExpr_known (he : e.Sane known) {field : Field} {x : Expr} {v : Value}
    (h : e.fieldExpr id field x = .ok v) : known → v.Known e.objects.interfaces.size := by
  intro hk
  simp only [fieldExpr] at h
  split at h
  · rename_i w hw
    cases h
    exact Tree.structural_known (he.tree_known hk) x hw
  · cases h

def AllKnown (known : Prop) (e : Elaboration) (values : List (String × Value)) : Prop :=
  known → ∀ x ∈ values, x.2.Known e.objects.interfaces.size

theorem AllKnown.mono {values : List (String × Value)} (h : AllKnown known e values)
    (hle : e.objects.interfaces.size ≤ e'.objects.interfaces.size) : AllKnown known e' values :=
  fun hk x hx => (h hk x hx).mono hle

theorem fieldArguments_known (he : e.Sane known) {field : Field}
    {arguments : List (String × Value)} (h : e.fieldArguments id field = .ok arguments) :
    AllKnown known e arguments := by
  intro hk x hx
  obtain ⟨⟨name, y⟩, -, hy⟩ := (mem_of_mapM_ok h).mp hx
  obtain ⟨v, hv, hy⟩ := bind_eq_ok hy
  cases hy
  exact fieldExpr_known he hv hk

theorem AllKnown.lookup {values : List (String × Value)} (h : AllKnown known e values)
    {name : String} {v : Value} (hv : values.lookup name = some v) :
    known → v.Known e.objects.interfaces.size := by
  intro hk
  obtain ⟨l₁, l₂, rfl, -⟩ := List.lookup_eq_some_iff.mp hv
  exact h hk (name, v) (by simp)

theorem slot_storage {s : FieldSlot} (h : e.slot f = .ok s) :
    e.tree.storage? f = some s.storage :=
  Tree.storage?_of_slot (slot_eq_ok h)

namespace PortSteps

theorem bindWithin (he : e.Sane known) (hw : Within id f) {s : FieldSlot} (hs : e.slot f = .ok s)
    (hst : s.storage = .unbound) {v : Value} (hv : known → v.Known e.objects.interfaces.size) :
    PortSteps known (Within id) e (e.bindObject f v) := by
  refine (bind he ?_ hv).mono ?_
  · rw [slot_storage hs, hst]
  · rintro g rfl
    exact hw

theorem fault (he : e.Sane known) (error : ElabError) : PortSteps known new e (e.fault error) :=
  same he rfl rfl rfl fun _ _ => rfl

theorem record (hs : PortSteps known new e e') (target source : String) :
    PortSteps known new e (e'.record target source) :=
  hs.trans (same hs.sane rfl rfl rfl fun _ _ => rfl)

theorem setInitial (he : e.Sane known) (f : FieldRef) (s : FieldSlot) (v : Value) :
    PortSteps known new e (e.setInitial f s v) := same he rfl rfl rfl fun _ _ => rfl

theorem attempt (he : e.Sane known) {r : Except ElabError Elaboration}
    (h : ∀ e', r = .ok e' → PortSteps known new e e') : PortSteps known new e (e.attempt r) := by
  cases r with
  | ok e' => exact h e' rfl
  | error error => exact fault he error

theorem foldl {α : Type} {step : Elaboration → α → Elaboration}
    (hstep : ∀ e x, e.Sane known → PortSteps known new e (step e x)) (l : List α)
    (he : e.Sane known) : PortSteps known new e (l.foldl step e) := by
  induction l generalizing e with
  | nil => exact refl he
  | cons x l ih =>
      have hx := hstep e x he
      exact hx.trans (ih hx.sane)

theorem connectSignals (he : e.Sane known) {l r : FieldRef} {ls rs : FieldSlot}
    (h : e.connectSignals id l r ls rs = .ok e') : PortSteps known new e e' := by
  have hbind : ∀ d t, (e.tree.bind d t).instances = e.tree.instances := by
    intro d t
    simp only [Tree.bind]
    split <;> rfl
  simp only [Elaboration.connectSignals] at h
  split at h
  all_goals
    split at h
    · cases h
    · cases h
      exact same he (hbind _ _) rfl rfl fun _ _ => rfl

theorem connectFields (he : e.Sane known) {l r : FieldRef} (hl : Within id l) (hr : Within id r)
    (h : e.connectFields id l r = .ok e') : PortSteps known (Within id) e e' := by
  obtain ⟨ls, hls, h⟩ := bind_eq_ok h
  obtain ⟨rs, hrs, h⟩ := bind_eq_ok h
  split at h
  · exact connectSignals he h
  · cases h
    exact setInitial he l ls _
  · rename_i hsl hsr
    cases h
    refine (link he (by rw [slot_storage hls, hsl]) (by rw [slot_storage hrs, hsr])).mono ?_
    rintro g (rfl | rfl)
    · exact hl
    · exact hr
  · rename_i hsl hsr
    cases h
    exact bindWithin he hl hls hsl (fits_object.mp (he.fits r _ (by rw [slot_storage hrs, hsr])))
  · rename_i hsl hsr
    cases h
    exact bindWithin he hr hrs hsr (fits_object.mp (he.fits l _ (by rw [slot_storage hls, hsl])))
  · rename_i hsl _
    cases h
    exact bindWithin he hl hls hsl fun _ => .obj (by simp)
  · cases h

theorem connect (he : e.Sane known) {source : Endpoint} (hf : Within id f)
    (hsource : ∀ g, source.place? = some g → Within id g)
    (hvalue : ∀ v, source = .value v → known → v.Known e.objects.interfaces.size)
    (h : e.connect id f source = .ok e') : PortSteps known (Within id) e e' := by
  obtain ⟨s, c, hs, rfl, hcase⟩ := connect_eq_ok h
  refine record ?_ _ _
  rcases hcase with ⟨r, rfl, hc⟩ | ⟨owner, name, rfl, hst, rfl⟩ | ⟨v, rfl, hst, rfl⟩ |
    ⟨v, rfl, hst, rfl⟩
  · exact connectFields he hf (hsource r rfl) hc
  · exact bindWithin he hf hs hst fun _ => .obj (by simp)
  · exact setInitial he f s v
  · exact bindWithin he hf hs hst (hvalue v rfl)

theorem mapRegions (he : e.Sane known) {entries : Expr} (h : e.mapRegions id f entries = .ok e') :
    PortSteps known new e e' := by
  obtain ⟨s, -, h⟩ := bind_eq_ok h
  dsimp only at h
  split at h
  · cases h
    refine foldl (fun e x he => attempt he fun e' h => ?_) _ he
    obtain ⟨⟨base, backing⟩, -, h⟩ := bind_eq_ok h
    dsimp only at h
    split at h
    · cases h
    · cases h
    · cases h
      exact same he rfl rfl rfl fun _ _ => rfl
  · cases h

theorem hookEvent (he : e.Sane known) {callback : Expr} (h : e.hookEvent id f callback = .ok e') :
    PortSteps known new e e' := by
  obtain ⟨s, -, h⟩ := bind_eq_ok h
  dsimp only at h
  split at h
  · obtain ⟨p, -, h⟩ := bind_eq_ok h
    split at h
    · cases h
      exact same he rfl rfl rfl fun _ _ => rfl
    · cases h
  · cases h

theorem addMember (he : e.Sane known) (hf : Within id f) {name : String} {v : Value}
    (h : e.addMember id f name v = .ok e') : PortSteps known (Within id) e e' := by
  obtain ⟨s, hs, h⟩ := bind_eq_ok h
  dsimp only at h
  split at h
  · rename_i hst
    cases h
    have hobjects : PortSteps known (Within id) e
        { e with objects := (e.objects.addInterface (Table.empty.insert name v)).1 } :=
      same he rfl rfl rfl fun i hi => e.objects.interfaces_addInterface_of_lt _ hi
    refine hobjects.trans (bindWithin hobjects.sane hf hs hst fun _ => .obj fun i hi => ?_)
    cases hi
    simp [Objects.addInterface]
  · rename_i i hst
    cases h
    exact extend he (interface?_eq_some.mpr (by rw [slot_storage hs, hst])) name v
  · cases h

theorem applyBind (he : e.Sane known) {b : Bind} (h : e.applyBind id b = .ok e') :
    PortSteps known (Within id) e e' := by
  simp only [Elaboration.applyBind] at h
  split at h
  · cases h
  obtain ⟨p, hp, h⟩ := bind_eq_ok h
  cases p with
  | field target =>
      obtain ⟨source, hsource, h⟩ := bind_eq_ok h
      refine connect he (endpoint_within he hp rfl) (fun g => endpoint_within he hsource) ?_ h
      rintro v rfl
      exact endpoint_known he hsource
  | member g name =>
      dsimp only at h
      split at h
      · exact mapRegions he h
      · split at h
        · exact hookEvent he h
        · simp only [connectMember] at h
          split at h
          · cases h
          · obtain ⟨source, -, h⟩ := bind_eq_ok h
            obtain ⟨v, -, h⟩ := bind_eq_ok h
            obtain ⟨c, hc, h⟩ := bind_eq_ok h
            cases h
            exact (addMember he (endpoint_within he hp rfl) hc).record _ _
  | method owner name => cases h
  | value v => cases h

theorem applyBinds (he : e.Sane known) (id : Nat) (binds : List Bind) :
    PortSteps known (Within id) e (e.applyBinds id binds) :=
  foldl (fun _ _ he => attempt he fun _ h => applyBind he h) _ he

theorem bindTop (he : e.Sane known) {name : String} {v : Value}
    (hv : known → v.Known e.objects.interfaces.size) (h : e.bindTop id name v = .ok e') :
    PortSteps known (Within id) e e' := by
  simp only [Elaboration.bindTop] at h
  split at h
  · cases h
  · rename_i index _
    obtain ⟨s, hs, h⟩ := bind_eq_ok h
    cases hst : s.storage <;> simp only [hst] at h
    case signal =>
      cases h
      exact (setInitial he _ s v).record _ _
    case unbound =>
      cases h
      have hroot : Within id ⟨id, index⟩ := Nat.le_refl id
      exact (bindWithin he hroot hs hst hv).record _ _
    all_goals cases h

theorem bindTops (he : e.Sane known) {outside : Table String Value}
    (hout : AllKnown known e outside.entries) : PortSteps known (Within id) e
      (e.bindTops id outside) := by
  rw [Elaboration.bindTops]
  generalize outside.entries = l at hout
  induction l generalizing e with
  | nil => exact refl he
  | cons x l ih =>
      obtain ⟨name, v⟩ := x
      have hx : PortSteps known (Within id) e (e.attempt (e.bindTop id name v)) :=
        attempt he fun _ h => bindTop he (fun hk => hout hk (name, v) (by simp)) h
      exact hx.trans (ih hx.sane (AllKnown.mono (fun hk y hy => hout hk y (by simp [hy]))
        hx.interfaces))

theorem withTops (he : e.Sane known) {outside : Table String Value}
    (hout : AllKnown known e outside.entries) (id : Nat) (parent : Option Nat) :
    PortSteps known (Within id) e (withTops outside id parent e) := by
  rw [Elaboration.withTops]
  split
  · exact bindTops he hout
  · exact refl he

theorem buildConstant (he : e.Sane known) {index : Nat} (hf : e.Vacant ⟨id, index⟩) {field : Field}
    {argument : Option Value}
    (harg : ∀ v, argument = some v → known → v.Known e.objects.interfaces.size)
    (h : e.buildConstant id index field argument = .ok e') :
    PortSteps known (· = ⟨id, index⟩) e e' := by
  obtain ⟨v, hv, rfl⟩ : ∃ v, (known → v.Known e.objects.interfaces.size) ∧
      e' = e.setStorage ⟨id, index⟩ (.const v) := by
    simp only [Elaboration.buildConstant] at h
    split at h
    · cases h
      exact ⟨_, harg _ rfl, rfl⟩
    · obtain ⟨v, hv, h⟩ := bind_eq_ok h
      cases h
      exact ⟨v, fieldExpr_known he hv, rfl⟩
    · cases h
      exact ⟨_, fun _ => .int 0, rfl⟩
  exact built he hf (fits_const.mpr hv) rfl rfl rfl rfl

theorem buildSignal (he : e.Sane known) {index : Nat} (hf : e.Vacant ⟨id, index⟩) {field : Field}
    {argument : Option Value} {bits : Nat} {signed : Bool}
    (h : e.buildSignal id index field argument bits signed = .ok e') :
    PortSteps known (· = ⟨id, index⟩) e e' := by
  obtain ⟨t, ht, rfl⟩ : ∃ t, t.instances = e.tree.instances ∧
      e' = { e with tree := asSignal t ⟨id, index⟩ bits signed } := by
    rcases buildSignal_eq_ok h with ⟨-, rfl⟩ | ⟨v, -, rfl⟩
    · exact ⟨_, rfl, rfl⟩
    · refine ⟨_, ?_, rfl⟩
      rfl
  have hst := Tree.storage?_congr ht
  refine changed he hf rfl (fun _ _ => rfl) ?_ ?_ (fun hp => absurd hp hf.1) ?_ rfl
  · exact (t.size_modifySlot _ _).trans (congrArg Array.size ht)
  · exact fun g hg => (t.storage?_modifySlot_of_ne _ hg).trans (hst g)
  · intro st hst'
    obtain ⟨s, hs, rfl⟩ := Tree.slot_of_storage? hst'
    obtain ⟨s₀, -, rfl⟩ := (t.slot_modifySlot_self ⟨id, index⟩ _ s).mp hs
    trivial

/-- What building an instance does once there are `n` interfaces: its fields and those of instances
below it are new. -/
def Builds (known : Prop) (n : Nat) (build : Build) : Prop :=
  ∀ e type name parent arguments e' child, e.Sane known → n ≤ e.objects.interfaces.size →
    AllKnown known e arguments → build e type name parent arguments = .ok (e', child) →
    PortSteps known (Within e.tree.size) e e' ∧ child = e.tree.size

theorem buildField {build : Build} {n : Nat} (hbuild : Builds known n build)
    (he : e.Sane known) (hn : n ≤ e.objects.interfaces.size) {index : Nat}
    (hf : e.Vacant ⟨id, index⟩) {field : Field} {argument : Option Value}
    (harg : ∀ v, argument = some v → known → v.Known e.objects.interfaces.size)
    (h : e.buildField build id index field argument = .ok e') :
    PortSteps known (Below id index) e e' := by
  have hown : ∀ {e₁ : Elaboration}, PortSteps known (· = ⟨id, index⟩) e e₁ →
      PortSteps known (Below id index) e e₁ := fun hs => hs.mono fun _ => .inl
  have hobject : ∀ v {e₁ : Elaboration}, (known → v.Known e.objects.interfaces.size) →
      e₁.tree = e.tree.setStorage ⟨id, index⟩ (.object v) →
      e₁.links = e.links → e₁.declared = e.declared →
      e₁.objects.interfaces = e.objects.interfaces → PortSteps known (Below id index) e e₁ :=
    fun v _ hv ht hl hd ho => hown (built he hf (fits_object.mpr hv) ht hl hd ho)
  have hchild : ∀ arguments c, e.fieldArguments id field = .ok arguments →
      build e field.type field.name (some id) arguments = .ok c →
      PortSteps known (Below id index) e (c.1.setStorage ⟨id, index⟩ (.component c.2)) := by
    intro arguments c ha hb
    obtain ⟨hs, hc⟩ := hbuild e _ _ _ _ c.1 c.2 he hn (fieldArguments_known he ha) hb
    have hlt : id < e.tree.size := hf.lt_size
    have hv := hs.vacant ⟨id, index⟩ (Nat.not_le_of_lt hlt) hf
    have hset :
        PortSteps known (· = ⟨id, index⟩) c.1 (c.1.setStorage ⟨id, index⟩ (.component c.2)) := by
      exact built hs.sane hv (hc ▸ hlt) rfl rfl rfl rfl
    exact (hs.mono fun g hg => .inr (Nat.lt_of_lt_of_le hlt hg)).trans (hset.mono fun _ => .inl)
  simp only [Elaboration.buildField] at h
  split at h
  case h_2 => cases h
  rename_i type htype
  obtain ⟨_, hpure, h⟩ := bind_eq_ok h
  cases hpure
  obtain ⟨width, -, h⟩ := bind_eq_ok h
  cases type with
  | int bits signed =>
      dsimp only at h
      split at h
      · cases h
      · exact hown (buildSignal he hf h)
  | enum name variants => exact hown (buildSignal he hf h)
  | string => exact hown (buildSignal he hf h)
  | component c =>
      obtain ⟨arguments, ha, h⟩ := bind_eq_ok h
      obtain ⟨c, hb, h⟩ := bind_eq_ok h
      cases h
      exact hchild arguments c ha hb
  | «external» c name =>
      obtain ⟨arguments, ha, h⟩ := bind_eq_ok h
      obtain ⟨c, hb, h⟩ := bind_eq_ok h
      cases h
      exact hchild arguments c ha hb
  | _ =>
      cases argument with
      | some v =>
          cases h
          exact hobject _ (fun hk => narrow_known (harg v rfl hk) _) rfl rfl rfl rfl
      | none =>
          dsimp only at h
          all_goals try split at h
          all_goals cases h
          all_goals first
            | exact hobject _ (fun _ => .obj fun i hi => by cases hi) rfl rfl rfl rfl
            | exact hown (opened he hf _)

/-- The fields of an instance that satisfy a test, and all those of instances below. -/
def Tested (test : Field → Bool) (fields : List Field) (id : Nat) (g : FieldRef) : Prop :=
  id < g.owner ∨ (g.owner = id ∧ ∃ field, fields[g.index]? = some field ∧ test field = true)

theorem buildFields {test : Field → Bool}
    {step : Elaboration → Nat → Field → Option Value → Except ElabError Elaboration} {n : Nat}
    (hstep : ∀ e index field argument e', e.Sane known → n ≤ e.objects.interfaces.size →
      e.Vacant ⟨id, index⟩ →
      (∀ v, argument = some v → known → v.Known e.objects.interfaces.size) →
      step e index field argument = .ok e' → PortSteps known (Below id index) e e')
    {fields : List Field} {arguments : List (String × Value)} (he : e.Sane known)
    (hn : n ≤ e.objects.interfaces.size) (harg : AllKnown known e arguments)
    (hv : ∀ index field, fields[index]? = some field → test field = true →
      e.Vacant ⟨id, index⟩) :
    PortSteps known (Tested test fields id) e (buildFields test step fields arguments e) := by
  have hall : ∀ (l : List Field) (start : Nat) (e : Elaboration), e.Sane known →
      n ≤ e.objects.interfaces.size → AllKnown known e arguments →
      (∀ j, l[j]? = fields[start + j]?) →
      (∀ j field, l[j]? = some field → test field = true → e.Vacant ⟨id, start + j⟩) →
      PortSteps known (Tested test fields id) e
        ((l.zipIdx start).foldl (fun e x =>
          if test x.1 then e.attempt (step e x.2 x.1 (arguments.lookup x.1.name)) else e) e) := by
    intro l
    induction l with
    | nil => exact fun _ _ he _ _ _ _ => refl he
    | cons field l ih =>
        intro start e he hn harg hl hv
        have hshift : ∀ j, start + (j + 1) = start + 1 + j := fun j => by omega
        have htail : ∀ j, l[j]? = fields[start + 1 + j]? := fun j => by
          rw [← hshift, ← hl, List.getElem?_cons_succ]
        rw [List.zipIdx_cons, List.foldl_cons]
        dsimp only
        split
        · rename_i htest
          have hself := hv 0 field rfl htest
          have hs : PortSteps known (Below id start) e
              (e.attempt (step e start field (arguments.lookup field.name))) :=
            attempt he fun e' h =>
              hstep e start field _ e' he hn hself (fun v hlook => harg.lookup hlook) h
          refine (hs.mono ?_).trans (ih (start + 1) _ hs.sane (Nat.le_trans hn hs.interfaces)
            (harg.mono hs.interfaces) htail ?_)
          · rintro g (rfl | hbelow)
            · exact .inr ⟨rfl, field, (hl 0).symm, htest⟩
            · exact .inl hbelow
          · -- The fields that come later are left alone.
            intro j field' hj htest'
            refine hs.vacant _ ?_ (hshift j ▸ hv (j + 1) field' hj htest')
            rintro (heq | hbelow)
            · have hindex := (FieldRef.mk.inj heq).2
              omega
            · exact Nat.lt_irrefl id hbelow
        · exact ih (start + 1) e he hn harg htail fun j field' hj htest' =>
            hshift j ▸ hv (j + 1) field' hj htest'
  exact hall fields 0 e he hn harg (fun j => by rw [Nat.zero_add]) fun j field hj htest => by
    rw [Nat.zero_add]
    exact hv j field hj htest

theorem buildConstants (he : e.Sane known) {fields : List Field} {arguments : List (String × Value)}
    (harg : AllKnown known e arguments)
    (hv : ∀ index field, fields[index]? = some field → e.Vacant ⟨id, index⟩) :
    PortSteps known (Tested Field.isConst fields id) e
      (Elaboration.buildFields Field.isConst (fun e => e.buildConstant id) fields arguments e) :=
  buildFields (fun _ _ _ _ _ he _ hv harg h => (buildConstant he hv harg h).mono fun _ => .inl) he
    (Nat.zero_le _) harg fun index field hf _ => hv index field hf

theorem vacant_of_constants {fields : List Field} {index : Nat} {field : Field}
    (hs : PortSteps known (Tested Field.isConst fields id) e e') (hf : fields[index]? = some field)
    (hconst : field.isConst = false) (hv : e.Vacant ⟨id, index⟩) : e'.Vacant ⟨id, index⟩ := by
  refine hs.vacant _ ?_ hv
  rintro (hlt | ⟨-, field', hf', hconst'⟩)
  · exact Nat.lt_irrefl id hlt
  · obtain rfl := Option.some.inj (hf.symm.trans hf')
    rw [hconst] at hconst'
    cases hconst'

theorem Tested.within {test : Field → Bool} {fields : List Field} {g : FieldRef}
    (h : Tested test fields id g) : Within id g := by
  rcases h with hlt | ⟨heq, -⟩
  · exact Nat.le_of_lt hlt
  · exact Nat.le_of_eq heq.symm

theorem withFields {build : Build} {n : Nat} (hbuild : Builds known n build) (he : e.Sane known)
    (hn : n ≤ e.objects.interfaces.size) {fields : List Field}
    {arguments : List (String × Value)} (harg : AllKnown known e arguments)
    (hv : ∀ index field, fields[index]? = some field → e.Vacant ⟨id, index⟩) :
    PortSteps known (Within id) e (withFields build id fields arguments e) := by
  have hconsts := buildConstants he harg hv
  refine (hconsts.mono fun _ => Tested.within).trans (PortSteps.mono (buildFields
    (fun _ _ _ _ _ he hn hv harg h => buildField hbuild he hn hv harg h) hconsts.sane
    (Nat.le_trans hn hconsts.interfaces) (harg.mono hconsts.interfaces) ?_) fun _ => Tested.within)
  intro index field hf htest
  exact vacant_of_constants hconsts hf (by simpa using htest) (hv index field hf)

/-- An instance is added whose fields are all to be built. -/
theorem add (he : e.Sane known) {t : Tree} (ht : t.instances = e.tree.instances) {i : Instance}
    (hi : ∀ s ∈ i.fields, s.storage = .unbound) :
    PortSteps known (fun _ => False) e { e with tree := (t.add i).1 } := by
  have hsize : t.size = e.tree.size := congrArg Array.size ht
  have hst : ∀ g, (t.add i).1.storage? g =
      if g.owner = e.tree.size then i.fields[g.index]?.map FieldSlot.storage
      else e.tree.storage? g := by
    intro g
    rw [t.storage?_add, hsize, Tree.storage?_congr ht]
  have hnew : ∀ g st, g.owner = e.tree.size → (t.add i).1.storage? g = some st →
      st = .unbound := by
    intro g st hg hgst
    rw [hst, if_pos hg] at hgst
    obtain ⟨s, hs, rfl⟩ := Option.map_eq_some_iff.mp hgst
    exact hi s (Array.mem_of_getElem? hs)
  have hfresh : ∀ g, g.owner = e.tree.size → e.Fresh g := fun g hg =>
    ⟨he.absent g (Nat.le_of_eq hg.symm), fun st hgst =>
      absurd (Tree.lt_size_of_storage? hgst) (Nat.not_lt_of_le (Nat.le_of_eq hg.symm))⟩
  have hadded : (t.add i).1.size = e.tree.size + 1 := by
    rw [← hsize]
    simp [Tree.add, Tree.size]
  refine other ⟨rfl, ?_, fun _ _ => rfl, fun g hg hp => absurd hp hg.1, fun _ _ => rfl⟩
    ⟨?_, he.links, ?_⟩ ?_ ?_
  · intro g hg
    exact (hst g).trans (if_neg fun howner => hg (hfresh g howner))
  · intro g st hg
    by_cases howner : g.owner = e.tree.size
    · cases hnew g _ howner hg
      trivial
    · rw [hst, if_neg howner] at hg
      exact he.fits g st hg
  · intro g hg
    refine he.absent g ?_
    rw [hadded] at hg
    omega
  · rw [hadded]
    exact Nat.le_succ _
  · intro g _ hg
    exact ⟨hg.1, (hst g).trans ((if_neg (Nat.ne_of_lt hg.lt_size)).trans hg.2)⟩

/-- All fields of a new instance are still to be built. -/
theorem addInstance (he : e.Sane known) (name path : String) (parent : Option Nat) (c : Component)
    (line : List Component) (fields : List Field) (functions : List Function)
    (arguments : List (String × Value))
    (h : e.addInstance name path parent c line fields functions arguments = (e', id)) :
    PortSteps known (fun _ => False) e e' ∧ id = e.tree.size ∧
      ∀ index field, fields[index]? = some field → e'.Vacant ⟨id, index⟩ := by
  have hfaults : ∀ (l : List (String × Value)) (e : Elaboration), ∃ errors,
      (l.foldl (fun e b =>
        if b.1 ∈ fields.map Field.name then e else e.fault (.unknownField path b.1)) e) =
        { e with errors := errors } := by
    intro l
    induction l with
    | nil => exact fun e => ⟨e.errors, rfl⟩
    | cons x l ih =>
        intro e
        rw [List.foldl_cons]
        split
        · exact ih e
        · exact ih (e.fault _)
  obtain ⟨errors, herrors⟩ := hfaults arguments e
  simp only [Elaboration.addInstance, herrors] at h
  have hopened := openSlots_opened e.tree fields
  obtain ⟨rfl, rfl⟩ := Prod.mk.inj h
  have hsize : (openSlots e.tree fields).1.instances.size = e.tree.size :=
    congrArg Array.size hopened.instances
  have hnoted : PortSteps known (fun _ => False) e { e with errors := errors } :=
    same he rfl rfl rfl fun _ _ => rfl
  refine ⟨hnoted.trans (add hnoted.sane hopened.instances ?_), hsize, ?_⟩
  · intro s hs
    exact hopened.unbound s (by simpa using hs)
  · intro index field hfield
    have hlength := congrArg List.length hopened.names
    rw [List.length_map, List.length_map] at hlength
    have hlt : index < (openSlots e.tree fields).2.length := by
      rw [hlength]
      exact (List.getElem?_eq_some_iff.mp hfield).1
    refine ⟨he.absent _ (Nat.le_of_eq hsize.symm), ?_⟩
    refine ((Tree.storage?_add _ _ _).trans (if_pos rfl)).trans ?_
    simp [List.getElem?_eq_getElem hlt, hopened.unbound _ (List.getElem_mem hlt)]

theorem instantiate {outside : Table String Value} {n : Nat}
    (hout : known → ∀ x ∈ outside.entries, x.2.Known n) (room : Nat) (above : List String) :
    Builds known n (instantiate outside room above) := by
  induction room generalizing above with
  | zero =>
      intro e type name parent arguments e' id _ _ _ h
      obtain ⟨c, -, h⟩ := bind_eq_ok h
      split at h <;> cases h
  | succ room ih =>
      intro e type name parent arguments e' id he hn harg h
      obtain ⟨c, fields, line, functions, e₁, -, -, -, -, -, hadd, rfl⟩ := instantiate_eq_ok h
      obtain ⟨hnew, rfl, hv⟩ := addInstance he _ _ _ _ _ _ _ _ hadd
      have hfields := withFields (ih (above ++ [c.name])) hnew.sane
        (Nat.le_trans hn hnew.interfaces) (harg.mono hnew.interfaces) hv
      have hto : PortSteps known (Within e.tree.size) e e₁ := hnew.mono fun _ => False.elim
      have hbuilt := hto.trans hfields
      have htops := withTops hbuilt.sane (fun hk x hx =>
        (hout hk x hx).mono (Nat.le_trans hn hbuilt.interfaces)) e.tree.size parent
      have hbinds := applyBinds htops.sane e.tree.size (line.flatMap Component.binds)
      exact ⟨hbuilt.trans (htops.trans hbinds), rfl⟩

end PortSteps

end Clockwork.Elaboration
