import Mathlib.Data.List.Induction
import Mathlib.Data.List.Nodup
import Clockwork.Proofs.Design.Lineage

namespace Clockwork

/-- A type refers to a name: it is a reference, or a reference is inside it as the type it inherits
from, that of a field or that of its elements. The owner is the one that a fault is reported for: a
field adds its name to the owner. -/
inductive DataType.Refers : (owner : String) → DataType → (place name : String) → Prop
  | ref {owner name : String} : Refers owner (.ref name) owner name
  | super {owner place name : String} {type s : DataType} {b : Body} (hb : type.body? = some b)
      (hs : b.super? = some s) (h : Refers owner s place name) : Refers owner type place name
  | field {owner place name : String} {type : DataType} {b : Body} {f : Field}
      (hb : type.body? = some b) (hf : f ∈ b.fields)
      (h : Refers (owner ++ "." ++ f.name) f.type place name) : Refers owner type place name
  | element {owner place name : String} {type element : DataType}
      (he : type.element? = some element) (h : Refers owner element place name) :
      Refers owner type place name

def DesignError.IsUnresolved : DesignError → Prop
  | .unresolvedType _ _ => True
  | _ => False

namespace TypeTable

variable {t : TypeTable} {type : DataType} {name : String}

/-- Following a name leads to one that no type has. -/
inductive Astray (t : TypeTable) : String → Prop
  | missing {name : String} (h : t.type? name = none) : t.Astray name
  | follow {name next : String} (h : t.type? name = some (.ref next)) (hnext : t.Astray next) :
      t.Astray name

def Aliases (t : TypeTable) (name next : String) : Prop := t.type? name = some (.ref next)

theorem Astray.not_circular (h : t.Astray name) : ¬ Relation.TransGen t.Aliases name name := by
  induction h with
  | missing hnone =>
      intro hcircle
      obtain ⟨next, hnext, -⟩ := Relation.TransGen.head'_iff.mp hcircle
      rw [Aliases, hnone] at hnext
      cases hnext
  | follow hname _ ih =>
      intro hcircle
      obtain ⟨next, hnext, hback⟩ := Relation.TransGen.head'_iff.mp hcircle
      rw [Aliases, hname] at hnext
      cases hnext
      exact ih (Relation.TransGen.tail' hback hname)

theorem resolveFrom_of_astray (h : t.Astray name) {followed : List String}
    (hfollowed : ∀ x ∈ followed, Relation.TransGen t.Aliases x name) :
    ∃ missing first, t.resolveFrom followed (.ref name) =
    .error (.unresolvedType missing first) := by
  induction h generalizing followed with
  | @missing name hnone =>
      have hnew : name ∉ followed := fun hmem =>
        (Astray.missing hnone).not_circular (hfollowed _ hmem)
      exact ⟨_, _, resolveFrom_of_none hnew hnone⟩
  | @follow name next hname hnext ih =>
      have hnew : name ∉ followed := fun hmem =>
        (hnext.follow hname).not_circular (hfollowed _ hmem)
      rw [resolveFrom_of_some hnew hname]
      refine ih fun x hx => ?_
      rcases List.mem_append.mp hx with hx | hx
      · exact (hfollowed x hx).tail hname
      · rw [List.mem_singleton.mp hx]
        exact .single hname

/-- What cannot be resolved leads nowhere or in a circle. -/
theorem resolveFrom_eq_error {followed : List String} {e : DesignError}
    (h : t.resolveFrom followed type = .error e) :
    (∃ name missing first, type = .ref name ∧ e = .unresolvedType missing first ∧ t.Astray name) ∨
      ∃ names, e = .refCycle names := by
  induction followed, type using resolveFrom.induct t with
  | case1 followed name hmem =>
      rw [resolveFrom_of_mem hmem] at h
      cases h
      exact .inr ⟨_, rfl⟩
  | case2 followed name hmem hnone =>
      rw [resolveFrom_of_none hmem hnone] at h
      cases h
      exact .inl ⟨name, _, _, rfl, rfl, .missing hnone⟩
  | case3 followed name hmem next hnext ih =>
      rw [resolveFrom_of_some hmem hnext] at h
      rcases ih h with ⟨next', missing, first, rfl, he, hastray⟩ | hcircle
      · exact .inl ⟨name, missing, first, rfl, he, .follow hnext hastray⟩
      · exact .inr hcircle
  | case4 followed type hnot =>
      rw [resolveFrom_of_not_ref hnot] at h
      cases h

variable {owner place : String} {e : DesignError}

theorem mem_referenceFaults_ref : e ∈ t.referenceFaults owner (.ref name) ↔
    (t.Astray name ∧ e = .unresolvedType name owner) ∨
      ∃ names, t.resolve (.ref name) = .error (.refCycle names) ∧ e = .refCycle names := by
  have hastray : t.Astray name → ∃ missing first,
      t.resolve (.ref name) = .error (.unresolvedType missing first) :=
    fun h => resolveFrom_of_astray h (by simp)
  rw [referenceFaults]
  split
  · rename_i r hr
    constructor
    · intro hnone
      cases hnone
    · rintro (⟨h, -⟩ | ⟨names, h, -⟩)
      · obtain ⟨_, _, herror⟩ := hastray h
        rw [hr] at herror
        cases herror
      · rw [hr] at h
        cases h
  · rename_i missing first herror
    rcases resolveFrom_eq_error herror with ⟨name', _, _, hname, -, h⟩ | ⟨names, hnames⟩
    · cases hname
      simp [h, herror]
    · cases hnames
  · rename_i error hnot herror
    rcases resolveFrom_eq_error herror with ⟨_, missing, first, -, he, -⟩ | ⟨names, rfl⟩
    · exact absurd he (hnot missing first)
    · constructor
      · intro h
        rw [List.mem_singleton.mp h]
        exact .inr ⟨names, herror, rfl⟩
      · rintro (⟨h, -⟩ | ⟨names', h, rfl⟩)
        · obtain ⟨_, _, herror'⟩ := hastray h
          rw [herror] at herror'
          cases herror'
        · rw [herror] at h
          cases h
          exact List.mem_singleton.mpr rfl

theorem referenceFaults_of_body {b : Body} (h : type.body? = some b) :
    t.referenceFaults owner type = t.bodyFaults owner b := by
  cases type with
  | struct | object =>
      cases h
      rw [referenceFaults]
  | component c | external c =>
      cases c
      cases h
      rw [referenceFaults]
  | _ => cases h

theorem bodyFaults_eq (b : Body) : t.bodyFaults owner b =
    t.superFaults owner b.super? ++ t.fieldFaults owner b.fields := by
  cases b
  rw [bodyFaults]

theorem referenceFaults_of_element {element : DataType} (h : type.element? = some element) :
    t.referenceFaults owner type = t.referenceFaults owner element := by
  cases type <;> cases h <;> rw [referenceFaults]

theorem mem_fieldFaults {fields : List Field} : e ∈ t.fieldFaults owner fields ↔
    ∃ f ∈ fields, e ∈ t.referenceFaults (owner ++ "." ++ f.name) f.type := by
  induction fields with
  | nil => simp [fieldFaults]
  | cons f fields ih =>
      cases f
      simp [fieldFaults, ih]

theorem mem_referenceFaults_of_refers (h : type.Refers owner place name)
    (he : e ∈ t.referenceFaults place (.ref name)) : e ∈ t.referenceFaults owner type := by
  induction h with
  | ref => exact he
  | super hb hs _ ih =>
      rw [referenceFaults_of_body hb, bodyFaults_eq, hs, superFaults]
      exact List.mem_append_left _ (ih he)
  | field hb hf _ ih =>
      rw [referenceFaults_of_body hb, bodyFaults_eq]
      exact List.mem_append_right _ (mem_fieldFaults.mpr ⟨_, hf, ih he⟩)
  | element hel _ ih =>
      rw [referenceFaults_of_element hel]
      exact ih he

theorem exists_refers_of_element {element : DataType} (hel : type.element? = some element)
    (h : ∃ place name, element.Refers owner place name ∧ e ∈ t.referenceFaults place (.ref name)) :
    ∃ place name, type.Refers owner place name ∧ e ∈ t.referenceFaults place (.ref name) := by
  obtain ⟨place, name, hrefers, he⟩ := h
  exact ⟨place, name, .element hel hrefers, he⟩

mutual

theorem refers_of_mem : ∀ (type : DataType) (owner : String), e ∈ t.referenceFaults owner type →
    ∃ place name, type.Refers owner place name ∧ e ∈ t.referenceFaults place (.ref name)
  | .ref name, owner, h => ⟨owner, name, .ref, h⟩
  | .struct b, owner, h =>
      refers_of_mem_body b owner (.struct b) rfl (by rwa [referenceFaults] at h)
  | .object b, owner, h =>
      refers_of_mem_body b owner (.object b) rfl (by rwa [referenceFaults] at h)
  | .component ⟨b, binds, syncs, combs, processes⟩, owner, h =>
    refers_of_mem_body b owner (.component ⟨b, binds, syncs, combs, processes⟩) rfl
      (by rwa [referenceFaults] at h)
  | .external ⟨b, binds, syncs, combs, processes⟩ x, owner, h =>
    refers_of_mem_body b owner (.external ⟨b, binds, syncs, combs, processes⟩ x) rfl
      (by rwa [referenceFaults] at h)
  | .memory element _, owner, h =>
    exists_refers_of_element rfl (refers_of_mem element owner (by rwa [referenceFaults] at h))
  | .channel element _, owner, h =>
    exists_refers_of_element rfl (refers_of_mem element owner (by rwa [referenceFaults] at h))
  | .getEnd element, owner, h =>
    exists_refers_of_element rfl (refers_of_mem element owner (by rwa [referenceFaults] at h))
  | .putEnd element, owner, h =>
    exists_refers_of_element rfl (refers_of_mem element owner (by rwa [referenceFaults] at h))
  | .tuple element _, owner, h =>
    exists_refers_of_element rfl (refers_of_mem element owner (by rwa [referenceFaults] at h))
  | .int _ _, _, h | .string, _, h | .enum _ _, _, h | .protocol _ _, _, h | .lock, _, h
  | .event, _, h | .regFile _ _, _, h | .addressSpace, _, h | .addrHandle, _, h => by
    cases h

theorem refers_of_mem_body : ∀ (b : Body) (owner : String) (type : DataType),
    type.body? = some b → e ∈ t.bodyFaults owner b →
    ∃ place name, type.Refers owner place name ∧ e ∈ t.referenceFaults place (.ref name)
  | ⟨bname, super?, fields, functions⟩, owner, type, hb, h => by
    rw [bodyFaults] at h
    rcases List.mem_append.mp h with h | h
    · obtain ⟨s, rfl, place, name, hrefers, he⟩ := refers_of_mem_super super? owner h
      exact ⟨place, name, .super hb rfl hrefers, he⟩
    · obtain ⟨f, hf, place, name, hrefers, he⟩ := refers_of_mem_fields fields owner h
      exact ⟨place, name, .field hb hf hrefers, he⟩

theorem refers_of_mem_super : ∀ (super? : Option DataType) (owner : String),
    e ∈ t.superFaults owner super? → ∃ s, super? = some s ∧
      ∃ place name, s.Refers owner place name ∧ e ∈ t.referenceFaults place (.ref name)
  | none, _, h => by cases h
  | some s, owner, h => ⟨s, rfl, refers_of_mem s owner (by rwa [superFaults] at h)⟩

theorem refers_of_mem_fields : ∀ (fields : List Field) (owner : String),
    e ∈ t.fieldFaults owner fields → ∃ f ∈ fields, ∃ place name,
      f.type.Refers (owner ++ "." ++ f.name) place name ∧ e ∈ t.referenceFaults place (.ref name)
  | [], _, h => by cases h
  | ⟨fname, type, kind, direction, initial, width, arguments, isConst⟩ :: rest, owner, h => by
    rw [fieldFaults] at h
    rcases List.mem_append.mp h with h | h
    · exact ⟨_, List.mem_cons_self, refers_of_mem type (owner ++ "." ++ fname) h⟩
    · obtain ⟨f, hf, hrefers⟩ := refers_of_mem_fields rest owner h
      exact ⟨f, List.mem_cons_of_mem _ hf, hrefers⟩

end

theorem mem_referenceFaults_iff : e ∈ t.referenceFaults owner type ↔
    ∃ place name, type.Refers owner place name ∧ e ∈ t.referenceFaults place (.ref name) :=
  ⟨refers_of_mem type owner, fun ⟨_, _, h, he⟩ => mem_referenceFaults_of_refers h he⟩

/-- A reference that leads nowhere, by the one that a fault is reported for. -/
def Dangling (t : TypeTable) (place name : String) : Prop :=
  t.Astray name ∧ ∃ n ∈ t.types, n.type.Refers n.name place name

def allFaults (t : TypeTable) : List DesignError :=
  t.types.flatMap fun n => t.referenceFaults n.name n.type ++ t.layoutFaults n.type

theorem unresolvedType_notMem_layoutFaults (type : DataType) (name owner : String) :
    .unresolvedType name owner ∉ t.layoutFaults type := by
  intro h
  simp only [layoutFaults] at h
  split at h
  · cases h
  · split at h
    · cases h
    · cases h
    · rename_i e hnot _
      exact hnot name owner (List.mem_singleton.mp h).symm

theorem mem_allFaults_iff : .unresolvedType name place ∈ t.allFaults ↔ t.Dangling place name := by
  rw [allFaults, List.mem_flatMap]
  constructor
  · rintro ⟨n, hn, h⟩
    rcases List.mem_append.mp h with h | h
    · obtain ⟨place', name', hrefers, h⟩ := mem_referenceFaults_iff.mp h
      rcases mem_referenceFaults_ref.mp h with ⟨hastray, he⟩ | ⟨_, -, he⟩
      · cases he
        exact ⟨hastray, n, hn, hrefers⟩
      · cases he
    · exact absurd h (unresolvedType_notMem_layoutFaults _ _ _)
  · rintro ⟨hastray, n, hn, hrefers⟩
    refine ⟨n, hn, List.mem_append_left _ ?_⟩
    exact mem_referenceFaults_of_refers hrefers (mem_referenceFaults_ref.mpr (.inl ⟨hastray, rfl⟩))

/-- What is kept of a list of faults: for every text one fault. -/
structure Distinct (faults kept : List DesignError) : Prop where
  sub : kept ⊆ faults
  nodup : (kept.map DesignError.message).Nodup
  texts : ∀ e ∈ faults, e.message ∈ kept.map DesignError.message

theorem distinct_distinctFaults (faults : List DesignError) :
    Distinct faults (distinctFaults faults) := by
  induction faults using List.reverseRecOn with
  | nil => exact ⟨List.Subset.refl _, List.nodup_nil, by simp⟩
  | append_singleton faults e ih =>
      have hstep : distinctFaults (faults ++ [e]) =
          if e.message ∈ (distinctFaults faults).map DesignError.message then distinctFaults faults
          else distinctFaults faults ++ [e] := by
        rw [distinctFaults, List.foldl_append]
        rfl
      rw [hstep]
      split
      · rename_i hmem
        refine ⟨List.Subset.trans ih.sub (List.subset_append_left _ _), ih.nodup, fun x hx => ?_⟩
        rcases List.mem_append.mp hx with hx | hx
        · exact ih.texts x hx
        · rw [List.mem_singleton.mp hx]
          exact hmem
      · rename_i hnew
        refine ⟨?_, ?_, fun x hx => ?_⟩
        · exact List.append_subset.mpr ⟨List.Subset.trans ih.sub (List.subset_append_left _ _),
            List.subset_append_right _ _⟩
        · rw [List.map_append, List.map_singleton]
          exact List.nodup_append.mpr ⟨ih.nodup, by simp, fun x hx y hy hxy =>
            hnew (List.mem_singleton.mp hy ▸ hxy ▸ hx)⟩
        · rw [List.map_append, List.map_singleton]
          rcases List.mem_append.mp hx with hx | hx
          · exact List.mem_append_left _ (ih.texts x hx)
          · rw [List.mem_singleton.mp hx]
            exact List.mem_append_right _ (List.mem_singleton.mpr rfl)

theorem distinct_faults (t : TypeTable) : Distinct t.allFaults t.faults :=
  distinct_distinctFaults _

theorem append_ne_append {p q : String} (n : Nat) (hp : n ≤ p.toList.length)
    (hq : n ≤ q.toList.length) (hne : p.toList.take n ≠ q.toList.take n) (x y : String) :
    p ++ x ≠ q ++ y := by
  intro h
  have htake := congrArg (fun s => s.toList.take n) h
  simp only [String.toList_append] at htake
  rw [List.take_append_of_le_length hp, List.take_append_of_le_length hq] at htake
  exact hne htake

/-- Only a reference that leads nowhere has a fault with such a text. -/
theorem eq_unresolvedType_of_message
    (h : e.message = (DesignError.unresolvedType name place).message) :
    ∃ name' place', e = .unresolvedType name' place' := by
  have htext : e.message =
      "unresolved type '" ++ (name ++ ("' referenced by '" ++ (place ++ "'"))) := by
    rw [h]
    show "unresolved type '" ++ name ++ "' referenced by '" ++ place ++ "'" = _
    simp only [String.append_assoc]
  cases e with
  | unresolvedType name' place' => exact ⟨name', place', rfl⟩
  | refCycle chain =>
      exact absurd htext (append_ne_append (p := "unresolved type reference cycle: ") 17
        (by decide) (by decide) (by decide) _ _)
  | duplicateType name' =>
      have htext' : "duplicate type '" ++ name' ++ "'" = _ := htext
      rw [String.append_assoc] at htext'
      exact absurd htext' (append_ne_append 1 (by decide) (by decide) (by decide) _ _)
  | duplicateField type' field =>
      have htext' : "duplicate field '" ++ field ++ "' in type '" ++ type' ++ "'" = _ := htext
      simp only [String.append_assoc] at htext'
      exact absurd htext' (append_ne_append 1 (by decide) (by decide) (by decide) _ _)
  | notAComponent name' =>
      have htext' : "type '" ++ name' ++ "' is not a component" = _ := htext
      rw [String.append_assoc] at htext'
      exact absurd htext' (append_ne_append 1 (by decide) (by decide) (by decide) _ _)
  | unknownType name' =>
      have htext' : "unknown type '" ++ name' ++ "'" = _ := htext
      rw [String.append_assoc] at htext'
      exact absurd htext' (append_ne_append 3 (by decide) (by decide) (by decide) _ _)
  | malformed =>
      have htext' : "invalid design text" ++ "" = _ := htext
      exact absurd htext' (append_ne_append 1 (by decide) (by decide) (by decide) _ _)

theorem Dangling.reported (h : t.Dangling place name) : ∃ place' name', t.Dangling place' name' ∧
    .unresolvedType name' place' ∈ t.faults ∧ (DesignError.unresolvedType name' place').message =
      (DesignError.unresolvedType name place).message := by
  obtain ⟨e, he, hmessage⟩ := List.mem_map.mp
    (t.distinct_faults.texts _ (mem_allFaults_iff.mpr h))
  obtain ⟨name', place', rfl⟩ := eq_unresolvedType_of_message hmessage
  exact ⟨place', name', mem_allFaults_iff.mp (t.distinct_faults.sub he), he, hmessage⟩

/-- All references that lead nowhere are reported if and only if their faults have different
texts. -/
theorem all_reported_iff (t : TypeTable) :
    (∀ place name, t.Dangling place name → .unresolvedType name place ∈ t.faults) ↔
      ∀ place name place' name', t.Dangling place name → t.Dangling place' name' →
        (DesignError.unresolvedType name place).message =
          (DesignError.unresolvedType name' place').message → place = place' ∧ name = name' := by
  constructor
  · intro h place name place' name' hd hd' hmessage
    have hsame := List.inj_on_of_nodup_map t.distinct_faults.nodup (h _ _ hd) (h _ _ hd') hmessage
    cases hsame
    exact ⟨rfl, rfl⟩
  · intro h place name hd
    obtain ⟨place', name', hd', hmem, hmessage⟩ := hd.reported
    obtain ⟨rfl, rfl⟩ := h _ _ _ _ hd' hd hmessage
    exact hmem

def Covers (t : TypeTable) (type : DataType) : Prop :=
  ∀ owner place name, type.Refers owner place name → ¬ t.Astray name

/-- Every reference inside a body leads somewhere. -/
structure CoversBody (t : TypeTable) (b : Body) : Prop where
  super : ∀ s, b.super? = some s → t.Covers s
  fields : ∀ f ∈ b.fields, t.Covers f.type

/-- Every reference inside a registered type leads somewhere. -/
def Complete (t : TypeTable) : Prop := ∀ n ∈ t.types, t.Covers n.type

variable {b : Body}

theorem refers_of_owner (h : type.Refers owner place name) (owner' : String) :
    ∃ place', type.Refers owner' place' name := by
  induction h generalizing owner' with
  | ref => exact ⟨owner', .ref⟩
  | super hb hs _ ih =>
      obtain ⟨place', h⟩ := ih owner'
      exact ⟨place', .super hb hs h⟩
  | field hb hf _ ih =>
      obtain ⟨place', h⟩ := ih _
      exact ⟨place', .field hb hf h⟩
  | element hel _ ih =>
      obtain ⟨place', h⟩ := ih owner'
      exact ⟨place', .element hel h⟩

theorem complete_of_faults (h : t.faults = []) : t.Complete := by
  intro n hn owner place name hrefers hastray
  obtain ⟨place', hrefers'⟩ := refers_of_owner hrefers n.name
  obtain ⟨_, _, -, hmem, -⟩ := Dangling.reported ⟨hastray, n, hn, hrefers'⟩
  rw [h] at hmem
  cases hmem

theorem Covers.body (h : t.Covers type) (hb : type.body? = some b) : t.CoversBody b :=
  ⟨fun _ hs _ _ _ hrefers => h _ _ _ (.super hb hs hrefers),
    fun f hf owner _ _ hrefers => by
      obtain ⟨_, hrefers'⟩ := refers_of_owner hrefers ("" ++ "." ++ f.name)
      exact h "" _ _ (.field hb hf hrefers')⟩

theorem Covers.resolve (ht : t.Complete) (h : t.Covers type) {r : DataType}
    (hr : t.resolve type = .ok r) : t.Covers r := by
  rcases (resolve_eq_ok hr).1 with rfl | ⟨n, hn, rfl⟩
  · exact h
  · exact ht n hn

theorem Covers.resolve_error (h : t.Covers type) (he : t.resolve type = .error e) :
    ¬ e.IsUnresolved := by
  rcases resolveFrom_eq_error he with ⟨name, _, _, rfl, -, hastray⟩ | ⟨names, rfl⟩
  · exact absurd hastray (h "" "" name .ref)
  · exact id

theorem CoversBody.superOf (ht : t.Complete) (h : t.CoversBody b) {s : Body}
    (hs : t.superOf b = .ok (some s)) : t.CoversBody s := by
  obtain ⟨super, type, hsuper, htype, hbody⟩ := superOf_eq_ok hs
  exact ((h.super super hsuper).resolve ht htype).body hbody

theorem CoversBody.superOf_error (h : t.CoversBody b) (he : t.superOf b = .error e) :
    ¬ e.IsUnresolved := by
  simp only [TypeTable.superOf] at he
  split at he
  · cases he
  · rename_i super hsuper
    split at he
    · rename_i herror
      cases he
      exact (h.super super hsuper).resolve_error herror
    · split at he
      · cases he
      · cases he
        exact id

theorem CoversBody.inherits (ht : t.Complete) (h : t.CoversBody b) {a : Body}
    (ha : t.Inherits b a) : t.CoversBody a := by
  induction ha with
  | refl => exact h
  | tail _ hs ih => exact ih.superOf ht hs

theorem CoversBody.lineage_error (ht : t.Complete) (h : t.CoversBody b)
    (he : t.lineage b = .error e) : ¬ e.IsUnresolved := by
  have hclimbs := t.climbs_lineLimit b
  simp only [lineage] at he
  split at he
  · cases he
  · rename_i herror
    cases he
    rw [herror] at hclimbs
    rcases hclimbs.of_error with ⟨a, ha, he⟩ | ⟨names, rfl⟩
    · exact (h.inherits ht ha).superOf_error he
    · exact id

theorem appendFields_error {owner : String} {fields rest : List Field}
    (h : appendFields owner fields rest = .error e) : ¬ e.IsUnresolved := by
  induction rest generalizing fields with
  | nil => cases h
  | cons f rest ih =>
      rw [appendFields] at h
      split at h
      · cases h
        exact id
      · exact ih h

/-- The fields of a body have types whose references lead somewhere, or there is another reason why
there are none. -/
theorem CoversBody.allFields_ends (ht : t.Complete) (h : t.CoversBody b) :
    Ends (fun e => ¬ e.IsUnresolved) (fun fields => ∀ f ∈ fields, t.Covers f.type)
      (t.allFields b) := by
  refine Ends.of_cases (fun e he => ?_) fun fields hfields f hf => ?_
  · rw [allFields] at he
    split at he
    · rename_i herror
      cases he
      exact h.lineage_error ht herror
    · exact appendFields_error he
  · obtain ⟨line, hline, rfl, -⟩ := allFields_eq_ok_iff.mp hfields
    obtain ⟨a, ha, hf⟩ := List.mem_flatMap.mp hf
    exact (h.inherits ht (inherits_of_mem_lineage hline ha)).fields f hf

theorem CoversBody.allFunctions_error (ht : t.Complete) (h : t.CoversBody b)
    (he : t.allFunctions b = .error e) : ¬ e.IsUnresolved := by
  rw [allFunctions] at he
  split at he
  · rename_i herror
    cases he
    exact h.lineage_error ht herror
  · cases he

end TypeTable

end Clockwork
