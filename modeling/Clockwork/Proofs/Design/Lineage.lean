import Mathlib.Data.List.Nodup
import Mathlib.Data.List.Perm.Subperm
import Mathlib.Logic.Relation
import Clockwork.Design.TypeTable
import Clockwork.Proofs.Results

namespace Clockwork

/-- The way from an item up, with nothing that limits it: the items on the way, the last one of
them, and how the way ends. It ends in a circle where a name comes again. -/
inductive Ascends {α ε : Type} (name : α → String) (above : α → Except ε (Option α))
    (circle : List String → ε) : List α → α → Except ε (List α) → Prop
  | fails {line : List α} {a : α} {e : ε} (h : above a = .error e) :
      Ascends name above circle line a (.error e)
  | ends {line : List α} {a : α} (h : above a = .ok none) :
      Ascends name above circle line a (.ok line)
  | meets {line : List α} {a b : α} (h : above a = .ok (some b)) (hb : name b ∈ line.map name) :
      Ascends name above circle line a (.error (circle (line.map name ++ [name b])))
  | goesOn {line : List α} {a b : α} {r : Except ε (List α)} (h : above a = .ok (some b))
      (hb : name b ∉ line.map name) (hr : Ascends name above circle (line ++ [b]) b r) :
      Ascends name above circle line a r

namespace Ascends

variable {α ε : Type} {name : α → String} {above : α → Except ε (Option α)}
  {circle : List String → ε} {line l m r : List α} {a : α}

theorem unique {r r' : Except ε (List α)} (h : Ascends name above circle line a r)
    (h' : Ascends name above circle line a r') : r = r' := by
  induction h with
  | fails hx => cases h' <;> simp_all
  | ends hx => cases h' <;> simp_all
  | meets hx hb => cases h' <;> simp_all
  | goesOn hx hb _ ih =>
      cases h' with
      | goesOn hx' hb' hr' =>
          rw [hx] at hx'
          cases hx'
          exact ih hr'
      | fails hx' | ends hx' =>
          rw [hx] at hx'
          cases hx'
      | meets hx' hb' =>
          rw [hx] at hx'
          cases hx'
          exact absurd hb' hb

theorem dropped (h : Ascends name above circle (l ++ m) a (.ok r)) :
    ∃ r', r = l ++ r' ∧ Ascends name above circle m a (.ok r') := by
  generalize hline : l ++ m = line at h
  generalize hres : (Except.ok r : Except ε (List α)) = res at h
  induction h generalizing m with
  | fails | meets => cases hres
  | ends hx =>
      cases hres
      exact ⟨m, hline.symm, .ends hx⟩
  | @goesOn line a b _ hx hb _ ih =>
      obtain ⟨r', hr', hm⟩ := ih (m := m ++ [b]) (by rw [← hline, List.append_assoc]) hres
      refine ⟨r', hr', .goesOn hx (fun hmem => hb ?_) hm⟩
      rw [← hline, List.map_append]
      exact List.mem_append_right _ hmem

def Next (above : α → Except ε (Option α)) (a b : α) : Prop := above a = .ok (some b)

theorem reaches (h : Ascends name above circle line a (.ok r)) {b : α} (hb : b ∈ r) :
    b ∈ line ∨ Relation.ReflTransGen (Next above) a b := by
  generalize hres : (Except.ok r : Except ε (List α)) = res at h
  induction h with
  | fails | meets => cases hres
  | ends =>
      cases hres
      exact .inl hb
  | goesOn hx _ _ ih =>
      rcases ih hres with hmem | hlater
      · rcases List.mem_append.mp hmem with hline | hnew
        · exact .inl hline
        · rw [List.mem_singleton.mp hnew]
          exact .inr (.single hx)
      · exact .inr (.head hx hlater)

theorem of_error {e : ε} (h : Ascends name above circle line a (.error e)) :
    (∃ b, Relation.ReflTransGen (Next above) a b ∧ above b = .error e) ∨
      ∃ names, e = circle names := by
  generalize hres : (Except.error e : Except ε (List α)) = res at h
  induction h with
  | fails hx =>
      cases hres
      exact .inl ⟨_, .refl, hx⟩
  | ends => cases hres
  | meets =>
      cases hres
      exact .inr ⟨_, rfl⟩
  | goesOn hx _ _ ih =>
      rcases ih hres with ⟨b, hb, he⟩ | hcircle
      · exact .inl ⟨b, .head hx hb, he⟩
      · exact .inr hcircle

theorem mono {above' : α → Except ε (Option α)}
    (habove : ∀ a b, above a = .ok b → above' a = .ok b)
    (h : Ascends name above circle line a (.ok r)) :
    Ascends name above' circle line a (.ok r) := by
  generalize hres : (Except.ok r : Except ε (List α)) = res at h ⊢
  induction h with
  | fails | meets => cases hres
  | ends hx => exact .ends (habove _ _ hx)
  | goesOn hx hb _ ih => exact .goesOn (habove _ _ hx) hb (ih hres)

theorem nodup_concat {b : α} (hline : (line.map name).Nodup) (hb : name b ∉ line.map name) :
    ((line ++ [b]).map name).Nodup := by
  rw [List.map_append, List.map_singleton]
  exact List.nodup_append.mpr ⟨hline, by simp, fun x hx y hy hxy =>
    hb (List.mem_singleton.mp hy ▸ hxy ▸ hx)⟩

/-- What limits a walk up is never what ends it, if the limit is above the number of names that
can be met. -/
theorem of_limit {walk : Nat → List α → α → Except ε (List α)}
    (hwalk : ∀ limit line a, walk (limit + 1) line a = match above a with
      | .error e => .error e
      | .ok none => .ok line
      | .ok (some b) =>
        if name b ∈ line.map name then .error (circle (line.map name ++ [name b]))
        else walk limit (line ++ [b]) b)
    {P : α → Prop} {names : List String} (hnames : ∀ a, P a → name a ∈ names)
    (habove : ∀ a b, P a → above a = .ok (some b) → P b) {limit : Nat}
    (hlimit : names.length < limit + line.length) (hline : (line.map name).Nodup)
    (hsub : line.map name ⊆ names) (ha : P a) :
    Ascends name above circle line a (walk limit line a) := by
  induction limit generalizing line a with
  | zero =>
      -- So many distinct names there are not.
      have hle := (List.subperm_of_subset hline hsub).length_le
      rw [List.length_map] at hle
      omega
  | succ limit ih =>
      rw [hwalk]
      split
      · rename_i e he
        exact .fails he
      · rename_i hnone
        exact .ends hnone
      · rename_i b hb
        split
        · rename_i hmem
          exact .meets hb hmem
        · rename_i hmem
          refine .goesOn hb hmem (ih ?_ (nodup_concat hline hmem) ?_ (habove a b ha hb))
          · rw [List.length_append, List.length_singleton]
            omega
          · rw [List.map_append, List.map_singleton]
            refine List.append_subset.mpr ⟨hsub, fun x hx => ?_⟩
            rw [List.mem_singleton.mp hx]
            exact hnames b (habove a b ha hb)

end Ascends

namespace TypeTable

variable {t : TypeTable} {type : DataType} {b : Body}

mutual

def bodyLine : DataType → List Body
  | .struct b => lineWithin b
  | .object b => lineWithin b
  | .component ⟨b, _, _, _, _⟩ => lineWithin b
  | .external ⟨b, _, _, _, _⟩ _ => lineWithin b
  | _ => []

def lineWithin : Body → List Body
  | ⟨name, super?, fields, functions⟩ => ⟨name, super?, fields, functions⟩ :: lineAbove super?

def lineAbove : Option DataType → List Body
  | none => []
  | some type => bodyLine type

end

theorem lineWithin_eq (b : Body) : lineWithin b = b :: lineAbove b.super? := by
  cases b
  rfl

theorem bodyLine_of_body (h : type.body? = some b) : bodyLine type = lineWithin b := by
  cases type with
  | struct | object =>
      cases h
      rfl
  | component c | external c =>
      cases c
      cases h
      rfl
  | _ => cases h

mutual

theorem length_bodyLine : ∀ type : DataType, (bodyLine type).length = bodies type
  | .struct b => by rw [bodyLine, bodies, length_lineWithin b]
  | .object b => by rw [bodyLine, bodies, length_lineWithin b]
  | .component ⟨b, _, _, _, _⟩ => by rw [bodyLine, bodies, length_lineWithin b]
  | .external ⟨b, _, _, _, _⟩ _ => by rw [bodyLine, bodies, length_lineWithin b]
  | .int _ _ | .string | .enum _ _ | .protocol _ _ | .lock | .event | .memory _ _ | .regFile _ _
  | .addressSpace | .addrHandle | .channel _ _ | .getEnd _ | .putEnd _ | .tuple _ _ | .ref _ => rfl

theorem length_lineWithin : ∀ b : Body, (lineWithin b).length = bodiesOf b
  | ⟨_, super?, _, _⟩ => by rw [lineWithin, bodiesOf, List.length_cons, length_lineAbove super?]

theorem length_lineAbove : ∀ super? : Option DataType,
    (lineAbove super?).length = bodiesAbove super?
  | none => rfl
  | some type => by rw [lineAbove, bodiesAbove, length_bodyLine type]

end

def pool (t : TypeTable) (b : Body) : List Body :=
  lineWithin b ++ t.types.flatMap fun n => bodyLine n.type

theorem length_pool (t : TypeTable) (b : Body) : (t.pool b).length + 1 = t.lineLimit b := by
  have hsum : ∀ (l : List NamedType) (n : Nat),
      l.foldl (fun total x => total + bodies x.type) n =
        n + (l.flatMap fun x => bodyLine x.type).length := by
    intro l
    induction l with
    | nil => exact fun _ => rfl
    | cons x l ih =>
        intro n
        rw [List.foldl_cons, ih, List.flatMap_cons, List.length_append, length_bodyLine,
          Nat.add_assoc]
  rw [lineLimit, hsum, pool, List.length_append, length_lineWithin]

theorem lineWithin_subset_pool (t : TypeTable) (b : Body) : lineWithin b ⊆ t.pool b :=
  List.subset_append_left _ _

theorem name_mem_pool {s : Body} (h : lineWithin s ⊆ t.pool b) :
    s.name ∈ (t.pool b).map Body.name :=
  List.mem_map_of_mem (h (by simp [lineWithin_eq]))

theorem resolveFrom_of_mem {followed : List String} {name : String} (h : name ∈ followed) :
    t.resolveFrom followed (.ref name) = .error (.refCycle (followed ++ [name])) := by
  rw [resolveFrom, if_pos h]

theorem resolveFrom_of_none {followed : List String} {name : String} (h : name ∉ followed)
    (hnone : t.type? name = none) : t.resolveFrom followed (.ref name) =
      .error (.unresolvedType name ((followed ++ [name]).headD "")) := by
  rw [resolveFrom, if_neg h]
  split
  · rfl
  · rename_i hsome
    rw [hnone] at hsome
    cases hsome

theorem resolveFrom_of_some {followed : List String} {name : String} (h : name ∉ followed)
    {next : DataType} (hnext : t.type? name = some next) :
    t.resolveFrom followed (.ref name) = t.resolveFrom (followed ++ [name]) next := by
  rw [resolveFrom, if_neg h]
  split
  · rename_i hnone
    rw [hnext] at hnone
    cases hnone
  · rename_i next' hnext'
    rw [hnext] at hnext'
    cases hnext'
    rfl

theorem resolveFrom_of_not_ref {followed : List String} (h : ∀ name, type ≠ .ref name) :
    t.resolveFrom followed type = .ok type := by
  cases type with
  | ref name => exact absurd rfl (h name)
  | _ => simp only [resolveFrom]

theorem type?_mem {name : String} (h : t.type? name = some type) :
    ∃ n ∈ t.types, n.name = name ∧ n.type = type := by
  obtain ⟨n, hn, rfl⟩ := Option.map_eq_some_iff.mp h
  have hname : n.name = name := by simpa using List.find?_some hn
  exact ⟨n, List.mem_of_find?_eq_some hn, hname, rfl⟩

/-- A type stands for itself or for a registered one, and not for a reference. -/
theorem resolveFrom_eq_ok {followed : List String} {type r : DataType}
    (h : t.resolveFrom followed type = .ok r) :
    (r = type ∨ ∃ n ∈ t.types, n.type = r) ∧ ∀ name, r ≠ .ref name := by
  induction followed, type using resolveFrom.induct t with
  | case1 followed name hmem =>
      rw [resolveFrom_of_mem hmem] at h
      cases h
  | case2 followed name hmem hnone =>
      rw [resolveFrom_of_none hmem hnone] at h
      cases h
  | case3 followed name hmem next hnext ih =>
      rw [resolveFrom_of_some hmem hnext] at h
      obtain ⟨rfl | hregistered, hnot⟩ := ih h
      · obtain ⟨n, hn, -, htype⟩ := type?_mem hnext
        exact ⟨.inr ⟨n, hn, htype⟩, hnot⟩
      · exact ⟨.inr hregistered, hnot⟩
  | case4 followed type hnot =>
      rw [resolveFrom_of_not_ref hnot] at h
      cases h
      exact ⟨.inl rfl, hnot⟩

theorem resolve_eq_ok {r : DataType} (h : t.resolve type = .ok r) :
    (r = type ∨ ∃ n ∈ t.types, n.type = r) ∧ ∀ name, r ≠ .ref name := resolveFrom_eq_ok h

theorem superOf_eq_ok {s : Body} (h : t.superOf b = .ok (some s)) :
    ∃ super type, b.super? = some super ∧ t.resolve super = .ok type ∧ type.body? = some s := by
  simp only [superOf] at h
  split at h
  · cases h
  · rename_i super hsuper
    split at h
    · cases h
    · rename_i type htype
      split at h
      · rename_i s' hs
        cases h
        exact ⟨super, type, hsuper, htype, hs⟩
      · cases h

theorem lineWithin_super {c : Body} {super type : DataType} {s : Body}
    (hc : lineWithin c ⊆ t.pool b)
    (hsuper : c.super? = some super) (htype : t.resolve super = .ok type)
    (hs : type.body? = some s) : lineWithin s ⊆ t.pool b := by
  rw [← bodyLine_of_body hs]
  intro x hx
  rcases (resolve_eq_ok htype).1 with rfl | ⟨n, hn, rfl⟩
  · refine hc ?_
    rw [lineWithin_eq, hsuper, lineAbove]
    exact List.mem_cons_of_mem _ hx
  · exact List.mem_append_right _ (List.mem_flatMap.mpr ⟨n, hn, hx⟩)

/-- The way from a body up its ancestors. -/
abbrev Climbs (t : TypeTable) : List Body → Body → Except DesignError (List Body) → Prop :=
  Ascends Body.name t.superOf .refCycle

theorem climbs_lineLimit (t : TypeTable) (b : Body) :
    t.Climbs [b] b (t.lineageFrom (t.lineLimit b) [b] b) := by
  refine Ascends.of_limit (P := fun s => lineWithin s ⊆ t.pool b) ?_
    (fun s => name_mem_pool) ?_ ?_ (by simp) ?_ (t.lineWithin_subset_pool b)
  · intro limit line oldest
    rw [lineageFrom]
    rcases t.superOf oldest with e | _ | s <;> rfl
  · intro c s hc hs
    obtain ⟨super, type, hsuper, htype, hbody⟩ := superOf_eq_ok hs
    exact lineWithin_super hc hsuper htype hbody
  · rw [← length_pool, List.length_map, List.length_singleton]
    omega
  · simpa using name_mem_pool (t.lineWithin_subset_pool b)

theorem lineage_eq_ok_iff {line : List Body} :
    t.lineage b = .ok line ↔ t.Climbs [b] b (.ok line.reverse) := by
  have hclimbs := t.climbs_lineLimit b
  rw [lineage]
  split
  · rename_i line' hline
    rw [hline] at hclimbs
    constructor
    · intro h
      cases h
      rwa [List.reverse_reverse]
    · intro h
      have hsame := Except.ok.inj (hclimbs.unique h)
      rw [hsame, List.reverse_reverse]
  · rename_i e he
    rw [he] at hclimbs
    constructor
    · intro h
      cases h
    · intro h
      cases hclimbs.unique h

/-- A body is the same as another one or inherits from it. -/
def Inherits (t : TypeTable) : Body → Body → Prop :=
  Relation.ReflTransGen (Ascends.Next t.superOf)

theorem inherits_of_mem_lineage {line : List Body} (h : t.lineage b = .ok line) {a : Body}
    (ha : a ∈ line) : t.Inherits b a := by
  rcases (lineage_eq_ok_iff.mp h).reaches (List.mem_reverse.mpr ha) with hself | habove
  · rw [List.mem_singleton.mp hself]
    exact .refl
  · exact habove

theorem lineage_eq_append {line : List Body} (h : t.lineage b = .ok line) {s : Body}
    (hs : t.superOf b = .ok (some s)) : ∃ first, t.lineage s = .ok first ∧ line = first ++ [b] := by
  have hclimbs := lineage_eq_ok_iff.mp h
  generalize hup : line.reverse = up at hclimbs
  cases hclimbs with
  | ends hnone =>
      rw [hs] at hnone
      cases hnone
  | goesOn hs' _ hr =>
      rw [hs] at hs'
      cases hs'
      obtain ⟨rest, rfl, hrest⟩ := hr.dropped
      refine ⟨rest.reverse, lineage_eq_ok_iff.mpr (by rwa [List.reverse_reverse]), ?_⟩
      rw [← List.reverse_reverse line, hup, List.reverse_append, List.reverse_singleton]

theorem appendFields_eq_ok_iff {name : String} {fields rest all : List Field}
    (hfields : (fields.map Field.name).Nodup) : appendFields name fields rest = .ok all ↔
      all = fields ++ rest ∧ ((fields ++ rest).map Field.name).Nodup := by
  induction rest generalizing fields with
  | nil =>
      rw [appendFields, Except.ok.injEq, List.append_nil]
      exact ⟨fun h => ⟨h.symm, hfields⟩, fun h => h.1.symm⟩
  | cons f rest ih =>
      rw [appendFields]
      split
      · rename_i hmem
        constructor
        · intro h
          cases h
        · rintro ⟨-, hnodup⟩
          rw [List.map_append, List.map_cons] at hnodup
          exact absurd rfl ((List.nodup_append.mp hnodup).2.2 f.name hmem f.name List.mem_cons_self)
      · rename_i hmem
        have hnext : ((fields ++ [f]).map Field.name).Nodup := by
          rw [List.map_append, List.map_singleton]
          exact List.nodup_append.mpr ⟨hfields, by simp, fun x hx y hy hxy =>
            hmem (List.mem_singleton.mp hy ▸ hxy ▸ hx)⟩
        rw [ih hnext, List.append_assoc, List.singleton_append]

theorem allFields_eq_ok_iff {fields : List Field} : t.allFields b = .ok fields ↔
    ∃ line, t.lineage b = .ok line ∧ fields = line.flatMap Body.fields ∧
      (fields.map Field.name).Nodup := by
  rw [allFields]
  split
  · rename_i e he
    simp [he]
  · rename_i line hline
    rw [appendFields_eq_ok_iff (by simp), List.nil_append, hline]
    constructor
    · rintro ⟨rfl, hnodup⟩
      exact ⟨line, rfl, rfl, hnodup⟩
    · rintro ⟨line', hline', rfl, hnodup⟩
      cases hline'
      exact ⟨rfl, hnodup⟩

theorem allFields_eq_append {fields : List Field} {s : Body} (hs : t.superOf b = .ok (some s))
    (h : t.allFields b = .ok fields) :
    ∃ inherited, t.allFields s = .ok inherited ∧ fields = inherited ++ b.fields := by
  obtain ⟨line, hline, rfl, hnodup⟩ := allFields_eq_ok_iff.mp h
  obtain ⟨first, hfirst, rfl⟩ := lineage_eq_append hline hs
  rw [List.flatMap_append, List.flatMap_singleton] at hnodup ⊢
  refine ⟨_, allFields_eq_ok_iff.mpr ⟨first, hfirst, rfl, ?_⟩, rfl⟩
  rw [List.map_append] at hnodup
  exact (List.nodup_append.mp hnodup).1

theorem Inherits.allFields {fields : List Field} {a : Body} (ha : t.Inherits b a)
    (h : t.allFields b = .ok fields) :
    ∃ inherited, t.allFields a = .ok inherited ∧ inherited <+: fields := by
  induction ha with
  | refl => exact ⟨fields, h, List.prefix_refl _⟩
  | tail _ hs ih =>
      obtain ⟨below, hbelow, hfirst⟩ := ih
      obtain ⟨inherited, hinherited, rfl⟩ := allFields_eq_append hs hbelow
      exact ⟨inherited, hinherited, (List.prefix_append _ _).trans hfirst⟩

theorem mem_overrideFunction {functions : List Function} {f g : Function}
    (h : g ∈ overrideFunction functions f) : g ∈ functions ∨ g = f := by
  rw [overrideFunction] at h
  split at h
  · obtain ⟨x, hx, rfl⟩ := List.mem_map.mp h
    split
    · exact .inr rfl
    · exact .inl hx
  · rcases List.mem_append.mp h with h | h
    · exact .inl h
    · exact .inr (List.mem_singleton.mp h)

theorem mem_of_mem_overridden {functions added : List Function} {g : Function}
    (h : g ∈ added.foldl overrideFunction functions) : g ∈ functions ∨ g ∈ added := by
  induction added generalizing functions with
  | nil => exact .inl h
  | cons f added ih =>
      rcases ih h with h | h
      · rcases mem_overrideFunction h with h | rfl
        · exact .inl h
        · exact .inr List.mem_cons_self
      · exact .inr (List.mem_cons_of_mem _ h)

theorem mem_allFunctions {functions : List Function} (h : t.allFunctions b = .ok functions)
    {g : Function} (hg : g ∈ functions) : ∃ a, t.Inherits b a ∧ g ∈ a.functions := by
  rw [allFunctions] at h
  split at h
  · cases h
  · rename_i line hline
    cases h
    rcases mem_of_mem_overridden hg with hnone | hmem
    · cases hnone
    · obtain ⟨a, ha, hg⟩ := List.mem_flatMap.mp hmem
      exact ⟨a, inherits_of_mem_lineage hline ha, hg⟩

/-- The types of a table are in another one too, under the same names. -/
def Within (t t' : TypeTable) : Prop :=
  ∀ name type, t.type? name = some type → t'.type? name = some type

variable {t' : TypeTable}

theorem within_of_add {name : String} (h : t.add name type = .ok t') : t.Within t' := by
  intro name' type' htype
  simp only [add] at h
  split at h
  · cases h
  · cases h
    rw [type?, Option.map_eq_some_iff] at htype ⊢
    obtain ⟨n, hn, rfl⟩ := htype
    exact ⟨n, by rw [List.find?_append, hn, Option.some_or], rfl⟩

theorem resolveFrom_within (ht : t.Within t') {followed : List String} {r : DataType}
    (h : t.resolveFrom followed type = .ok r) : t'.resolveFrom followed type = .ok r := by
  induction followed, type using resolveFrom.induct t with
  | case1 followed name hmem =>
      rw [resolveFrom_of_mem hmem] at h
      cases h
  | case2 followed name hmem hnone =>
      rw [resolveFrom_of_none hmem hnone] at h
      cases h
  | case3 followed name hmem next hnext ih =>
      rw [resolveFrom_of_some hmem hnext] at h
      rw [resolveFrom_of_some hmem (ht _ _ hnext)]
      exact ih h
  | case4 followed type hnot =>
      rw [resolveFrom_of_not_ref hnot] at h ⊢
      exact h

theorem superOf_within (ht : t.Within t') {s : Option Body} (h : t.superOf b = .ok s) :
    t'.superOf b = .ok s := by
  simp only [superOf] at h ⊢
  split at h
  · exact h
  · rename_i super hsuper
    split at h
    · cases h
    · rename_i type htype
      rw [resolve, resolveFrom_within ht htype]
      exact h

theorem allFields_within (ht : t.Within t') {fields : List Field} (h : t.allFields b = .ok fields) :
    t'.allFields b = .ok fields := by
  obtain ⟨line, hline, hfields⟩ := allFields_eq_ok_iff.mp h
  refine allFields_eq_ok_iff.mpr ⟨line, lineage_eq_ok_iff.mpr ?_, hfields⟩
  exact (lineage_eq_ok_iff.mp hline).mono fun _ _ hs => superOf_within ht hs

end TypeTable

end Clockwork
