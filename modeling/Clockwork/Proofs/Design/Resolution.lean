import Clockwork.Proofs.Design.Lineage
/-!
Where references lead. A type is followed along the registered names, from one type to the next,
until a type is reached that is no reference, a name that no type has, or a name that was met
before. The first one of these three is what resolving the type comes to.
-/

namespace Clockwork

namespace TypeTable

/-- References lead from one type to another one, along registered names. -/
inductive Follows (t : TypeTable) : DataType → List String → DataType → Prop
  | here {type : DataType} : t.Follows type [] type
  | next {name : String} {names : List String} {type last : DataType}
      (hname : t.type? name = some type) (h : t.Follows type names last) :
      t.Follows (.ref name) (name :: names) last

def Final (t : TypeTable) (type : DataType) : Prop := ∀ name, type = .ref name → t.type? name = none

/-- Following stops at a type after some names, with a result. -/
inductive Stops (t : TypeTable) (names : List String) :
    DataType → Except DesignError DataType → Prop
  | found {type : DataType} (h : ∀ name, type ≠ .ref name) : t.Stops names type (.ok type)
  | missing {name : String} (hnew : name ∉ names) (h : t.type? name = none) :
      t.Stops names (.ref name) (.error (.unresolvedType name ((names ++ [name]).headD "")))
  | again {name : String} (h : name ∈ names) :
      t.Stops names (.ref name) (.error (.refCycle (names ++ [name])))

variable {t : TypeTable} {type last last' : DataType}
    {names names' more : List String} {name : String}
  {r : Except DesignError DataType}

theorem final_of_not_ref (h : ∀ name, type ≠ .ref name) : t.Final type :=
  fun name href => absurd href (h name)

theorem final_of_none (h : t.type? name = none) : t.Final (.ref name) := by
  rintro _ ⟨⟩
  exact h

namespace Follows

theorem rest (h : t.Follows type names last) (h' : t.Follows type names' last')
    (hlast : t.Final last') : ∃ more, names' = names ++ more ∧ t.Follows last more last' := by
  induction h generalizing names' with
  | here => exact ⟨names', rfl, h'⟩
  | @next name names type last hname h ih =>
      cases h' with
      | here =>
          rw [hlast name rfl] at hname
          cases hname
      | next hname' h' =>
          cases hname.symm.trans hname'
          obtain ⟨more, rfl, hmore⟩ := ih h'
          exact ⟨more, rfl, hmore⟩

theorem split (h : t.Follows type (names ++ name :: more) last) :
    t.Follows type names (.ref name) ∧ t.Follows (.ref name) (name :: more) last := by
  induction names generalizing type with
  | nil =>
      cases h with
      | next hname h => exact ⟨.here, .next hname h⟩
  | cons first names ih =>
      cases h with
      | next hfirst h =>
          obtain ⟨hfront, hback⟩ := ih h
          exact ⟨.next hfirst hfront, hback⟩

theorem not_mem_of_final (h : t.Follows type names (.ref name)) (h' : t.Follows type names' last)
    (hlast : t.Final last) : name ∉ names := by
  intro hmem
  obtain ⟨front, more, rfl⟩ := List.append_of_mem hmem
  obtain ⟨hfront, hcircle⟩ := h.split
  -- What is left after the circle is what was left before it.
  obtain ⟨before, -, hbefore⟩ := hfront.rest h' hlast
  obtain ⟨after, hlonger, hafter⟩ := hcircle.rest hbefore hlast
  obtain ⟨_, hsame, -⟩ := hbefore.rest hafter hlast
  have hlength := congrArg List.length hlonger
  rw [hsame] at hlength
  simp only [List.length_append, List.length_cons] at hlength
  omega

theorem nodup_of_final (h : t.Follows type names last) (hlast : t.Final last) : names.Nodup := by
  induction h with
  | here => exact List.nodup_nil
  | @next name names type last hname h ih =>
      refine List.nodup_cons.mpr ⟨fun hmem => ?_, ih hlast⟩
      obtain ⟨front, more, rfl⟩ := List.append_of_mem hmem
      have hcircle : t.Follows (.ref name) (name :: front) (.ref name) := .next hname h.split.1
      exact hcircle.not_mem_of_final (.next hname h) hlast List.mem_cons_self

end Follows

/-- Whatever a type is resolved to, following it stops there, and met no name twice before. -/
theorem exists_stops (t : TypeTable) (type : DataType) : ∃ names last, t.Follows type names last ∧
    names.Nodup ∧ t.Stops names last (t.resolve type) := by
  have hall : ∀ followed : List String, followed.Nodup → ∃ names last, t.Follows type names last ∧
      (followed ++ names).Nodup ∧
      t.Stops (followed ++ names) last (t.resolveFrom followed type) := by
    intro followed hfollowed
    induction followed, type using resolveFrom.induct t with
    | case1 followed name hmem =>
        refine ⟨[], _, .here, by simpa using hfollowed, ?_⟩
        rw [resolveFrom_of_mem hmem, List.append_nil]
        exact .again hmem
    | case2 followed name hmem hnone =>
        refine ⟨[], _, .here, by simpa using hfollowed, ?_⟩
        rw [resolveFrom_of_none hmem hnone, List.append_nil]
        exact .missing hmem hnone
    | case3 followed name hmem next hnext ih =>
        obtain ⟨names, last, hfollows, hnodup, hstops⟩ :=
          ih (by simpa [List.nodup_append] using ⟨hfollowed, fun _ ha hb => hmem (hb ▸ ha)⟩)
        rw [List.append_assoc, List.singleton_append] at hnodup hstops
        rw [resolveFrom_of_some hmem hnext]
        exact ⟨name :: names, last, .next hnext hfollows, hnodup, hstops⟩
    | case4 followed type hnot =>
        refine ⟨[], _, .here, by simpa using hfollowed, ?_⟩
        rw [resolveFrom_of_not_ref hnot]
        exact .found hnot
  exact hall [] List.nodup_nil

/-- Where following a type stops, without a name met twice before, decides what it is resolved to.
-/
theorem resolve_of_stops (h : t.Follows type names last) (hnodup : names.Nodup)
    (hstops : t.Stops names last r) : t.resolve type = r := by
  have hall : ∀ followed : List String, (followed ++ names).Nodup →
      t.Stops (followed ++ names) last r → t.resolveFrom followed type = r := by
    clear hnodup hstops
    induction h with
    | here =>
        intro followed _ hstops
        rw [List.append_nil] at hstops
        cases hstops with
        | found hnot => exact resolveFrom_of_not_ref hnot
        | missing hnew hnone => exact resolveFrom_of_none hnew hnone
        | again hmem => exact resolveFrom_of_mem hmem
    | @next name names type last hname _ ih =>
        intro followed hnodup hstops
        have hnew : name ∉ followed := fun hmem =>
          (List.nodup_append.mp hnodup).2.2 name hmem name List.mem_cons_self rfl
        rw [resolveFrom_of_some hnew hname]
        rw [List.append_cons] at hnodup hstops
        exact ih _ hnodup hstops
  exact hall [] hnodup hstops

theorem resolve_eq_ok_iff : t.resolve type = .ok last ↔
    (∀ name, last ≠ .ref name) ∧ ∃ names, t.Follows type names last := by
  constructor
  · intro h
    obtain ⟨names, _, hfollows, -, hstops⟩ := exists_stops t type
    rw [h] at hstops
    cases hstops with
    | found hnot => exact ⟨hnot, names, hfollows⟩
  · rintro ⟨hnot, names, hfollows⟩
    exact resolve_of_stops hfollows (hfollows.nodup_of_final (final_of_not_ref hnot)) (.found hnot)

theorem resolve_eq_unresolvedType_iff {first : String} :
    t.resolve type = .error (.unresolvedType name first) ↔
      t.type? name = none ∧ ∃ names, t.Follows type names (.ref name) ∧
        (names ++ [name]).head? = some first := by
  constructor
  · intro h
    obtain ⟨names, _, hfollows, -, hstops⟩ := exists_stops t type
    rw [h] at hstops
    cases hstops with
    | missing _ hnone => exact ⟨hnone, names, hfollows, by cases names <;> rfl⟩
  · rintro ⟨hnone, names, hfollows, hfirst⟩
    have hfinal := final_of_none hnone
    rw [resolve_of_stops hfollows (hfollows.nodup_of_final hfinal)
      (.missing (hfollows.not_mem_of_final hfollows hfinal) hnone),
      List.headD_eq_head?_getD, hfirst,
      Option.getD_some]

theorem resolve_eq_refCycle_iff {chain : List String} :
    t.resolve type = .error (.refCycle chain) ↔ ∃ names name, chain = names ++ [name] ∧
      t.Follows type names (.ref name) ∧ name ∈ names ∧ names.Nodup := by
  constructor
  · intro h
    obtain ⟨names, _, hfollows, hnodup, hstops⟩ := exists_stops t type
    rw [h] at hstops
    cases hstops with
    | again hmem => exact ⟨names, _, rfl, hfollows, hmem, hnodup⟩
  · rintro ⟨names, name, rfl, hfollows, hmem, hnodup⟩
    exact resolve_of_stops hfollows hnodup (.again hmem)

theorem resolve_of_circle (h : t.Follows type names (.ref name)) (hmem : name ∈ names) :
    ∃ chain, t.resolve type = .error (.refCycle chain) := by
  obtain ⟨_, _, hfollows, -, hstops⟩ := exists_stops t type
  generalize t.resolve type = r at hstops ⊢
  cases hstops with
  | found hnot => exact absurd hmem (h.not_mem_of_final hfollows (final_of_not_ref hnot))
  | missing _ hnone => exact absurd hmem (h.not_mem_of_final hfollows (final_of_none hnone))
  | again => exact ⟨_, rfl⟩

theorem resolve_ends (t : TypeTable) (type : DataType) :
    (∃ last, t.resolve type = .ok last) ∨
      (∃ name first, t.resolve type = .error (.unresolvedType name first)) ∨
      ∃ chain, t.resolve type = .error (.refCycle chain) := by
  obtain ⟨_, _, -, -, hstops⟩ := exists_stops t type
  generalize t.resolve type = r at hstops ⊢
  cases hstops with
  | found => exact .inl ⟨_, rfl⟩
  | missing => exact .inr (.inl ⟨_, _, rfl⟩)
  | again => exact .inr (.inr ⟨_, rfl⟩)

end TypeTable

open TypeTable

/-- A type is resolved to the type that is no reference and that its references lead to, if they
do so; it is unresolved if they lead to a name that no type has, and a circle if they come back to
a name, and then the names on the way are told up to that one. Nothing else can happen. -/
theorem references_resolve_exactly (t : TypeTable) (type : DataType) :
    (∀ last, t.resolve type = .ok last ↔
      (∀ name, last ≠ .ref name) ∧ ∃ names, t.Follows type names last) ∧
    (∀ name first, t.resolve type = .error (.unresolvedType name first) ↔
      t.type? name = none ∧ ∃ names, t.Follows type names (.ref name) ∧
        (names ++ [name]).head? = some first) ∧
    (∀ chain, t.resolve type = .error (.refCycle chain) ↔
      ∃ names name, chain = names ++ [name] ∧ t.Follows type names (.ref name) ∧ name ∈ names ∧
        names.Nodup) ∧
    ((∃ chain, t.resolve type = .error (.refCycle chain)) ↔
      ∃ names name, t.Follows type names (.ref name) ∧ name ∈ names) ∧
    ((∃ last, t.resolve type = .ok last) ∨
      (∃ name first, t.resolve type = .error (.unresolvedType name first)) ∨
      ∃ chain, t.resolve type = .error (.refCycle chain)) := by
  refine ⟨fun _ => resolve_eq_ok_iff, fun _ _ => resolve_eq_unresolvedType_iff,
    fun _ => resolve_eq_refCycle_iff, ⟨?_, ?_⟩, resolve_ends t type⟩
  · rintro ⟨chain, h⟩
    obtain ⟨names, name, -, hfollows, hmem, -⟩ := resolve_eq_refCycle_iff.mp h
    exact ⟨names, name, hfollows, hmem⟩
  · rintro ⟨names, name, hfollows, hmem⟩
    exact resolve_of_circle hfollows hmem

def strayTypes : TypeTable :=
  ⟨[⟨"a", .ref "b"⟩, ⟨"b", .ref "c"⟩, ⟨"c", .ref "b"⟩, ⟨"d", .ref "e"⟩], by decide⟩

theorem references_resolve_exactly_astray :
    strayTypes.resolve (.ref "a") = .error (.refCycle ["a", "b", "c", "b"]) ∧
      strayTypes.resolve (.ref "d") = .error (.unresolvedType "e" "d") := by
  obtain ⟨-, -, hcircle, -⟩ := references_resolve_exactly strayTypes (.ref "a")
  obtain ⟨-, hmissing, -⟩ := references_resolve_exactly strayTypes (.ref "d")
  constructor
  · refine (hcircle _).mpr ⟨["a", "b", "c"], "b", rfl, ?_, by decide, by decide⟩
    exact .next rfl (.next rfl (.next rfl .here))
  · exact (hmissing _ _).mpr ⟨rfl, ["d"], .next rfl .here, rfl⟩

end Clockwork
