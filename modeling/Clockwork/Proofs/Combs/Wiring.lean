import Clockwork.Proofs.Graph.Order
import Clockwork.Proofs.Results
import Clockwork.Proofs.Table
import Clockwork.Simulation.Wiring

namespace Clockwork

theorem mem_firsts {α : Type} [DecidableEq α] {a : α} {l : List α} : a ∈ firsts l ↔ a ∈ l := by
  have hfold : ∀ (l seen : List α),
      a ∈ l.foldl (fun seen b => if b ∈ seen then seen else seen ++ [b]) seen ↔
        a ∈ seen ∨ a ∈ l := by
    intro l
    induction l with
    | nil => simp
    | cons b l ih =>
        intro seen
        rw [List.foldl_cons, ih]
        split
        · rename_i hb
          constructor
          · rintro (h | h)
            · exact .inl h
            · exact .inr (List.mem_cons_of_mem _ h)
          · rintro (h | h)
            · exact .inl h
            · rcases List.mem_cons.mp h with rfl | h
              · exact .inl hb
              · exact .inr h
        · simp [or_assoc]
  rw [firsts, hfold]
  simp

namespace Expr

theorem fieldPath?_foldl {e : Expr} (he : e ≠ self) (p : FieldPath) :
    (p.foldl field e).fieldPath? = e.fieldPath?.map (· ++ p) := by
  induction p generalizing e with
  | nil => simp
  | cons i p ih =>
      rw [List.foldl_cons, ih (by simp)]
      have hfield : (field e i).fieldPath? = e.fieldPath?.map (· ++ [i]) := by
        cases e with
        | self => exact absurd rfl he
        | _ => rfl
      rw [hfield, Option.map_map]
      congr 1
      funext q
      simp

theorem fieldPath?_path {p : FieldPath} (hp : p ≠ []) : (path p).fieldPath? = some p := by
  cases p with
  | nil => exact absurd rfl hp
  | cons i p =>
      rw [path, List.foldl_cons, fieldPath?_foldl (by simp)]
      rfl

end Expr

namespace AccessSet

theorem mem_picked {l : List Access} {pick : Access → Option FieldPath}
    {access : FieldPath → Access} (hpick : ∀ a p, pick a = some p ↔ access p = a) {p : FieldPath} :
    p ∈ firsts (l.filterMap pick) ↔ access p ∈ l := by
  simp only [mem_firsts, List.mem_filterMap, hpick]
  exact ⟨fun ⟨a, ha, h⟩ => h ▸ ha, fun h => ⟨_, h, rfl⟩⟩

theorem mem_reads {body : List Stmt} {p : FieldPath} :
    p ∈ (ofBody body).reads ↔ .read p ∈ Stmt.accessesAll body :=
  mem_picked fun a p => by cases a <;> simp [eq_comm]

theorem mem_writes {body : List Stmt} {p : FieldPath} :
    p ∈ (ofBody body).writes ↔ .write p ∈ Stmt.accessesAll body :=
  mem_picked fun a p => by cases a <;> simp [eq_comm]

end AccessSet

namespace Tree

/-- A combinational process of a tree. -/
def CombAt (t : Tree) (p : ProcessRef) (f : Function) : Prop :=
  (t.inst p.owner).combs[p.index]? = some f

theorem CombAt.unique {t : Tree} {p : ProcessRef} {f f' : Function} (h : t.CombAt p f)
    (h' : t.CombAt p f') : f = f' := Option.some.inj (h.symm.trans h')

theorem CombAt.owner_lt {t : Tree} {p : ProcessRef} {f : Function} (h : t.CombAt p f) :
    p.owner < t.size := by
  apply Decidable.byContradiction
  intro hle
  have hnone : t.instances[p.owner]? = none := Array.getElem?_eq_none (Nat.le_of_not_lt hle)
  rw [CombAt, inst, hnone] at h
  cases h

/-- The fields that a combinational process reads. -/
def Reads (t : Tree) (p : ProcessRef) (g : FieldRef) : Prop :=
  ∃ f path, t.CombAt p f ∧ path ∈ (AccessSet.ofBody f.body).reads ∧ t.follow p.owner path = .ok g

/-- The fields that a combinational process writes. -/
def Writes (t : Tree) (p : ProcessRef) (g : FieldRef) : Prop :=
  ∃ f path, t.CombAt p f ∧ path ∈ (AccessSet.ofBody f.body).writes ∧
    t.follow p.owner path = .ok g

end Tree

namespace Wiring

theorem mem_placed {id : Nat} {l : List Function} {p : ProcessRef} {f : Function} :
    (p, f) ∈ placed id l ↔ p.owner = id ∧ l[p.index]? = some f := by
  rw [placed, List.mem_map]
  constructor
  · rintro ⟨⟨f', i⟩, hmem, heq⟩
    cases heq
    exact ⟨rfl, List.mem_zipIdx_iff_getElem?.mp hmem⟩
  · rintro ⟨rfl, h⟩
    exact ⟨(f, p.index), List.mem_zipIdx_iff_getElem?.mpr h, rfl⟩

theorem addInstance_combs {t : Tree} {state state' : Wiring × List (ProcessRef × List FieldRef)}
    {id : Nat} (h : addInstance t state id = .ok state') :
    ∃ combs, (placed id (t.inst id).combs).mapM
        (fun x => do return (x.1, ← sensitivity t id x.2)) = (.ok combs : Except SimError _) ∧
      state'.2 = state.2 ++ combs := by
  simp only [addInstance, bind, Except.bind] at h
  split at h
  · cases h
  · split at h
    · cases h
    · rename_i combs hcombs
      cases h
      exact ⟨combs, hcombs, rfl⟩

def Depends (t : Tree) (p : ProcessRef) (fields : List FieldRef) : Prop :=
  ∃ f, t.CombAt p f ∧ sensitivity t p.owner f = .ok fields

theorem mem_combs_of_addInstance {t : Tree}
    {state state' : Wiring × List (ProcessRef × List FieldRef)} {id : Nat}
    (h : addInstance t state id = .ok state') {p : ProcessRef} {fields : List FieldRef} :
    (p, fields) ∈ state'.2 ↔ (p, fields) ∈ state.2 ∨ (p.owner = id ∧ Depends t p fields) := by
  obtain ⟨combs, hcombs, heq⟩ := addInstance_combs h
  rw [heq, List.mem_append, mem_of_mapM_ok hcombs]
  apply or_congr Iff.rfl
  constructor
  · rintro ⟨⟨q, f⟩, hmem, hq⟩
    obtain ⟨rfl, hf⟩ := mem_placed.mp hmem
    cases hs : sensitivity t q.owner f with
    | error e =>
        rw [hs] at hq
        cases hq
    | ok fields' =>
        rw [hs] at hq
        cases hq
        exact ⟨rfl, f, hf, hs⟩
  · rintro ⟨rfl, f, hf, hs⟩
    refine ⟨(p, f), mem_placed.mpr ⟨rfl, hf⟩, ?_⟩
    rw [hs]
    rfl

theorem depends_of_addInstance {t : Tree}
    {state state' : Wiring × List (ProcessRef × List FieldRef)} {id : Nat}
    (h : addInstance t state id = .ok state') {p : ProcessRef} {f : Function} (hp : p.owner = id)
    (hf : t.CombAt p f) : ∃ fields, Depends t p fields := by
  obtain ⟨combs, hcombs, -⟩ := addInstance_combs h
  obtain ⟨b, hb⟩ := exists_of_mapM_ok hcombs (mem_placed.mpr ⟨hp, by rw [← hp]; exact hf⟩)
  cases hs : sensitivity t id f with
  | error e =>
      rw [hs] at hb
      cases hb
  | ok fields =>
      subst hp
      exact ⟨fields, f, hf, hs⟩

theorem mem_combs_of_foldlM {t : Tree} (ids : List Nat)
    {state state' : Wiring × List (ProcessRef × List FieldRef)}
    (h : ids.foldlM (addInstance t) state = .ok state') :
    (∀ p fields, (p, fields) ∈ state'.2 ↔
      (p, fields) ∈ state.2 ∨ (p.owner ∈ ids ∧ Depends t p fields)) ∧
      ∀ p f, p.owner ∈ ids → t.CombAt p f → ∃ fields, Depends t p fields := by
  induction ids generalizing state with
  | nil =>
      rw [List.foldlM_nil] at h
      cases h
      simp
  | cons id ids ih =>
      rw [List.foldlM_cons] at h
      cases hstep : addInstance t state id with
      | error e =>
          rw [hstep] at h
          cases h
      | ok state₁ =>
          rw [hstep] at h
          obtain ⟨hmem, hall⟩ := ih h
          constructor
          · intro p fields
            rw [hmem, mem_combs_of_addInstance hstep, List.mem_cons]
            constructor
            · rintro ((h | ⟨h, hd⟩) | ⟨h, hd⟩)
              · exact .inl h
              · exact .inr ⟨.inl h, hd⟩
              · exact .inr ⟨.inr h, hd⟩
            · rintro (h | ⟨h | h, hd⟩)
              · exact .inl (.inl h)
              · exact .inl (.inr ⟨h, hd⟩)
              · exact .inr ⟨h, hd⟩
          · intro p f hp hf
            rcases List.mem_cons.mp hp with hp | hp
            · exact depends_of_addInstance hstep hp hf
            · exact hall p f hp hf

theorem mem_addTo {t : Table FieldRef (List ProcessRef)} {f g : FieldRef} {p q : ProcessRef} :
    p ∈ ((addTo t f q).get? g).getD [] ↔ p ∈ (t.get? g).getD [] ∨ (g = f ∧ p = q) := by
  rw [addTo]
  by_cases h : g = f
  · subst h
    simp [Table.get?_insert_self]
  · rw [Table.get?_insert_of_ne _ h]
    simp [h]

theorem mem_foldl_addTo {fields : List FieldRef} {t : Table FieldRef (List ProcessRef)}
    {g : FieldRef} {p q : ProcessRef} :
    p ∈ ((fields.foldl (fun t f => addTo t f q) t).get? g).getD [] ↔
      p ∈ (t.get? g).getD [] ∨ (g ∈ fields ∧ p = q) := by
  induction fields generalizing t with
  | nil => simp
  | cons f fields ih =>
      rw [List.foldl_cons, ih, mem_addTo, List.mem_cons, or_and_right, or_assoc]

theorem mem_watchers_foldl {combs : List (ProcessRef × List FieldRef)}
    {t : Table FieldRef (List ProcessRef)} {g : FieldRef} {p : ProcessRef} :
    p ∈ ((combs.foldl (fun t x => x.2.foldl (fun t f => addTo t f x.1) t) t).get? g).getD [] ↔
      p ∈ (t.get? g).getD [] ∨ ∃ fields, (p, fields) ∈ combs ∧ g ∈ fields := by
  induction combs generalizing t with
  | nil => simp
  | cons x combs ih =>
      rw [List.foldl_cons, ih, mem_foldl_addTo, or_assoc]
      apply or_congr Iff.rfl
      constructor
      · rintro (⟨hg, rfl⟩ | ⟨fields, hmem, hg⟩)
        · exact ⟨x.2, List.mem_cons_self, hg⟩
        · exact ⟨fields, List.mem_cons_of_mem _ hmem, hg⟩
      · rintro ⟨fields, hmem, hg⟩
        rcases List.mem_cons.mp hmem with rfl | hmem
        · exact .inl ⟨hg, rfl⟩
        · exact .inr ⟨fields, hmem, hg⟩

theorem mem_firstRun {t : Tree} {combs : List (ProcessRef × List FieldRef)} {p : ProcessRef} :
    p ∈ (firstRun t combs).1 ↔ ∃ fields, (p, fields) ∈ combs := by
  have hdeclared : p ∈ combs.map (·.1) ↔ ∃ fields, (p, fields) ∈ combs := by simp
  rw [← hdeclared]
  simp only [firstRun]
  split
  · rename_i order horder
    refine List.mem_filterMap.trans ⟨fun ⟨k, _, hget⟩ => List.mem_of_getElem? hget, fun hp => ?_⟩
    obtain ⟨k, hk, hget⟩ := List.getElem_of_mem hp
    have hsize : k < (dependencies t combs).size := by
      rw [dependencies, Graph.size_ofRelation]
      simpa using hk
    have hclosed : (dependencies t combs).Closed := Graph.closed_ofRelation _ _
    refine ⟨k, Graph.mem_order hclosed horder hsize, ?_⟩
    rw [List.getElem?_eq_getElem hk, hget]
  · rfl

theorem fieldOf_path (t : Tree) (id : Nat) (p : FieldPath) {g : FieldRef} :
    fieldOf t id (.path p) = .ok g ↔ t.follow id p = .ok g := by
  by_cases hp : p = []
  · subst hp
    simp [fieldOf, Expr.path, Expr.fieldPath?, Tree.follow]
  · rw [fieldOf, Expr.fieldPath?_path hp]

theorem sensitivity_derived (t : Tree) (id : Nat) {f : Function}
    (hlist : ∀ info, f.process = some info → info.sensitivity = []) :
    sensitivity t id f = ((derivedSensitivity f.body).mapM (fieldOf t id)).map firsts := by
  cases hf : f.process with
  | none =>
      simp only [sensitivity, hf]
      rfl
  | some info =>
      simp only [sensitivity, hf, hlist info hf]
      rfl

theorem mem_sensitivity_iff {t : Tree} {id : Nat} {f : Function} {fields : List FieldRef}
    {g : FieldRef} (hlist : ∀ info, f.process = some info → info.sensitivity = [])
    (h : sensitivity t id f = .ok fields) :
    g ∈ fields ↔ ∃ path, path ∈ (AccessSet.ofBody f.body).reads ∧
      path ∉ (AccessSet.ofBody f.body).writes ∧ t.follow id path = .ok g := by
  rw [sensitivity_derived t id hlist] at h
  cases hfound : (derivedSensitivity f.body).mapM (fieldOf t id) with
  | error e =>
      rw [hfound] at h
      cases h
  | ok found =>
      rw [hfound] at h
      cases h
      rw [mem_firsts, mem_of_mapM_ok hfound]
      simp only [derivedSensitivity, List.mem_map, AccessSet.sensitivity, List.mem_filter,
        decide_eq_true_eq]
      constructor
      · rintro ⟨e, ⟨path, ⟨hread, hwrite⟩, rfl⟩, he⟩
        exact ⟨path, hread, hwrite, (fieldOf_path t id path).mp he⟩
      · rintro ⟨path, hread, hwrite, he⟩
        exact ⟨.path path, ⟨path, ⟨hread, hwrite⟩, rfl⟩, (fieldOf_path t id path).mpr he⟩

section OfTree

variable {t : Tree} {w : Wiring} {log : List LogRecord} (h : ofTree t = .ok (w, log))

include h

theorem exists_combs_of_ofTree : ∃ combs : List (ProcessRef × List FieldRef),
    (∀ p fields, (p, fields) ∈ combs ↔ Depends t p fields) ∧
      (∀ p f, t.CombAt p f → ∃ fields, Depends t p fields) ∧
      (∀ g p, p ∈ (w.watchers.get? g).getD [] ↔ ∃ fields, (p, fields) ∈ combs ∧ g ∈ fields) ∧
      ∀ p, p ∈ w.order ↔ ∃ fields, (p, fields) ∈ combs := by
  simp only [ofTree, bind, Except.bind] at h
  split at h
  · cases h
  · rename_i state hstate
    obtain ⟨hmem, hall⟩ := mem_combs_of_foldlM (List.range t.size) hstate
    cases h
    refine ⟨state.2, ?_, ?_, ?_, ?_⟩
    · intro p fields
      rw [hmem]
      constructor
      · rintro (hnil | ⟨-, hd⟩)
        · cases hnil
        · exact hd
      · rintro ⟨f, hf, hs⟩
        exact .inr ⟨List.mem_range.mpr hf.owner_lt, f, hf, hs⟩
    · exact fun p f hf => hall p f (List.mem_range.mpr hf.owner_lt) hf
    · intro g p
      refine mem_watchers_foldl.trans ?_
      simp [Table.get?_empty]
    · exact fun p => mem_firstRun

theorem mem_order_iff {p : ProcessRef} : p ∈ w.order ↔ ∃ f, t.CombAt p f := by
  obtain ⟨combs, hcombs, hall, -, horder⟩ := exists_combs_of_ofTree h
  rw [horder]
  constructor
  · rintro ⟨fields, hp⟩
    obtain ⟨f, hf, -⟩ := (hcombs p fields).mp hp
    exact ⟨f, hf⟩
  · rintro ⟨f, hf⟩
    obtain ⟨fields, hdep⟩ := hall p f hf
    exact ⟨fields, (hcombs p fields).mpr hdep⟩

/-- Without a list of its own a combinational process depends on the fields at the ends of the paths
that it reads and does not write. -/
theorem mem_watchers_derived {f : Function} {g : FieldRef} {p : ProcessRef} (hf : t.CombAt p f)
    (hlist : ∀ info, f.process = some info → info.sensitivity = []) :
    p ∈ (w.watchers.get? g).getD [] ↔ ∃ path, path ∈ (AccessSet.ofBody f.body).reads ∧
      path ∉ (AccessSet.ofBody f.body).writes ∧ t.follow p.owner path = .ok g := by
  obtain ⟨combs, hcombs, hall, hwatch, -⟩ := exists_combs_of_ofTree h
  rw [hwatch]
  constructor
  · rintro ⟨fields, hmem, hg⟩
    obtain ⟨f', hf', hs⟩ := (hcombs p fields).mp hmem
    obtain rfl := hf.unique hf'
    exact (mem_sensitivity_iff hlist hs).mp hg
  · intro hpath
    obtain ⟨fields, f', hf', hs⟩ := hall p f hf
    obtain rfl := hf.unique hf'
    exact ⟨fields, (hcombs p fields).mpr ⟨f, hf, hs⟩, (mem_sensitivity_iff hlist hs).mpr hpath⟩

/-- Without a list of its own, and with no field both read and written, a combinational process
depends on the fields that it reads. -/
theorem mem_watchers_iff {g : FieldRef} {p : ProcessRef}
    (hlist : ∀ f, t.CombAt p f → ∀ info, f.process = some info → info.sensitivity = [])
    (hapart : ∀ g, t.Reads p g → ¬ t.Writes p g) :
    p ∈ (w.watchers.get? g).getD [] ↔ t.Reads p g := by
  constructor
  · intro hp
    obtain ⟨combs, hcombs, -, hwatch, -⟩ := exists_combs_of_ofTree h
    obtain ⟨fields, hmem, -⟩ := (hwatch g p).mp hp
    obtain ⟨f, hf, -⟩ := (hcombs p fields).mp hmem
    obtain ⟨path, hpath, -, hfollow⟩ := (mem_watchers_derived h hf (hlist f hf)).mp hp
    exact ⟨f, path, hf, hpath, hfollow⟩
  · rintro ⟨f, path, hf, hpath, hfollow⟩
    refine (mem_watchers_derived h hf (hlist f hf)).mpr ⟨path, hpath, ?_, hfollow⟩
    intro hwrite
    exact hapart g ⟨f, path, hf, hpath, hfollow⟩ ⟨f, path, hf, hwrite, hfollow⟩

end OfTree

end Wiring

end Clockwork
