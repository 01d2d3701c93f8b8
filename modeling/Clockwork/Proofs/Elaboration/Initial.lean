import Clockwork.Proofs.Elaboration.Shape
import Clockwork.Proofs.Number.Fit
/-!
What a bound signal starts with. It takes the value that its driver has when the two are bound.
Children are bound before their parents, so that a port which passes an input on from above is
bound to its targets before it gets its own value. The values that the root gets from outside come
before its connections, and so do not matter for a signal that is bound.
-/

namespace Clockwork

/-- An occurrence that is declared in an instance from `id` on, and so concerns such an instance. -/
structure Occurrence.Inside (id : Nat) (o : Occurrence) : Prop where
  owner : id ≤ o.target.owner
  declared : o.isGiven = false

theorem Occurrence.Inside.mono {id id' : Nat} {o : Occurrence} (h : o.Inside id) (hid : id' ≤ id) :
    o.Inside id' := ⟨Nat.le_trans hid h.owner, h.declared⟩

namespace Tree

/-- From an instance on, fields hold only instances that come after their own. -/
def Descends (t : Tree) (id : Nat) : Prop := ∀ f c, id ≤ f.owner → t.child? f = some c → id < c

variable {t : Tree} {id : Nat}

theorem Descends.alike {t' : Tree} (h : t.Descends id) (ha : t.Alike t') : t'.Descends id :=
  fun f c hf hc => h f c hf ((ha.child f).symm.trans hc)

theorem Descends.slot (h : t.Descends id) {j index child : Nat} {s : FieldSlot} (hj : id ≤ j)
    (hslot : t.slot j index = .ok s) (hs : s.storage = .component child) : id < child :=
  h ⟨j, index⟩ child hj (child?_eq_some.mpr (hs ▸ storage?_of_slot hslot))

theorem Descends.follow (h : t.Descends id) {j : Nat} (hj : id ≤ j) {path : FieldPath}
    {f : FieldRef} (hf : t.follow j path = .ok f) : id ≤ f.owner := by
  fun_induction t.follow j path with
  | case1 => cases hf
  | case2 => cases hf; exact hj
  | case3 => cases hf
  | case4 => cases hf
  | case5 j index rest _ s hslot child hchild ih =>
      exact ih (Nat.le_of_lt (h.slot hj hslot hchild)) hf
  | case6 => cases hf

theorem owner_of_named {j : Nat} {name : String} {f : FieldRef}
    (hf : Endpoint.named t j name = .ok (.field f)) : f.owner = j := by
  simp only [Endpoint.named] at hf
  split at hf
  · cases hf
  · split at hf <;> cases hf
    rfl

/-- What an expression names belongs to the instance or to one below it. -/
theorem Descends.resolve (h : t.Descends id) {x : Expr} {f : FieldRef}
    (hf : Endpoint.resolve t id x = .ok (.field f)) : id ≤ f.owner := by
  have noField : ∀ {r : Except SimError Value}, r.map Endpoint.value ≠ .ok (.field f) := by
    rintro (error | v) hr <;> cases hr
  simp only [Endpoint.resolve] at hf
  split at hf
  · rename_i path _
    cases hpath : t.follow id path with
    | error error =>
        rw [hpath] at hf
        cases hf
    | ok g =>
        rw [hpath] at hf
        cases hf
        exact h.follow (Nat.le_refl id) hpath
  · split at hf
    · exact (owner_of_named hf).ge
    · split at hf
      · exact absurd hf noField
      · obtain ⟨g, hg, hf⟩ := bind_eq_ok hf
        obtain ⟨s, hs, hf⟩ := bind_eq_ok hf
        split at hf
        · rename_i child hchild
          rw [owner_of_named hf]
          exact Nat.le_of_lt (h.slot (h.follow (Nat.le_refl id) hg) hs hchild)
        · cases hf
    · exact absurd hf noField

end Tree

namespace Elaboration

variable {e : Elaboration} {id : Nat}

theorem connectHistory_inside {l : FieldRef} {p : Endpoint} (hl : id ≤ l.owner)
    (hp : ∀ r, p = .field r → id ≤ r.owner) : ∀ x ∈ e.connectHistory l p, x.2.Inside id := by
  intro x hx
  obtain ⟨o, ho, rfl⟩ := List.mem_map.mp hx
  cases p with
  | field r =>
      simp only [occurrences] at ho
      split at ho
      · split at ho
        · rw [List.mem_singleton, connection] at ho
          subst ho
          split
          · exact ⟨hl, rfl⟩
          · exact ⟨hp r rfl, rfl⟩
        · rw [List.mem_singleton] at ho
          subst ho
          exact ⟨hl, rfl⟩
        · cases ho
      · cases ho
  | value v =>
      simp only [occurrences] at ho
      split at ho
      · split at ho
        · rw [List.mem_singleton] at ho
          subst ho
          exact ⟨hl, rfl⟩
        · cases ho
      · cases ho
  | method owner name => cases ho
  | member f name => cases ho

theorem bindHistory_inside (he : e.tree.Descends id) (b : Bind) :
    ∀ x ∈ e.bindHistory id b, x.2.Inside id := by
  intro x hx
  simp only [bindHistory] at hx
  split at hx
  · rename_i hlhs hrhs
    refine connectHistory_inside (he.resolve hlhs) (fun r hr => ?_) x hx
    exact he.resolve (hr ▸ hrhs)
  · cases hx

theorem historyAlong_forall {α : Type} {step : Elaboration → α → Elaboration}
    {history : Elaboration → α → History} {P : Elaboration → List α → Prop}
    {Q : Tree × Occurrence → Prop}
    (hstep : ∀ e x l, P e (x :: l) → (∀ y ∈ history e x, Q y) ∧ P (step e x) l) {l : List α}
    (h : P e l) : ∀ y ∈ historyAlong step history e l, Q y := by
  induction l generalizing e with
  | nil =>
      intro y hy
      cases hy
  | cons x l ih =>
      intro y hy
      obtain ⟨hx, hl⟩ := hstep e x l h
      rcases List.mem_append.mp hy with hy | hy
      · exact hx y hy
      · exact ih hl y hy

theorem bindsHistory_inside (he : e.tree.Descends id) (binds : List Bind) :
    ∀ x ∈ e.bindsHistory id binds, x.2.Inside id := by
  refine historyAlong_forall (P := fun e _ => e.tree.Descends id) (fun e b _ he => ?_) he
  exact ⟨bindHistory_inside he b, he.alike (Connected.attempt (Connects.applyBind b)).tree⟩

theorem topsHistory_given (e : Elaboration) (root : Nat) (values : Table String Value) :
    ∀ x ∈ e.topsHistory root values, x.2.isGiven = true ∧ x.2.target.owner = root := by
  refine historyAlong_forall (P := fun _ _ => True) (fun e x _ _ => ⟨fun y hy => ?_, trivial⟩)
    trivial
  simp only [topHistory] at hy
  split at hy
  · split at hy
    · split at hy
      · rw [List.mem_singleton] at hy
        subst hy
        exact ⟨rfl, rfl⟩
      · cases hy
    · cases hy
  · cases hy

section Fields

variable {t₀ : Tree} {room : Nat} {fields : List Field}

/-- A history of each instance that is built in a tree with all its instances, of which it concerns
none but new ones. -/
def Insides
    (inner : Elaboration → DataType → String → Option Nat → List (String × Value) → History) :
    Prop :=
  ∀ (e : Elaboration) type name p arguments, e.tree.Closed →
    ∀ x ∈ inner e type name (some p) arguments, x.2.Inside e.tree.size

theorem fieldHistory_inside {build : Build}
    {inner : Elaboration → DataType → String → Option Nat → List (String × Value) → History}
    (hinner : Insides inner) {index : Nat} (h : Growing t₀ e.tree id index room fields) (f : Field)
    (argument : Option Value) :
    ∀ x ∈ e.fieldHistory build inner id index f argument, x.2.Inside (id + 1) := by
  intro x hx
  simp only [fieldHistory] at hx
  split at hx
  · exact (hinner e _ _ _ _ h.closed x hx).mono h.size
  · exact (hinner e _ _ _ _ h.closed x hx).mono h.size
  · cases hx

theorem fieldsHistory_inside {build : Build} (hbuild : Plants room build)
    {inner : Elaboration → DataType → String → Option Nat → List (String × Value) → History}
    (hinner : Insides inner) (h : Growing t₀ e.tree id 0 (room + 1) fields)
    (arguments : List (String × Value)) :
    ∀ x ∈ fieldsHistory (fun f => !f.isConst) (fun e => e.buildField build id)
      (fun e => e.fieldHistory build inner id) fields arguments e, x.2.Inside (id + 1) := by
  refine historyAlong_forall (P := fun e l => ∃ rest k, l = rest.zipIdx k ∧
    (∀ i : Nat, fields[k + i]? = rest[i]?) ∧ Growing t₀ e.tree id k (room + 1) fields) ?_
    ⟨fields, 0, rfl, by simp, h⟩
  rintro e ⟨f, index⟩ l ⟨rest, k, hl, hrest, he⟩
  cases rest with
  | nil => cases hl
  | cons g rest =>
      rw [List.zipIdx_cons] at hl
      obtain ⟨hfirst, rfl⟩ := List.cons.inj hl
      cases hfirst
      refine ⟨fun x hx => ?_, rest, index + 1, rfl, fun i => ?_, ?_⟩
      · dsimp only at hx
        split at hx
        · exact fieldHistory_inside hinner he f _ x hx
        · cases hx
      · have hi := hrest (i + 1)
        rwa [List.getElem?_cons_succ, ← Nat.add_assoc, Nat.add_right_comm] at hi
      · exact buildNext_tree (P := fun k t => Growing t₀ t id k (room + 1) fields)
          (fun f => !f.isConst) arguments (fun _ _ => Growing.next)
          (fun _ _ _ argument hf h => buildField_growing hbuild h hf argument) (hrest 0) he

end Fields

section Instances

variable {outside : Table String Value} {room : Nat} {above : List String} {type : DataType}
  {name path : String} {parent : Option Nat} {arguments : List (String × Value)}
  {c : Component} {line : List Component} {fields : List Field} {functions : List Function}
  {e₁ : Elaboration}

theorem newInstance_inside (he : e.tree.Closed)
    (hinner : Insides (instanceHistory outside room above))
    (hadd : e.addInstance name path parent c line fields functions arguments = (e₁, id))
    (binds : List Bind) :
    (∀ x ∈ fieldsHistory (fun f => !f.isConst)
        (fun e => e.buildField (instantiate outside room above) id)
        (fun e => e.fieldHistory (instantiate outside room above)
          (instanceHistory outside room above) id) fields arguments
        (buildFields Field.isConst (fun e => e.buildConstant id) fields arguments e₁),
      x.2.Inside (id + 1)) ∧
    ∀ x ∈ (withTops outside id parent
        (withFields (instantiate outside room above) id fields arguments e₁)).bindsHistory id binds,
      x.2.Inside id := by
  obtain ⟨-, -, -, -, hgrowing⟩ := addInstance_growing he room _ _ _ _ _ _ _ hadd
  have hplants := instantiate_plants outside room above
  have hfields := withFields_growing hplants hgrowing arguments
  refine ⟨fieldsHistory_inside hplants hinner (constants_growing hgrowing arguments) arguments,
    bindsHistory_inside ?_ binds⟩
  exact Tree.Descends.alike hfields.branch.child (Connected.withTops outside id parent _).tree

end Instances

theorem instanceHistory_inside (outside : Table String Value) (room : Nat) (above : List String) :
    Insides (instanceHistory outside room above) := by
  induction room generalizing above with
  | zero =>
      intro e type name p arguments _ x hx
      cases hx
  | succ room ih =>
      intro e type name p arguments he x hx
      simp only [instanceHistory] at hx
      split at hx
      · cases hx
      rename_i c _
      split at hx
      · rename_i fields line functions _ _ _
        generalize hadd : e.addInstance name (pathBelow e.tree name (some p)) (some p) c line fields
          functions arguments = added at hx
        obtain ⟨e₁, id⟩ := added
        obtain ⟨rfl, -⟩ := addInstance_growing he room _ _ _ _ _ _ _ hadd
        obtain ⟨hbelow, hbinds⟩ := newInstance_inside he (ih (above ++ [c.name])) hadd
          (line.flatMap Component.binds)
        simp only [Option.isNone_some, Bool.false_eq_true, if_false, List.append_nil,
          List.mem_append] at hx
        rcases hx with hx | hx
        · exact (hbelow x hx).mono (Nat.le_succ _)
        · exact hbinds x hx
      · cases hx

end Elaboration

open Elaboration

/-- The values from outside are given to the root after its fields are built and before it is
connected. -/
theorem elaborationHistory_givenFirst (types : TypeTable) (objects : Objects) (top : String)
    (values : Table String Value) (settings : ElabSettings) :
    (elaborationHistory types objects top values settings).GivenFirst := by
  have hclosed : ({ ofTypes types with objects := objects } : Elaboration).tree.Closed :=
    fun f c hc => by cases hc
  rw [elaborationHistory]
  generalize ({ ofTypes types with objects := objects } : Elaboration) = e at hclosed
  simp only [instanceHistory]
  split
  · exact .nil
  rename_i c _
  split
  · rename_i fields line functions _ _ _
    generalize hadd : e.addInstance top (pathBelow e.tree top none) none c line fields functions []
      = added
    obtain ⟨e₁, id⟩ := added
    obtain ⟨hbelow, hbinds⟩ := newInstance_inside hclosed
      (instanceHistory_inside values settings.maxDepth ([] ++ [c.name])) hadd
      (line.flatMap Component.binds)
    have htops := topsHistory_given
      (withFields (instantiate values settings.maxDepth ([] ++ [c.name])) id fields [] e₁) id values
    simp only [Option.isNone_none, if_true]
    have late : ∀ {x y : Tree × Occurrence} {k : Nat}, y.2.Inside k → y.2.isGiven = true →
        x.2.isGiven = true ∨ x.2.target ≠ y.2.target := by
      intro x y k hy hgiven
      rw [hy.declared] at hgiven
      cases hgiven
    refine List.pairwise_append.mpr ⟨List.pairwise_append.mpr ⟨?_, ?_, ?_⟩, ?_, ?_⟩
    · exact List.pairwise_of_forall_mem_list fun x _ y hy => late (hbelow y hy)
    · exact List.pairwise_of_forall_mem_list fun x hx y _ _ => .inl (htops x hx).1
    · intro x hx y hy _
      refine .inr fun heq => ?_
      have hlt := (hbelow x hx).owner
      rw [heq, (htops y hy).2] at hlt
      exact Nat.lt_irrefl _ hlt
    · exact List.pairwise_of_forall_mem_list fun x _ y hy => late (hbinds y hy)
    · exact fun x _ y hy => late (hbinds y hy)
  · exact .nil

/-- A signal with one driver that is bound to no value starts with the value that the driver had
when the two were last bound. If the driver is neither bound nor given a value from then on, this is
the value that the driver starts with. -/
theorem bound_signal_starts_with {types : TypeTable} {objects : Objects} {top : String}
    {values : Table String Value} {settings : ElabSettings} {r : Elaborated}
    {log : List LogRecord} (h : elaborate types objects top values settings = (.ok r, log))
    {driver target : FieldRef} (hb : target ∈ r.tree.targets driver)
    (honly : ∀ d, target ∈ r.tree.targets d → d = driver)
    (hv : ∀ t v, (t, .valued target v) ∉ elaborationHistory types objects top values settings) :
    ∃ before made after sd st,
      elaborationHistory types objects top values settings =
        before ++ (made, .connected driver target) :: after ∧
      (∀ x ∈ after, x.2.target ≠ target) ∧
      made.SignalAt driver sd ∧ r.tree.SignalAt driver sd ∧ r.tree.SignalAt target st ∧
      r.tree.initial target st = (made.initial driver sd).fit st.width st.signed ∧
      ((∀ x ∈ after, x.2.target ≠ driver) →
        r.tree.initial target st = (r.tree.initial driver sd).fit st.width st.signed) := by
  have hnone : ∀ d, Tree.empty.targets d = [] := fun _ => rfl
  obtain ⟨before, made, after, sd, st, hlast⟩ := (elaborate_run h).lastBinding hnone hb honly hv
    (elaborationHistory_givenFirst types objects top values settings)
  refine ⟨before, made, after, sd, st, hlast.history, hlast.last, hlast.driverThen,
    hlast.driverNow, hlast.targetNow, hlast.value, ?_⟩
  intro hkept
  by_cases hself : driver = target
  · subst hself
    obtain rfl := hlast.driverNow.unique hlast.targetNow
    rw [hlast.value, Value.fit_fit]
  · rw [hlast.driverKept hself hkept, hlast.value]

theorem chain_history :
    (elaborationHistory chainDesign .empty "Top" .empty .standard).map
      (fun x => (x.2.driver?, x.2.target)) =
      [(some ⟨1, 0⟩, ⟨2, 0⟩), (some ⟨0, 0⟩, ⟨1, 0⟩)] := by
  decide +kernel

theorem chain_gives_no_value (t : Tree) (v : Value) :
    (t, .valued ⟨2, 0⟩ v) ∉ elaborationHistory chainDesign .empty "Top" .empty .standard := by
  intro hmem
  have hlisted := List.mem_map_of_mem (f := fun x => (x.2.driver?, x.2.target)) hmem
  rw [chain_history] at hlisted
  simp [Occurrence.driver?] at hlisted

theorem bound_signal_starts_with_leaf : ∃ r log,
    elaborate chainDesign .empty "Top" .empty .standard = (.ok r, log) ∧
      ∃ (made : Tree) (sd st : FieldSlot), made.SignalAt ⟨1, 0⟩ sd ∧ r.tree.SignalAt ⟨2, 0⟩ st ∧
        r.tree.initial ⟨2, 0⟩ st = (made.initial ⟨1, 0⟩ sd).fit st.width st.signed := by
  obtain ⟨r, log, hr, hb, hdrivers, -, -⟩ := chain_elaboration
  have honly : ∀ d, ⟨2, 0⟩ ∈ r.tree.targets d → d = ⟨1, 0⟩ := by
    intro d hd
    simpa [hdrivers] using Tree.mem_drivers hd
  obtain ⟨before, made, after, sd, st, -, -, hsd, -, hst, hvalue, -⟩ :=
    bound_signal_starts_with hr hb honly chain_gives_no_value
  exact ⟨r, log, hr, made, sd, st, hsd, hst, hvalue⟩

/-- The leaf starts with zero although `mid`, its one driver, starts with five. -/
theorem bound_signal_starts_apart : ∃ r log,
    elaborate chainDesign .empty "Top" .empty .standard = (.ok r, log) ∧
      ⟨2, 0⟩ ∈ r.tree.targets ⟨1, 0⟩ ∧ (∀ d, ⟨2, 0⟩ ∈ r.tree.targets d → d = ⟨1, 0⟩) ∧
      (∀ t v, (t, .valued ⟨2, 0⟩ v) ∉
        elaborationHistory chainDesign .empty "Top" .empty .standard) ∧
      ∃ sd st, r.tree.SignalAt ⟨1, 0⟩ sd ∧ r.tree.SignalAt ⟨2, 0⟩ st ∧
        r.tree.initial ⟨2, 0⟩ st ≠ (r.tree.initial ⟨1, 0⟩ sd).fit st.width st.signed := by
  obtain ⟨r, log, hr, hb, hdrivers, hdriver, htarget⟩ := chain_elaboration
  refine ⟨r, log, hr, hb, ?_, chain_gives_no_value, ?_⟩
  · intro d hd
    simpa [hdrivers] using Tree.mem_drivers hd
  · obtain ⟨sd, hsd, -, -, hfive⟩ := Tree.signal_of_startOf hdriver
    obtain ⟨st, hst, hwidth, hsigned, hzero⟩ := Tree.signal_of_startOf htarget
    refine ⟨sd, st, hsd, hst, ?_⟩
    rw [hfive, hzero, hwidth, hsigned]
    intro h
    exact absurd (Value.int.inj h) (by decide)

end Clockwork
