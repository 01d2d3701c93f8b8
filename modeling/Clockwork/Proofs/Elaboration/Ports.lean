import Clockwork.Proofs.Elaboration.PortRuns
/-!
What linked ports hold. They are bound together, at whatever level and in whatever order they are
linked and bound. They have the members of one interface, but for members that were added to one of
them after it was bound: these are seen through that port only.
-/

namespace Clockwork

/-- Joined ports are open together. They are open if none of them was ever bound; else each holds
the value that one of them was bound to, as its own type narrows it. -/
structure PortHistory.BoundTogether (h : PortHistory) (e : Elaboration) : Prop where
  alike : ∀ x y, e.Joined x y → e.isUnbound x = e.isUnbound y
  never : ∀ x, e.isUnbound x = true → ∀ e₁ f v, (e₁, .bound f v) ∈ h → ¬ e.Joined f x
  once : ∀ x, e.IsPort x → e.isUnbound x = false →
    ∃ e₁ f v, (e₁, .bound f v) ∈ h ∧ e.Joined f x
  holds : ∀ e₁ f v, (e₁, .bound f v) ∈ h → ∀ x, e.Joined f x → h.Holds e x v

theorem PortHistory.Coupled.boundTogether {h : PortHistory} {e : Elaboration} (hc : h.Coupled e) :
    h.BoundTogether e where
  alike x y hj := by
    rw [Bool.eq_iff_iff, Elaboration.isUnbound_iff, Elaboration.isUnbound_iff]
    exact ⟨hc.unbound_of_joined hj, hc.unbound_of_joined (hc.links.symm hj)⟩
  never x hx _ _ _ hf := hc.not_joined (Elaboration.isUnbound_iff.mp hx) hf
  once x hport hx := by
    refine hc.origin x hport fun hst => ?_
    rw [Elaboration.isUnbound_iff.mpr hst] at hx
    cases hx
  holds := hc.holds

namespace Elaboration

/-- An elaboration before anything is built. -/
def begin (types : TypeTable) (objects : Objects) : Elaboration :=
  { ofTypes types with objects := objects }

theorem begin_portless (types : TypeTable) (objects : Objects) :
    (begin types objects).Portless := by
  rintro f (h | h)
  · exact h rfl
  · exact h rfl

theorem begin_sane (known : Prop) (types : TypeTable) (objects : Objects) :
    (begin types objects).Sane known where
  fits f st h := absurd (Tree.lt_size_of_storage? h) (Nat.not_lt_zero _)
  links a b h := by cases h
  absent f _ := begin_portless types objects f

/-- Every elaboration is a run of ports. Where the values from outside hold existing interfaces
only, this is so for all values that ports are bound to. -/
theorem instantiate_run {known : Prop} {types : TypeTable} {objects : Objects}
    {values : Table String Value} {room : Nat} {above : List String} {type : DataType}
    {name : String} {parent : Option Nat} {arguments : List (String × Value)} {e : Elaboration}
    {id : Nat} (hvalues : known → ∀ x ∈ values.entries, x.2.Known objects.interfaces.size)
    (harguments : known → ∀ x ∈ arguments, x.2.Known objects.interfaces.size)
    (h : instantiate values room above (begin types objects) type name parent arguments =
      .ok (e, id)) : ∃ h, PortRun (begin types objects) h e ∧ (known → h.Existing) :=
  (PortSteps.instantiate hvalues room above _ _ _ _ _ _ _ (begin_sane known types objects)
    (Nat.le_refl _) harguments h).1.run

end Elaboration

open Elaboration

/-- At every moment of a run linked ports are bound together, and every elaboration is a run. -/
theorem linked_ports_bound_together :
    (∀ (start e : Elaboration) (h : PortHistory), start.Portless → PortRun start h e →
      h.BoundTogether e ∧ ∀ (before : PortHistory) e₁ x after, h = before ++ (e₁, x) :: after →
        before.BoundTogether e₁) ∧
    ∀ (types : TypeTable) (objects : Objects) (values : Table String Value) (room : Nat)
      (above : List String) (type : DataType) (name : String) (parent : Option Nat)
      (arguments : List (String × Value)) (e : Elaboration) (id : Nat),
      instantiate values room above (begin types objects) type name parent arguments =
          .ok (e, id) →
        (begin types objects).Portless ∧ ∃ h, PortRun (begin types objects) h e := by
  refine ⟨fun start e h hstart hrun => ⟨(hrun.coupled hstart).boundTogether, ?_⟩, ?_⟩
  · intro before e₁ x after heq
    exact ((hrun.moment heq).coupled hstart).boundTogether
  · intro types objects values room above type name parent arguments e id hbuilt
    obtain ⟨h, hrun, -⟩ := instantiate_run (fun h : False => h.elim) (fun h => h.elim) hbuilt
    exact ⟨begin_portless types objects, h, hrun⟩

def Elaboration.handle? (e : Elaboration) (f : FieldRef) : Option Handle :=
  match e.tree.storage? f with
  | some (.object (.obj h)) => some h
  | _ => none

/-- Three ports of a child are linked in a ring, before the root binds one of them to a channel. -/
def ringDesign : TypeTable :=
  ⟨[⟨"Child", .component { Component.ofName "Child" with
      body := { Body.ofName "Child" with
        fields := [{ Field.ofType "p" (.channel (.int 8 false) 2) with kind := .port },
          { Field.ofType "q" (.getEnd (.int 8 false)) with kind := .port },
          { Field.ofType "r" (.putEnd (.int 8 false)) with kind := .port }] }
      binds := [⟨.ownField 0, .ownField 1⟩, ⟨.ownField 1, .ownField 2⟩,
        ⟨.ownField 2, .ownField 0⟩] }⟩,
    ⟨"Top", .component { Component.ofName "Top" with
      body := { Body.ofName "Top" with
        fields := [.ofType "ch" (.channel (.int 8 false) 2), .ofType "c" (.ref "Child")] }
      binds := [⟨.childField 1 2, .ownField 0⟩] }⟩], by decide⟩

theorem linked_ports_bound_together_in_ring : ∃ e id h,
    instantiate .empty 2 [] (begin ringDesign .empty) (.ref "Top") "Top" none [] = .ok (e, id) ∧
      PortRun (begin ringDesign .empty) h e ∧ h.BoundTogether e ∧
      e.handle? ⟨1, 0⟩ = some (.channel 0) ∧ e.handle? ⟨1, 1⟩ = some (.getEnd 0) ∧
      e.handle? ⟨1, 2⟩ = some (.putEnd 0) := by
  have hchecked : ((instantiate .empty 2 [] (begin ringDesign .empty) (.ref "Top") "Top" none
      []).toOption.map fun r => decide (r.1.handle? ⟨1, 0⟩ = some (.channel 0) ∧
        r.1.handle? ⟨1, 1⟩ = some (.getEnd 0) ∧ r.1.handle? ⟨1, 2⟩ = some (.putEnd 0))) =
      some true := by
    decide +kernel
  cases hbuilt : instantiate .empty 2 [] (begin ringDesign .empty) (.ref "Top") "Top" none [] with
  | error error =>
      rw [hbuilt] at hchecked
      cases hchecked
  | ok r =>
      rw [hbuilt] at hchecked
      obtain ⟨e, id⟩ := r
      obtain ⟨hstart, h, hrun⟩ := linked_ports_bound_together.2 _ _ _ _ _ _ _ _ _ e id hbuilt
      exact ⟨e, id, h, rfl, hrun, (linked_ports_bound_together.1 _ e h hstart hrun).1,
        of_decide_eq_true (Option.some.inj hchecked)⟩

/-- Linked ports that hold an interface have the members of one interface, but for those that were
added to one of them after it was bound: these are seen through that port, the last one of a name.
So a name means the same at two linked ports unless a member of that name was added to one. -/
theorem linked_ports_share_interface {types : TypeTable} {objects : Objects} {top : String}
    {values : Table String Value} {settings : ElabSettings} {e : Elaboration} {id : Nat}
    (hvalues : ∀ x ∈ values.entries, x.2.Known objects.interfaces.size)
    (hbuilt : instantiate values (settings.maxDepth + 1) [] (begin types objects) (.ref top) top
      none [] = .ok (e, id)) :
    ∃ h, PortRun (begin types objects) h e ∧ ∀ x k, e.IsPort x → e.interface? x = some k →
      ∃ shared : Table String Value, ∀ y, e.Joined x y → (∃ k, e.interface? y = some k) ∧
        ∀ name, e.member? y name = (h.lastAdded y name).or (shared.get? name) := by
  obtain ⟨h, hrun, hex⟩ := instantiate_run (fun _ : True => hvalues) (by simp) hbuilt
  refine ⟨h, hrun, fun x k hport hk => ?_⟩
  have hstart := begin_portless types objects
  obtain ⟨e₁, f, i, hf, hj⟩ := (hrun.coupled hstart).bound_to_interface hport hk
  obtain ⟨-, hmembers⟩ := hrun.shared hstart (hex trivial) e₁ f i hf
  refine ⟨e.objects.interface i, fun y hy => ?_⟩
  obtain ⟨k', hk', -, hget⟩ := hmembers y (hj.trans hy)
  refine ⟨⟨k', hk'⟩, fun name => ?_⟩
  rw [member?, hk', Option.bind_some, hget]

theorem elaborate_of_instantiate {types : TypeTable} {objects : Objects} {top : String}
    {values : Table String Value} {settings : ElabSettings} {e : Elaboration} {id : Nat}
    (htop : (types.type? top).isSome)
    (h : instantiate values (settings.maxDepth + 1) [] (begin types objects) (.ref top) top none
      [] = .ok (e, id)) (herrors : e.errors = [])
    (hports : openPorts (e.tree.inst Tree.root) = []) :
    (elaborate types objects top values settings).1 = .ok ⟨e.tree, e.objects⟩ := by
  have hsome : (types.type? top).isNone = false := by
    rw [Option.isNone_eq_false_iff]
    exact htop
  simp only [elaborate, hsome]
  rw [begin] at h
  simp [h, checkTop, hports, finish, herrors]

def memberDesign : TypeTable :=
  ⟨[⟨"Child", .component { Component.ofName "Child" with
      body := { Body.ofName "Child" with
        fields := [
          { Field.ofType "p" (.protocol "Api" [.ofName "m1", .ofName "m2"]) with kind := .port },
          { Field.ofType "q" (.protocol "Api" [.ofName "m1", .ofName "m2"]) with
            kind := .port }] }
      binds := [⟨.ownField 1, .ownField 0⟩] }⟩,
    ⟨"Top", .component { Component.ofName "Top" with
      body := { Body.ofName "Top" with
        fields := [.ofType "c" (.ref "Child")]
        functions := [.ofName "f", .ofName "g"] }
      binds := [⟨.member (.childField 0 0) "m1", .member .self "f"⟩,
        ⟨.member (.childField 0 0) "m2", .member .self "g"⟩] }⟩], by decide⟩

/-- The root is elaborated without a fault. Its second function is a member of one of the linked
ports only. -/
theorem memberDesign_instantiate : ∃ e id,
    instantiate .empty 65 [] (begin memberDesign .empty) (.ref "Top") "Top" none [] =
        .ok (e, id) ∧
      e.errors = [] ∧ openPorts (e.tree.inst Tree.root) = [] ∧ ⟨1, 1⟩ ∈ e.linked ⟨1, 0⟩ ∧
      e.interface? ⟨1, 0⟩ = some 1 ∧ e.interface? ⟨1, 1⟩ = some 0 ∧
      (e.member? ⟨1, 0⟩ "m2").isSome ∧ (e.member? ⟨1, 1⟩ "m2").isNone := by
  have hchecked : ((instantiate .empty 65 [] (begin memberDesign .empty) (.ref "Top") "Top" none
      []).toOption.map fun r => decide (r.1.errors = [] ∧
        openPorts (r.1.tree.inst Tree.root) = [] ∧ ⟨1, 1⟩ ∈ r.1.linked ⟨1, 0⟩ ∧
        r.1.interface? ⟨1, 0⟩ = some 1 ∧ r.1.interface? ⟨1, 1⟩ = some 0 ∧
        (r.1.member? ⟨1, 0⟩ "m2").isSome ∧ (r.1.member? ⟨1, 1⟩ "m2").isNone)) = some true := by
    decide +kernel
  cases hbuilt : instantiate .empty 65 [] (begin memberDesign .empty) (.ref "Top") "Top" none []
    with
  | error error =>
      rw [hbuilt] at hchecked
      cases hchecked
  | ok r =>
      rw [hbuilt] at hchecked
      exact ⟨r.1, r.2, rfl, of_decide_eq_true (Option.some.inj hchecked)⟩

theorem linked_ports_share_interface_of_members : ∃ e h,
    PortRun (begin memberDesign .empty) h e ∧ e.IsPort ⟨1, 0⟩ ∧ e.interface? ⟨1, 0⟩ = some 1 ∧
      ∃ shared : Table String Value, ∀ y, e.Joined ⟨1, 0⟩ y → (∃ k, e.interface? y = some k) ∧
        ∀ name, e.member? y name = (h.lastAdded y name).or (shared.get? name) := by
  obtain ⟨e, id, hbuilt, -, -, hlinked, hp, -⟩ := memberDesign_instantiate
  have hvalues : ∀ x ∈ (Table.empty : Table String Value).entries, x.2.Known 0 := by
    simp [Table.empty]
  have hport : e.IsPort ⟨1, 0⟩ := .inr (List.ne_nil_of_mem hlinked)
  have hstandard : instantiate .empty (ElabSettings.standard.maxDepth + 1) []
      (begin memberDesign .empty) (.ref "Top") "Top" none [] = .ok (e, id) := hbuilt
  obtain ⟨h, hrun, hshared⟩ := linked_ports_share_interface hvalues hstandard
  exact ⟨e, h, hrun, hport, hp, hshared ⟨1, 0⟩ 1 hport hp⟩

/-- A member is added to one of two linked ports, and the other one does not get it. -/
theorem linked_ports_members_differ : ∃ e id,
    instantiate .empty 65 [] (begin memberDesign .empty) (.ref "Top") "Top" none [] =
        .ok (e, id) ∧
      (elaborate memberDesign .empty "Top" .empty .standard).1 = .ok ⟨e.tree, e.objects⟩ ∧
      e.Joined ⟨1, 0⟩ ⟨1, 1⟩ ∧ e.interface? ⟨1, 0⟩ = some 1 ∧ e.interface? ⟨1, 1⟩ = some 0 ∧
      e.member? ⟨1, 0⟩ "m2" ≠ e.member? ⟨1, 1⟩ "m2" := by
  obtain ⟨e, id, hbuilt, herrors, hports, hlinked, hp, hq, hm, hn⟩ := memberDesign_instantiate
  refine ⟨e, id, hbuilt, elaborate_of_instantiate (by decide) hbuilt herrors hports,
    Relation.ReflTransGen.single hlinked, hp, hq, ?_⟩
  intro heq
  rw [heq, Option.isSome_iff_ne_none] at hm
  exact hm (Option.isNone_iff_eq_none.mp hn)

end Clockwork
