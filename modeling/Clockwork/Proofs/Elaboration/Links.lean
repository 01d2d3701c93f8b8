import Mathlib.Data.List.Perm.Subperm
import Mathlib.Logic.Relation
import Clockwork.Elaboration.State
import Clockwork.Proofs.Results
import Clockwork.Proofs.Tree.Storage

namespace Clockwork

namespace Elaboration

theorem isUnbound_iff {e : Elaboration} {f : FieldRef} :
    e.isUnbound f = true ↔ e.tree.storage? f = some .unbound := by
  unfold isUnbound
  split
  · rename_i s hs
    rw [Tree.storage?_of_slot hs, Option.some.injEq]
    cases s.storage <;> simp [Storage.isUnbound]
  · rename_i hs
    constructor
    · intro h
      cases h
    · intro h
      obtain ⟨s, hok, -⟩ := Tree.slot_of_storage? h
      rw [hok] at hs
      cases hs

/-- Two ports are the same, or linked directly or through other ports. -/
def Joined (e : Elaboration) : FieldRef → FieldRef → Prop :=
  Relation.ReflTransGen fun a b => b ∈ e.linked a

def Mutual (e : Elaboration) : Prop := ∀ a b, b ∈ e.linked a → a ∈ e.linked b

variable {e e' : Elaboration}

theorem linked_congr (h : e'.links = e.links) (f : FieldRef) : e'.linked f = e.linked f := by
  rw [linked, linked, h]

theorem joined_congr (h : e'.links = e.links) (a b : FieldRef) :
    e'.Joined a b ↔ e.Joined a b := by
  simp only [Joined, linked_congr h]

theorem mutual_congr (h : e'.links = e.links) : e'.Mutual ↔ e.Mutual := by
  simp only [Mutual, linked_congr h]

theorem Joined.refl (e : Elaboration) (f : FieldRef) : e.Joined f f := Relation.ReflTransGen.refl

theorem Joined.trans {a b c : FieldRef} (h : e.Joined a b) (h' : e.Joined b c) : e.Joined a c :=
  Relation.ReflTransGen.trans h h'

theorem Mutual.symm (he : e.Mutual) {a b : FieldRef} (h : e.Joined a b) : e.Joined b a := by
  induction h with
  | refl => exact .refl e a
  | tail _ hlast ih => exact Relation.ReflTransGen.head (he _ _ hlast) ih

theorem Joined.eq_of_unlinked {a b : FieldRef} (h : e.Joined a b) (ha : e.linked a = []) :
    b = a := by
  rcases Relation.ReflTransGen.cases_head h with rfl | ⟨c, hc, -⟩
  · rfl
  · rw [ha] at hc
    cases hc

theorem Joined.linked_ne_nil {a b : FieldRef} (h : e.Joined a b) (hne : b ≠ a) :
    e.linked a ≠ [] := fun ha => hne (h.eq_of_unlinked ha)

theorem mem_linked_link (e : Elaboration) (a b f g : FieldRef) :
    g ∈ (e.link a b).linked f ↔ g ∈ e.linked f ∨ (f = a ∧ g = b) ∨ (f = b ∧ g = a) := by
  have hfirst : ∀ f, g ∈ ((e.links.insert a ((e.links.get? a).getD [] ++ [b])).get? f).getD [] ↔
      g ∈ e.linked f ∨ (f = a ∧ g = b) := by
    intro f
    by_cases hf : f = a
    · subst hf
      simp [linked]
    · simp [Table.get?_insert_of_ne _ hf, linked, hf]
  by_cases hf : f = b
  · subst hf
    simp only [link, linked, Table.get?_insert_self, Option.getD_some, List.mem_append]
    rw [hfirst]
    simp [or_assoc, linked]
  · simp only [link, linked, Table.get?_insert_of_ne _ hf]
    rw [hfirst]
    simp [hf, linked]

theorem Mutual.link (he : e.Mutual) (a b : FieldRef) : (e.link a b).Mutual := by
  intro f g hg
  rw [mem_linked_link] at hg ⊢
  rcases hg with hg | ⟨rfl, rfl⟩ | ⟨rfl, rfl⟩
  · exact .inl (he f g hg)
  · exact .inr (.inr ⟨rfl, rfl⟩)
  · exact .inr (.inl ⟨rfl, rfl⟩)

theorem Joined.link {f g : FieldRef} (h : e.Joined f g) (a b : FieldRef) :
    (e.link a b).Joined f g := by
  induction h with
  | refl => exact .refl _ f
  | tail _ hlast ih =>
      exact Relation.ReflTransGen.tail ih ((mem_linked_link e a b _ _).mpr (.inl hlast))

theorem joined_of_link {a b f g : FieldRef} (h : (e.link a b).Joined f g) :
    e.Joined f g ∨ ((e.Joined f a ∨ e.Joined f b) ∧ (e.Joined a g ∨ e.Joined b g)) := by
  induction h with
  | refl => exact .inl (.refl e f)
  | @tail g g' _ hlast ih =>
      rcases (mem_linked_link e a b g g').mp hlast with hold | ⟨rfl, rfl⟩ | ⟨rfl, rfl⟩
      · have hstep : e.Joined g g' := Relation.ReflTransGen.single hold
        rcases ih with hjoined | ⟨hleft, hright⟩
        · exact .inl (hjoined.trans hstep)
        · exact .inr ⟨hleft, hright.imp (·.trans hstep) (·.trans hstep)⟩
      · rcases ih with hjoined | ⟨hleft, -⟩
        · exact .inr ⟨.inl hjoined, .inr (.refl e _)⟩
        · exact .inr ⟨hleft, .inr (.refl e _)⟩
      · rcases ih with hjoined | ⟨hleft, -⟩
        · exact .inr ⟨.inr hjoined, .inl (.refl e _)⟩
        · exact .inr ⟨hleft, .inl (.refl e _)⟩

/-- An elaboration that differs from another one in the storage of fields only. -/
structure Rebound (e e' : Elaboration) : Prop where
  links : e'.links = e.links
  declared : e'.declared = e.declared
  objects : e'.objects = e.objects
  size : e'.tree.size = e.tree.size

theorem Rebound.refl (e : Elaboration) : Rebound e e := ⟨rfl, rfl, rfl, rfl⟩

theorem Rebound.trans {e₁ : Elaboration} (h : Rebound e e₁) (h₁ : Rebound e₁ e') : Rebound e e' :=
  ⟨h₁.links.trans h.links, h₁.declared.trans h.declared, h₁.objects.trans h.objects,
    h₁.size.trans h.size⟩

theorem setStorage_rebound (e : Elaboration) (f : FieldRef) (st : Storage) :
    Rebound e (e.setStorage f st) := ⟨rfl, rfl, rfl, e.tree.size_setStorage f st⟩

theorem storage?_setStorage (e : Elaboration) (f : FieldRef) (st : Storage) (g : FieldRef) :
    (e.setStorage f st).tree.storage? g =
      if g = f then (e.tree.storage? f).map fun _ => st else e.tree.storage? g :=
  e.tree.storage?_setStorage f st g

/-- The ports of a list that were not listed before, each one once. -/
def unseen (seen linked : List FieldRef) : List FieldRef :=
  linked.foldl (fun l g => if g ∈ seen ++ l then l else l ++ [g]) []

theorem mem_unseen (seen linked : List FieldRef) (g : FieldRef) :
    g ∈ unseen seen linked ↔ g ∈ linked ∧ g ∉ seen := by
  rw [unseen, mem_foldl_unseen]
  simp

theorem nodup_unseen (seen linked : List FieldRef) : (unseen seen linked).Nodup :=
  nodup_foldl_unseen seen linked .nil

theorem bindFrom_cons (v : Value) (room : Nat) (f : FieldRef) (work seen : List FieldRef)
    (e : Elaboration) {e₁ : Elaboration}
    (h : e₁ = e.setStorage f (.object (narrow (e.declared.get? f) v))) :
    bindFrom v (room + 1) (f :: work) seen e =
      bindFrom v room ((unseen seen (e.linked f)).filter e₁.isUnbound ++ work)
        (seen ++ unseen seen (e.linked f)) e₁ := by
  subst h
  rfl

theorem bindFrom_rebound (v : Value) (room : Nat) (work seen : List FieldRef) (e : Elaboration) :
    Rebound e (bindFrom v room work seen e) := by
  induction room generalizing work seen e with
  | zero => exact .refl e
  | succ room ih =>
      cases work with
      | nil => exact .refl e
      | cons f work => exact (e.setStorage_rebound f _).trans (ih _ _ _)

theorem bindObject_rebound (e : Elaboration) (f : FieldRef) (v : Value) :
    Rebound e (e.bindObject f v) := bindFrom_rebound v _ _ _ e

/-- A field that binding along links changes holds the value then, and it was listed or linked. -/
theorem bindFrom_storage (v : Value) (room : Nat) (work seen : List FieldRef) (e : Elaboration)
    {g : FieldRef} (hg : (bindFrom v room work seen e).tree.storage? g ≠ e.tree.storage? g) :
    (∃ d, (bindFrom v room work seen e).tree.storage? g = some (.object (narrow d v))) ∧
      (g ∈ work ∨ ∃ x, g ∈ e.linked x) := by
  induction room generalizing work seen e with
  | zero => exact absurd rfl hg
  | succ room ih =>
      cases work with
      | nil => exact absurd rfl hg
      | cons f work =>
          generalize he₁ : e.setStorage f (.object (narrow (e.declared.get? f) v)) = e₁
          rw [bindFrom_cons v room f work seen e he₁.symm] at hg ⊢
          have hset := e.storage?_setStorage f (.object (narrow (e.declared.get? f) v)) g
          rw [he₁] at hset
          by_cases hlater :
              (bindFrom v room ((unseen seen (e.linked f)).filter e₁.isUnbound ++ work)
              (seen ++ unseen seen (e.linked f)) e₁).tree.storage? g = e₁.tree.storage? g
          · -- The first port of the list is the one that changed.
            rw [hlater] at hg ⊢
            rw [hset] at hg ⊢
            split at hg
            · rename_i hgf
              subst hgf
              cases hst : e.tree.storage? g with
              | none => simp [hst] at hg
              | some st => exact ⟨⟨e.declared.get? g, by simp⟩, .inl List.mem_cons_self⟩
            · exact absurd rfl hg
          · obtain ⟨hw, hlisted | ⟨x, hx⟩⟩ := ih _ _ _ hlater
            · refine ⟨hw, ?_⟩
              rcases List.mem_append.mp hlisted with hfresh | hwork
              · exact .inr ⟨f, ((mem_unseen seen _ g).mp (List.mem_filter.mp hfresh).1).1⟩
              · exact .inl (List.mem_cons_of_mem _ hwork)
            · subst he₁
              exact ⟨hw, .inr ⟨x, hx⟩⟩

/-- Binding along links leaves a field alone that is not open and not listed. -/
theorem bindFrom_kept (v : Value) (room : Nat) {work seen : List FieldRef}
    {e : Elaboration} {g : FieldRef} (hg : e.tree.storage? g ≠ some .unbound) (hwork : g ∉ work) :
    (bindFrom v room work seen e).tree.storage? g = e.tree.storage? g := by
  induction room generalizing work seen e with
  | zero => rfl
  | succ room ih =>
      cases work with
      | nil => rfl
      | cons f work =>
          rw [List.mem_cons, not_or] at hwork
          obtain ⟨hgf, hwork⟩ := hwork
          generalize he₁ : e.setStorage f (.object (narrow (e.declared.get? f) v)) = e₁
          rw [bindFrom_cons v room f work seen e he₁.symm]
          have hset : e₁.tree.storage? g = e.tree.storage? g := by
            rw [← he₁]
            exact (e.tree.storage?_setStorage f _ g).trans (if_neg hgf)
          rw [ih (hset ▸ hg), hset]
          rw [List.mem_append, List.mem_filter, isUnbound_iff, hset]
          rintro (⟨-, hopen⟩ | hlater)
          · exact hg hopen
          · exact hwork hlater

theorem bindObject_storage (e : Elaboration) (f : FieldRef) (v : Value) {g : FieldRef}
    (hg : (e.bindObject f v).tree.storage? g ≠ e.tree.storage? g) :
    (∃ d, (e.bindObject f v).tree.storage? g = some (.object (narrow d v))) ∧
      (g = f ∨ ∃ x, g ∈ e.linked x) := by
  obtain ⟨hw, hlisted⟩ := bindFrom_storage v _ _ _ e hg
  exact ⟨hw, hlisted.imp_left List.mem_singleton.mp⟩

theorem mem_keys_of_linked {f g : FieldRef} (h : g ∈ e.linked f) : f ∈ e.links.keys := by
  rw [linked, Table.get?] at h
  cases hfind : e.links.entries.find? fun x => decide (x.1 = f) with
  | none => simp [hfind] at h
  | some x =>
      have hkey : x.1 = f := by simpa using List.find?_some hfind
      exact List.mem_map.mpr ⟨x, List.mem_of_find?_eq_some hfind, hkey⟩

/-- A walk along the links of an elaboration from a port, with the ports that are bound so far,
those that are bound next and all that were listed. -/
structure Walk (e₀ : Elaboration) (f : FieldRef) (v : Value) (done work seen : List FieldRef)
    (e : Elaboration) : Prop where
  rebound : Rebound e₀ e
  storage : ∀ g, e.tree.storage? g =
    if g ∈ done then some (.object (narrow (e₀.declared.get? g) v)) else e₀.tree.storage? g
  start : f ∈ seen
  nodup : (done ++ work).Nodup
  listed : ∀ g, g ∈ seen ↔ g ∈ done ∨ g ∈ work
  joined : ∀ g ∈ seen, e₀.Joined f g
  closed : ∀ g ∈ done, ∀ x ∈ e₀.linked g, x ∈ seen

namespace Walk

variable {e₀ : Elaboration} {f : FieldRef} {v : Value} {done work seen : List FieldRef}

theorem begin (e₀ : Elaboration) (f : FieldRef) (v : Value) : Walk e₀ f v [] [f] [f] e₀ where
  rebound := .refl e₀
  storage g := by simp
  start := by simp
  nodup := by simp
  listed g := by simp
  joined g hg := by
    rw [List.mem_singleton.mp hg]
    exact .refl e₀ f
  closed g hg := by cases hg

/-- One port is bound, and those that it leads to are listed. -/
theorem step {g : FieldRef} (h : Walk e₀ f v done (g :: work) seen e)
    (hopen : ∀ x, e₀.Joined f x → e₀.tree.storage? x = some .unbound)
    (he : e' = e.setStorage g (.object (narrow (e.declared.get? g) v))) :
    Walk e₀ f v (done ++ [g]) ((unseen seen (e.linked g)).filter e'.isUnbound ++ work)
      (seen ++ unseen seen (e.linked g)) e' := by
  have hlinked : e.linked g = e₀.linked g := linked_congr h.rebound.links g
  have hg : g ∈ seen := (h.listed g).mpr (.inr List.mem_cons_self)
  have hnew : ∀ x, x ∈ unseen seen (e.linked g) ↔ x ∈ e₀.linked g ∧ x ∉ seen := by
    intro x
    rw [mem_unseen, hlinked]
  have hjoined : ∀ x ∈ e₀.linked g, e₀.Joined f x := fun x hx =>
    Relation.ReflTransGen.tail (h.joined g hg) hx
  have hstorage : ∀ x, e'.tree.storage? x =
      if x ∈ done ++ [g] then some (.object (narrow (e₀.declared.get? x) v))
      else e₀.tree.storage? x := by
    intro x
    have hnot : g ∉ done := fun hdone =>
      (List.nodup_append.mp h.nodup).2.2 g hdone g List.mem_cons_self rfl
    rw [he, storage?_setStorage, h.storage x]
    by_cases hx : x = g
    · subst hx
      simp [h.storage x, hnot, hopen x (h.joined x hg), h.rebound.declared]
    · simp [hx]
  -- A port that is new was not bound before, so it is still open.
  have hkept : (unseen seen (e.linked g)).filter e'.isUnbound = unseen seen (e.linked g) := by
    refine List.filter_eq_self.mpr fun x hx => ?_
    obtain ⟨hx, hnot⟩ := (hnew x).mp hx
    rw [isUnbound_iff, hstorage, if_neg, hopen x (hjoined x hx)]
    intro hdone
    rcases List.mem_append.mp hdone with hdone | hlast
    · exact hnot ((h.listed x).mpr (.inl hdone))
    · exact hnot (List.mem_singleton.mp hlast ▸ hg)
  rw [hkept]
  refine ⟨h.rebound.trans (he ▸ e.setStorage_rebound g _), hstorage, List.mem_append_left _ h.start,
    ?_, ?_, ?_, ?_⟩
  · have hold : (done ++ [g] ++ work).Nodup := by simpa using h.nodup
    have hperm : (unseen seen (e.linked g) ++ (done ++ [g] ++ work)).Perm
        (done ++ [g] ++ (unseen seen (e.linked g) ++ work)) := by
      have hcomm : (unseen seen (e.linked g) ++ (done ++ [g])).Perm
          (done ++ [g] ++ unseen seen (e.linked g)) := List.perm_append_comm
      simpa only [List.append_assoc] using hcomm.append_right work
    refine hperm.nodup_iff.mp (List.nodup_append.mpr ⟨nodup_unseen _ _, hold, ?_⟩)
    rintro x hx y hy rfl
    refine ((hnew x).mp hx).2 ((h.listed x).mpr ?_)
    simpa [or_assoc] using hy
  · intro x
    simp only [List.mem_append, h.listed x, List.mem_cons, List.not_mem_nil, or_false]
    tauto
  · intro x hx
    rcases List.mem_append.mp hx with hx | hx
    · exact h.joined x hx
    · exact hjoined x ((hnew x).mp hx).1
  · intro x hx y hy
    rcases List.mem_append.mp hx with hx | hx
    · exact List.mem_append_left _ (h.closed x hx y hy)
    · rw [List.mem_singleton.mp hx] at hy
      by_cases hseen : y ∈ seen
      · exact List.mem_append_left _ hseen
      · exact List.mem_append_right _ ((hnew y).mpr ⟨hy, hseen⟩)

theorem length_le (h : Walk e₀ f v done work seen e) (hlinks : e₀.Mutual) :
    done.length + work.length ≤ e₀.links.size + 1 := by
  have hsub : done ++ work ⊆ f :: e₀.links.keys := by
    intro g hg
    have hjoined := h.joined g ((h.listed g).mpr (List.mem_append.mp hg))
    rcases Relation.ReflTransGen.cases_tail hjoined with rfl | ⟨x, -, hlast⟩
    · exact List.mem_cons_self
    · exact List.mem_cons_of_mem _ (mem_keys_of_linked (hlinks x g hlast))
  have hle := (List.subperm_of_subset h.nodup hsub).length_le
  simpa [Table.keys, Table.size] using hle

theorem run (hlinks : e₀.Mutual)
    (hopen : ∀ x, e₀.Joined f x → e₀.tree.storage? x = some .unbound) {room : Nat}
    (h : Walk e₀ f v done work seen e) (hroom : e₀.links.size + 1 ≤ room + done.length) :
    ∃ done' seen', Walk e₀ f v done' [] seen' (bindFrom v room work seen e) := by
  induction room generalizing done work seen e with
  | zero =>
      have hempty : work = [] := by
        have hle := h.length_le hlinks
        exact List.eq_nil_of_length_eq_zero (by omega)
      subst hempty
      exact ⟨done, seen, h⟩
  | succ room ih =>
      cases work with
      | nil => exact ⟨done, seen, h⟩
      | cons g work =>
          rw [bindFrom_cons v room g work seen e rfl]
          exact ih (h.step hopen rfl) (by simp; omega)

theorem mem_done_iff (h : Walk e₀ f v done [] seen e) (g : FieldRef) :
    g ∈ done ↔ e₀.Joined f g := by
  have hseen : ∀ x, x ∈ seen ↔ x ∈ done := fun x => by simpa using h.listed x
  constructor
  · exact fun hg => h.joined g ((hseen g).mpr hg)
  · intro hg
    induction hg with
    | refl => exact (hseen f).mp h.start
    | tail _ hlast ih => exact (hseen _).mp (h.closed _ ih _ hlast)

end Walk

/-- If all ports joined with a port are open, then binding it binds these and no others, each to
the value as its own type narrows it. -/
theorem bindObject_storage_iff (hlinks : e.Mutual) {f : FieldRef}
    (hopen : ∀ g, e.Joined f g → e.tree.storage? g = some .unbound) (v : Value) (g : FieldRef) :
    (e.Joined f g → (e.bindObject f v).tree.storage? g =
      some (.object (narrow (e.declared.get? g) v))) ∧
    (¬ e.Joined f g → (e.bindObject f v).tree.storage? g = e.tree.storage? g) := by
  have hroom : e.links.size + 1 ≤ (e.links.size + 1) + ([] : List FieldRef).length := by simp
  obtain ⟨done, seen, h⟩ := (Walk.begin e f v).run hlinks hopen hroom
  rw [bindObject, h.storage g]
  exact ⟨fun hg => if_pos ((h.mem_done_iff g).mpr hg),
    fun hg => if_neg fun hdone => hg ((h.mem_done_iff g).mp hdone)⟩

/-- Binding ports one after the other, with nothing that limits it. -/
inductive Spreads (v : Value) :
    (work seen : List FieldRef) → (before after : Elaboration) → Prop
  | done {seen : List FieldRef} {e : Elaboration} : Spreads v [] seen e e
  | bind {f : FieldRef} {work seen : List FieldRef} {e e₁ e' : Elaboration}
      (he : e₁ = e.setStorage f (.object (narrow (e.declared.get? f) v)))
      (h : Spreads v ((unseen seen (e.linked f)).filter e₁.isUnbound ++ work)
        (seen ++ unseen seen (e.linked f)) e₁ e') : Spreads v (f :: work) seen e e'

/-- Ports are listed once, and only those that have links. So there is room for all of them. -/
theorem spreads_bindFrom {e : Elaboration} (he : e.Mutual) (v : Value) (f : FieldRef) {room : Nat}
    {work seen : List FieldRef} (hnodup : seen.Nodup) (hsub : seen ⊆ f :: e.links.keys)
    (hroom : work.length + (e.links.size + 1) ≤ room + seen.length) :
    Spreads v work seen e (bindFrom v room work seen e) := by
  induction room generalizing work seen e with
  | zero =>
      have hle := (List.subperm_of_subset hnodup hsub).length_le
      obtain rfl : work = [] := by
        rw [List.length_cons, Table.keys, List.length_map] at hle
        rw [Table.size] at hroom
        exact List.eq_nil_of_length_eq_zero (by omega)
      exact .done
  | succ room ih =>
      cases work with
      | nil => exact .done
      | cons g work =>
          generalize he₁ : e.setStorage g (.object (narrow (e.declared.get? g) v)) = e₁
          rw [bindFrom_cons v room g work seen e he₁.symm]
          have hlinks : e₁.links = e.links := he₁ ▸ rfl
          refine .bind he₁.symm (ih ((mutual_congr hlinks).mpr he) ?_ ?_ ?_)
          · refine List.nodup_append.mpr ⟨hnodup, nodup_unseen _ _, ?_⟩
            rintro x hx y hy rfl
            exact ((mem_unseen _ _ _).mp hy).2 hx
          · rw [hlinks]
            refine List.append_subset.mpr ⟨hsub, fun x hx => List.mem_cons_of_mem _ ?_⟩
            exact mem_keys_of_linked (he g x ((mem_unseen _ _ _).mp hx).1)
          · have hfilter := List.length_filter_le e₁.isUnbound (unseen seen (e.linked g))
            rw [hlinks, List.length_append, List.length_append]
            rw [List.length_cons] at hroom
            omega

theorem spreads_bindObject {e : Elaboration} (he : e.Mutual) (f : FieldRef) (v : Value) :
    Spreads v [f] [f] e (e.bindObject f v) :=
  spreads_bindFrom he v f (by simp) (by simp) (Nat.le_of_eq (Nat.add_comm _ _))

end Elaboration

end Clockwork
