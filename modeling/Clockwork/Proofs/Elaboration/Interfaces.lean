import Mathlib.Data.List.Induction
import Clockwork.Proofs.Elaboration.Links
/-!
Histories of ports. Of joined ports either none was ever bound, and all of them are open, or one
of them was, and all of them hold its value. A member that is added to one of them later is a
member for this port only.
-/

namespace Clockwork

/-- Something that happens to ports. -/
inductive PortEvent where
  | linked (a b : FieldRef)
  | bound (f : FieldRef) (v : Value)
  /-- A port that holds an interface gets a member. -/
  | extended (f : FieldRef) (name : String) (v : Value)
  deriving Inhabited

/-- What happened to ports in order, each with the elaboration before it. -/
abbrev PortHistory := List (Elaboration × PortEvent)

namespace Elaboration

variable {e e' : Elaboration}

/-- Puts a new interface with one more member in place of the one that a port holds. -/
def extend (e : Elaboration) (f : FieldRef) (i : Nat) (name : String) (v : Value) : Elaboration :=
  let (objects, handle) := e.objects.addInterface ((e.objects.interface i).insert name v)
  { e with objects := objects }.setStorage f (.object (.obj handle))

theorem storage?_extend (e : Elaboration) (f : FieldRef) (i : Nat) (name : String) (v : Value)
    (x : FieldRef) : (e.extend f i name v).tree.storage? x =
      if x = f then (e.tree.storage? f).map fun _ =>
        .object (.obj (.interface e.objects.interfaces.size)) else e.tree.storage? x :=
  e.tree.storage?_setStorage f _ x

/-- The interface that a port holds. -/
def interface? (e : Elaboration) (f : FieldRef) : Option Nat :=
  match e.tree.storage? f with
  | some (.object (.obj (.interface i))) => some i
  | _ => none

theorem interface?_eq_some {f : FieldRef} {i : Nat} :
    e.interface? f = some i ↔ e.tree.storage? f = some (.object (.obj (.interface i))) := by
  unfold interface?
  split
  · rename_i h
    rw [h]
    simp
  · rename_i h
    constructor
    · intro hi
      cases hi
    · intro hi
      exact absurd hi (h i)

/-- A port: left open when its instance was built, or linked. -/
def IsPort (e : Elaboration) (f : FieldRef) : Prop :=
  e.declared.get? f ≠ none ∨ e.linked f ≠ []

def Fresh (e : Elaboration) (f : FieldRef) : Prop :=
  ¬ e.IsPort f ∧ ∀ st, e.tree.storage? f = some st → st = .unbound

/-- An elaboration that goes on without anything that happens to ports. New ports are open. -/
structure PortsKept (e e' : Elaboration) : Prop where
  links : e'.links = e.links
  storage : ∀ f, ¬ e.Fresh f → e'.tree.storage? f = e.tree.storage? f
  declared : ∀ f, ¬ e.Fresh f → e'.declared.get? f = e.declared.get? f
  opened : ∀ f, e.Fresh f → e'.IsPort f → e'.tree.storage? f = some .unbound
  interfaces : ∀ i, i < e.objects.interfaces.size →
    e'.objects.interfaces[i]? = e.objects.interfaces[i]?

theorem not_fresh_of_storage {f : FieldRef} {st : Storage} (h : e.tree.storage? f = some st)
    (hst : st ≠ .unbound) : ¬ e.Fresh f := fun hfresh => hst (hfresh.2 st h)

end Elaboration

open Elaboration

namespace PortEvent

def Possible (e : Elaboration) : PortEvent → Prop
  | linked a b => e.tree.storage? a = some .unbound ∧ e.tree.storage? b = some .unbound
  | bound f _ => e.tree.storage? f = some .unbound
  | extended f _ _ => ∃ i, e.interface? f = some i

def apply (e : Elaboration) : PortEvent → Elaboration
  | linked a b => e.link a b
  | bound f v => e.bindObject f v
  | extended f name v =>
    match e.interface? f with
    | some i => e.extend f i name v
    | none => e

/-- The member that a port gets under a name. -/
def added? (f : FieldRef) (name : String) : PortEvent → Option Value
  | extended f' name' v => if f' = f ∧ name' = name then some v else none
  | _ => none

end PortEvent

/-- A run of an elaboration with what happens to ports in it. -/
inductive PortRun (start : Elaboration) : PortHistory → Elaboration → Prop
  | start : PortRun start [] start
  | event {h : PortHistory} {e : Elaboration} {x : PortEvent} (hrun : PortRun start h e)
      (hx : x.Possible e) : PortRun start (h ++ [(e, x)]) (x.apply e)
  | other {h : PortHistory} {e e' : Elaboration} (hrun : PortRun start h e)
      (hk : PortsKept e e') : PortRun start h e'

namespace PortRun

variable {start e e' : Elaboration} {h h' : PortHistory}

theorem trans (hrun : PortRun start h e) (hrun' : PortRun e h' e') :
    PortRun start (h ++ h') e' := by
  induction hrun' with
  | start => simpa using hrun
  | event _ hx ih =>
      rw [← List.append_assoc]
      exact .event ih hx
  | other _ hk ih => exact .other ih hk

theorem moment (hrun : PortRun start h e) {before after : PortHistory} {e₁ : Elaboration}
    {x : PortEvent} (heq : h = before ++ (e₁, x) :: after) : PortRun start before e₁ := by
  induction hrun generalizing after with
  | start => simp at heq
  | @event h e x' hrun _ ih =>
      rcases List.eq_nil_or_concat after with rfl | ⟨after, last, rfl⟩
      · obtain ⟨rfl, hlast⟩ := List.append_inj' heq rfl
        obtain ⟨rfl, -⟩ := Prod.mk.inj (List.cons.inj hlast).1
        exact hrun
      · rw [List.concat_eq_append, ← List.cons_append, ← List.append_assoc] at heq
        exact ih (List.append_inj' heq rfl).1
  | other _ _ ih => exact ih heq

end PortRun

theorem Elaboration.narrow_eq_interface {declared : Option DataType} {v : Value} {i : Nat} :
    narrow declared v = .obj (.interface i) ↔ v = .obj (.interface i) := by
  unfold narrow
  split <;> simp

def PortHistory.Extended (h : PortHistory) (f : FieldRef) : Prop :=
  ∃ e name v, (e, .extended f name v) ∈ h

/-- A port holds a value that a port joined with it was bound to, as its own type narrows it. An
interface that got members since is another interface. -/
def PortHistory.Holds (h : PortHistory) (e : Elaboration) (f : FieldRef) (v : Value) : Prop :=
  e.tree.storage? f = some (.object (narrow (e.declared.get? f) v)) ∨
    (h.Extended f ∧ (∃ i, v = .obj (.interface i)) ∧ ∃ k, e.interface? f = some k)

structure PortHistory.Coupled (h : PortHistory) (e : Elaboration) : Prop where
  links : e.Mutual
  origin : ∀ x, e.IsPort x → e.tree.storage? x ≠ some .unbound →
    ∃ e₁ f v, (e₁, .bound f v) ∈ h ∧ e.Joined f x
  holds : ∀ e₁ f v, (e₁, .bound f v) ∈ h → ∀ x, e.Joined f x → h.Holds e x v
  interfaces : ∀ x, h.Extended x → ∃ k, e.interface? x = some k

namespace PortHistory

variable {h : PortHistory} {e e' : Elaboration} {f : FieldRef} {v : Value}

theorem Holds.object (hh : h.Holds e f v) : ∃ w, e.tree.storage? f = some (.object w) := by
  rcases hh with hst | ⟨-, -, k, hk⟩
  · exact ⟨_, hst⟩
  · exact ⟨_, interface?_eq_some.mp hk⟩

theorem Holds.not_unbound (hh : h.Holds e f v) : e.tree.storage? f ≠ some .unbound := by
  obtain ⟨w, hw⟩ := hh.object
  simp [hw]

theorem Holds.not_fresh (hh : h.Holds e f v) : ¬ e.Fresh f := by
  obtain ⟨w, hw⟩ := hh.object
  exact not_fresh_of_storage hw (by simp)

theorem Holds.mono (hh : h.Holds e f v) {h' : PortHistory} (hsub : ∀ x ∈ h, x ∈ h')
    (hst : e'.tree.storage? f = e.tree.storage? f)
    (hd : e'.declared.get? f = e.declared.get? f) : h'.Holds e' f v := by
  rcases hh with hh | ⟨⟨e₁, name, w, hx⟩, hv, k, hk⟩
  · exact .inl (by rw [hst, hd, hh])
  · refine .inr ⟨⟨e₁, name, w, hsub _ hx⟩, hv, k, ?_⟩
    rw [interface?_eq_some, hst, ← interface?_eq_some, hk]

namespace Coupled

theorem not_joined (hc : h.Coupled e) {x : FieldRef} (hx : e.tree.storage? x = some .unbound)
    {e₁ : Elaboration} (hf : (e₁, .bound f v) ∈ h) : ¬ e.Joined f x := fun hj =>
  (hc.holds e₁ f v hf x hj).not_unbound hx

theorem unbound_of_joined (hc : h.Coupled e) {x y : FieldRef} (hj : e.Joined x y)
    (hx : e.tree.storage? x = some .unbound) : e.tree.storage? y = some .unbound := by
  by_cases hne : x = y
  · exact hne ▸ hx
  by_contra hy
  have hport : e.IsPort y := .inr ((hc.links.symm hj).linked_ne_nil hne)
  obtain ⟨e₁, f, v, hf, hfy⟩ := hc.origin y hport hy
  exact hc.not_joined hx hf (hfy.trans (hc.links.symm hj))

theorem joined_of_link (hc : h.Coupled e) {a b : FieldRef}
    (ha : e.tree.storage? a = some .unbound) (hb : e.tree.storage? b = some .unbound)
    {e₁ : Elaboration} (hf : (e₁, .bound f v) ∈ h) {x : FieldRef}
    (hj : (e.link a b).Joined f x) : e.Joined f x := by
  rcases Elaboration.joined_of_link hj with hj | ⟨hj | hj, -⟩
  · exact hj
  · exact absurd hj (hc.not_joined ha hf)
  · exact absurd hj (hc.not_joined hb hf)

theorem link (hc : h.Coupled e) {a b : FieldRef} (ha : e.tree.storage? a = some .unbound)
    (hb : e.tree.storage? b = some .unbound) :
    (h ++ [(e, PortEvent.linked a b)]).Coupled (e.link a b) where
  links := hc.links.link a b
  origin x hport hx := by
    have hold : e.IsPort x := by
      refine hport.imp_right fun hlinked => ?_
      obtain ⟨y, hy⟩ := List.exists_mem_of_ne_nil _ hlinked
      rcases (mem_linked_link e a b x y).mp hy with hy | ⟨rfl, -⟩ | ⟨rfl, -⟩
      · exact List.ne_nil_of_mem hy
      · exact absurd ha hx
      · exact absurd hb hx
    obtain ⟨e₁, f, v, hf, hj⟩ := hc.origin x hold hx
    exact ⟨e₁, f, v, List.mem_append_left _ hf, hj.link a b⟩
  holds e₁ f v hf x hj := by
    have hf : (e₁, .bound f v) ∈ h := by simpa using hf
    have hh := hc.holds e₁ f v hf x (hc.joined_of_link ha hb hf hj)
    exact hh.mono (fun x hx => List.mem_append_left _ hx) rfl rfl
  interfaces x := by
    rintro ⟨e₁, name, v, hx⟩
    exact hc.interfaces x ⟨e₁, name, v, by simpa using hx⟩

theorem bind (hc : h.Coupled e) (hf : e.tree.storage? f = some .unbound) (v : Value) :
    (h ++ [(e, PortEvent.bound f v)]).Coupled (e.bindObject f v) := by
  have hr := e.bindObject_rebound f v
  have hopen : ∀ g, e.Joined f g → e.tree.storage? g = some .unbound := fun g hg =>
    hc.unbound_of_joined hg hf
  have hbind := bindObject_storage_iff hc.links hopen v
  have hkept : ∀ g, e.tree.storage? g ≠ some .unbound →
      (e.bindObject f v).tree.storage? g = e.tree.storage? g := fun g hg =>
    (hbind g).2 fun hj => hg (hopen g hj)
  refine ⟨(mutual_congr hr.links).mpr hc.links, ?_, ?_, ?_⟩
  · intro x hport hx
    by_cases hj : e.Joined f x
    · exact ⟨e, f, v, by simp, (joined_congr hr.links f x).mpr hj⟩
    · rw [(hbind x).2 hj] at hx
      rw [IsPort, hr.declared, linked_congr hr.links] at hport
      obtain ⟨e₁, g, w, hg, hgx⟩ := hc.origin x hport hx
      exact ⟨e₁, g, w, List.mem_append_left _ hg, (joined_congr hr.links g x).mpr hgx⟩
  · intro e₁ g w hg x hj
    rw [joined_congr hr.links] at hj
    rcases List.mem_append.mp hg with hold | hnew
    · have hh := hc.holds e₁ g w hold x hj
      exact hh.mono (fun x hx => List.mem_append_left _ hx) (hkept x hh.not_unbound)
        (by rw [hr.declared])
    · obtain ⟨rfl, hx⟩ := Prod.mk.inj (List.mem_singleton.mp hnew)
      obtain ⟨rfl, rfl⟩ := PortEvent.bound.inj hx
      exact .inl (by rw [hr.declared, (hbind x).1 hj])
  · rintro x ⟨e₁, name, w, hx⟩
    obtain ⟨k, hk⟩ := hc.interfaces x ⟨e₁, name, w, by simpa using hx⟩
    refine ⟨k, ?_⟩
    rw [interface?_eq_some] at hk ⊢
    rw [hkept x (by simp [hk]), hk]

theorem extend (hc : h.Coupled e) {i : Nat} (hf : e.interface? f = some i) (name : String)
    (v : Value) : (h ++ [(e, PortEvent.extended f name v)]).Coupled (e.extend f i name v) := by
  have hst := interface?_eq_some.mp hf
  have hself : (e.extend f i name v).interface? f = some e.objects.interfaces.size := by
    rw [interface?_eq_some, storage?_extend, if_pos rfl, hst, Option.map_some]
  have hother : ∀ x, x ≠ f → (e.extend f i name v).tree.storage? x = e.tree.storage? x := by
    intro x hx
    rw [storage?_extend, if_neg hx]
  refine ⟨hc.links, ?_, ?_, ?_⟩
  · intro x hport hx
    have hbound : e.tree.storage? x ≠ some .unbound := by
      by_cases hxf : x = f
      · simp [hxf, hst]
      · rwa [hother x hxf] at hx
    obtain ⟨e₁, g, w, hg, hj⟩ := hc.origin x hport hbound
    exact ⟨e₁, g, w, List.mem_append_left _ hg, hj⟩
  · intro e₁ g w hg x hj
    have hh := hc.holds e₁ g w (by simpa using hg) x hj
    by_cases hxf : x = f
    · subst hxf
      refine .inr ⟨⟨e, name, v, by simp⟩, ?_, _, hself⟩
      rcases hh with hh | ⟨-, hw, -⟩
      · rw [hst] at hh
        have hnarrow := Storage.object.inj (Option.some.inj hh)
        exact ⟨i, narrow_eq_interface.mp hnarrow.symm⟩
      · exact hw
    · exact hh.mono (fun x hx => List.mem_append_left _ hx) (hother x hxf) rfl
  · rintro x ⟨e₁, name', w, hx⟩
    by_cases hxf : x = f
    · subst hxf
      exact ⟨_, hself⟩
    · have hold : (e₁, PortEvent.extended x name' w) ∈ h := by
        rcases List.mem_append.mp hx with hx | hx
        · exact hx
        · obtain ⟨-, hx⟩ := Prod.mk.inj (List.mem_singleton.mp hx)
          exact absurd (PortEvent.extended.inj hx).1 hxf
      obtain ⟨k, hk⟩ := hc.interfaces x ⟨e₁, name', w, hold⟩
      refine ⟨k, ?_⟩
      rw [interface?_eq_some] at hk ⊢
      rw [hother x hxf, hk]

theorem other (hc : h.Coupled e) (hk : PortsKept e e') : h.Coupled e' := by
  refine ⟨(mutual_congr hk.links).mpr hc.links, ?_, ?_, ?_⟩
  · intro x hport hx
    have hfresh : ¬ e.Fresh x := fun hfresh => hx (hk.opened x hfresh hport)
    rw [hk.storage x hfresh] at hx
    rw [IsPort, hk.declared x hfresh, linked_congr hk.links] at hport
    obtain ⟨e₁, f, v, hf, hj⟩ := hc.origin x hport hx
    exact ⟨e₁, f, v, hf, (joined_congr hk.links f x).mpr hj⟩
  · intro e₁ f v hf x hj
    have hh := hc.holds e₁ f v hf x ((joined_congr hk.links f x).mp hj)
    exact hh.mono (fun _ => id) (hk.storage x hh.not_fresh) (hk.declared x hh.not_fresh)
  · intro x hx
    obtain ⟨k, hi⟩ := hc.interfaces x hx
    refine ⟨k, ?_⟩
    rw [interface?_eq_some] at hi ⊢
    rw [hk.storage x (not_fresh_of_storage hi (by simp)), hi]

theorem event (hc : h.Coupled e) {x : PortEvent} (hx : x.Possible e) :
    (h ++ [(e, x)]).Coupled (x.apply e) := by
  cases x with
  | linked a b => exact hc.link hx.1 hx.2
  | bound f v => exact hc.bind hx v
  | extended f name v =>
      obtain ⟨i, hi⟩ := hx
      simp only [PortEvent.apply, hi]
      exact hc.extend hi name v

end Coupled

end PortHistory

/-- An elaboration in which no port was left open or linked so far. -/
def Elaboration.Portless (e : Elaboration) : Prop := ∀ f, ¬ e.IsPort f

/-- What is behind a field stays there, but for an interface that gets members. -/
theorem PortRun.storage_kept {start e : Elaboration} {h : PortHistory} (hrun : PortRun start h e)
    {f : FieldRef} {st : Storage} (hst : start.tree.storage? f = some st) (hne : st ≠ .unbound) :
    e.tree.storage? f = some st ∨ (start.interface? f).isSome ∧ (e.interface? f).isSome := by
  induction hrun with
  | start => exact .inl hst
  | @event h e x hrun hx ih =>
      cases x with
      | linked a b => exact ih
      | bound g v =>
          have hopen : e.tree.storage? f ≠ some .unbound := by
            rcases ih with hkept | ⟨-, hi⟩
            · rwa [hkept, ne_eq, Option.some.injEq]
            · obtain ⟨i, hi⟩ := Option.isSome_iff_exists.mp hi
              simp [interface?_eq_some.mp hi]
          have hgf : f ∉ [g] := by
            rw [List.mem_singleton]
            rintro rfl
            exact hopen hx
          have hkept : (e.bindObject g v).tree.storage? f = e.tree.storage? f :=
            bindFrom_kept v _ hopen hgf
          simpa only [PortEvent.apply, interface?, hkept] using ih
      | extended g name v =>
          obtain ⟨i, hi⟩ := hx
          have happly : PortEvent.apply e (.extended g name v) = e.extend g i name v := by
            simp only [PortEvent.apply, hi]
          rw [happly]
          by_cases hgf : f = g
          · subst hgf
            refine .inr ⟨?_, ?_⟩
            · rcases ih with hkept | ⟨hi', -⟩
              · rw [Option.isSome_iff_exists]
                exact ⟨i, interface?_eq_some.mpr (hst.trans (hkept.symm.trans
                  (interface?_eq_some.mp hi)))⟩
              · exact hi'
            · rw [Option.isSome_iff_exists]
              refine ⟨e.objects.interfaces.size, ?_⟩
              rw [interface?_eq_some, storage?_extend, if_pos rfl, interface?_eq_some.mp hi,
                Option.map_some]
          · have hkept : (e.extend g i name v).tree.storage? f = e.tree.storage? f := by
              rw [storage?_extend, if_neg hgf]
            simpa only [interface?, hkept] using ih
  | @other h e e' hrun hk ih =>
      have hfresh : ¬ e.Fresh f := by
        rcases ih with hkept | ⟨-, hi⟩
        · exact not_fresh_of_storage hkept hne
        · obtain ⟨i, hi⟩ := Option.isSome_iff_exists.mp hi
          exact not_fresh_of_storage (interface?_eq_some.mp hi) (by simp)
      simpa only [interface?, hk.storage f hfresh] using ih

theorem PortRun.coupled {start e : Elaboration} {h : PortHistory} (hrun : PortRun start h e)
    (hstart : start.Portless) : h.Coupled e := by
  induction hrun with
  | start =>
      have hlinks : ∀ f, start.linked f = [] := fun f => by
        by_contra hne
        exact hstart f (.inr hne)
      refine ⟨?_, fun x hx => absurd hx (hstart x), by simp, ?_⟩
      · intro a b hb
        simp [hlinks] at hb
      · rintro x ⟨e₁, name, v, hx⟩
        cases hx
  | event _ hx ih => exact ih.event hx
  | other _ hk ih => exact ih.other hk

namespace Objects

theorem interface_addInterface_self (o : Objects) (members : Table String Value) :
    (o.addInterface members).1.interface o.interfaces.size = members := by
  simp [addInterface, interface]

theorem interfaces_addInterface_of_lt (o : Objects) (members : Table String Value) {i : Nat}
    (h : i < o.interfaces.size) :
    (o.addInterface members).1.interfaces[i]? = o.interfaces[i]? := by
  simp only [addInterface, Array.getElem?_push_lt h, Array.getElem?_eq_getElem h]

theorem interfaces_le {o o' : Objects}
    (h : ∀ i, i < o.interfaces.size → o'.interfaces[i]? = o.interfaces[i]?) :
    o.interfaces.size ≤ o'.interfaces.size := by
  by_contra hlt
  have hlt := Nat.lt_of_not_le hlt
  have hsome := h o'.interfaces.size hlt
  rw [Array.getElem?_eq_none (Nat.le_refl _), Array.getElem?_eq_getElem hlt] at hsome
  cases hsome

end Objects

/-- What a name means at a port that holds an interface. -/
def Elaboration.member? (e : Elaboration) (f : FieldRef) (name : String) : Option Value :=
  (e.interface? f).bind fun i => (e.objects.interface i).get? name

open Elaboration

namespace PortHistory

/-- The member that a port got last under a name. -/
def lastAdded (h : PortHistory) (f : FieldRef) (name : String) : Option Value :=
  h.foldl (fun v x => (x.2.added? f name).or v) none

def Existing (h : PortHistory) : Prop :=
  ∀ e f i, (e, .bound f (.obj (.interface i))) ∈ h → i < e.objects.interfaces.size

theorem Existing.append {h h' : PortHistory} (hh : h.Existing) (hh' : h'.Existing) :
    Existing (h ++ h') := by
  intro e f i hf
  rcases List.mem_append.mp hf with hf | hf
  · exact hh e f i hf
  · exact hh' e f i hf

theorem lastAdded_snoc (h : PortHistory) (e : Elaboration) (x : PortEvent) (f : FieldRef)
    (name : String) :
    (h ++ [(e, x)]).lastAdded f name = (x.added? f name).or (h.lastAdded f name) := by
  simp [lastAdded]

theorem lastAdded_eq_none {h : PortHistory} {f : FieldRef} (hf : ¬ h.Extended f) (name : String) :
    h.lastAdded f name = none := by
  induction h using List.reverseRecOn with
  | nil => rfl
  | append_singleton h x ih =>
      obtain ⟨e, x⟩ := x
      rw [lastAdded_snoc, ih fun ⟨e₁, name, v, hx⟩ => hf ⟨e₁, name, v, List.mem_append_left _ hx⟩,
        Option.or_none]
      cases x with
      | linked a b => rfl
      | bound g v => rfl
      | extended g name' v =>
          refine if_neg ?_
          rintro ⟨rfl, -⟩
          exact hf ⟨e, name', v, by simp⟩

/-- A port has the members of an interface, but for those that it got itself. -/
def HasMembers (h : PortHistory) (e : Elaboration) (i : Nat) (f : FieldRef) : Prop :=
  ∃ k, e.interface? f = some k ∧ k < e.objects.interfaces.size ∧
    ∀ name, (e.objects.interface k).get? name =
      (h.lastAdded f name).or ((e.objects.interface i).get? name)

/-- Ports joined with one that was bound to an interface have its members, but for those that they
got themselves. -/
def Shared (h : PortHistory) (e : Elaboration) : Prop :=
  ∀ e₁ f i, (e₁, .bound f (.obj (.interface i))) ∈ h →
    i < e.objects.interfaces.size ∧ ∀ x, e.Joined f x → h.HasMembers e i x

variable {h : PortHistory} {e e' : Elaboration} {f : FieldRef} {i : Nat}

theorem HasMembers.mono (hm : h.HasMembers e i f) {h' : PortHistory}
    (hst : e'.tree.storage? f = e.tree.storage? f)
    (hlast : ∀ name, h'.lastAdded f name = h.lastAdded f name) (hi : i < e.objects.interfaces.size)
    (hobjects : ∀ k, k < e.objects.interfaces.size →
      e'.objects.interfaces[k]? = e.objects.interfaces[k]?) : h'.HasMembers e' i f := by
  obtain ⟨k, hk, hlt, hget⟩ := hm
  have hsame : ∀ k, k < e.objects.interfaces.size →
      e'.objects.interface k = e.objects.interface k := fun k hk => by
    rw [Objects.interface, Objects.interface, hobjects k hk]
  refine ⟨k, ?_, ?_, ?_⟩
  · rw [interface?_eq_some] at hk ⊢
    rw [hst, hk]
  · have hsome := hobjects k hlt
    rw [Array.getElem?_eq_getElem hlt] at hsome
    exact (Array.getElem?_eq_some_iff.mp hsome).1
  · intro name
    rw [hsame k hlt, hsame i hi, hlast, hget]

theorem HasMembers.extend (hm : h.HasMembers e i f) (hi : i < e.objects.interfaces.size) {k : Nat}
    (hk : e.interface? f = some k) (name : String) (v : Value) :
    (h ++ [(e, PortEvent.extended f name v)]).HasMembers (e.extend f k name v) i f := by
  obtain ⟨k', hk', -, hget⟩ := hm
  obtain rfl := Option.some.inj (hk.symm.trans hk')
  have hobjects : (e.extend f k name v).objects =
      (e.objects.addInterface ((e.objects.interface k).insert name v)).1 := rfl
  refine ⟨e.objects.interfaces.size, ?_, ?_, ?_⟩
  · rw [interface?_eq_some, storage?_extend, if_pos rfl, interface?_eq_some.mp hk, Option.map_some]
  · simp [hobjects, Objects.addInterface]
  · intro name'
    have hbase : (e.extend f k name v).objects.interface i = e.objects.interface i := by
      rw [Objects.interface, hobjects, Objects.interfaces_addInterface_of_lt _ _ hi,
        Objects.interface]
    rw [hbase, hobjects, Objects.interface_addInterface_self, lastAdded_snoc]
    by_cases hname : name' = name
    · subst hname
      simp [PortEvent.added?]
    · simp [Table.get?_insert_of_ne _ hname, hget, PortEvent.added?, Ne.symm hname]

namespace Shared

theorem link (hs : h.Shared e) (hc : h.Coupled e) {a b : FieldRef}
    (ha : e.tree.storage? a = some .unbound) (hb : e.tree.storage? b = some .unbound) :
    (h ++ [(e, PortEvent.linked a b)]).Shared (e.link a b) := by
  intro e₁ f i hf
  have hf : (e₁, .bound f (.obj (.interface i))) ∈ h := by simpa using hf
  obtain ⟨hi, hmembers⟩ := hs e₁ f i hf
  refine ⟨hi, fun x hx => (hmembers x (hc.joined_of_link ha hb hf hx)).mono rfl ?_ hi ?_⟩
  · intro name
    simp [lastAdded_snoc, PortEvent.added?]
  · exact fun _ _ => rfl

theorem bind (hs : h.Shared e) (hc : h.Coupled e) (hf : e.tree.storage? f = some .unbound)
    {v : Value} (hv : ∀ i, v = .obj (.interface i) → i < e.objects.interfaces.size) :
    (h ++ [(e, PortEvent.bound f v)]).Shared (e.bindObject f v) := by
  have hr := e.bindObject_rebound f v
  have hopen : ∀ g, e.Joined f g → e.tree.storage? g = some .unbound := fun g hg =>
    hc.unbound_of_joined hg hf
  have hbind := bindObject_storage_iff hc.links hopen v
  have hlast : ∀ x name,
      (h ++ [(e, PortEvent.bound f v)]).lastAdded x name = h.lastAdded x name := fun x name => by
    simp [lastAdded_snoc, PortEvent.added?]
  intro e₁ g i hg
  rw [hr.objects]
  rcases List.mem_append.mp hg with hg | hg
  · obtain ⟨hi, hmembers⟩ := hs e₁ g i hg
    refine ⟨hi, fun x hx => ?_⟩
    rw [joined_congr hr.links] at hx
    have hkept := (hbind x).2 fun hj => (hc.holds e₁ g _ hg x hx).not_unbound (hopen x hj)
    exact (hmembers x hx).mono hkept (hlast x) hi fun _ _ => by rw [hr.objects]
  · obtain ⟨rfl, hx⟩ := Prod.mk.inj (List.mem_singleton.mp hg)
    obtain ⟨rfl, rfl⟩ := PortEvent.bound.inj hx
    refine ⟨hv i rfl, fun x hx => ⟨i, ?_, by rw [hr.objects]; exact hv i rfl, fun name => ?_⟩⟩
    · rw [joined_congr hr.links] at hx
      rw [interface?_eq_some, (hbind x).1 hx, narrow_eq_interface.mpr rfl]
    · -- An open port has got no members so far.
      rw [joined_congr hr.links] at hx
      have hnone : ¬ h.Extended x := fun hext => by
        obtain ⟨k, hk⟩ := hc.interfaces x hext
        rw [interface?_eq_some, hopen x hx] at hk
        cases hk
      rw [hlast, lastAdded_eq_none hnone, Option.none_or, hr.objects]

theorem extend (hs : h.Shared e) {k : Nat} (hk : e.interface? f = some k) (name : String)
    (v : Value) : (h ++ [(e, PortEvent.extended f name v)]).Shared (e.extend f k name v) := by
  intro e₁ g i hg
  obtain ⟨hi, hmembers⟩ := hs e₁ g i (by simpa using hg)
  refine ⟨?_, fun x hx => ?_⟩
  · refine Nat.lt_of_lt_of_le hi ?_
    simp [Elaboration.extend, Objects.addInterface, setStorage]
  · by_cases hxf : x = f
    · subst hxf
      exact (hmembers x hx).extend hi hk name v
    · refine (hmembers x hx).mono ?_ ?_ hi ?_
      · rw [storage?_extend, if_neg hxf]
      · intro name'
        simp [lastAdded_snoc, PortEvent.added?, Ne.symm hxf]
      · exact fun j hj => e.objects.interfaces_addInterface_of_lt _ hj

theorem other (hs : h.Shared e) (hc : h.Coupled e) (hk : PortsKept e e') : h.Shared e' := by
  intro e₁ f i hf
  obtain ⟨hi, hmembers⟩ := hs e₁ f i hf
  refine ⟨?_, fun x hx => ?_⟩
  · have hsome := hk.interfaces i hi
    rw [Array.getElem?_eq_getElem hi] at hsome
    exact (Array.getElem?_eq_some_iff.mp hsome).1
  · rw [joined_congr hk.links] at hx
    have hfresh := (hc.holds e₁ f _ hf x hx).not_fresh
    exact (hmembers x hx).mono (hk.storage x hfresh) (fun _ => rfl) hi hk.interfaces

end Shared

end PortHistory

theorem PortRun.shared {start e : Elaboration} {h : PortHistory} (hrun : PortRun start h e)
    (hstart : start.Portless) (hex : h.Existing) : h.Shared e := by
  induction hrun with
  | start =>
      intro e₁ f i hf
      cases hf
  | @event h e x hrun hx ih =>
      have hs := ih fun e₁ f i hf => hex e₁ f i (List.mem_append_left _ hf)
      have hc := hrun.coupled hstart
      cases x with
      | linked a b => exact hs.link hc hx.1 hx.2
      | bound f v =>
          refine hs.bind hc hx fun i hv => hex e f i ?_
          simp [hv]
      | extended f name v =>
          obtain ⟨k, hk⟩ := hx
          simp only [PortEvent.apply, hk]
          exact hs.extend hk name v
  | other hrun hk ih => exact (ih hex).other (hrun.coupled hstart) hk

theorem PortHistory.Coupled.bound_to_interface {h : PortHistory} {e : Elaboration}
    (hc : h.Coupled e) {x : FieldRef} (hport : e.IsPort x) {k : Nat}
    (hk : e.interface? x = some k) :
    ∃ e₁ f i, (e₁, .bound f (.obj (.interface i))) ∈ h ∧ e.Joined f x := by
  have hst := interface?_eq_some.mp hk
  obtain ⟨e₁, f, v, hf, hj⟩ := hc.origin x hport (by simp [hst])
  rcases hc.holds e₁ f v hf x hj with hh | ⟨-, ⟨i, rfl⟩, -⟩
  · rw [hst] at hh
    obtain rfl := narrow_eq_interface.mp (Storage.object.inj (Option.some.inj hh)).symm
    exact ⟨e₁, f, k, hf, hj⟩
  · exact ⟨e₁, f, i, hf, hj⟩

end Clockwork
