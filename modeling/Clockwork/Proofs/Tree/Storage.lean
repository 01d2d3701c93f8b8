import Clockwork.Proofs.Tree.Signals

namespace Clockwork.Tree

def storage? (t : Tree) (f : FieldRef) : Option Storage :=
  (t.inst f.owner).fields[f.index]?.map FieldSlot.storage

theorem storage?_of_slot {t : Tree} {f : FieldRef} {s : FieldSlot}
    (h : t.slot f.owner f.index = .ok s) : t.storage? f = some s.storage := by
  rw [storage?, slot_eq_ok.mp h, Option.map_some]

theorem slot_of_storage? {t : Tree} {f : FieldRef} {st : Storage} (h : t.storage? f = some st) :
    ∃ s, t.slot f.owner f.index = .ok s ∧ s.storage = st := by
  obtain ⟨s, hs, rfl⟩ := Option.map_eq_some_iff.mp h
  exact ⟨s, slot_eq_ok.mpr hs, rfl⟩

theorem lt_size_of_storage? {t : Tree} {f : FieldRef} {st : Storage} (h : t.storage? f = some st) :
    f.owner < t.size := by
  obtain ⟨s, hs, -⟩ := slot_of_storage? h
  exact slot_lt_size hs

theorem storage?_congr {t t' : Tree} (h : t'.instances = t.instances) (f : FieldRef) :
    t'.storage? f = t.storage? f := by
  rw [storage?, inst, h, storage?, inst]

theorem storage?_modifySlot_of_ne (t : Tree) {f g : FieldRef} (change : FieldSlot → FieldSlot)
    (h : g ≠ f) : (t.modifySlot f change).storage? g = t.storage? g := by
  refine Option.ext fun st => ⟨fun hst => ?_, fun hst => ?_⟩
  · obtain ⟨s, hs, rfl⟩ := slot_of_storage? hst
    exact storage?_of_slot ((t.slot_modifySlot_of_ne change h s).mp hs)
  · obtain ⟨s, hs, rfl⟩ := slot_of_storage? hst
    exact storage?_of_slot ((t.slot_modifySlot_of_ne change h s).mpr hs)

theorem storage?_setStorage (t : Tree) (f : FieldRef) (st : Storage) (g : FieldRef) :
    (t.setStorage f st).storage? g = if g = f then (t.storage? f).map fun _ => st
      else t.storage? g := by
  split
  · rename_i h
    subst h
    refine Option.ext fun st' => ⟨fun hst => ?_, fun hst => ?_⟩
    · obtain ⟨s, hs, rfl⟩ := slot_of_storage? hst
      obtain ⟨s₀, hs₀, rfl⟩ := (t.slot_modifySlot_self g _ s).mp hs
      rw [storage?_of_slot hs₀, Option.map_some]
    · obtain ⟨st₀, hst₀, rfl⟩ := Option.map_eq_some_iff.mp hst
      obtain ⟨s₀, hs₀, -⟩ := slot_of_storage? hst₀
      exact storage?_of_slot ((t.slot_modifySlot_self g _ _).mpr ⟨s₀, hs₀, rfl⟩)
  · rename_i h
    exact t.storage?_modifySlot_of_ne _ h

theorem storage?_add (t : Tree) (i : Instance) (f : FieldRef) :
    (t.add i).1.storage? f =
      if f.owner = t.size then i.fields[f.index]?.map FieldSlot.storage else t.storage? f := by
  by_cases h : f.owner = t.instances.size <;>
    simp [storage?, inst, add, size, Array.getElem?_push, h]

@[simp] theorem size_add (t : Tree) (i : Instance) : (t.add i).1.size = t.size + 1 := by
  simp [size, add]

@[simp] theorem size_modifySlot (t : Tree) (f : FieldRef) (change : FieldSlot → FieldSlot) :
    (t.modifySlot f change).size = t.size := by
  simp [size, modifySlot, modifyInst]

@[simp] theorem size_setStorage (t : Tree) (f : FieldRef) (st : Storage) :
    (t.setStorage f st).size = t.size := t.size_modifySlot f _

def child? (t : Tree) (f : FieldRef) : Option Nat :=
  match t.storage? f with
  | some (.component c) => some c
  | _ => none

theorem child?_eq_some {t : Tree} {f : FieldRef} {c : Nat} :
    t.child? f = some c ↔ t.storage? f = some (.component c) := by
  unfold child?
  split
  · rename_i h
    simp [h]
  · rename_i hnot
    constructor
    · intro h
      cases h
    · exact fun h => absurd h (hnot c)

theorem child?_eq_none {t : Tree} {f : FieldRef} {st : Storage} (h : t.storage? f = some st)
    (hst : ∀ c, st ≠ .component c) : t.child? f = none := by
  cases hc : t.child? f with
  | none => rfl
  | some c =>
      rw [child?_eq_some, h] at hc
      exact absurd (Option.some.inj hc) (hst c)

theorem lt_size_of_child? {t : Tree} {f : FieldRef} {c : Nat} (h : t.child? f = some c) :
    f.owner < t.size := lt_size_of_storage? (child?_eq_some.mp h)

theorem child?_add (t : Tree) {i : Instance} (hi : ∀ s ∈ i.fields.toList, s.storage = .unbound)
    (f : FieldRef) : (t.add i).1.child? f = t.child? f := by
  refine Option.ext fun c => ?_
  rw [child?_eq_some, child?_eq_some, storage?_add]
  split
  · rename_i hf
    constructor
    · intro h
      obtain ⟨s, hs, hst⟩ := Option.map_eq_some_iff.mp h
      rw [← Array.getElem?_toList] at hs
      rw [hi s (List.mem_of_getElem? hs)] at hst
      cases hst
    · exact fun h => absurd (lt_size_of_storage? h) (hf ▸ Nat.lt_irrefl _)
  · rfl

/-- The name of a field. -/
def name? (t : Tree) (f : FieldRef) : Option String :=
  (t.inst f.owner).fields[f.index]?.map FieldSlot.name

/-- The first `n` instances have the same parents, paths and children in both trees. -/
structure Agrees (n : Nat) (t t' : Tree) : Prop where
  parent : ∀ i < n, (t'.inst i).parent = (t.inst i).parent
  path : ∀ i < n, (t'.inst i).path = (t.inst i).path
  name : ∀ f, f.owner < n → t'.name? f = t.name? f
  child : ∀ f, f.owner < n → t'.child? f = t.child? f

structure Alike (t t' : Tree) : Prop where
  size : t'.size = t.size
  agrees : Agrees t.size t t'

namespace Agrees

variable {n : Nat} {t t₁ t₂ : Tree}

theorem refl (n : Nat) (t : Tree) : Agrees n t t :=
  ⟨fun _ _ => rfl, fun _ _ => rfl, fun _ _ => rfl, fun _ _ => rfl⟩

theorem trans (h : Agrees n t t₁) (h₁ : Agrees n t₁ t₂) : Agrees n t t₂ :=
  ⟨fun i hi => (h₁.parent i hi).trans (h.parent i hi),
    fun i hi => (h₁.path i hi).trans (h.path i hi),
    fun f hf => (h₁.name f hf).trans (h.name f hf),
    fun f hf => (h₁.child f hf).trans (h.child f hf)⟩

theorem mono {m : Nat} (h : Agrees n t t₁) (hm : m ≤ n) : Agrees m t t₁ :=
  ⟨fun i hi => h.parent i (Nat.lt_of_lt_of_le hi hm),
    fun i hi => h.path i (Nat.lt_of_lt_of_le hi hm),
    fun f hf => h.name f (Nat.lt_of_lt_of_le hf hm),
    fun f hf => h.child f (Nat.lt_of_lt_of_le hf hm)⟩

theorem of_instances (n : Nat) (h : t₁.instances = t.instances) : Agrees n t t₁ := by
  have hinst : ∀ i, t₁.inst i = t.inst i := fun i => by rw [inst, inst, h]
  refine ⟨fun i _ => by rw [hinst], fun i _ => by rw [hinst], fun f _ => ?_, fun f _ => ?_⟩
  · rw [name?, name?, hinst]
  · rw [child?, child?, storage?_congr h]

theorem add (t : Tree) (i : Instance) : Agrees t.size t (t.add i).1 := by
  refine ⟨fun j hj => ?_, fun j hj => ?_, fun f hf => ?_, fun f hf => ?_⟩
  · rw [inst_add_of_lt t i hj]
  · rw [inst_add_of_lt t i hj]
  · rw [name?, inst_add_of_lt t i hf, name?]
  · rw [child?, storage?_add, if_neg (Nat.ne_of_lt hf), child?]

end Agrees

@[simp] theorem parent_modifySlot (t : Tree) (f : FieldRef) (change : FieldSlot → FieldSlot)
    (i : Nat) : ((t.modifySlot f change).inst i).parent = (t.inst i).parent := by
  rw [modifySlot, inst_modifyInst]
  split <;> rfl

@[simp] theorem path_modifySlot (t : Tree) (f : FieldRef) (change : FieldSlot → FieldSlot)
    (i : Nat) : ((t.modifySlot f change).inst i).path = (t.inst i).path := by
  rw [modifySlot, inst_modifyInst]
  split <;> rfl

theorem name?_modifySlot (t : Tree) (f : FieldRef) {change : FieldSlot → FieldSlot}
    (hname : ∀ s, (change s).name = s.name) (g : FieldRef) :
    (t.modifySlot f change).name? g = t.name? g := by
  rw [name?, name?, modifySlot, inst_modifyInst]
  split
  · simp only [Array.getElem?_modify]
    split
    · cases (t.inst g.owner).fields[g.index]? <;> simp [hname]
    · rfl
  · rfl

@[simp] theorem name?_setStorage (t : Tree) (f : FieldRef) (st : Storage) (g : FieldRef) :
    (t.setStorage f st).name? g = t.name? g := by
  rw [setStorage, name?_modifySlot]
  exact fun _ => rfl

theorem child?_setStorage_of_ne (t : Tree) {f g : FieldRef} (st : Storage) (h : g ≠ f) :
    (t.setStorage f st).child? g = t.child? g := by
  rw [child?, t.storage?_setStorage, if_neg h, child?]

theorem child?_setStorage_self {t : Tree} {f : FieldRef} {name : String}
    (h : t.name? f = some name) (c : Nat) :
    (t.setStorage f (.component c)).child? f = some c := by
  obtain ⟨s, hs, -⟩ := Option.map_eq_some_iff.mp h
  rw [child?_eq_some, t.storage?_setStorage, if_pos rfl, storage?, hs]
  rfl

theorem alike_modifySlot {t : Tree} {f : FieldRef} (change : FieldSlot → FieldSlot)
    (hname : ∀ s, (change s).name = s.name)
    (hchild : (t.modifySlot f change).child? f = t.child? f) :
    t.Alike (t.modifySlot f change) := by
  refine ⟨t.size_modifySlot f change, ⟨fun i _ => t.parent_modifySlot f change i,
    fun i _ => t.path_modifySlot f change i,
    fun g _ => t.name?_modifySlot f hname g, fun g _ => ?_⟩⟩
  by_cases hg : g = f
  · rw [hg, hchild]
  · rw [child?, t.storage?_modifySlot_of_ne change hg, child?]

theorem alike_setStorage {t : Tree} {f : FieldRef} {st : Storage} (hf : t.child? f = none)
    (hst : ∀ c, st ≠ .component c) : t.Alike (t.setStorage f st) := by
  refine alike_modifySlot _ (fun _ => rfl) ?_
  rw [hf]
  cases hs : (t.setStorage f st).storage? f with
  | none =>
      rw [setStorage] at hs
      rw [child?, hs]
  | some st' =>
      have hset := hs
      rw [t.storage?_setStorage, if_pos rfl] at hset
      obtain ⟨_, -, rfl⟩ := Option.map_eq_some_iff.mp hset
      exact child?_eq_none hs hst

namespace Alike

variable {t t₁ t₂ : Tree}

theorem refl (t : Tree) : t.Alike t := ⟨rfl, .refl _ t⟩

theorem trans (h : t.Alike t₁) (h₁ : t₁.Alike t₂) : t.Alike t₂ :=
  ⟨h₁.size.trans h.size, h.agrees.trans (h.size ▸ h₁.agrees)⟩

theorem of_instances (h : t₁.instances = t.instances) : t.Alike t₁ :=
  ⟨congrArg Array.size h, .of_instances _ h⟩

theorem child (h : t.Alike t₁) (f : FieldRef) : t₁.child? f = t.child? f := by
  by_cases hf : f.owner < t.size
  · exact h.agrees.child f hf
  · have hnone : ∀ t' : Tree, t'.size = t.size → t'.child? f = none := by
      intro t' hsize
      cases hc : t'.child? f with
      | none => rfl
      | some c => exact absurd (lt_size_of_child? hc) (hsize ▸ hf)
    rw [hnone t₁ h.size, hnone t rfl]

end Alike

end Clockwork.Tree
