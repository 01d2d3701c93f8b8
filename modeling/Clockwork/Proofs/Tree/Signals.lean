import Clockwork.Tree.Basic
import Clockwork.Proofs.Table

namespace Clockwork.Tree

/-- A field is a signal with a slot. -/
def SignalAt (t : Tree) (f : FieldRef) (s : FieldSlot) : Prop :=
  t.slot f.owner f.index = .ok s ∧ s.storage = .signal

/-- The value that the signal of a slot starts with. -/
def initial (t : Tree) (f : FieldRef) (s : FieldSlot) : Value := (t.signalsOf f.owner).read s.key

/-- Every instance has its signals, none of them is staged, and no two fields of an instance have
one key. -/
structure Sound (t : Tree) : Prop where
  size : t.signals.size = t.instances.size
  unstaged : ∀ id, (t.signalsOf id).staged = .empty
  keyed : ∀ id i j si sj, t.slot id i = .ok si → t.slot id j = .ok sj → si.key = sj.key → i = j

theorem slot_eq_ok {t : Tree} {id index : Nat} {s : FieldSlot} :
    t.slot id index = .ok s ↔ (t.inst id).fields[index]? = some s := by
  simp only [slot]
  cases (t.inst id).fields[index]? <;> simp

theorem inst_of_size_le {t : Tree} {id : Nat} (h : t.size ≤ id) : t.inst id = default := by
  have hnone : t.instances[id]? = none := Array.getElem?_eq_none h
  simp only [inst, hnone, Option.getD_none]

theorem slot_lt_size {t : Tree} {id index : Nat} {s : FieldSlot} (h : t.slot id index = .ok s) :
    id < t.size := by
  by_cases hid : id < t.size
  · exact hid
  · have hempty : (default : Instance).fields = #[] := rfl
    rw [slot_eq_ok, inst_of_size_le (Nat.le_of_not_lt hid), hempty] at h
    cases h

theorem sound_empty : Tree.empty.Sound := by
  refine ⟨rfl, fun _ => rfl, ?_⟩
  intro id i j si sj hi
  exact absurd (slot_lt_size hi) (Nat.not_lt_zero id)

theorem SignalAt.unique {t : Tree} {f : FieldRef} {s s' : FieldSlot} (h : t.SignalAt f s)
    (h' : t.SignalAt f s') : s = s' := by
  have heq := h.1.symm.trans h'.1
  cases heq
  rfl

/-- A tree that goes on from another one: signals stay as they are, and further ones are among
`new`. -/
structure Extends (new : FieldRef → Prop) (t t' : Tree) : Prop where
  sound : t.Sound → t'.Sound
  size : t.size ≤ t'.size
  fields : ∀ id, id < t.size → (t'.inst id).fields.size = (t.inst id).fields.size
  slots : ∀ f s, t.SignalAt f s → t'.SignalAt f s
  fresh : ∀ f s, t'.SignalAt f s → t.SignalAt f s ∨ new f

structure Keeps (t t' : Tree) : Prop where
  values : ∀ f s, t.SignalAt f s → t'.initial f s = t.initial f s
  bindings : t'.bindings = t.bindings

namespace Extends

theorem refl (new : FieldRef → Prop) (t : Tree) : t.Extends new t :=
  ⟨id, Nat.le_refl _, fun _ _ => rfl, fun _ _ h => h, fun _ _ h => .inl h⟩

theorem trans {new : FieldRef → Prop} {t t₁ t₂ : Tree} (h : t.Extends new t₁)
    (h₁ : t₁.Extends new t₂) : t.Extends new t₂ := by
  refine ⟨h₁.sound ∘ h.sound, Nat.le_trans h.size h₁.size, fun id hid => ?_,
    fun f s hs => h₁.slots f s (h.slots f s hs), fun f s hs => ?_⟩
  · rw [h₁.fields id (Nat.lt_of_lt_of_le hid h.size), h.fields id hid]
  · rcases h₁.fresh f s hs with hs | hnew
    · exact h.fresh f s hs
    · exact .inr hnew

theorem mono {new new' : FieldRef → Prop} {t t' : Tree} (h : t.Extends new t')
    (hnew : ∀ f, new f → new' f) : t.Extends new' t' :=
  ⟨h.sound, h.size, h.fields, h.slots, fun f s hs => (h.fresh f s hs).imp_right (hnew f)⟩

end Extends

namespace Keeps

theorem refl (t : Tree) : t.Keeps t := ⟨fun _ _ _ => rfl, rfl⟩

theorem trans {new : FieldRef → Prop} {t t₁ t₂ : Tree} (h : t.Keeps t₁) (hs : t.Extends new t₁)
    (h₁ : t₁.Keeps t₂) : t.Keeps t₂ :=
  ⟨fun f s hf => (h₁.values f s (hs.slots f s hf)).trans (h.values f s hf),
    h₁.bindings.trans h.bindings⟩

end Keeps

theorem inst_modifyInst (t : Tree) (id : Nat) (g : Instance → Instance) (id' : Nat) :
    (t.modifyInst id g).inst id' =
      if id' = id ∧ id < t.size then g (t.inst id') else t.inst id' := by
  simp only [inst, modifyInst, Array.getElem?_modify, size]
  by_cases h : id' = id
  · subst h
    by_cases hid : id' < t.instances.size <;> simp [hid]
  · simp [h, Ne.symm h]

theorem slot_modifySlot_of_ne (t : Tree) {f f' : FieldRef} (g : FieldSlot → FieldSlot)
    (h : f' ≠ f) (s : FieldSlot) :
    (t.modifySlot f g).slot f'.owner f'.index = .ok s ↔ t.slot f'.owner f'.index = .ok s := by
  rw [slot_eq_ok, slot_eq_ok, modifySlot, inst_modifyInst]
  split
  · rename_i hid
    have hindex : f.index ≠ f'.index := by
      intro heq
      apply h
      cases f
      cases f'
      simp_all
    simp [Array.getElem?_modify, hindex]
  · rfl

theorem slot_modifySlot_self (t : Tree) (f : FieldRef) (g : FieldSlot → FieldSlot)
    (s : FieldSlot) :
    (t.modifySlot f g).slot f.owner f.index = .ok s ↔
      ∃ s₀, t.slot f.owner f.index = .ok s₀ ∧ s = g s₀ := by
  rw [slot_eq_ok, modifySlot, inst_modifyInst]
  by_cases hid : f.owner < t.size
  · simp only [hid, and_self, ↓reduceIte, Array.getElem?_modify, slot_eq_ok]
    cases (t.inst f.owner).fields[f.index]? <;> simp [eq_comm]
  · have hnone : ∀ s₀, t.slot f.owner f.index ≠ .ok s₀ := fun s₀ hs => hid (slot_lt_size hs)
    simp only [hid, and_false, ↓reduceIte, ← slot_eq_ok]
    constructor
    · intro hs
      exact absurd hs (hnone s)
    · rintro ⟨s₀, hs, -⟩
      exact absurd hs (hnone s₀)

/-- A field that is no signal may be changed in any way that leaves its key. -/
theorem modifySlot_extends (t : Tree) (f : FieldRef) (g : FieldSlot → FieldSlot)
    (hkey : ∀ s, (g s).key = s.key) (hf : ∀ s, ¬ t.SignalAt f s) :
    t.Extends (· = f) (t.modifySlot f g) := by
  have key_of_slot : ∀ id i s, (t.modifySlot f g).slot id i = .ok s →
      ∃ s₀, t.slot id i = .ok s₀ ∧ s₀.key = s.key := by
    intro id i s hs
    by_cases heq : (⟨id, i⟩ : FieldRef) = f
    · subst heq
      obtain ⟨s₀, hs₀, rfl⟩ := (slot_modifySlot_self t ⟨id, i⟩ g s).mp hs
      exact ⟨s₀, hs₀, (hkey s₀).symm⟩
    · exact ⟨s, (slot_modifySlot_of_ne t g heq s).mp hs, rfl⟩
  refine ⟨?_, ?_, ?_, ?_, ?_⟩
  · intro h
    refine ⟨?_, h.unstaged, ?_⟩
    · simpa [modifySlot, modifyInst] using h.size
    · intro id i j si sj hi hj hk
      obtain ⟨si₀, hi₀, hki⟩ := key_of_slot id i si hi
      obtain ⟨sj₀, hj₀, hkj⟩ := key_of_slot id j sj hj
      exact h.keyed id i j si₀ sj₀ hi₀ hj₀ (by rw [hki, hkj, hk])
  · simp [size, modifySlot, modifyInst]
  · intro id _
    rw [modifySlot, inst_modifyInst]
    split
    · exact Array.size_modify
    · rfl
  · intro f' s hs
    have hne : f' ≠ f := by
      rintro rfl
      exact hf s hs
    exact ⟨(slot_modifySlot_of_ne t g hne s).mpr hs.1, hs.2⟩
  · intro f' s hs
    by_cases heq : f' = f
    · exact .inr heq
    · exact .inl ⟨(slot_modifySlot_of_ne t g heq s).mp hs.1, hs.2⟩

theorem modifySlot_keeps (t : Tree) (f : FieldRef) (g : FieldSlot → FieldSlot) :
    t.Keeps (t.modifySlot f g) := ⟨fun _ _ _ => rfl, rfl⟩

theorem setStorage_extends (t : Tree) (f : FieldRef) {st : Storage} (hst : st ≠ .signal)
    (hf : ∀ s, ¬ t.SignalAt f s) : t.Extends (fun _ => False) (t.setStorage f st) := by
  have h := t.modifySlot_extends f (fun s => { s with storage := st }) (fun _ => rfl) hf
  refine ⟨h.sound, h.size, h.fields, h.slots, ?_⟩
  intro f' s hs
  rcases h.fresh f' s hs with hs' | rfl
  · exact .inl hs'
  · obtain ⟨s₀, -, rfl⟩ := (slot_modifySlot_self t f' _ s).mp hs.1
    exact absurd hs.2 hst

theorem extends_of_instances {t t' : Tree} (hi : t'.instances = t.instances)
    (hs : t'.signals.size = t.signals.size)
    (hstaged : ∀ id, (t'.signalsOf id).staged = (t.signalsOf id).staged) :
    t.Extends (fun _ => False) t' := by
  have hslot : ∀ id i s, t'.slot id i = .ok s ↔ t.slot id i = .ok s := by
    intro id i s
    simp only [slot, inst, hi]
  refine ⟨?_, ?_, ?_, ?_, ?_⟩
  · intro h
    refine ⟨by rw [hs, hi, h.size], fun id => (hstaged id).trans (h.unstaged id), ?_⟩
    intro id i j si sj hsi hsj
    exact h.keyed id i j si sj ((hslot _ _ _).mp hsi) ((hslot _ _ _).mp hsj)
  · simp [size, hi]
  · intro id _
    rw [inst, inst, hi]
  · exact fun f s hf => ⟨(hslot _ _ _).mpr hf.1, hf.2⟩
  · exact fun f s hf => .inl ⟨(hslot _ _ _).mp hf.1, hf.2⟩

theorem signalsOf_setSignal (t : Tree) (id key : Nat) (v : Value) (id' : Nat) :
    (t.setSignal id key v).signalsOf id' =
      if id' = id ∧ id < t.signals.size then (t.signalsOf id').set key v else t.signalsOf id' := by
  simp only [signalsOf, setSignal, Array.getElem?_modify]
  by_cases h : id' = id
  · subst h
    by_cases hid : id' < t.signals.size <;> simp [hid]
  · simp [h, Ne.symm h]

theorem setSignal_extends (t : Tree) (id key : Nat) (v : Value) :
    t.Extends (fun _ => False) (t.setSignal id key v) := by
  refine extends_of_instances rfl (by simp [setSignal]) ?_
  intro id'
  rw [signalsOf_setSignal]
  split <;> rfl

theorem initial_setSignal_self {t : Tree} (ht : t.Sound) {f : FieldRef} {s : FieldSlot}
    (hf : t.SignalAt f s) (v : Value) : (t.setSignal f.owner s.key v).initial f s = v := by
  have hlt : f.owner < t.signals.size := by
    rw [ht.size]
    exact slot_lt_size hf.1
  rw [initial, signalsOf_setSignal, if_pos ⟨rfl, hlt⟩, SignalState.read, SignalState.set,
    Table.get?_insert_self, Option.getD_some]

theorem initial_setSignal_of_ne (t : Tree) {id key : Nat} {f : FieldRef} {s : FieldSlot}
    (h : f.owner = id → s.key ≠ key) (v : Value) :
    (t.setSignal id key v).initial f s = t.initial f s := by
  rw [initial, signalsOf_setSignal]
  split
  · rename_i hid
    rw [initial, SignalState.read, SignalState.read, SignalState.set,
      Table.get?_insert_of_ne _ (h hid.1)]
  · rfl

theorem Sound.key_ne {t : Tree} (ht : t.Sound) {f g : FieldRef} {sf sg : FieldSlot}
    (hf : t.slot f.owner f.index = .ok sf) (hg : t.slot g.owner g.index = .ok sg) (h : f ≠ g) :
    f.owner = g.owner → sf.key ≠ sg.key := by
  intro howner hkey
  apply h
  obtain ⟨owner, i⟩ := f
  obtain ⟨owner', j⟩ := g
  obtain rfl : owner = owner' := howner
  rw [ht.keyed owner i j sf sg hf hg hkey]

theorem bind_extends (t : Tree) (d f : FieldRef) : t.Extends (fun _ => False) (t.bind d f) := by
  unfold bind
  dsimp only
  split
  · exact .refl _ t
  · exact extends_of_instances rfl rfl fun _ => rfl

theorem bind_signals (t : Tree) (d f : FieldRef) : (t.bind d f).signals = t.signals := by
  unfold bind
  dsimp only
  split <;> rfl

theorem initial_bind (t : Tree) (d f g : FieldRef) (s : FieldSlot) :
    (t.bind d f).initial g s = t.initial g s := by
  rw [initial, initial, signalsOf, signalsOf, bind_signals]

theorem mem_targets_bind {t : Tree} {d f d' f' : FieldRef} :
    f' ∈ (t.bind d f).targets d' ↔ f' ∈ t.targets d' ∨ (d' = d ∧ f' = f) := by
  unfold bind
  dsimp only
  split
  · rename_i hmem
    constructor
    · exact .inl
    · rintro (h | ⟨rfl, rfl⟩)
      · exact h
      · exact hmem
  · by_cases hd : d' = d
    · subst hd
      simp [targets, Table.get?_insert_self]
    · simp [targets, Table.get?_insert_of_ne _ hd, hd]

theorem targets_congr {t t' : Tree} (h : t'.bindings = t.bindings) (d : FieldRef) :
    t'.targets d = t.targets d := by rw [targets, targets, h]

theorem inst_add_of_lt (t : Tree) (i : Instance) {id : Nat} (h : id < t.size) :
    (t.add i).1.inst id = t.inst id := by
  have hget : (t.instances.push i)[id]? = t.instances[id]? :=
    Array.getElem?_push_lt h ▸ (Array.getElem?_eq_getElem h).symm ▸ rfl
  simp only [inst, add, hget]

theorem inst_add_self (t : Tree) (i : Instance) : (t.add i).1.inst t.size = i := by
  simp [inst, add, size]

theorem slot_add_of_lt (t : Tree) (i : Instance) {id : Nat} (h : id < t.size) (index : Nat) :
    (t.add i).1.slot id index = t.slot id index := by
  simp only [slot, inst_add_of_lt t i h]

theorem slot_add_self (t : Tree) (i : Instance) (index : Nat) (s : FieldSlot) :
    (t.add i).1.slot t.size index = .ok s ↔ i.fields[index]? = some s := by
  rw [slot_eq_ok, inst_add_self]

/-- An instance may be added if its fields are no signals yet and have keys of their own. -/
theorem add_extends (t : Tree) (i : Instance)
    (hkeys : ∀ (j k : Nat) (sj sk : FieldSlot), i.fields[j]? = some sj → i.fields[k]? = some sk →
      sj.key = sk.key → j = k)
    (hopen : ∀ (j : Nat) (s : FieldSlot), i.fields[j]? = some s → s.storage ≠ .signal) :
    t.Extends (fun _ => False) (t.add i).1 := by
  have old_or_new : ∀ id j s, (t.add i).1.slot id j = .ok s →
      t.slot id j = .ok s ∨ (id = t.size ∧ i.fields[j]? = some s) := by
    intro id j s hs
    have hlt := slot_lt_size hs
    have hsize : (t.add i).1.size = t.size + 1 := by simp [add, size]
    by_cases hid : id < t.size
    · rw [slot_add_of_lt t i hid] at hs
      exact .inl hs
    · obtain rfl : id = t.size := by omega
      exact .inr ⟨rfl, (slot_add_self t i j s).mp hs⟩
  refine ⟨?_, ?_, ?_, ?_, ?_⟩
  · intro h
    refine ⟨by simp [add, h.size], ?_, ?_⟩
    · intro id
      by_cases hid : id < t.signals.size
      · have hget : (t.signals.push .empty)[id]? = t.signals[id]? := by
          simp [Array.getElem?_push, Nat.ne_of_lt hid]
        simp only [signalsOf, add, hget]
        exact h.unstaged id
      · by_cases heq : id = t.signals.size
        · simp [signalsOf, add, heq, SignalState.empty]
        · have hnone : (t.signals.push .empty)[id]? = none :=
            Array.getElem?_eq_none (by simp; omega)
          simp only [signalsOf, add, hnone]
          rfl
    intro id j k sj sk hj hk hkey
    rcases old_or_new id j sj hj with hold | ⟨hid, hnew⟩
    · rcases old_or_new id k sk hk with hold' | ⟨hid, -⟩
      · exact h.keyed id j k sj sk hold hold' hkey
      · exact absurd (slot_lt_size hold) (by omega)
    · rcases old_or_new id k sk hk with hold' | ⟨-, hnew'⟩
      · exact absurd (slot_lt_size hold') (by omega)
      · exact hkeys j k sj sk hnew hnew' hkey
  · simp [add, size]
  · intro id hid
    rw [inst_add_of_lt t i hid]
  · intro f s hf
    exact ⟨by rw [slot_add_of_lt t i (slot_lt_size hf.1)]; exact hf.1, hf.2⟩
  · intro f s hf
    rcases old_or_new f.owner f.index s hf.1 with hold | ⟨-, hnew⟩
    · exact .inl ⟨hold, hf.2⟩
    · exact absurd hf.2 (hopen f.index s hnew)

theorem add_keeps (t : Tree) (i : Instance) (ht : t.Sound) : t.Keeps (t.add i).1 := by
  refine ⟨?_, rfl⟩
  intro f s hf
  have hlt : f.owner < t.signals.size := by
    rw [ht.size]
    exact slot_lt_size hf.1
  have hget : (t.signals.push .empty)[f.owner]? = t.signals[f.owner]? :=
    Array.getElem?_push_lt hlt ▸ (Array.getElem?_eq_getElem hlt).symm ▸ rfl
  simp only [initial, signalsOf, add, hget]

end Clockwork.Tree
