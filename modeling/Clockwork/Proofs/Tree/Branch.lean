import Clockwork.Proofs.Tree.Storage

namespace Clockwork.Tree

variable {t t' t₁ : Tree} {f g : FieldRef} {i id : Nat}

/-- A field holds an instance, and the instance has its parent and its path from there. -/
structure Holds (t : Tree) (f : FieldRef) (i : Nat) : Prop where
  child : t.child? f = some i
  before : f.owner < i
  parent : (t.inst i).parent = some f.owner
  path : ∃ name, t.name? f = some name ∧ (t.inst i).path = (t.inst f.owner).path ++ "." ++ name

/-- The number of levels from an instance down to another one, by the parents. -/
inductive Level (t : Tree) (id : Nat) : Nat → Nat → Prop
  | self : t.Level id id 0
  | down {i p n : Nat} (hp : (t.inst i).parent = some p) (hlt : p < i) (h : t.Level id p n) :
      t.Level id i (n + 1)

def Closed (t : Tree) : Prop := ∀ f c, t.child? f = some c → c < t.size

/-- The instances from a number on, in at most `room` levels. -/
structure Branch (t : Tree) (id room : Nat) : Prop where
  held : ∀ i, id < i → i < t.size → ∃ f, t.Holds f i ∧ ∀ g, t.child? g = some i → g = f
  child : ∀ f c, id ≤ f.owner → t.child? f = some c → id < c
  level : ∀ i, id ≤ i → i < t.size → ∃ n < room, t.Level id i n

theorem Holds.agrees {n : Nat} (h : t.Holds f i) (ha : Agrees n t t') (hi : i < n) :
    t'.Holds f i := by
  have howner := Nat.lt_trans h.before hi
  refine ⟨(ha.child f howner).trans h.child, h.before, (ha.parent i hi).trans h.parent, ?_⟩
  rw [ha.path i hi, ha.path f.owner howner, ha.name f howner]
  exact h.path

theorem Holds.setStorage (h : t.Holds f i) (hne : f ≠ g) (st : Storage) :
    (t.setStorage g st).Holds f i := by
  refine ⟨(t.child?_setStorage_of_ne st hne).trans h.child, h.before, ?_, ?_⟩
  · exact (t.parent_modifySlot g _ i).trans h.parent
  · obtain ⟨name, hname, hpath⟩ := h.path
    refine ⟨name, (t.name?_setStorage g st f).trans hname, ?_⟩
    rw [Tree.setStorage, path_modifySlot, path_modifySlot, hpath]

theorem Level.agrees {n k : Nat} (h : t.Level id i k) (ha : Agrees n t t') (hi : i < n) :
    t'.Level id i k := by
  induction h with
  | self => exact .self
  | down hp hlt _ ih => exact .down ((ha.parent _ hi).trans hp) hlt (ih (Nat.lt_trans hlt hi))

theorem Level.setStorage {k : Nat} (h : t.Level id i k) (g : FieldRef) (st : Storage) :
    (t.setStorage g st).Level id i k := by
  induction h with
  | self => exact .self
  | down hp hlt _ ih => exact .down ((t.parent_modifySlot g _ _).trans hp) hlt ih

theorem Level.trans {j m k : Nat} (h : t.Level id j m) (h' : t.Level j i k) :
    t.Level id i (m + k) := by
  induction h' with
  | self => exact h
  | down hp hlt _ ih => exact .down hp hlt ih

theorem Level.le {k : Nat} (h : t.Level id i k) : id ≤ i := by
  induction h with
  | self => exact Nat.le_refl _
  | down _ hlt _ ih => exact Nat.le_trans ih (Nat.le_of_lt hlt)

theorem Level.unique {k k' : Nat} (h : t.Level id i k) (h' : t.Level id i k') : k = k' := by
  induction h generalizing k' with
  | self =>
      cases h' with
      | self => rfl
      | down _ hlt h' => exact absurd h'.le (Nat.not_le_of_lt hlt)
  | down hp hlt h ih =>
      cases h' with
      | self => exact absurd h.le (Nat.not_le_of_lt hlt)
      | down hp' _ h' =>
          rw [hp] at hp'
          cases hp'
          rw [ih h']

theorem agrees_setStorage (t : Tree) (f : FieldRef) (st : Storage) :
    Agrees f.owner t (t.setStorage f st) := by
  refine ⟨fun i _ => t.parent_modifySlot f _ i, fun i _ => t.path_modifySlot f _ i,
    fun g _ => t.name?_setStorage f st g, fun g hg => t.child?_setStorage_of_ne st ?_⟩
  rintro rfl
  exact Nat.lt_irrefl _ hg

theorem Closed.alike (h : t.Closed) (ha : t.Alike t') : t'.Closed := by
  intro f c hc
  rw [ha.size]
  exact h f c ((ha.child f).symm.trans hc)

theorem Branch.alike {room : Nat} (h : t.Branch id room) (ha : t.Alike t') : t'.Branch id room := by
  refine ⟨fun i hid hi => ?_, fun f c hf hc => ?_, fun i hid hi => ?_⟩
  · rw [ha.size] at hi
    obtain ⟨f, hf, honly⟩ := h.held i hid hi
    exact ⟨f, hf.agrees ha.agrees hi, fun g hg => honly g ((ha.child g).symm.trans hg)⟩
  · exact h.child f c hf ((ha.child f).symm.trans hc)
  · rw [ha.size] at hi
    obtain ⟨n, hn, hlevel⟩ := h.level i hid hi
    exact ⟨n, hn, hlevel.agrees ha.agrees hi⟩

section
variable {new : Instance}

theorem Closed.add (h : t.Closed) (hi : ∀ s ∈ new.fields.toList, s.storage = .unbound) :
    (t.add new).1.Closed := by
  intro f c hc
  rw [t.child?_add hi] at hc
  exact Nat.lt_trans (h f c hc) (t.size_add new ▸ Nat.lt_succ_self _)

theorem Branch.add (t : Tree) (hi : ∀ s ∈ new.fields.toList, s.storage = .unbound) (room : Nat) :
    (t.add new).1.Branch t.size (room + 1) := by
  have honly : ∀ i, t.size ≤ i → i < (t.add new).1.size → i = t.size := by
    intro i hle hlt
    rw [size_add] at hlt
    exact Nat.le_antisymm (Nat.le_of_lt_succ hlt) hle
  refine ⟨fun i hid hi => ?_, fun f c hf hc => ?_, fun i hid hi => ?_⟩
  · exact absurd (honly i (Nat.le_of_lt hid) hi) (Nat.ne_of_gt hid)
  · rw [t.child?_add hi] at hc
    exact absurd (lt_size_of_child? hc) (Nat.not_lt_of_le hf)
  · rw [honly i hid hi]
    exact ⟨0, Nat.succ_pos _, .self⟩

end

/-- A tree with one more branch: a new instance at a place, and all below it. -/
structure Planted (t t₁ : Tree) (id room : Nat) (parent : Option Nat) (path : String) : Prop where
  place : id = t.size
  size : id < t₁.size
  agrees : Agrees t.size t t₁
  closed : t₁.Closed
  branch : t₁.Branch id room
  parent : (t₁.inst id).parent = parent
  path : (t₁.inst id).path = path

theorem Planted.alike {room : Nat} {parent : Option Nat} {path : String}
    (h : Planted t t₁ id room parent path) (ha : t₁.Alike t') :
    Planted t t' id room parent path := by
  have hsize : t.size ≤ t₁.size := h.place ▸ Nat.le_of_lt h.size
  exact ⟨h.place, ha.size ▸ h.size, h.agrees.trans (ha.agrees.mono hsize), h.closed.alike ha,
    h.branch.alike ha, (ha.agrees.parent id h.size).trans h.parent,
    (ha.agrees.path id h.size).trans h.path⟩

theorem Planted.child {room c : Nat} {parent : Option Nat} {path : String}
    (h : Planted t t₁ c room parent path) (hc : t₁.child? g = some i) :
    (g.owner < c ∧ t.child? g = some i) ∨ c < i := by
  by_cases hg : g.owner < c
  · exact .inl ⟨hg, (h.agrees.child g (h.place ▸ hg)).symm.trans hc⟩
  · exact .inr (h.branch.child g i (Nat.le_of_not_lt hg) hc)

variable {c room : Nat} {name : String}

theorem Planted.holds (h : Planted t t₁ c room (some f.owner)
    ((t.inst f.owner).path ++ "." ++ name))
    (hf : f.owner < t.size) (hname : t.name? f = some name) :
    (t₁.setStorage f (.component c)).Holds f c := by
  have hname₁ : t₁.name? f = some name := (h.agrees.name f hf).trans hname
  refine ⟨child?_setStorage_self hname₁ c, h.place ▸ hf, ?_, name, ?_, ?_⟩
  · exact (t₁.parent_modifySlot f _ c).trans h.parent
  · exact (t₁.name?_setStorage f _ f).trans hname₁
  · rw [Tree.setStorage, path_modifySlot, path_modifySlot, h.path, h.agrees.path _ hf]

theorem Planted.closed_setStorage {parent : Option Nat} {path : String}
    (h : Planted t t₁ c room parent path) (f : FieldRef) :
    (t₁.setStorage f (.component c)).Closed := by
  intro g i hi
  rw [size_setStorage]
  by_cases hg : g = f
  · subst hg
    have hst := child?_eq_some.mp hi
    rw [t₁.storage?_setStorage, if_pos rfl] at hst
    obtain ⟨_, -, hst⟩ := Option.map_eq_some_iff.mp hst
    cases hst
    exact h.size
  · rw [t₁.child?_setStorage_of_ne _ hg] at hi
    exact h.closed g i hi

theorem Planted.child?_setStorage (hholds : (t₁.setStorage f (.component c)).Holds f c)
    (hi : (t₁.setStorage f (.component c)).child? g = some i) :
    (g = f ∧ i = c) ∨ (g ≠ f ∧ t₁.child? g = some i) := by
  by_cases hg : g = f
  · subst hg
    rw [hholds.child] at hi
    exact .inl ⟨rfl, (Option.some.inj hi).symm⟩
  · exact .inr ⟨hg, (t₁.child?_setStorage_of_ne _ hg).symm.trans hi⟩

/-- After the first instance of a branch got a new branch, each instance but the first is held by
one field. -/
theorem Branch.held_setStorage {room' : Nat} (hb : t.Branch id room') (ht : t.Closed)
    (h : Planted t t₁ c room (some f.owner) ((t.inst f.owner).path ++ "." ++ name))
    (hf : f.owner < t.size) (hname : t.name? f = some name) (hfree : t.child? f = none)
    (hlt : id < i) (hi : i < t₁.size) : ∃ f₀, (t₁.setStorage f (.component c)).Holds f₀ i ∧
      ∀ g, (t₁.setStorage f (.component c)).child? g = some i → g = f₀ := by
  have hholds := h.holds hf hname
  have hc : t.size = c := h.place.symm
  rcases Nat.lt_trichotomy i c with hic | rfl | hci
  · -- The instance was there before.
    obtain ⟨f₀, hf₀, honly⟩ := hb.held i hlt (hc ▸ hic)
    have hne : f₀ ≠ f := by
      rintro rfl
      rw [hf₀.child] at hfree
      cases hfree
    refine ⟨f₀, (hf₀.agrees h.agrees (hc ▸ hic)).setStorage hne _, fun g hg => ?_⟩
    rcases Planted.child?_setStorage hholds hg with ⟨-, rfl⟩ | ⟨-, hg⟩
    · exact absurd hic (Nat.lt_irrefl _)
    · rcases h.child hg with ⟨-, hg⟩ | hci
      · exact honly g hg
      · exact absurd hic (Nat.lt_asymm hci)
  · -- It is the first one of the new branch.
    refine ⟨f, hholds, fun g hg => ?_⟩
    rcases Planted.child?_setStorage hholds hg with ⟨rfl, -⟩ | ⟨-, hg⟩
    · rfl
    · rcases h.child hg with ⟨-, hg⟩ | hci
      · exact absurd (ht g i hg) (hc ▸ Nat.lt_irrefl _)
      · exact absurd hci (Nat.lt_irrefl _)
  · -- It is a later one of the new branch.
    obtain ⟨f₀, hf₀, honly⟩ := h.branch.held i hci hi
    have hne : f₀ ≠ f := by
      rintro rfl
      rw [← h.agrees.child f₀ hf, hf₀.child] at hfree
      cases hfree
    refine ⟨f₀, hf₀.setStorage hne _, fun g hg => ?_⟩
    rcases Planted.child?_setStorage hholds hg with ⟨-, rfl⟩ | ⟨-, hg⟩
    · exact absurd hci (Nat.lt_irrefl _)
    · exact honly g hg

/-- A branch whose first instance gets a new branch below it is a branch with one more level. -/
theorem Branch.plant (hb : t.Branch id (room + 1)) (ht : t.Closed)
    (h : Planted t t₁ c room (some f.owner) ((t.inst f.owner).path ++ "." ++ name))
    (hid : f.owner = id) (hf : f.owner < t.size) (hname : t.name? f = some name)
    (hfree : t.child? f = none) : (t₁.setStorage f (.component c)).Branch id (room + 1) := by
  have hholds := h.holds hf hname
  have hc : t.size = c := h.place.symm
  refine ⟨fun i hlt hi => ?_, fun g i hg hi => ?_, fun i hle hi => ?_⟩
  · rw [size_setStorage] at hi
    exact hb.held_setStorage ht h hf hname hfree hlt hi
  · rcases Planted.child?_setStorage hholds hi with ⟨rfl, rfl⟩ | ⟨-, hi⟩
    · exact hid ▸ hholds.before
    · rcases h.child hi with ⟨-, hi⟩ | hci
      · exact hb.child g i hg hi
      · exact Nat.lt_trans (hid ▸ hholds.before) hci
  · rw [size_setStorage] at hi
    by_cases hic : i < c
    · obtain ⟨n, hn, hlevel⟩ := hb.level i hle (hc ▸ hic)
      exact ⟨n, hn, (hlevel.agrees h.agrees (hc ▸ hic)).setStorage f _⟩
    · obtain ⟨n, hn, hlevel⟩ := h.branch.level i (Nat.le_of_not_lt hic) hi
      have hfirst : (t₁.setStorage f (.component c)).Level id c 1 :=
        .down hholds.parent hholds.before (hid ▸ .self)
      exact ⟨1 + n, by omega, hfirst.trans (hlevel.setStorage f _)⟩

end Clockwork.Tree
