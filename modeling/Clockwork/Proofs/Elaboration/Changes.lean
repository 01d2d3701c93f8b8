import Mathlib.Logic.Relation
import Clockwork.Proofs.Elaboration.Instances
import Clockwork.Proofs.Number.Fit
import Clockwork.Proofs.Tree.Storage

namespace Clockwork

namespace Tree

open Elaboration (asSignal)

inductive Change (t : Tree) : Tree → Prop
  /-- Neither instances nor signals change. -/
  | other {t' : Tree} (hi : t'.instances = t.instances) (hs : t'.signals = t.signals) : Change t t'
  /-- An instance is added, with no signal yet. Its fields have names of their own. -/
  | added (i : Instance) (hi : (i.fields.toList.map FieldSlot.name).Nodup) : Change t (t.add i).1
  /-- A field that is no signal gets something else behind it. -/
  | stored {f : FieldRef} {st : Storage} (hf : ∀ s, ¬ t.SignalAt f s) : Change t (t.setStorage f st)
  /-- A signal gets another value to start with. -/
  | valued {f : FieldRef} {s : FieldSlot} (hf : t.SignalAt f s) (v : Value) :
      Change t (t.setSignal f.owner s.key (v.fit s.width s.signed))
  | signal {f : FieldRef} (hf : ∀ s, ¬ t.SignalAt f s) (bits : Nat) (signed : Bool) :
      Change t (asSignal t f bits signed)
  | started {f : FieldRef} {s : FieldSlot} (hslot : t.slot f.owner f.index = .ok s)
      (hf : ∀ s, ¬ t.SignalAt f s) (bits : Nat) (signed : Bool) (v : Value) :
      Change t (asSignal (t.setSignal f.owner s.key (v.fit bits signed)) f bits signed)

abbrev Grows : Tree → Tree → Prop := Relation.ReflTransGen Change

def Filled (t : Tree) : Prop :=
  ∀ id key v, (t.signalsOf id).current.get? key = some v →
    ∃ i s, t.SignalAt ⟨id, i⟩ s ∧ s.key = key ∧ v.fit s.width s.signed = v

theorem filled_empty : Tree.empty.Filled := by
  intro id key v hv
  cases hv

theorem signalAt_congr {t t' : Tree} (hi : t'.instances = t.instances) (f : FieldRef)
    (s : FieldSlot) : t'.SignalAt f s ↔ t.SignalAt f s := by
  simp only [SignalAt, slot, inst, hi]

theorem SignalAt.modifySlot {t : Tree} {g : FieldRef} {s : FieldSlot} (h : t.SignalAt g s)
    {f : FieldRef} (hf : ∀ s, ¬ t.SignalAt f s) (change : FieldSlot → FieldSlot) :
    (t.modifySlot f change).SignalAt g s := by
  have hne : g ≠ f := by
    rintro rfl
    exact hf s h
  exact ⟨(t.slot_modifySlot_of_ne change hne s).mpr h.1, h.2⟩

theorem signalAt_asSignal {t : Tree} {f : FieldRef} {s : FieldSlot}
    (hslot : t.slot f.owner f.index = .ok s) (bits : Nat) (signed : Bool) :
    (asSignal t f bits signed).SignalAt f
      { s with width := bits, signed := signed, storage := .signal } :=
  ⟨(t.slot_modifySlot_self f _ _).mpr ⟨s, hslot, rfl⟩, rfl⟩

theorem name?_asSignal (t : Tree) (f : FieldRef) (bits : Nat) (signed : Bool) (g : FieldRef) :
    (asSignal t f bits signed).name? g = t.name? g := by
  rw [asSignal, name?_modifySlot]
  exact fun _ => rfl

theorem stored_setSignal {t : Tree} {id key : Nat} {v : Value} {id' key' : Nat} {w : Value}
    (h : ((t.setSignal id key v).signalsOf id').current.get? key' = some w) :
    (id' = id ∧ key' = key ∧ w = v) ∨ (t.signalsOf id').current.get? key' = some w := by
  rw [signalsOf_setSignal] at h
  split at h
  · rename_i hid
    by_cases hkey : key' = key
    · subst hkey
      rw [SignalState.set, Table.get?_insert_self] at h
      exact .inl ⟨hid.1, rfl, (Option.some.inj h).symm⟩
    · rw [SignalState.set, Table.get?_insert_of_ne _ hkey] at h
      exact .inr h
  · exact .inr h

theorem signalsOf_add (t : Tree) (i : Instance) (id : Nat) :
    (t.add i).1.signalsOf id = t.signalsOf id := by
  simp only [signalsOf, add, Array.getElem?_push]
  split
  · rename_i hid
    rw [hid, Array.getElem?_eq_none (Nat.le_refl _)]
    rfl
  · rfl

/-- Every change keeps to signals and to what fits them. -/
theorem Change.filled {t t' : Tree} (h : t.Change t') (ht : t.Filled) : t'.Filled := by
  intro id key v hv
  cases h with
  | other hi hs =>
      have hof : t'.signalsOf id = t.signalsOf id := by rw [signalsOf, hs, signalsOf]
      rw [hof] at hv
      obtain ⟨i, s, hslot, hkey, hfit⟩ := ht id key v hv
      exact ⟨i, s, (signalAt_congr hi _ s).mpr hslot, hkey, hfit⟩
  | added i _ =>
      rw [signalsOf_add] at hv
      obtain ⟨j, s, hslot, hkey, hfit⟩ := ht id key v hv
      refine ⟨j, s, ⟨?_, hslot.2⟩, hkey, hfit⟩
      rw [slot_add_of_lt t i (slot_lt_size hslot.1)]
      exact hslot.1
  | stored hf =>
      obtain ⟨i, s, hslot, hkey, hfit⟩ := ht id key v hv
      exact ⟨i, s, hslot.modifySlot hf _, hkey, hfit⟩
  | @valued f s hf w =>
      rcases stored_setSignal hv with ⟨rfl, rfl, rfl⟩ | hold
      · exact ⟨f.index, s, hf, rfl, Value.fit_fit _ _ _⟩
      · obtain ⟨i, s', hslot, hkey, hfit⟩ := ht id key v hold
        exact ⟨i, s', hslot, hkey, hfit⟩
  | @signal f hf bits signed =>
      obtain ⟨i, s, hslot, hkey, hfit⟩ := ht id key v hv
      exact ⟨i, s, hslot.modifySlot hf _, hkey, hfit⟩
  | @started f s hs hf bits signed w =>
      rcases stored_setSignal (t := t) hv with ⟨rfl, rfl, rfl⟩ | hold
      · exact ⟨f.index, _, signalAt_asSignal (t := t.setSignal _ _ _) hs bits signed, rfl,
          Value.fit_fit _ _ _⟩
      · obtain ⟨i, s', hslot, hkey, hfit⟩ := ht id key v hold
        exact ⟨i, s', SignalAt.modifySlot (t := t.setSignal _ _ _) hslot hf _, hkey, hfit⟩

theorem Change.path {t t' : Tree} (h : t.Change t') {id : Nat} (hid : id < t.size) :
    (t'.inst id).path = (t.inst id).path := by
  cases h with
  | other hi _ => rw [inst, hi, inst]
  | added i _ => rw [inst_add_of_lt t i hid]
  | stored | signal | started => exact path_modifySlot _ _ _ id
  | valued => rfl

theorem Change.size {t t' : Tree} (h : t.Change t') : t.size ≤ t'.size := by
  cases h with
  | other hi _ => exact Nat.le_of_eq (congrArg Array.size hi).symm
  | added i _ => rw [size_add]; exact Nat.le_succ _
  | stored | signal | started => exact Nat.le_of_eq (size_modifySlot _ _ _).symm
  | valued => exact Nat.le_refl _

theorem Grows.path {t t' : Tree} (h : t.Grows t') {id : Nat} (hid : id < t.size) :
    (t'.inst id).path = (t.inst id).path := by
  have hall : t.size ≤ t'.size ∧ (t'.inst id).path = (t.inst id).path := by
    induction h with
    | refl => exact ⟨Nat.le_refl _, rfl⟩
    | tail _ hstep ih =>
        exact ⟨Nat.le_trans ih.1 hstep.size,
          (hstep.path (Nat.lt_of_lt_of_le hid ih.1)).trans ih.2⟩
  exact hall.2

theorem Grows.filled {t t' : Tree} (h : t.Grows t') (ht : t.Filled) : t'.Filled := by
  induction h with
  | refl => exact ht
  | tail _ hstep ih => exact hstep.filled ih

def Distinct (t : Tree) : Prop :=
  ∀ id i j name, t.name? ⟨id, i⟩ = some name → t.name? ⟨id, j⟩ = some name → i = j

theorem distinct_empty : Tree.empty.Distinct := by
  intro id i j name hi
  cases hi

theorem Distinct.of_names {t t' : Tree} (ht : t.Distinct) (h : ∀ f, t'.name? f = t.name? f) :
    t'.Distinct := by
  intro id i j name hi hj
  rw [h] at hi hj
  exact ht id i j name hi hj

theorem Distinct.add {t : Tree} (ht : t.Distinct) {new : Instance}
    (hnew : (new.fields.toList.map FieldSlot.name).Nodup) : (t.add new).1.Distinct := by
  have hnames : ∀ f, (t.add new).1.name? f =
      if f.owner = t.size then (new.fields.toList.map FieldSlot.name)[f.index]? else t.name? f := by
    intro f
    by_cases h : f.owner = t.instances.size <;>
      simp [name?, inst, Tree.add, size, Array.getElem?_push, h]
  intro id i j name hi hj
  rw [hnames] at hi hj
  split at hi
  · rename_i hid
    rw [if_pos hid] at hj
    exact (List.getElem?_inj (List.getElem?_eq_some_iff.mp hi).1 hnew).mp (hi.trans hj.symm)
  · rename_i hid
    rw [if_neg hid] at hj
    exact ht id i j name hi hj

theorem Change.distinct {t t' : Tree} (h : t.Change t') (ht : t.Distinct) : t'.Distinct := by
  cases h with
  | other hi _ => exact ht.of_names fun f => by rw [name?, inst, hi, name?, inst]
  | added i hi => exact ht.add hi
  | stored => exact ht.of_names (t.name?_setStorage _ _)
  | signal => exact ht.of_names (t.name?_asSignal _ _ _)
  | valued => exact ht
  | started => exact Distinct.of_names (t := t.setSignal _ _ _) ht (name?_asSignal _ _ _ _)

theorem Grows.distinct {t t' : Tree} (h : t.Grows t') (ht : t.Distinct) : t'.Distinct := by
  induction h with
  | refl => exact ht
  | tail _ hstep ih => exact hstep.distinct ih

theorem Filled.fit_initial {t : Tree} (ht : t.Filled) (hsound : t.Sound) {f : FieldRef}
    {s : FieldSlot} (hf : t.SignalAt f s) :
    (t.initial f s).fit s.width s.signed = t.initial f s := by
  rw [initial, SignalState.read]
  cases hv : (t.signalsOf f.owner).current.get? s.key with
  | none => simp [Value.fit, Word.fit]
  | some v =>
      obtain ⟨i, s', hslot, hkey, hfit⟩ := ht f.owner s.key v hv
      obtain rfl : i = f.index := hsound.keyed f.owner i f.index s' s hslot.1 hf.1 hkey
      obtain rfl := hf.unique hslot
      exact hfit

end Tree

namespace Elaboration

abbrev Grows (e e' : Elaboration) : Prop := e.tree.Grows e'.tree

variable {e e' : Elaboration} {id : Nat}

namespace Grows

theorem same (hi : e'.tree.instances = e.tree.instances) (hs : e'.tree.signals = e.tree.signals) :
    e.Grows e' := .single (.other hi hs)

theorem attempt {r : Except ElabError Elaboration} (h : ∀ e', r = .ok e' → e.Grows e') :
    e.Grows (e.attempt r) := by
  cases r with
  | ok e' => exact h e' rfl
  | error error => exact same rfl rfl

theorem foldl {α : Type} {step : Elaboration → α → Elaboration}
    (hstep : ∀ (e : Elaboration) (x : α), e.Grows (step e x)) (l : List α) :
    e.Grows (l.foldl step e) := by
  induction l generalizing e with
  | nil => exact .refl
  | cons x l ih => exact (hstep e x).trans ih

theorem setStorage (e : Elaboration) {f : FieldRef} (hf : ∀ s, ¬ e.tree.SignalAt f s)
    (st : Storage) : e.Grows (e.setStorage f st) := .single (.stored hf)

theorem setInitial {f : FieldRef} {s : FieldSlot} (hf : e.tree.SignalAt f s) (v : Value) :
    e.Grows (e.setInitial f s v) := .single (.valued hf v)

theorem record (h : e.Grows e') (target source : String) : e.Grows (e'.record target source) :=
  h.tail (.other rfl rfl)

theorem bindFrom (v : Value) (room : Nat) (work seen : List FieldRef)
    (hwork : e.NoSignals work) : e.Grows (bindFrom v room work seen e) := by
  refine bindFrom_induction (fun _ => .refl) .trans isUnbound_not_signal
    (fun {e f} v hf => setStorage e hf _) (fun {e f g} v hf hg => ?_) v room seen hwork
  exact not_signal_setStorage (by simp) hf hg

theorem bindObject {f : FieldRef} {s : FieldSlot} (hs : e.slot f = .ok s)
    (hst : s.storage = .unbound) (v : Value) : e.Grows (e.bindObject f v) := by
  refine bindFrom v _ _ _ ?_
  rintro g hg
  rw [List.mem_singleton.mp hg]
  exact storage_not_signal (slot_eq_ok hs) (by simp [hst])

theorem bindSignals (t : Tree) (d f : FieldRef) : t.Grows (t.bind d f) := by
  refine .single (.other ?_ (t.bind_signals d f))
  unfold Tree.bind
  dsimp only
  split <;> rfl

theorem connectSignals {l r : FieldRef} {ls rs : FieldSlot} (hl : e.tree.SignalAt l ls)
    (hr : e.tree.SignalAt r rs) (h : e.connectSignals id l r ls rs = .ok e') : e.Grows e' := by
  -- The slot of the target is that of the side that is bound to the other one.
  have bound : ∀ (d f : FieldRef) (s : FieldSlot) (v : Value), e.tree.SignalAt f s →
      e.tree.Grows ((e.tree.bind d f).setSignal f.owner s.key (v.fit s.width s.signed)) :=
    fun d f s v hf => (bindSignals e.tree d f).tail
      (.valued ((e.tree.bind_extends d f).slots f s hf) v)
  simp only [Elaboration.connectSignals] at h
  cases hright : rightDrives (e.signalEnd l ls) (e.signalEnd r rs) with
  | true =>
      simp only [hright, ↓reduceIte] at h
      split at h
      · cases h
      · cases h
        exact bound r l ls _ hl
  | false =>
      simp only [hright, Bool.false_eq_true, ↓reduceIte] at h
      split at h
      · cases h
      · cases h
        by_cases hsame : r = l
        · subst hsame
          simp only [↓reduceIte]
          exact bound r r ls _ hl
        · simp only [hsame, ↓reduceIte]
          exact bound l r rs _ hr

theorem connectFields {l r : FieldRef} (h : e.connectFields id l r = .ok e') : e.Grows e' := by
  obtain ⟨ls, hls, h⟩ := bind_eq_ok h
  obtain ⟨rs, hrs, h⟩ := bind_eq_ok h
  split at h
  · rename_i hsl hsr
    exact connectSignals ⟨slot_eq_ok hls, hsl⟩ ⟨slot_eq_ok hrs, hsr⟩ h
  · rename_i hsl _
    cases h
    exact setInitial ⟨slot_eq_ok hls, hsl⟩ _
  · cases h
    exact same rfl rfl
  · rename_i hsl _
    cases h
    exact bindObject hls hsl _
  · rename_i _ hsr
    cases h
    exact bindObject hrs hsr _
  · rename_i hsl _
    cases h
    exact bindObject hls hsl _
  · cases h

theorem connect {target : FieldRef} {source : Endpoint} (h : e.connect id target source = .ok e') :
    e.Grows e' := by
  obtain ⟨s, c, hs, rfl, hcase⟩ := connect_eq_ok h
  refine record ?_ _ _
  rcases hcase with ⟨r, -, hc⟩ | ⟨owner, name, -, hst, rfl⟩ | ⟨v, -, hst, rfl⟩ | ⟨v, -, hst, rfl⟩
  · exact connectFields hc
  · exact bindObject hs hst _
  · exact setInitial ⟨slot_eq_ok hs, hst⟩ v
  · exact bindObject hs hst v

theorem mapRegions {f : FieldRef} {entries : Expr} (h : e.mapRegions id f entries = .ok e') :
    e.Grows e' := by
  obtain ⟨s, -, h⟩ := bind_eq_ok h
  dsimp only at h
  split at h
  · cases h
    refine foldl (fun e x => attempt fun e' h => ?_) _
    obtain ⟨⟨base, backing⟩, -, h⟩ := bind_eq_ok h
    dsimp only at h
    split at h
    · cases h
    · cases h
    · cases h
      exact same rfl rfl
  · cases h

theorem hookEvent {f : FieldRef} {callback : Expr} (h : e.hookEvent id f callback = .ok e') :
    e.Grows e' := by
  obtain ⟨s, -, h⟩ := bind_eq_ok h
  dsimp only at h
  split at h
  · obtain ⟨p, -, h⟩ := bind_eq_ok h
    split at h
    · cases h
      exact same rfl rfl
    · cases h
  · cases h

theorem addMember {f : FieldRef} {name : String} {v : Value}
    (h : e.addMember id f name v = .ok e') : e.Grows e' := by
  obtain ⟨s, hs, h⟩ := bind_eq_ok h
  have hbound : s.storage = .unbound → ∀ (objects : Objects) (v : Value),
      e.Grows ({ e with objects := objects }.bindObject f v) :=
    fun hst objects v => bindObject (e := { e with objects := objects }) hs hst v
  dsimp only at h
  split at h
  · rename_i hst
    cases h
    exact hbound hst _ _
  · rename_i hst
    cases h
    exact setStorage e (storage_not_signal (slot_eq_ok hs) (by simp [hst])) _
  · cases h

theorem applyBind {b : Bind} (h : e.applyBind id b = .ok e') : e.Grows e' := by
  simp only [Elaboration.applyBind] at h
  split at h
  · cases h
  obtain ⟨p, -, h⟩ := bind_eq_ok h
  cases p with
  | field target =>
      obtain ⟨source, -, h⟩ := bind_eq_ok h
      exact connect h
  | member f name =>
      dsimp only at h
      split at h
      · exact mapRegions h
      · split at h
        · exact hookEvent h
        · simp only [connectMember] at h
          split at h
          · cases h
          · obtain ⟨source, -, h⟩ := bind_eq_ok h
            obtain ⟨v, -, h⟩ := bind_eq_ok h
            obtain ⟨c, hc, h⟩ := bind_eq_ok h
            cases h
            exact (addMember hc).record _ _
  | method owner name => cases h
  | value v => cases h

theorem applyBinds (e : Elaboration) (id : Nat) (binds : List Bind) :
    e.Grows (e.applyBinds id binds) :=
  foldl (fun _ _ => attempt fun _ h => applyBind h) _

theorem bindTop {name : String} {v : Value} (h : e.bindTop id name v = .ok e') : e.Grows e' := by
  simp only [Elaboration.bindTop] at h
  split at h
  · cases h
  · obtain ⟨s, hs, h⟩ := bind_eq_ok h
    cases hst : s.storage <;> simp only [hst] at h
    case signal =>
      cases h
      exact (setInitial ⟨slot_eq_ok hs, hst⟩ v).record _ _
    case unbound =>
      cases h
      exact (bindObject hs hst v).record _ _
    all_goals cases h

theorem withTops (outside : Table String Value) (id : Nat) (parent : Option Nat)
    (e : Elaboration) : e.Grows (withTops outside id parent e) := by
  rw [Elaboration.withTops]
  split
  · exact foldl (fun _ _ => attempt fun _ h => bindTop h) _
  · exact .refl

theorem buildSignal {index : Nat} {f : Field} {argument : Option Value} {bits : Nat}
    {signed : Bool} (h : e.buildSignal id index f argument bits signed = .ok e')
    (he : e.Building id index) (hindex : index < (e.tree.inst id).fields.size) : e.Grows e' := by
  have hopen : ∀ s, ¬ e.tree.SignalAt ⟨id, index⟩ s := fun s => he.open' index s (Nat.le_refl _)
  have hslot : e.tree.slot id index = .ok (e.tree.inst id).fields[index] := by
    rw [Tree.slot_eq_ok, Array.getElem?_eq_getElem hindex]
  have hkey : ((e.tree.inst id).fields[index]?.getD default).key =
      (e.tree.inst id).fields[index].key := by
    rw [Array.getElem?_eq_getElem hindex, Option.getD_some]
  rcases buildSignal_eq_ok h with ⟨-, rfl⟩ | ⟨v, -, rfl⟩
  · exact .single (.signal hopen bits signed)
  · rw [hkey]
    exact .single (.started (f := ⟨id, index⟩) hslot hopen bits signed v)

/-- Building an instance is a part of the history of an elaboration, and makes its tree grow. -/
structure Builds (build : Build)
    (inner : Elaboration → DataType → String → Option Nat → List (String × Value) → History) :
    Prop where
  steps : ∀ e type name parent arguments e' child, e.tree.Sound →
    build e type name parent arguments = .ok (e', child) →
    Steps (fun g => e.tree.size ≤ g.owner) e (inner e type name parent arguments) e'
  grows : ∀ e type name parent arguments e' child, e.tree.Sound →
    build e type name parent arguments = .ok (e', child) → e.Grows e'

section Instances

variable {build : Build}
  {inner : Elaboration → DataType → String → Option Nat → List (String × Value) → History}

theorem buildField (hbuild : Builds build inner) {index : Nat} {f : Field}
    {argument : Option Value} (he : e.Building id index)
    (hindex : index < (e.tree.inst id).fields.size)
    (h : e.buildField build id index f argument = .ok e') : e.Grows e' := by
  have hopen : ∀ s, ¬ e.tree.SignalAt ⟨id, index⟩ s := fun s => he.open' index s (Nat.le_refl _)
  have hstorage : ∀ (e₁ : Elaboration) (st : Storage),
      e₁.tree = e.tree.setStorage ⟨id, index⟩ st → e.Grows e₁ := by
    intro e₁ st htree
    have hset := setStorage e hopen st
    exact (htree ▸ hset : e.tree.Grows e₁.tree)
  have hchild : ∀ arguments c, build e f.type f.name (some id) arguments = .ok c →
      e.Grows (c.1.setStorage ⟨id, index⟩ (.component c.2)) := by
    intro arguments c hb
    have hsteps := hbuild.steps e _ _ _ _ c.1 c.2 he.sound hb
    refine (hbuild.grows e _ _ _ _ c.1 c.2 he.sound hb).trans (setStorage c.1 ?_ _)
    intro s hsignal
    rcases hsteps.tree.fresh _ s hsignal with hold | hnew
    · exact hopen s hold
    · exact absurd hnew (Nat.not_le_of_lt he.size)
  simp only [Elaboration.buildField] at h
  split at h
  case h_2 => cases h
  rename_i type htype
  obtain ⟨_, hpure, h⟩ := bind_eq_ok h
  cases hpure
  obtain ⟨width, -, h⟩ := bind_eq_ok h
  cases type with
  | int bits signed =>
      dsimp only at h
      split at h
      · cases h
      · exact buildSignal h he hindex
  | enum name variants => exact buildSignal h he hindex
  | string => exact buildSignal h he hindex
  | component c =>
      obtain ⟨arguments, -, h⟩ := bind_eq_ok h
      obtain ⟨c, hb, h⟩ := bind_eq_ok h
      cases h
      exact hchild arguments c hb
  | «external» c name =>
      obtain ⟨arguments, -, h⟩ := bind_eq_ok h
      obtain ⟨c, hb, h⟩ := bind_eq_ok h
      cases h
      exact hchild arguments c hb
  | _ =>
      cases argument <;> dsimp only at h
      all_goals
        try split at h
        all_goals
          cases h
          try exact hstorage _ _ rfl

theorem buildConstant {index : Nat} {f : Field} {argument : Option Value}
    (he : e.Building id index) (h : e.buildConstant id index f argument = .ok e') :
    e.tree.Extends (Below id index) e'.tree ∧ e.Grows e' := by
  have hopen : ∀ s, ¬ e.tree.SignalAt ⟨id, index⟩ s := fun s => he.open' index s (Nat.le_refl _)
  obtain ⟨v, rfl⟩ : ∃ v, e' = e.setStorage ⟨id, index⟩ (.const v) := by
    simp only [Elaboration.buildConstant] at h
    split at h
    all_goals
      obtain ⟨v, -, h⟩ := bind_eq_ok h
      cases h
      exact ⟨v, rfl⟩
  have hconst : Storage.const v ≠ .signal := by simp
  exact ⟨(setStorage_quiet e _ hconst hopen).tree.mono fun _ => False.elim,
    setStorage e hopen _⟩

theorem buildFields {test : Field → Bool}
    {step : Elaboration → Nat → Field → Option Value → Except ElabError Elaboration}
    (hstep : ∀ e index f argument e', e.Building id index →
      index < (e.tree.inst id).fields.size → step e index f argument = .ok e' →
      e.tree.Extends (Below id index) e'.tree ∧ e.Grows e')
    {fields : List Field} (arguments : List (String × Value)) (he : e.Building id 0)
    (hfields : (e.tree.inst id).fields.size = fields.length) :
    e.Grows (buildFields test step fields arguments e) := by
  rw [Elaboration.buildFields]
  have hroom : 0 + fields.length ≤ (e.tree.inst id).fields.size := by omega
  clear hfields
  generalize 0 = index at he hroom ⊢
  induction fields generalizing e index with
  | nil => exact .refl
  | cons f fields ih =>
      rw [List.length_cons] at hroom
      rw [List.zipIdx_cons, List.foldl_cons]
      dsimp only
      -- A field that does not pass the test, or cannot be built, leaves the tree as it is.
      obtain ⟨hext, hgrows⟩ : e.tree.Extends (Below id index)
            (if test f then e.attempt (step e index f (arguments.lookup f.name)) else e).tree ∧
          e.Grows (if test f then e.attempt (step e index f (arguments.lookup f.name)) else e) := by
        split
        · cases hbuilt : step e index f (arguments.lookup f.name) with
          | ok e' => exact hstep e index f _ e' he (by omega) hbuilt
          | error error => exact ⟨.refl _ _, same rfl rfl⟩
        · exact ⟨.refl _ _, .refl⟩
      exact hgrows.trans (ih (index + 1) (he.next hext)
        (by rw [hext.fields id he.size]; omega))

theorem withFields (hbuild : Builds build inner) {fields : List Field}
    (arguments : List (String × Value)) (he : e.Building id 0)
    (hfields : (e.tree.inst id).fields.size = fields.length) :
    e.Grows (withFields build id fields arguments e) := by
  have hconsts : e.Grows (Elaboration.buildFields Field.isConst (fun e => e.buildConstant id)
      fields arguments e) :=
    buildFields (fun e index f argument e' he _ h => buildConstant he h) arguments he hfields
  -- The constants leave all other fields open.
  have hquiet := constants_quiet he.open' fields arguments
  have he' := (⟨hquiet.tree.sound he.sound, Nat.lt_of_lt_of_le he.size hquiet.tree.size,
    he.open'.quiet hquiet⟩ : Building _ id 0)
  refine hconsts.trans (buildFields ?_ arguments he'
    ((hquiet.tree.fields id he.size).trans hfields))
  intro e index f argument e' he hindex h
  exact ⟨(buildField_steps hbuild.steps he hindex h).tree, buildField hbuild he hindex h⟩

theorem addInstance (e : Elaboration) (name path : String) (parent : Option Nat) (c : Component)
    (line : List Component) {fields : List Field} (functions : List Function)
    (arguments : List (String × Value)) (hf : (fields.map Field.name).Nodup) :
    e.Grows (e.addInstance name path parent c line fields functions arguments).1 := by
  have hnoted : e.Grows (arguments.foldl (fun e b =>
      if b.1 ∈ fields.map Field.name then e else e.fault (.unknownField path b.1)) e) := by
    refine foldl (fun e b => ?_) _
    split
    · exact .refl
    · exact same rfl rfl
  have hopened := openSlots_opened (arguments.foldl (fun e b =>
    if b.1 ∈ fields.map Field.name then e else e.fault (.unknownField path b.1)) e).tree fields
  exact (hnoted.tail (.other hopened.instances hopened.signals)).tail
    (.added _ (hopened.names.symm ▸ hf))

end Instances

theorem instantiate (outside : Table String Value) (room : Nat) (above : List String)
    (e : Elaboration) (type : DataType) (name : String) (parent : Option Nat)
    (arguments : List (String × Value)) (e' : Elaboration) (id : Nat) (he : e.tree.Sound)
    (h : instantiate outside room above e type name parent arguments = .ok (e', id)) :
    e.Grows e' := by
  induction room generalizing above e type name parent arguments e' id with
  | zero =>
      obtain ⟨c, -, h⟩ := bind_eq_ok h
      split at h <;> cases h
  | succ room ih =>
      obtain ⟨c, fields, line, functions, e₁, -, -, hfields, -, -, hadd, rfl⟩ := instantiate_eq_ok h
      have hgrows := addInstance e name (pathBelow e.tree name parent) parent c line functions
        arguments (TypeTable.allFields_nodup hfields)
      have hadded := addInstance_added he name (pathBelow e.tree name parent) parent c line
        functions arguments (TypeTable.allFields_nodup hfields)
      rw [hadd] at hgrows hadded
      obtain ⟨hquiet, rfl, hsize, hlength⟩ := hadded
      have hbuilding := Building.start he hquiet hsize
      have hbuild : Builds (Elaboration.instantiate outside room (above ++ [c.name]))
          (instanceHistory outside room (above ++ [c.name])) :=
        ⟨instantiate_steps outside room _, ih _⟩
      exact (hgrows.trans (withFields hbuild arguments hbuilding hlength)).trans
        ((withTops outside e.tree.size parent _).trans (applyBinds _ _ _))

end Grows

end Elaboration

theorem elaborate_grows {types : TypeTable} {objects : Objects} {top : String}
    {values : Table String Value} {settings : ElabSettings} {r : Elaborated}
    {log : List LogRecord} (h : elaborate types objects top values settings = (.ok r, log)) :
    Tree.empty.Grows r.tree := by
  obtain ⟨e, id, hbuilt, htree, -⟩ := elaborate_eq_ok h
  rw [htree]
  exact Elaboration.Grows.instantiate values _ [] _ _ _ none [] e id Tree.sound_empty hbuilt

end Clockwork
