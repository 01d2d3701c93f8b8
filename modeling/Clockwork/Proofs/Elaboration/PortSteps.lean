import Clockwork.Proofs.Elaboration.Instances
import Clockwork.Proofs.Elaboration.Interfaces
import Clockwork.Proofs.Tree.Known

namespace Clockwork

namespace Tree

def Downward (t : Tree) : Prop := ∀ f c, t.storage? f = some (.component c) → f.owner < c

theorem Downward.follow {t : Tree} (ht : t.Downward) {id : Nat} {path : FieldPath} {f : FieldRef}
    (h : t.follow id path = .ok f) : id ≤ f.owner := by
  induction path generalizing id with
  | nil => cases h
  | cons index rest ih =>
      cases rest with
      | nil =>
          simp only [Tree.follow] at h
          split at h
          · cases h
            exact Nat.le_refl id
          · cases h
      | cons index' rest =>
          simp only [Tree.follow] at h
          split at h
          · cases h
          · rename_i s hs
            split at h
            · rename_i child hchild
              have hlt := ht ⟨id, index⟩ child (by rw [storage?_of_slot hs, hchild])
              exact Nat.le_of_lt (Nat.lt_of_lt_of_le hlt (ih h))
            · cases h

end Tree

namespace Endpoint

def place? : Endpoint → Option FieldRef
  | field f => some f
  | member f _ => some f
  | _ => none

theorem place?_named {t : Tree} {owner : Nat} {name : String} {p : Endpoint} {f : FieldRef}
    (h : named t owner name = .ok p) (hf : p.place? = some f) : f.owner = owner := by
  simp only [named] at h
  split at h
  · cases h
    cases hf
  · split at h
    · cases h
      cases hf
      rfl
    · cases h

/-- What an instance can name belongs to it or to an instance below. -/
theorem place?_resolve {t : Tree} (ht : t.Downward) {id : Nat} {x : Expr} {p : Endpoint}
    {f : FieldRef} (h : resolve t id x = .ok p) (hf : p.place? = some f) : id ≤ f.owner := by
  have hvalue : ∀ r : Except SimError Value, r.map Endpoint.value ≠ .ok p := by
    intro r hr
    cases r with
    | error error => cases hr
    | ok v =>
        cases hr
        cases hf
  simp only [resolve] at h
  split at h
  · rename_i path _
    cases hfollow : t.follow id path with
    | error error =>
        rw [hfollow] at h
        cases h
    | ok g =>
        rw [hfollow] at h
        cases h
        cases hf
        exact ht.follow hfollow
  · split at h
    · exact Nat.le_of_eq (place?_named h hf).symm
    · split at h
      · exact absurd h (hvalue _)
      · obtain ⟨g, hg, h⟩ := bind_eq_ok h
        obtain ⟨s, hs, h⟩ := bind_eq_ok h
        have hbelow := ht.follow hg
        split at h
        · rename_i child hchild
          have hlt := ht g child (by rw [Tree.storage?_of_slot hs, hchild])
          rw [place?_named h hf]
          exact Nat.le_of_lt (Nat.lt_of_le_of_lt hbelow hlt)
        · cases h
          cases hf
          exact hbelow
    · exact absurd h (hvalue _)

/-- A value that an endpoint is holds only interfaces that are behind fields. -/
theorem value_resolve {t : Tree} {n : Nat} (ht : t.Known n) {id : Nat} {x : Expr} {v : Value}
    (h : resolve t id x = .ok (.value v)) : v.Known n := by
  have hvalue : ∀ x, (t.structural id x).map Endpoint.value = .ok (.value v) → v.Known n := by
    intro x hx
    cases hr : t.structural id x with
    | error error =>
        rw [hr] at hx
        cases hx
    | ok w =>
        rw [hr] at hx
        cases hx
        exact Tree.structural_known ht x hr
  have hnamed : ∀ owner name, named t owner name ≠ .ok (.value v) := by
    intro owner name hn
    simp only [named] at hn
    split at hn
    · cases hn
    · split at hn <;> cases hn
  simp only [resolve] at h
  split at h
  · rename_i path _
    cases hfollow : t.follow id path <;> rw [hfollow] at h <;> cases h
  · split at h
    · exact absurd h (hnamed _ _)
    · split at h
      · exact hvalue _ h
      · obtain ⟨g, -, h⟩ := bind_eq_ok h
        obtain ⟨s, -, h⟩ := bind_eq_ok h
        split at h
        · exact absurd h (hnamed _ _)
        · cases h
    · exact hvalue _ h

end Endpoint

namespace Elaboration

/-- What a field may hold: an instance that comes after its own, and, where values are known to hold
existing interfaces only, the first `n` interfaces. -/
def Fits (known : Prop) (n : Nat) (f : FieldRef) : Storage → Prop
  | .component c => f.owner < c
  | .object v | .const v => known → v.Known n
  | _ => True

structure Sane (known : Prop) (e : Elaboration) : Prop where
  fits : ∀ f st, e.tree.storage? f = some st → Fits known e.objects.interfaces.size f st
  links : e.Mutual
  absent : ∀ f, e.tree.size ≤ f.owner → ¬ e.IsPort f

def Vacant (e : Elaboration) (f : FieldRef) : Prop :=
  ¬ e.IsPort f ∧ e.tree.storage? f = some .unbound

/-- A part of an elaboration as a run, in which only fields among `new` are built. -/
structure PortSteps (known : Prop) (new : FieldRef → Prop) (e e' : Elaboration) : Prop where
  run : ∃ h, PortRun e h e' ∧ (known → h.Existing)
  sane : e'.Sane known
  size : e.tree.size ≤ e'.tree.size
  interfaces : e.objects.interfaces.size ≤ e'.objects.interfaces.size
  vacant : ∀ f, ¬ new f → e.Vacant f → e'.Vacant f

variable {known : Prop} {e e₁ e' : Elaboration} {new : FieldRef → Prop} {f : FieldRef}

theorem fits_object {n : Nat} {v : Value} :
    Fits known n f (.object v) ↔ (known → v.Known n) := Iff.rfl

theorem fits_const {n : Nat} {v : Value} : Fits known n f (.const v) ↔ (known → v.Known n) :=
  Iff.rfl

theorem Fits.mono {n m : Nat} (hle : n ≤ m) {st : Storage} (h : Fits known n f st) :
    Fits known m f st := by
  cases st with
  | object v | const v => exact fun hk => (h hk).mono hle
  | component c => exact h
  | signal | unbound => trivial

theorem Sane.downward (he : e.Sane known) : e.tree.Downward := fun f _ h => he.fits f _ h

theorem Sane.tree_known (he : e.Sane known) (hk : known) :
    e.tree.Known e.objects.interfaces.size := by
  rintro f v (h | h)
  · exact he.fits f _ h hk
  · exact he.fits f _ h hk

theorem Vacant.fresh (hf : e.Vacant f) : e.Fresh f :=
  ⟨hf.1, fun _ hst => Option.some.inj (hst.symm.trans hf.2)⟩

theorem Vacant.lt_size (hf : e.Vacant f) : f.owner < e.tree.size := Tree.lt_size_of_storage? hf.2

theorem isPort_congr (hl : e'.links = e.links) (hd : e'.declared = e.declared) (f : FieldRef) :
    e'.IsPort f ↔ e.IsPort f := by
  rw [IsPort, IsPort, hd, linked_congr hl]

theorem narrow_known {n : Nat} {v : Value} (hv : v.Known n) (declared : Option DataType) :
    (narrow declared v).Known n := by
  unfold narrow
  split
  · exact .obj (by simp)
  · exact .obj (by simp)
  · exact .obj (by simp)
  · exact hv

namespace PortSteps

theorem refl (he : e.Sane known) : PortSteps known new e e :=
  ⟨⟨[], .start, fun _ _ _ _ h => by cases h⟩, he, Nat.le_refl _, Nat.le_refl _, fun _ _ => id⟩

theorem trans (hs : PortSteps known new e e₁) (hs₁ : PortSteps known new e₁ e') :
    PortSteps known new e e' := by
  obtain ⟨h, hrun, hex⟩ := hs.run
  obtain ⟨h₁, hrun₁, hex₁⟩ := hs₁.run
  exact ⟨⟨h ++ h₁, hrun.trans hrun₁, fun hk => (hex hk).append (hex₁ hk)⟩, hs₁.sane,
    Nat.le_trans hs.size hs₁.size, Nat.le_trans hs.interfaces hs₁.interfaces,
    fun f hf hv => hs₁.vacant f hf (hs.vacant f hf hv)⟩

theorem mono {new' : FieldRef → Prop} (hs : PortSteps known new e e')
    (hnew : ∀ f, new f → new' f) : PortSteps known new' e e' :=
  ⟨hs.run, hs.sane, hs.size, hs.interfaces, fun f hf => hs.vacant f fun h => hf (hnew f h)⟩

theorem other (hk : PortsKept e e') (he : e'.Sane known) (hsize : e.tree.size ≤ e'.tree.size)
    (hv : ∀ g, ¬ new g → e.Vacant g → e'.Vacant g) : PortSteps known new e e' :=
  ⟨⟨[], .other .start hk, fun _ _ _ _ h => by cases h⟩, he, hsize,
    Objects.interfaces_le hk.interfaces, hv⟩

/-- One field is built; if it becomes a port, it is open. -/
theorem changed (he : e.Sane known) (hf : e.Vacant f) (hl : e'.links = e.links)
    (hd : ∀ g, g ≠ f → e'.declared.get? g = e.declared.get? g)
    (hsize : e'.tree.size = e.tree.size)
    (hother : ∀ g, g ≠ f → e'.tree.storage? g = e.tree.storage? g)
    (hopen : e'.IsPort f → e'.tree.storage? f = some .unbound)
    (hfits : ∀ st, e'.tree.storage? f = some st → Fits known e.objects.interfaces.size f st)
    (ho : e'.objects.interfaces = e.objects.interfaces) : PortSteps known (· = f) e e' := by
  have hport : ∀ g, g ≠ f → (e'.IsPort g ↔ e.IsPort g) := by
    intro g hg
    rw [IsPort, IsPort, hd g hg, linked_congr hl]
  have hne : ∀ g, ¬ e.Fresh g → g ≠ f := fun g hg => fun hgf => hg (hgf ▸ hf.fresh)
  refine other ⟨hl, fun g hg => hother g (hne g hg), fun g hg => hd g (hne g hg), ?_,
    fun i _ => by rw [ho]⟩ ⟨?_, (mutual_congr hl).mpr he.links, ?_⟩ (Nat.le_of_eq hsize.symm) ?_
  · intro g hg hp
    by_cases hgf : g = f
    · subst hgf
      exact hopen hp
    · exact absurd ((hport g hgf).mp hp) hg.1
  · intro g st hg
    rw [ho]
    by_cases hgf : g = f
    · subst hgf
      exact hfits st hg
    · exact he.fits g st (by rwa [← hother g hgf])
  · intro g hg hp
    rw [hsize] at hg
    have hgf : g ≠ f := fun hgf => absurd hf.lt_size (Nat.not_lt_of_le (hgf ▸ hg))
    exact he.absent g hg ((hport g hgf).mp hp)
  · intro g hgf hg
    exact ⟨fun hp => hg.1 ((hport g hgf).mp hp), by rw [hother g hgf, hg.2]⟩

theorem built (he : e.Sane known) (hf : e.Vacant f) {st : Storage}
    (hfits : Fits known e.objects.interfaces.size f st) {e' : Elaboration}
    (ht : e'.tree = e.tree.setStorage f st) (hl : e'.links = e.links)
    (hd : e'.declared = e.declared) (ho : e'.objects.interfaces = e.objects.interfaces) :
    PortSteps known (· = f) e e' := by
  have hst : ∀ g, e'.tree.storage? g = if g = f then some st else e.tree.storage? g := by
    intro g
    rw [ht, Tree.storage?_setStorage, hf.2, Option.map_some]
  refine changed he hf hl (fun g _ => by rw [hd]) (by rw [ht, Tree.size_setStorage]) ?_ ?_ ?_ ho
  · exact fun g hg => by rw [hst, if_neg hg]
  · exact fun hp => absurd ((isPort_congr hl hd f).mp hp) hf.1
  · intro st' hst'
    rw [hst, if_pos rfl] at hst'
    cases hst'
    exact hfits

theorem opened (he : e.Sane known) (hf : e.Vacant f) (type : DataType) :
    PortSteps known (· = f) e (e.buildOpen f type) := by
  have hst : ∀ g, (e.buildOpen f type).tree.storage? g =
      if g = f then some .unbound else e.tree.storage? g := by
    intro g
    have hset := e.tree.storage?_setStorage f .unbound g
    rwa [hf.2, Option.map_some] at hset
  refine changed he hf rfl (fun g hg => Table.get?_insert_of_ne _ hg _) (e.tree.size_setStorage f _)
    ?_ ?_ ?_ rfl
  · exact fun g hg => by rw [hst, if_neg hg]
  · exact fun _ => by rw [hst, if_pos rfl]
  · intro st' hst'
    rw [hst, if_pos rfl] at hst'
    cases hst'
    trivial

theorem same (he : e.Sane known) (hi : e'.tree.instances = e.tree.instances)
    (hl : e'.links = e.links) (hd : e'.declared = e.declared)
    (ho : ∀ i, i < e.objects.interfaces.size →
      e'.objects.interfaces[i]? = e.objects.interfaces[i]?) : PortSteps known new e e' := by
  have hst := Tree.storage?_congr hi
  have hport := isPort_congr hl hd
  have hsize : e'.tree.size = e.tree.size := congrArg Array.size hi
  refine other ⟨hl, fun g _ => hst g, fun g _ => by rw [hd], ?_, ho⟩
    ⟨?_, (mutual_congr hl).mpr he.links, ?_⟩ (Nat.le_of_eq hsize.symm) ?_
  · exact fun g hg hp => absurd ((hport g).mp hp) hg.1
  · exact fun g st hg => (he.fits g st (by rwa [← hst g])).mono (Objects.interfaces_le ho)
  · exact fun g hg hp => he.absent g (by rwa [← hsize]) ((hport g).mp hp)
  · exact fun g _ hg => ⟨fun hp => hg.1 ((hport g).mp hp), by rw [hst g, hg.2]⟩

theorem link (he : e.Sane known) {a b : FieldRef} (ha : e.tree.storage? a = some .unbound)
    (hb : e.tree.storage? b = some .unbound) :
    PortSteps known (fun g => g = a ∨ g = b) e (e.link a b) := by
  have hport : ∀ g, ¬ (g = a ∨ g = b) → (e.link a b).IsPort g → e.IsPort g := by
    intro g hg hp
    refine hp.imp_right fun hlinked => ?_
    obtain ⟨y, hy⟩ := List.exists_mem_of_ne_nil _ hlinked
    rcases (mem_linked_link e a b g y).mp hy with hy | ⟨rfl, -⟩ | ⟨rfl, -⟩
    · exact List.ne_nil_of_mem hy
    · exact absurd (.inl rfl) hg
    · exact absurd (.inr rfl) hg
  refine ⟨⟨_, .event (x := .linked a b) .start ⟨ha, hb⟩, fun _ _ _ _ h => by simp at h⟩,
    ⟨he.fits, he.links.link a b, ?_⟩, Nat.le_refl _, Nat.le_refl _, ?_⟩
  · intro g hg hp
    refine he.absent g hg (hport g ?_ hp)
    rintro (rfl | rfl)
    · exact absurd (Tree.lt_size_of_storage? ha) (Nat.not_lt_of_le hg)
    · exact absurd (Tree.lt_size_of_storage? hb) (Nat.not_lt_of_le hg)
  · exact fun g hg hv => ⟨fun hp => hv.1 (hport g hg hp), hv.2⟩

theorem bind (he : e.Sane known) (hf : e.tree.storage? f = some .unbound) {v : Value}
    (hv : known → v.Known e.objects.interfaces.size) :
    PortSteps known (· = f) e (e.bindObject f v) := by
  have hr := e.bindObject_rebound f v
  have hport := isPort_congr hr.links hr.declared
  refine ⟨⟨_, .event (x := .bound f v) .start hf, ?_⟩,
    ⟨?_, (mutual_congr hr.links).mpr he.links, ?_⟩, Nat.le_of_eq hr.size.symm,
    Nat.le_of_eq (by rw [hr.objects]), ?_⟩
  · intro hk e₁ f₁ i hmem
    obtain ⟨rfl, hx⟩ := Prod.mk.inj (List.mem_singleton.mp hmem)
    obtain ⟨rfl, rfl⟩ := PortEvent.bound.inj hx
    exact (hv hk).interface
  · intro g st hg
    rw [hr.objects]
    by_cases hkept : (e.bindObject f v).tree.storage? g = e.tree.storage? g
    · exact he.fits g st (by rwa [← hkept])
    · obtain ⟨⟨d, hd⟩, -⟩ := bindObject_storage e f v hkept
      cases hg.symm.trans hd
      exact fun hk => narrow_known (hv hk) d
  · intro g hg hp
    rw [hr.size] at hg
    exact he.absent g hg ((hport g).mp hp)
  · intro g hgf hg
    refine ⟨fun hp => hg.1 ((hport g).mp hp), ?_⟩
    by_contra hne
    obtain ⟨-, hlisted⟩ := bindObject_storage e f v (g := g) fun heq => hne (heq.trans hg.2)
    rcases hlisted with hgf' | ⟨x, hx⟩
    · exact hgf hgf'
    · exact hg.1 (.inr (List.ne_nil_of_mem (he.links x g hx)))

theorem extend (he : e.Sane known) {i : Nat} (hi : e.interface? f = some i) (name : String)
    (v : Value) : PortSteps known new e (e.extend f i name v) := by
  have hst := interface?_eq_some.mp hi
  have hstorage := storage?_extend e f i name v
  have hsize : (e.extend f i name v).tree.size = e.tree.size := e.tree.size_setStorage f _
  have hinterfaces : (e.extend f i name v).objects.interfaces.size =
      e.objects.interfaces.size + 1 := by
    simp [Elaboration.extend, Objects.addInterface, setStorage]
  have hrun : PortRun e [(e, .extended f name v)] (e.extend f i name v) := by
    have hevent := PortRun.event (x := .extended f name v) (PortRun.start : PortRun e [] e) ⟨i, hi⟩
    simpa only [PortEvent.apply, hi, List.nil_append] using hevent
  refine ⟨⟨_, hrun, fun _ _ _ _ h => by simp at h⟩, ⟨?_, he.links, ?_⟩,
    Nat.le_of_eq hsize.symm, by omega, ?_⟩
  · intro g st hg
    rw [hinterfaces]
    rw [hstorage] at hg
    split at hg
    · rw [hst, Option.map_some] at hg
      cases hg
      exact fun _ => .obj fun j hj => by
        cases hj
        exact Nat.lt_succ_self _
    · exact (he.fits g st hg).mono (Nat.le_succ _)
  · intro g hg
    rw [hsize] at hg
    exact he.absent g hg
  · intro g _ hg
    refine ⟨hg.1, ?_⟩
    rw [hstorage, if_neg, hg.2]
    rintro rfl
    exact absurd (hst.symm.trans hg.2) (by simp)

end PortSteps

end Elaboration

end Clockwork
