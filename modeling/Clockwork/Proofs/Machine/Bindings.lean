import Clockwork.Proofs.Machine.Addressed
import Clockwork.Proofs.Machine.Edges
import Clockwork.Proofs.Value.Order

namespace Clockwork

/-- A target has the value of its driver, as far as it fits. -/
def Simulation.Tracks (s : Simulation) (d t : FieldRef) : Prop :=
  ∃ slot slot', s.tree.SignalAt d slot ∧ s.tree.SignalAt t slot' ∧
    (s.current t slot').same ((s.current d slot).fit slot'.width slot'.signed) = true

theorem Simulation.Tracks.congr {s s' : Simulation} {d t : FieldRef} (h : s.Tracks d t)
    (htree : s'.tree = s.tree)
    (hd : ∀ slot, s.tree.SignalAt d slot → s'.current d slot = s.current d slot)
    (ht : ∀ slot, s.tree.SignalAt t slot → s'.current t slot = s.current t slot) :
    s'.Tracks d t := by
  obtain ⟨slot, slot', hslot, hslot', hsame⟩ := h
  refine ⟨slot, slot', by rwa [htree], by rwa [htree], ?_⟩
  rwa [hd slot hslot, ht slot' hslot']

namespace Frame

def After (dep : FieldRef → FieldRef → Prop) (s : Simulation) (d : FieldRef) : Frame → Prop
  | .propagate fs _ => ∀ t ∈ fs, Relation.TransGen dep d t
  | .combs l => ∀ p ∈ l, ∃ g, (g = d ∨ Relation.TransGen dep d g) ∧ p ∈ s.watchers g
  | .combOver p _ => ∃ g, (g = d ∨ Relation.TransGen dep d g) ∧ p ∈ s.watchers g
  | .driven => True
  | _ => False

/-- If the value of a driver is passed on by a frame, then what is above it comes after the
driver. -/
def Above (dep : FieldRef → FieldRef → Prop) (s : Simulation) (f g : Frame) : Prop :=
  ∀ fs w d, g = .propagate fs w → fs ≠ [] → (∀ t ∈ fs, t ∈ s.tree.targets d) → f.After dep s d

variable {dep : FieldRef → FieldRef → Prop} {s : Simulation} {f g : Frame}

theorem After.congr {s' : Simulation} {d : FieldRef} (h : f.After dep s d)
    (hwiring : s'.wiring = s.wiring) : f.After dep s' d := by
  have hwatchers : ∀ g, s'.watchers g = s.watchers g := by
    intro g
    rw [Simulation.watchers, hwiring, Simulation.watchers]
  cases f with
  | combs l | combOver p depth => simpa only [After, hwatchers] using h
  | _ => exact h

theorem Above.congr {s' : Simulation} (h : f.Above dep s g) (htree : s'.tree = s.tree)
    (hwiring : s'.wiring = s.wiring) : f.Above dep s' g := by
  intro fs w d hg hne hd
  rw [htree] at hd
  exact (h fs w d hg hne hd).congr hwiring

theorem above_of_ne (h : ∀ fs w, g ≠ .propagate fs w) : f.Above dep s g := by
  intro fs w d hg
  exact absurd hg (h fs w)

end Frame

namespace Machine

/-- What the design and the writes of a machine are to a relation between fields: it contains the
bindings, and what a combinational process watches with what it writes. -/
structure Tied (dep : FieldRef → FieldRef → Prop) (outer : FieldRef → Prop) (m : Machine) :
    Prop where
  acyclic : ∀ f, ¬ Relation.TransGen dep f f
  binds : ∀ d, ∀ t ∈ m.sim.tree.targets d, dep d t
  single : ∀ d d' t, t ∈ m.sim.tree.targets d → t ∈ m.sim.tree.targets d' → d = d'
  watched : ∀ p depth rest f v g, m.work = .combOver p depth :: rest → m.write? = some (f, v) →
    p ∈ m.sim.watchers g → dep g f
  /-- Nothing but a binding writes a target. -/
  written : ∀ f v, m.write? = some (f, v) → ∀ d, f ∉ m.sim.tree.targets d
  outer : ∀ f, outer f → ∀ d, f ∉ m.sim.tree.targets d
  /-- No driver is written whose change is still to be worked off. -/
  due : ∀ f v, m.write? = some (f, v) → m.sim.tree.targets f ≠ [] → ∀ c ∈ m.dueChanges, c.1 ≠ f

/-- How far all targets have the values of their drivers. -/
structure Tracking (dep : FieldRef → FieldRef → Prop) (m : Machine) : Prop extends Addressed m where
  fresh : ∀ fs w, Frame.propagate fs w ∈ m.work → fs ≠ [] → ∃ d slot, m.sim.tree.SignalAt d slot ∧
    m.sim.current d slot = w ∧ ∀ t ∈ fs, t ∈ m.sim.tree.targets d
  /-- Whatever is above fields that a value is passed on to is run for what comes after the
  driver. -/
  after : m.work.Pairwise (Frame.Above dep m.sim)
  /-- A change to be worked off is no target's, and a driver has what it was changed to. -/
  due : ∀ c ∈ m.dueChanges, (∀ d, c.1 ∉ m.sim.tree.targets d) ∧ (m.sim.tree.targets c.1 ≠ [] →
    ∃ slot, m.sim.tree.SignalAt c.1 slot ∧ m.sim.current c.1 slot = c.2.2)
  staged : ∀ f slot v, m.sim.tree.SignalAt f slot → m.sim.staged? f slot = some v →
    ∀ d, f ∉ m.sim.tree.targets d
  kept : ∀ d, ∀ t ∈ m.sim.tree.targets d, m.sim.Tracks d t ∨
    (∃ fs w, Frame.propagate fs w ∈ m.work ∧ t ∈ fs) ∨ ∃ c ∈ m.dueChanges, c.1 = d

theorem LayeredStack.work_onBody {stack : List Frame} (h : LayeredStack stack)
    (hb : onBody stack = true) : stack.filter Frame.isWork = [] ∨
      (∃ p depth rest, stack.filter Frame.isWork = .combOver p depth :: rest) ∨
        ∃ l, stack.filter Frame.isWork = [.syncs l, .commit, .round, .settled] := by
  induction stack with
  | nil => exact .inl rfl
  | cons f rest ih =>
      obtain ⟨hlies, hrest⟩ := h
      have hf : f.isWork = false := by simpa [onBody] using hb
      rw [List.filter_cons_of_neg (by simp [hf])]
      have onto : onBody rest = true ∨ (∃ p depth below, rest = .combOver p depth :: below) ∨
          ∃ l below, rest = .syncs l :: below := by
        by_cases hend : ∃ name caller, f = .boundary name caller
        · obtain ⟨name, caller, rfl⟩ := hend
          exact hlies.2
        · exact .inl (onBody_of_liesOn hlies hf fun name caller heq => hend ⟨name, caller, heq⟩)
      rcases onto with hb | ⟨p, depth, below, rfl⟩ | ⟨l, below, rfl⟩
      · exact ih hrest hb
      · exact .inr (.inl ⟨p, depth, _, List.filter_cons_of_pos rfl⟩)
      · refine .inr (.inr ⟨l, ?_⟩)
        rw [List.filter_cons_of_pos rfl, hrest.work_syncs]

theorem onBody_of_write {m : Machine} {f : FieldRef} {v : Value} (h : m.write? = some (f, v)) :
    onBody m.stack = true := by
  unfold write? at h
  split at h
  · rename_i w g rest hc hs
    rw [hs]
    cases g <;> first | rfl | cases h
  · cases h

section Steps

variable {dep : FieldRef → FieldRef → Prop} {outer : FieldRef → Prop} {m m' : Machine}

/-- A step that changes no signal, and passes on nothing new. -/
theorem Tracking.quiet {s : Simulation} (h : Tracking dep m) (ha : Addressed m')
    (hs : s.Agrees m'.sim) (htree : s.tree = m.sim.tree) (hwiring : s.wiring = m.sim.wiring)
    (hcurrent : ∀ f slot, m.sim.tree.SignalAt f slot → s.current f slot = m.sim.current f slot)
    (hstaged : ∀ f slot v, m.sim.tree.SignalAt f slot → s.staged? f slot = some v →
      ∀ d, f ∉ m.sim.tree.targets d)
    (hfresh : ∀ fs w, Frame.propagate fs w ∈ m'.work →
      ∃ fs', Frame.propagate fs' w ∈ m.work ∧ ∀ t ∈ fs, t ∈ fs')
    (hafter : m'.work.Pairwise (Frame.Above dep m.sim)) (hdue : m'.dueChanges = m.dueChanges)
    (hkept : ∀ d, ∀ t ∈ m.sim.tree.targets d, ∀ fs w, Frame.propagate fs w ∈ m.work → t ∈ fs →
      m.sim.Tracks d t ∨ ∃ fs w, Frame.propagate fs w ∈ m'.work ∧ t ∈ fs) : Tracking dep m' := by
  have htree' := hs.tree.trans htree
  have hcurrent' : ∀ f slot, m.sim.tree.SignalAt f slot →
      m'.sim.current f slot = m.sim.current f slot := by
    intro f slot hslot
    rw [Simulation.current_congr hs.signals, hcurrent f slot hslot]
  have htracks : ∀ d t, m.sim.Tracks d t → m'.sim.Tracks d t := fun d t htracks =>
    htracks.congr htree' (hcurrent' d) (hcurrent' t)
  refine ⟨ha, ?_, ?_, ?_, ?_, ?_⟩
  · intro fs w hmem hne
    obtain ⟨fs', hmem', hsub⟩ := hfresh fs w hmem
    have hne' : fs' ≠ [] := by
      rintro rfl
      obtain ⟨t, ht⟩ := List.exists_mem_of_ne_nil fs hne
      cases hsub t ht
    obtain ⟨d, slot, hslot, hw, hd⟩ := h.fresh fs' w hmem' hne'
    rw [htree']
    exact ⟨d, slot, hslot, by rw [hcurrent' d slot hslot, hw], fun t ht => hd t (hsub t ht)⟩
  · exact hafter.imp fun h => h.congr htree' (hs.wiring.trans hwiring)
  · rw [hdue, htree']
    intro c hc
    refine ⟨(h.due c hc).1, fun hne => ?_⟩
    obtain ⟨slot, hslot, hnew⟩ := (h.due c hc).2 hne
    exact ⟨slot, hslot, by rw [hcurrent' c.1 slot hslot, hnew]⟩
  · rw [htree']
    intro f slot v hslot hv
    refine hstaged f slot v hslot ?_
    rwa [Simulation.staged?, Simulation.signalsOf, ← hs.signals]
  · rw [htree', hdue]
    intro d t ht
    rcases h.kept d t ht with hold | ⟨fs, w, hmem, htf⟩ | hc
    · exact .inl (htracks d t hold)
    · rcases hkept d t ht fs w hmem htf with hold | hmem'
      · exact .inl (htracks d t hold)
      · exact .inr (.inl hmem')
    · exact .inr (.inr hc)

/-- A step that passes on what a field was changed to. -/
theorem Tracking.announced {s : Simulation} {f : FieldRef} {new : Value} {base : List Frame}
    (ha : Addressed m') (htree : m'.sim.tree = s.tree)
    (hwiring : m'.sim.wiring = s.wiring)
    (hwork : m'.work = .propagate (s.tree.targets f) new :: .combs (s.watchers f) :: base)
    (hnew : s.tree.targets f ≠ [] →
      ∃ slot, s.tree.SignalAt f slot ∧ m'.sim.current f slot = new)
    (hbinds : ∀ t ∈ s.tree.targets f, dep f t)
    (hbefore : ∀ fs w d, Frame.propagate fs w ∈ base → fs ≠ [] → (∀ t ∈ fs, t ∈ s.tree.targets d) →
      Relation.TransGen dep d f)
    (hfresh : ∀ fs w, Frame.propagate fs w ∈ base → fs ≠ [] → ∃ d slot, s.tree.SignalAt d slot ∧
      m'.sim.current d slot = w ∧ ∀ t ∈ fs, t ∈ s.tree.targets d)
    (hafter : base.Pairwise (Frame.Above dep s))
    (hdue : ∀ c ∈ m'.dueChanges, (∀ d, c.1 ∉ s.tree.targets d) ∧ (s.tree.targets c.1 ≠ [] →
      ∃ slot, s.tree.SignalAt c.1 slot ∧ m'.sim.current c.1 slot = c.2.2))
    (hstaged : ∀ f slot v, s.tree.SignalAt f slot → m'.sim.staged? f slot = some v →
      ∀ d, f ∉ s.tree.targets d)
    (hkept : ∀ d, d ≠ f → ∀ t ∈ s.tree.targets d, m'.sim.Tracks d t ∨
      (∃ fs w, Frame.propagate fs w ∈ base ∧ t ∈ fs) ∨ ∃ c ∈ m'.dueChanges, c.1 = d) :
    Tracking dep m' := by
  have hpassed : ∀ fs w, Frame.propagate fs w ∈ m'.work ↔
      (fs = s.tree.targets f ∧ w = new) ∨ Frame.propagate fs w ∈ base := by
    intro fs w
    simp [hwork]
  refine ⟨ha, ?_, ?_, ?_, ?_, ?_⟩
  · rw [htree]
    intro fs w hmem hne
    rcases (hpassed fs w).mp hmem with ⟨rfl, rfl⟩ | hmem
    · obtain ⟨slot, hslot, hnew⟩ := hnew hne
      exact ⟨f, slot, hslot, hnew, fun _ ht => ht⟩
    · exact hfresh fs w hmem hne
  · rw [hwork]
    refine List.Pairwise.imp (R := Frame.Above dep s) (fun h => h.congr htree hwiring) ?_
    refine .cons ?_ (.cons ?_ hafter)
    · intro g hg fs w d heq hne hd
      subst heq
      have hmem : Frame.propagate fs w ∈ base := by simpa using hg
      intro t ht
      exact .tail (hbefore fs w d hmem hne hd) (hbinds t ht)
    · intro g hg fs w d heq hne hd
      subst heq
      intro p hp
      exact ⟨f, .inr (hbefore fs w d hg hne hd), hp⟩
  · rw [htree]
    exact hdue
  · rw [htree]
    exact hstaged
  · rw [htree]
    intro d t ht
    by_cases hd : d = f
    · subst hd
      exact .inr (.inl ⟨_, new, (hpassed _ _).mpr (.inl ⟨rfl, rfl⟩), ht⟩)
    · rcases hkept d hd t ht with hold | ⟨fs, w, hmem, htf⟩ | hc
      · exact .inl hold
      · exact .inr (.inl ⟨fs, w, (hpassed fs w).mpr (.inr hmem), htf⟩)
      · exact .inr (.inr hc)

section Drives

variable {f : FieldRef} {v : Value} {base : List Frame}

/-- Whatever is still passed on comes from drivers that come before the field that gets a value. -/
theorem Tracking.before (h : Tracking dep m) (ht : Tied dep outer m) (hl : Layered m)
    (hd : Drives outer m f v base) (fs : List FieldRef) (w : Value) (d : FieldRef)
    (hmem : Frame.propagate fs w ∈ base) (hne : fs ≠ [])
    (hfs : ∀ t ∈ fs, t ∈ m.sim.tree.targets d) : Relation.TransGen dep d f := by
  have hafter := h.after
  cases hd with
  | @pass fs₀ rest hm =>
      rw [hm, List.pairwise_cons] at hafter
      rcases List.mem_cons.mp hmem with heq | hmem
      · cases heq
        obtain ⟨d₀, -, -, -, hd₀⟩ := h.fresh (f :: fs) v (by simp [hm]) (by simp)
        obtain ⟨t, hmem⟩ := List.exists_mem_of_ne_nil fs hne
        obtain rfl := ht.single d d₀ t (hfs t hmem) (hd₀ t (List.mem_cons_of_mem _ hmem))
        exact .single (ht.binds d f (hd₀ f List.mem_cons_self))
      · exact hafter.1 _ hmem fs w d rfl hne hfs f List.mem_cons_self
  | write _ hw =>
      have hmem : Frame.propagate fs w ∈ m.work := by simpa using hmem
      rcases hw with hw | ⟨-, hnone⟩
      · rcases hl.stack.work_onBody (onBody_of_write hw) with
          hnone | ⟨p, depth, rest, hm⟩ | ⟨l, hm⟩
        · rw [work, hnone] at hmem
          cases hmem
        · change m.work = _ at hm
          rw [hm, List.pairwise_cons] at hafter
          rw [hm] at hmem
          have hrest : Frame.propagate fs w ∈ rest := by simpa using hmem
          obtain ⟨g, hg, hp⟩ := hafter.1 _ hrest fs w d rfl hne hfs
          have hdep := ht.watched p depth rest f v g hm hw hp
          rcases hg with rfl | hg
          · exact .single hdep
          · exact .tail hg hdep
        · rw [work, hm] at hmem
          simp at hmem
      · rw [hnone] at hmem
        cases hmem

theorem Tracking.after_base (h : Tracking dep m) (hd : Drives outer m f v base) :
    base.Pairwise (Frame.Above dep m.sim) := by
  have hafter := h.after
  cases hd with
  | pass hm =>
      rw [hm, List.pairwise_cons] at hafter
      refine .cons ?_ hafter.2
      intro g hg fs w d heq hne hfs t ht
      exact hafter.1 g hg fs w d heq hne hfs t (List.mem_cons_of_mem _ ht)
  | write => exact .cons (fun _ _ _ _ _ _ _ _ => trivial) hafter

theorem Tracking.passed_from (h : Tracking dep m) (ht : Tied dep outer m)
    (hd : Drives outer m f v base) {d : FieldRef} (hf : f ∈ m.sim.tree.targets d) :
    ∃ slot, m.sim.tree.SignalAt d slot ∧ m.sim.current d slot = v := by
  cases hd with
  | @pass fs rest hm =>
      obtain ⟨d₀, slot, hslot, hv, hd₀⟩ := h.fresh (f :: fs) v (by simp [hm]) (by simp)
      obtain rfl := ht.single d d₀ f hf (hd₀ f List.mem_cons_self)
      exact ⟨slot, hslot, hv⟩
  | write _ hw =>
      rcases hw with hw | ⟨houter, -⟩
      · exact absurd hf (ht.written f v hw d)
      · exact absurd hf (ht.outer f houter d)

theorem Drives.fresh_base (hd : Drives outer m f v base) {fs : List FieldRef} {w : Value}
    (hmem : Frame.propagate fs w ∈ base) :
    ∃ fs', Frame.propagate fs' w ∈ m.work ∧ ∀ t ∈ fs, t ∈ fs' := by
  cases hd with
  | @pass fs₀ rest hm =>
      rcases List.mem_cons.mp hmem with heq | hmem
      · cases heq
        exact ⟨f :: fs, by simp [hm], fun t ht => List.mem_cons_of_mem _ ht⟩
      · exact ⟨fs, by simp [hm, hmem], fun _ ht => ht⟩
  | write => exact ⟨fs, by simpa using hmem, fun _ ht => ht⟩

theorem Drives.still_passed (hd : Drives outer m f v base) {fs : List FieldRef} {w : Value}
    (hmem : Frame.propagate fs w ∈ m.work) {t : FieldRef} (ht : t ∈ fs) (hne : t ≠ f) :
    ∃ fs w, Frame.propagate fs w ∈ base ∧ t ∈ fs := by
  cases hd with
  | @pass fs₀ rest hm =>
      rw [hm] at hmem
      rcases List.mem_cons.mp hmem with heq | hmem
      · cases heq
        rcases List.mem_cons.mp ht with heq | ht
        · exact absurd heq hne
        · exact ⟨fs₀, v, List.mem_cons_self, ht⟩
      · exact ⟨fs, w, List.mem_cons_of_mem _ hmem, ht⟩
  | write => exact ⟨fs, w, List.mem_cons_of_mem _ hmem, ht⟩

theorem Tracking.not_due (h : Tracking dep m) (ht : Tied dep outer m)
    (hd : Drives outer m f v base) (hne : m.sim.tree.targets f ≠ []) :
    ∀ c ∈ m.dueChanges, c.1 ≠ f := by
  intro c hc heq
  cases hd with
  | @pass fs rest hm =>
      obtain ⟨d, -, -, -, hd⟩ := h.fresh (f :: fs) v (by simp [hm]) (by simp)
      exact (h.due c hc).1 d (heq ▸ hd f List.mem_cons_self)
  | write _ hw =>
      rcases hw with hw | ⟨-, hnone⟩
      · exact ht.due f v hw hne c hc heq
      · rw [dueChanges, hnone] at hc
        cases hc

end Drives

/-- A field that is given a value which it does not have. -/
theorem Tracking.changed {f : FieldRef} {slot : FieldSlot} {v : Value} {base : List Frame}
    (h : Tracking dep m) (ht : Tied dep outer m) (hl : Layered m) (ha : Addressed m')
    (hd : Drives outer m f v base) (hslot : m.sim.tree.slot f.owner f.index = .ok slot)
    (hwork : m'.work = .propagate (m.sim.tree.targets f) (v.fit slot.width slot.signed) ::
      .combs (m.sim.watchers f) :: base)
    (hs : ((m.sim.withValue f slot (v.fit slot.width slot.signed)).changed f
      (m.sim.current f slot) (v.fit slot.width slot.signed)).Agrees m'.sim) :
    Tracking dep m' := by
  have hf := h.drives hd hslot
  have htree : m'.sim.tree = m.sim.tree := by
    rw [hs.tree, Simulation.tree_changed]
    rfl
  have hwiring : m'.sim.wiring = m.sim.wiring := by
    rw [hs.wiring, Simulation.wiring_changed]
    rfl
  have hsignals := hs.signals.trans (Simulation.signals_changed _ _ _ _)
  have hcurrent : ∀ g slot', m.sim.tree.SignalAt g slot' → m'.sim.current g slot' =
      if g = f then v.fit slot.width slot.signed else m.sim.current g slot' := by
    intro g slot' hg
    rw [Simulation.current_congr hsignals, h.coherent.current_withValue hslot hg.1]
  have hother : ∀ g, g ≠ f → ∀ slot', m.sim.tree.SignalAt g slot' →
      m'.sim.current g slot' = m.sim.current g slot' := by
    intro g hg slot' hslot'
    rw [hcurrent g slot' hslot', if_neg hg]
  have hdue : m'.dueChanges = m.dueChanges := by
    rw [dueChanges, hwork, ← hd.due.1]
    rfl
  refine Tracking.announced ha htree hwiring hwork (fun _ => ⟨slot, hf, ?_⟩) (ht.binds f)
    (h.before ht hl hd) ?_ (h.after_base hd) ?_ ?_ ?_
  · rw [hcurrent f slot hf, if_pos rfl]
  · intro fs w hmem hne
    obtain ⟨fs', hmem', hsub⟩ := hd.fresh_base hmem
    obtain ⟨t, htf⟩ := List.exists_mem_of_ne_nil fs hne
    obtain ⟨d, slot', hslot', hw, hd'⟩ := h.fresh fs' w hmem' (List.ne_nil_of_mem (hsub t htf))
    have hfs : ∀ t ∈ fs, t ∈ m.sim.tree.targets d := fun t ht => hd' t (hsub t ht)
    have hne' : d ≠ f := by
      rintro rfl
      exact ht.acyclic d (h.before ht hl hd fs w d hmem hne hfs)
    exact ⟨d, slot', hslot', by rw [hother d hne' slot' hslot', hw], hfs⟩
  · rw [hdue]
    intro c hc
    refine ⟨(h.due c hc).1, fun hne => ?_⟩
    obtain ⟨slot', hslot', hnew⟩ := (h.due c hc).2 hne
    have hcf : c.1 ≠ f := by
      intro heq
      exact h.not_due ht hd (heq ▸ hne) c hc heq
    exact ⟨slot', hslot', by rw [hother c.1 hcf slot' hslot', hnew]⟩
  · intro g slot' w hg hw
    refine h.staged g slot' w hg ?_
    rw [Simulation.staged?, Simulation.signalsOf, hsignals] at hw
    change ((m.sim.withValue f slot _).signalsOf g.owner).staged.get? slot'.key = some w at hw
    rw [Simulation.signalsOf_withValue] at hw
    split at hw
    · exact hw
    · exact hw
  · intro d hdf t htd
    by_cases htf : t = f
    · subst htf
      obtain ⟨slot', hslot', hv⟩ := h.passed_from ht hd htd
      refine .inl ⟨slot', slot, by rwa [htree], by rwa [htree], ?_⟩
      rw [hother d hdf slot' hslot', hv, hcurrent t slot hf, if_pos rfl]
      exact Value.same_refl _
    · rcases h.kept d t htd with hold | ⟨fs, w, hmem, hfs⟩ | hc
      · exact .inl (hold.congr htree (hother d hdf) (hother t htf))
      · exact .inr (.inl (hd.still_passed hmem hfs htf))
      · rw [hdue]
        exact .inr (.inr hc)

/-- A change of a commit that is next to be worked off. -/
theorem Tracking.worked {s : Simulation} {f : FieldRef} {old new : Value}
    {l : List (FieldRef × Value × Value)} (ha : Addressed m')
    (hwork : m'.work = [.propagate (s.tree.targets f) new, .combs (s.watchers f), .changes l,
      .round, .settled])
    (hs : (s.changed f old new).Agrees m'.sim) (hbinds : ∀ t ∈ s.tree.targets f, dep f t)
    (hdue : ∀ c ∈ (f, old, new) :: l, (∀ d, c.1 ∉ s.tree.targets d) ∧ (s.tree.targets c.1 ≠ [] →
      ∃ slot, s.tree.SignalAt c.1 slot ∧ s.current c.1 slot = c.2.2))
    (hstaged : ∀ f slot v, s.tree.SignalAt f slot → s.staged? f slot = some v →
      ∀ d, f ∉ s.tree.targets d)
    (hkept : ∀ d, ∀ t ∈ s.tree.targets d, s.Tracks d t ∨ ∃ c ∈ (f, old, new) :: l, c.1 = d) :
    Tracking dep m' := by
  have hsignals := hs.signals.trans (Simulation.signals_changed s f old new)
  have htree := hs.tree.trans (Simulation.tree_changed s f old new)
  have hwiring : m'.sim.wiring = s.wiring := by
    rw [hs.wiring, Simulation.wiring_changed]
  have hcurrent : ∀ g slot, m'.sim.current g slot = s.current g slot :=
    Simulation.current_congr hsignals
  have hafter : m'.dueChanges = l := by
    rw [dueChanges, hwork]
    simp [Frame.dueChanges]
  have hdue' : ∀ c ∈ (f, old, new) :: l, (∀ d, c.1 ∉ s.tree.targets d) ∧
      (s.tree.targets c.1 ≠ [] →
        ∃ slot, s.tree.SignalAt c.1 slot ∧ m'.sim.current c.1 slot = c.2.2) := by
    intro c hc
    refine ⟨(hdue c hc).1, fun hne => ?_⟩
    obtain ⟨slot, hslot, hnew⟩ := (hdue c hc).2 hne
    exact ⟨slot, hslot, by rw [hcurrent, hnew]⟩
  refine Tracking.announced ha htree hwiring hwork (hdue' _ List.mem_cons_self).2 hbinds ?_ ?_ ?_ ?_
    ?_ ?_
  · simp
  · simp
  · simp [Frame.above_of_ne]
  · rw [hafter]
    exact fun c hc => hdue' c (List.mem_cons_of_mem _ hc)
  · intro g slot v hg hv
    refine hstaged g slot v hg ?_
    rwa [Simulation.staged?, Simulation.signalsOf, ← hsignals]
  · rw [hafter]
    intro d hd t ht
    rcases hkept d t ht with hold | ⟨c, hc, rfl⟩
    · exact .inl (hold.congr htree (fun slot _ => hcurrent d slot) (fun slot _ => hcurrent t slot))
    · rcases List.mem_cons.mp hc with rfl | hc
      · exact absurd rfl hd
      · exact .inr (.inr ⟨c, hc, rfl⟩)

/-- A commit leaves the targets behind those drivers only that it changes. -/
theorem Tracking.tracks_applyStaged (h : Tracking dep m)
    (hm : m.work = [.commit, .round, .settled]) (d t : FieldRef)
    (ht : t ∈ m.sim.tree.targets d) :
    m.sim.applyStaged.1.Tracks d t ∨ ∃ c ∈ m.sim.applyStaged.2, c.1 = d := by
  obtain ⟨signals, heq⟩ := m.sim.applyStaged_eq
  have hold : m.sim.Tracks d t := by
    rcases h.kept d t ht with hold | ⟨fs, w, hmem, -⟩ | ⟨c, hc, -⟩
    · exact hold
    · simp [hm] at hmem
    · simp [dueChanges, hm, Frame.dueChanges] at hc
  by_cases hchanged : ∃ c ∈ m.sim.applyStaged.2, c.1 = d
  · exact .inr hchanged
  · refine .inl (hold.congr (by rw [heq]) ?_ ?_)
    · intro slot hslot
      exact h.coherent.current_applyStaged_of_not_mem hslot fun c hc hcd => hchanged ⟨c, hc, hcd⟩
    · intro slot hslot
      refine h.coherent.current_applyStaged_of_not_mem hslot ?_
      rintro ⟨g, old, new⟩ hc rfl
      obtain ⟨slot', hslot', hv, -⟩ := h.coherent.mem_changes_applyStaged.mp hc
      exact h.staged g slot' new hslot' hv d ht

/-- Every step leaves those targets behind only that a value is still passed on to. -/
theorem WorkStep.tracking {b : Beat} (h : WorkStep outer m b m') (ht : Tied dep outer m)
    (hl : Layered m) (htr : Tracking dep m) : Tracking dep m' := by
  have ha := h.addressed htr.toAddressed
  -- Steps that pass nothing on or stop passing on nothing.
  have still : ∀ {s : Simulation}, s.Agrees m'.sim → s.tree = m.sim.tree →
      s.wiring = m.sim.wiring →
      (∀ f slot, m.sim.tree.SignalAt f slot → s.current f slot = m.sim.current f slot) →
      (∀ f slot v, m.sim.tree.SignalAt f slot → s.staged? f slot = some v →
        ∀ d, f ∉ m.sim.tree.targets d) →
      (∀ fs w, Frame.propagate fs w ∈ m'.work → Frame.propagate fs w ∈ m.work) →
      (∀ fs w, fs ≠ [] → Frame.propagate fs w ∈ m.work → Frame.propagate fs w ∈ m'.work) →
      m'.work.Pairwise (Frame.Above dep m.sim) → m'.dueChanges = m.dueChanges →
      Tracking dep m' := by
    intro s hs htree hwiring hcurrent hstaged hfresh hkept hafter hdue
    refine htr.quiet ha hs htree hwiring hcurrent hstaged ?_ hafter hdue ?_
    · exact fun fs w hmem => ⟨fs, hfresh fs w hmem, fun _ ht => ht⟩
    · exact fun d t _ fs w hmem htf =>
        .inr ⟨fs, w, hkept fs w (List.ne_nil_of_mem htf) hmem, htf⟩
  have silent : m.sim.Agrees m'.sim →
      (∀ fs w, Frame.propagate fs w ∈ m'.work → Frame.propagate fs w ∈ m.work) →
      (∀ fs w, fs ≠ [] → Frame.propagate fs w ∈ m.work → Frame.propagate fs w ∈ m'.work) →
      m'.work.Pairwise (Frame.Above dep m.sim) → m'.dueChanges = m.dueChanges →
      Tracking dep m' := fun hs => still hs rfl rfl (fun _ _ _ => rfl) htr.staged
  have hafter := htr.after
  cases h with
  | still hwork hs =>
      refine silent hs ?_ ?_ (by rwa [hwork]) (by rw [dueChanges, hwork, dueChanges])
      · rw [hwork]
        exact fun _ _ h => h
      · rw [hwork]
        exact fun _ _ _ h => h
  | @stage _ f slot v hslot hw hmode hwork hs =>
      refine still hs rfl rfl (fun g slot' _ =>
        Simulation.Coherent.current_stage m.sim f slot v g slot')
        ?_ ?_ ?_ (by rwa [hwork]) (by rw [dueChanges, hwork, dueChanges])
      · intro g slot' w hg hv
        rw [htr.coherent.staged?_stage hslot hg] at hv
        split at hv
        · rename_i heq
          rw [heq]
          exact ht.written f v hw
        · exact htr.staged g slot' w hg hv
      · rw [hwork]
        exact fun _ _ h => h
      · rw [hwork]
        exact fun _ _ _ h => h
  | @same _ f slot v base hd hslot hv hwork hs =>
      refine htr.quiet ha hs rfl rfl (fun _ _ _ => rfl) htr.staged ?_ ?_ ?_ ?_
      · rw [hwork]
        exact fun fs w hmem => hd.fresh_base hmem
      · rw [hwork]
        exact htr.after_base hd
      · rw [dueChanges, hwork, hd.due.1]
      · rw [hwork]
        intro d t htd fs w hmem htf
        by_cases heq : t = f
        · subst heq
          obtain ⟨slot', hslot', hcurrent⟩ := htr.passed_from ht hd htd
          exact .inl ⟨slot', slot, hslot', htr.drives hd hslot, by rwa [hcurrent]⟩
        · exact .inr (hd.still_passed hmem htf heq)
  | changed hd hslot _ hwork hs => exact htr.changed ht hl ha hd hslot hwork hs
  | spent hm hg hwork hs =>
      rw [hm] at hafter
      refine silent hs ?_ ?_ ?_ ?_
      · rw [hm, hwork]
        exact fun _ _ h => List.mem_cons_of_mem _ h
      · rw [hm, hwork]
        intro fs w hne hmem
        rcases List.mem_cons.mp hmem with heq | hmem
        · rw [← heq] at hg
          cases fs with
          | nil => exact absurd rfl hne
          | cons => cases hg
        · exact hmem
      · rw [hwork]
        exact hafter.tail
      · rw [dueChanges, dueChanges, hm, hwork, List.flatMap_cons, (due_of_isSpent hg).1]
        rfl
  | @comb _ p l rest hm hwork hs =>
      rw [hm, List.pairwise_cons] at hafter
      have hcombs : ∀ g ∈ rest, (Frame.combs l).Above dep m.sim g :=
        fun g hg fs w d heq hne hfs q hq =>
          hafter.1 g hg fs w d heq hne hfs q (List.mem_cons_of_mem _ hq)
      have hover : ∀ depth, ∀ g ∈ rest, (Frame.combOver p depth).Above dep m.sim g :=
        fun depth g hg fs w d heq hne hfs => hafter.1 g hg fs w d heq hne hfs p List.mem_cons_self
      rcases hwork with hwork | ⟨depth, hwork⟩
      · refine silent hs ?_ ?_ ?_ ?_
        · simp [hm, hwork]
        · simp [hm, hwork]
        · rw [hwork]
          exact .cons hcombs hafter.2
        · rw [dueChanges, dueChanges, hm, hwork]
          rfl
      · refine silent hs ?_ ?_ ?_ ?_
        · simp [hm, hwork]
        · simp [hm, hwork]
        · rw [hwork]
          refine .cons ?_ (.cons hcombs hafter.2)
          intro g hg
          rcases List.mem_cons.mp hg with rfl | hg
          · exact Frame.above_of_ne (by simp)
          · exact hover depth g hg
        · rw [dueChanges, dueChanges, hm, hwork]
          rfl
  | all hm hwork hs =>
      rcases hwork with hwork | ⟨l, hwork | ⟨q, depth, hwork⟩⟩ <;>
        refine silent hs ?_ ?_ ?_ ?_ <;>
          simp [hm, hwork, dueChanges, Frame.dueChanges, Frame.above_of_ne]
  | settle hm hwork hs =>
      refine silent hs ?_ ?_ ?_ ?_ <;> simp [hm, hwork, dueChanges, Frame.dueChanges]
  | sync hm hwork hs =>
      refine silent hs ?_ ?_ ?_ ?_ <;>
        simp [hm, hwork, dueChanges, Frame.dueChanges, Frame.above_of_ne]
  | round hm hwork hs =>
      refine still hs rfl rfl (fun _ _ _ => rfl) htr.staged ?_ ?_ ?_ ?_
      · cases hp : m.sim.pending <;> simp [hwork, hp, syncsAfter]
      · rcases hm with hm | hm <;> simp [hm]
      · cases hp : m.sim.pending <;> simp [hwork, hp, syncsAfter, Frame.above_of_ne]
      · rcases hm with hm | hm <;> cases hp : m.sim.pending <;>
          simp [dueChanges, hwork, hm, hp, syncsAfter, Frame.dueChanges]
  | unchanged hm hl hwork hs =>
      obtain ⟨signals, heq⟩ := m.sim.applyStaged_eq
      refine still hs (by rw [heq]) (by rw [heq]) ?_ ?_ ?_ ?_ ?_ ?_
      · intro f slot hslot
        exact htr.coherent.current_applyStaged_of_not_mem hslot (by simp [hl])
      · intro f slot v _ hv
        rw [Simulation.staged?_applyStaged] at hv
        cases hv
      · simp [hwork]
      · simp [hm]
      · simp [hwork, Frame.above_of_ne]
      · simp [dueChanges, hm, hwork, Frame.dueChanges]
  | @commit _ f old new l hm hl' hwork hs =>
      obtain ⟨signals, heq⟩ := m.sim.applyStaged_eq
      have htree : m.sim.applyStaged.1.tree = m.sim.tree := by rw [heq]
      have hwatchers : m.sim.applyStaged.1.watchers f = m.sim.watchers f := by
        rw [heq]
        rfl
      rw [← htree, ← hwatchers] at hwork
      refine Tracking.worked ha hwork hs ?_ ?_ ?_ ?_
      · rw [htree]
        exact ht.binds f
      · rw [htree, ← hl']
        rintro ⟨g, old', new'⟩ hc
        obtain ⟨slot, hslot, hv, -⟩ := htr.coherent.mem_changes_applyStaged.mp hc
        exact ⟨htr.staged g slot new' hslot hv,
          fun _ => ⟨slot, hslot, htr.coherent.current_applyStaged_of_mem hslot hc⟩⟩
      · intro g slot v _ hv
        rw [Simulation.staged?_applyStaged] at hv
        cases hv
      · rw [htree, ← hl']
        exact htr.tracks_applyStaged hm
  | @change _ f old new l hm hwork hs =>
      have hdue : m.dueChanges = (f, old, new) :: l := by
        rw [dueChanges, hm]
        simp [Frame.dueChanges]
      refine Tracking.worked ha hwork hs (ht.binds f) ?_ htr.staged ?_
      · rw [← hdue]
        exact htr.due
      · rw [← hdue]
        intro d t htd
        rcases htr.kept d t htd with hold | ⟨fs, w, hmem, -⟩ | hc
        · exact .inl hold
        · simp [hm] at hmem
        · exact .inr hc

end Steps

end Machine

end Clockwork
