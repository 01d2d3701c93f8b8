import Mathlib.Logic.Relation
import Clockwork.Proofs.Combs.DryRun
import Clockwork.Proofs.Machine.Bindings
import Clockwork.Proofs.Round.Commit

namespace Clockwork

namespace Tree

variable {t : Tree}

def Affects (t : Tree) (p : ProcessRef) (g : FieldRef) : Prop :=
  ∃ o, t.Writes p o ∧ Relation.ReflTransGen t.Flows o g

theorem Writes.affects {p : ProcessRef} {g : FieldRef} (h : t.Writes p g) : t.Affects p g :=
  ⟨g, h, .refl⟩

theorem Affects.flows {p : ProcessRef} {g h : FieldRef} (ha : t.Affects p g) (hf : t.Flows g h) :
    t.Affects p h := by
  obtain ⟨o, ho, hog⟩ := ha
  exact ⟨o, ho, hog.tail hf⟩

theorem Combinational.not_reads (hc : t.Combinational) {p : ProcessRef} {g : FieldRef}
    (ha : t.Affects p g) : ¬ t.Reads p g := by
  intro hr
  obtain ⟨o, ho, hog⟩ := ha
  exact hc.acyclic o (.tail' hog (.inr ⟨p, hr, ho⟩))

end Tree

def Frame.Upon (t : Tree) (p : ProcessRef) : Frame → Prop
  | .propagate fs _ => ∀ g ∈ fs, t.Affects p g
  | .combs l => ∀ q ∈ l, ∃ g, t.Affects p g ∧ t.Reads q g
  | .combOver q _ => ∃ g, t.Affects p g ∧ t.Reads q g
  | .driven => True
  | _ => False

def Frame.Serves (t : Tree) (f g : Frame) : Prop := ∀ p d, g = .combOver p d → f.Upon t p

theorem Frame.serves_of_ne {t : Tree} {f g : Frame} (h : ∀ p d, g ≠ .combOver p d) :
    f.Serves t g := fun p d hg => absurd hg (h p d)

namespace Machine

/-- No write but one of a combinational process itself concerns a field that such processes write,
and such processes leave the items of storage objects alone. -/
structure Spares (m : Machine) : Prop where
  writes : ∀ g v, m.write? = some (g, v) → m.sim.tree.CombWritten g →
    ∃ p d rest, m.work = .combOver p d :: rest
  storage : ∀ p d rest, m.work = .combOver p d :: rest → m.touchesStorage = false

/-- A machine on a tree of combinational processes whose fields are left to them. -/
structure Sheltered (outer : FieldRef → Prop) (m : Machine) : Prop extends Spares m where
  tree : m.sim.tree.Combinational
  pathsLead : m.sim.tree.PathsLead
  wiring : ∃ log, Wiring.ofTree m.sim.tree = .ok (m.sim.wiring, log)
  outer : ∀ g, outer g → ¬ m.sim.tree.CombWritten g

def WillRun (m : Machine) (p : ProcessRef) : Prop :=
  (∃ l, Frame.combs l ∈ m.work ∧ p ∈ l) ∨ ∃ c ∈ m.dueChanges, m.sim.tree.Reads p c.1

def Executes (m : Machine) (p : ProcessRef) : Prop := ∃ d, Frame.combOver p d ∈ m.work

/-- What is worked off above combinational processes follows from them, and nothing but themselves
is about to change what they write. -/
structure Downstream (m : Machine) : Prop where
  upon : m.work.Pairwise (Frame.Serves m.sim.tree)
  spared : ∀ fs v, Frame.propagate fs v ∈ m.work → ∀ f ∈ fs, ¬ m.sim.tree.CombWritten f
  unstaged : ∀ f slot v, m.sim.tree.SignalAt f slot → m.sim.staged? f slot = some v →
    ¬ m.sim.tree.CombWritten f

def OwnWrites (m : Machine) : Prop :=
  ∀ f v p d rest, m.write? = some (f, v) → m.work = .combOver p d :: rest → m.sim.tree.Writes p f

theorem LayeredStack.modeAt_of_comb {l rest : List Frame} {p : ProcessRef} {d : Nat}
    (h : LayeredStack l) (hb : onBody l = true)
    (hw : l.filter Frame.isWork = .combOver p d :: rest) : modeAt l = .immediate := by
  induction l with
  | nil => rfl
  | cons f l ih =>
      have hf : f.isWork = false := by simpa [onBody] using hb
      rw [List.filter_cons_of_neg (by simp [hf])] at hw
      by_cases hend : ∃ name caller, f = .boundary name caller
      · obtain ⟨name, caller, rfl⟩ := hend
        rcases h.1.2 with hb | ⟨q, e, below, rfl⟩ | ⟨ps, below, rfl⟩
        · exact modeAt_boundary hb name caller
        · rfl
        · cases hw
      · have hn : ∀ name caller, f ≠ .boundary name caller :=
          fun name caller heq => hend ⟨name, caller, heq⟩
        rw [modeAt_cons hn]
        exact ih h.2 (onBody_of_liesOn h.1 hf hn) hw

section Steps

variable {outer : FieldRef → Prop} {m m' : Machine} {b : Beat} {p : ProcessRef}

theorem Sheltered.mem_watchers (h : Sheltered outer m) {g : FieldRef} :
    p ∈ m.sim.watchers g ↔ m.sim.tree.Reads p g := by
  obtain ⟨log, hw⟩ := h.wiring
  exact Wiring.mem_watchers_iff hw (fun f => h.tree.derived p f) (fun g => h.tree.apart p g)

theorem Downstream.not_again (h : Downstream m) (hc : m.sim.tree.Combinational) {d : Nat}
    {rest : List Frame} (hwork : m.work = .combOver p d :: rest) (d' : Nat) :
    .combOver p d' ∉ rest := by
  intro hmem
  have hupon := h.upon
  rw [hwork, List.pairwise_cons] at hupon
  obtain ⟨g, hg, hr⟩ := hupon.1 _ hmem p d' rfl
  exact hc.not_reads hg hr

/-- A signal that a step changes is driven or committed, and the processes that read it will run. -/
theorem WorkStep.current (h : WorkStep outer m b m') (ha : Addressed m) (ht : Sheltered outer m)
    {g : FieldRef} {slot : FieldSlot} (hg : m.sim.tree.SignalAt g slot) :
    m'.sim.current g slot = m.sim.current g slot ∨
      (∀ p, m.sim.tree.Reads p g → m'.WillRun p) ∧
        ((∃ v base, Drives outer m g v base) ∨
          m.work = [.commit, .round, .settled] ∧ ∃ v, m.sim.staged? g slot = some v) := by
  have htree := h.design.1
  cases h with
  | stage _ _ _ _ hs =>
      refine .inl ?_
      rw [Simulation.current_congr hs.signals]
      exact Simulation.Coherent.current_stage _ _ _ _ _ _
  | @changed _ f slot' v base hd hslot hv hwork hs =>
      have hsignals := hs.signals.trans (Simulation.signals_changed _ _ _ _)
      by_cases hgf : g = f
      · subst hgf
        refine .inr ⟨fun p hp => .inl ⟨m.sim.watchers g, ?_, ht.mem_watchers.mpr hp⟩,
          .inl ⟨v, base, hd⟩⟩
        rw [hwork]
        simp
      · refine .inl ?_
        rw [Simulation.current_congr hsignals, ha.coherent.current_withValue hslot hg.1,
          if_neg hgf]
  | unchanged _ hl _ hs =>
      refine .inl ?_
      rw [Simulation.current_congr hs.signals]
      exact ha.coherent.current_applyStaged_of_not_mem hg (by simp [hl])
  | @commit _ f old new l hm hl hwork hs =>
      have hsignals := hs.signals.trans (Simulation.signals_changed _ _ _ _)
      rw [Simulation.current_congr hsignals]
      by_cases hmem : ∃ c ∈ m.sim.applyStaged.2, c.1 = g
      · obtain ⟨⟨g, old', new'⟩, hc, rfl⟩ := hmem
        obtain ⟨slot', hslot', hv, -⟩ := ha.coherent.mem_changes_applyStaged.mp hc
        obtain rfl := hg.unique hslot'
        refine .inr ⟨fun p hp => ?_, .inr ⟨hm, new', hv⟩⟩
        rw [hl] at hc
        rcases List.mem_cons.mp hc with heq | hc
        · cases heq
          exact .inl ⟨m.sim.watchers f, by simp [hwork], ht.mem_watchers.mpr hp⟩
        · refine .inr ⟨_, ?_, by rwa [htree]⟩
          simpa [dueChanges, hwork, Frame.dueChanges] using hc
      · exact .inl (ha.coherent.current_applyStaged_of_not_mem hg
          fun c hc heq => hmem ⟨c, hc, heq⟩)
  | change _ _ hs =>
      have hsignals := hs.signals.trans (Simulation.signals_changed _ _ _ _)
      exact .inl (Simulation.current_congr hsignals g slot)
  | still _ hs | same _ _ _ _ hs | spent _ _ _ hs | comb _ _ hs | all _ _ hs | settle _ _ hs
  | round _ _ hs | sync _ _ hs => exact .inl (Simulation.current_congr hs.signals g slot)

theorem Drives.own {f : FieldRef} {v : Value} {base : List Frame} (hd : Drives outer m f v base)
    (ht : Sheltered outer m) (h : Downstream m) (hown : OwnWrites m)
    (hw : m.sim.tree.Writes p f) :
    (∃ v, m.write? = some (f, v)) ∧ ∃ d rest, m.work = .combOver p d :: rest := by
  cases hd with
  | @pass fs rest hm => exact absurd ⟨p, hw⟩ (h.spared (f :: fs) v (by simp [hm]) f (by simp))
  | write _ hwrite =>
      rcases hwrite with hwrite | ⟨houter, -⟩
      · obtain ⟨q, d, rest, hwork⟩ := ht.writes f v hwrite ⟨p, hw⟩
        obtain rfl := ht.tree.single p q f hw (hown f v q d rest hwrite hwork)
        exact ⟨⟨v, hwrite⟩, d, rest, hwork⟩
      · exact absurd ⟨p, hw⟩ (ht.outer f houter)

/-- What is driven above a combinational process follows from it. -/
theorem Drives.affects {f : FieldRef} {v : Value} {base : List Frame} (hd : Drives outer m f v base)
    (hl : Layered m) (h : Downstream m) (hown : OwnWrites m) (hp : Executes m p) :
    m.sim.tree.Affects p f := by
  obtain ⟨d, hp⟩ := hp
  have hupon := h.upon
  cases hd with
  | @pass fs rest hm =>
      rw [hm, List.pairwise_cons] at hupon
      have hrest : .combOver p d ∈ rest := by simpa [hm] using hp
      exact hupon.1 _ hrest p d rfl f List.mem_cons_self
  | write _ hwrite =>
      rcases hwrite with hwrite | ⟨-, hnone⟩
      · rcases hl.stack.work_onBody (onBody_of_write hwrite) with hnone | ⟨q, e, rest, hm⟩ | ⟨l, hm⟩
        · rw [work, hnone] at hp
          cases hp
        · change m.work = _ at hm
          have hq := hown f v q e rest hwrite hm
          rw [hm] at hp hupon
          rcases List.mem_cons.mp hp with heq | hp
          · cases heq
            exact hq.affects
          · obtain ⟨g, hg, hr⟩ := (List.pairwise_cons.mp hupon).1 _ hp p d rfl
            exact hg.flows (.inr ⟨q, hr, hq⟩)
        · rw [work, hm] at hp
          simp at hp
      · rw [hnone] at hp
        cases hp

theorem WorkStep.kept_read (h : WorkStep outer m b m') (ha : Addressed m) (ht : Sheltered outer m)
    (hl : Layered m) (hd : Downstream m) (hown : OwnWrites m) (hp : Executes m p) {g : FieldRef}
    {slot : FieldSlot} (hg : m.sim.tree.SignalAt g slot) (hr : m.sim.tree.Reads p g) :
    m'.sim.current g slot = m.sim.current g slot := by
  rcases h.current ha ht hg with hsame | ⟨-, ⟨v, base, hdrives⟩ | ⟨hm, -⟩⟩
  · exact hsame
  · exact absurd hr (ht.tree.not_reads (hdrives.affects hl hd hown hp))
  · obtain ⟨d, hp⟩ := hp
    simp [hm] at hp

theorem WorkStep.kept_written (h : WorkStep outer m b m') (ha : Addressed m)
    (ht : Sheltered outer m) (hd : Downstream m) (hown : OwnWrites m) {g : FieldRef}
    {slot : FieldSlot} (hg : m.sim.tree.SignalAt g slot) (hw : m.sim.tree.Writes p g) :
    m'.sim.current g slot = m.sim.current g slot ∨
      (∃ v, m.write? = some (g, v)) ∧ ∃ d rest, m.work = .combOver p d :: rest := by
  rcases h.current ha ht hg with hsame | ⟨-, ⟨v, base, hdrives⟩ | ⟨-, v, hv⟩⟩
  · exact .inl hsame
  · exact .inr (hdrives.own ht hd hown hw)
  · exact absurd ⟨p, hw⟩ (hd.unstaged g slot v hg hv)

theorem Downstream.upon_base {f : FieldRef} {v : Value} {base : List Frame}
    (h : Downstream m) (hd : Drives outer m f v base) :
    base.Pairwise (Frame.Serves m.sim.tree) := by
  have hupon := h.upon
  cases hd with
  | pass hm =>
      rw [hm, List.pairwise_cons] at hupon
      refine .cons ?_ hupon.2
      intro g hg p d heq o ho
      exact hupon.1 g hg p d heq o (List.mem_cons_of_mem _ ho)
  | write => exact .cons (fun _ _ _ _ _ => trivial) hupon

theorem Downstream.spared_base {f : FieldRef} {v : Value} {base : List Frame}
    (h : Downstream m) (hd : Drives outer m f v base) :
    ∀ fs w, Frame.propagate fs w ∈ base → ∀ g ∈ fs, ¬ m.sim.tree.CombWritten g := by
  intro fs w hmem g hg
  obtain ⟨fs', hmem', hsub⟩ := hd.fresh_base hmem
  exact h.spared fs' w hmem' g (hsub g hg)

theorem Drives.mem_base {f : FieldRef} {v : Value} {base : List Frame} {d : Nat}
    (hd : Drives outer m f v base) (hp : .combOver p d ∈ base) : .combOver p d ∈ m.work := by
  cases hd with
  | pass hm => simpa [hm] using hp
  | write => simpa using hp

/-- Nobody stages a field that combinational processes write. -/
theorem WorkStep.unstaged (h : WorkStep outer m b m') (ha : Addressed m) (ht : Sheltered outer m)
    (hl : Layered m) (hd : Downstream m) {g : FieldRef} {slot : FieldSlot} {v : Value}
    (hg : m.sim.tree.SignalAt g slot) (hv : m'.sim.staged? g slot = some v) :
    ¬ m.sim.tree.CombWritten g := by
  cases h with
  | stage hslot hw hmode _ hs =>
      rw [Simulation.staged?_congr hs.signals, ha.coherent.staged?_stage hslot hg] at hv
      split at hv
      · rename_i heq
        subst heq
        intro hwritten
        -- Such a write comes from a combinational process, which writes at once.
        obtain ⟨p, d, rest, hm⟩ := ht.writes g _ hw hwritten
        have himmediate := hl.stack.modeAt_of_comb (onBody_of_write hw) hm
        rw [hl.mode_of_write hw, himmediate] at hmode
        cases hmode
      · exact hd.unstaged g slot v hg hv
  | changed _ _ _ _ hs =>
      have hsignals := hs.signals.trans (Simulation.signals_changed _ _ _ _)
      rw [Simulation.staged?_congr hsignals, Simulation.staged?_withValue] at hv
      exact hd.unstaged g slot v hg hv
  | unchanged _ _ _ hs =>
      rw [Simulation.staged?_congr hs.signals, Simulation.staged?_applyStaged] at hv
      cases hv
  | commit _ _ _ hs =>
      have hsignals := hs.signals.trans (Simulation.signals_changed _ _ _ _)
      rw [Simulation.staged?_congr hsignals, Simulation.staged?_applyStaged] at hv
      cases hv
  | change _ _ hs =>
      have hsignals := hs.signals.trans (Simulation.signals_changed _ _ _ _)
      rw [Simulation.staged?_congr hsignals] at hv
      exact hd.unstaged g slot v hg hv
  | still _ hs | same _ _ _ _ hs | spent _ _ _ hs | comb _ _ hs | all _ _ hs | settle _ _ hs
  | round _ _ hs | sync _ _ hs =>
      rw [Simulation.staged?_congr hs.signals] at hv
      exact hd.unstaged g slot v hg hv

/-- What a change leads to follows from the process that made it, and with that from all processes
below. -/
theorem Downstream.upon_changed {f : FieldRef} {v new : Value} {base : List Frame}
    (hd : Downstream m) (ht : Sheltered outer m) (hl : Layered m) (hown : OwnWrites m)
    (hdrives : Drives outer m f v base) :
    (.propagate (m.sim.tree.targets f) new :: .combs (m.sim.watchers f) :: base).Pairwise
      (Frame.Serves m.sim.tree) := by
  -- The change itself follows from every process below, so what comes of it does too.
  have hf : ∀ g ∈ base, ∀ p d, g = .combOver p d → m.sim.tree.Affects p f := by
    rintro g hg p d rfl
    exact hdrives.affects hl hd hown ⟨d, hdrives.mem_base hg⟩
  refine .cons ?_ (.cons ?_ (hd.upon_base hdrives))
  · rintro g hg p d rfl t htf
    exact (hf _ (by simpa using hg) p d rfl).flows (.inl htf)
  · intro g hg p d heq q hq
    exact ⟨f, hf g hg p d heq, ht.mem_watchers.mp hq⟩

/-- A step keeps what is worked off downstream of the processes that are under way. -/
theorem WorkStep.upon (h : WorkStep outer m b m') (ht : Sheltered outer m) (hl : Layered m)
    (hd : Downstream m) (hown : OwnWrites m) : m'.work.Pairwise (Frame.Serves m.sim.tree) := by
  have hupon := hd.upon
  cases h with
  | still hwork | stage _ _ _ hwork => rwa [hwork]
  | same hdrives _ _ hwork =>
      rw [hwork]
      exact hd.upon_base hdrives
  | changed hdrives _ _ hwork =>
      rw [hwork]
      exact hd.upon_changed ht hl hown hdrives
  | spent hm _ hwork =>
      rw [hm] at hupon
      rw [hwork]
      exact hupon.tail
  | @comb _ p l rest hm hwork =>
      rw [hm, List.pairwise_cons] at hupon
      have hcombs : ∀ g ∈ rest, (Frame.combs l).Serves m.sim.tree g :=
        fun g hg q d heq r hr => hupon.1 g hg q d heq r (List.mem_cons_of_mem _ hr)
      rcases hwork with hwork | ⟨d, hwork⟩ <;> rw [hwork]
      · exact .cons hcombs hupon.2
      · refine .cons ?_ (.cons hcombs hupon.2)
        intro g hg q e heq
        rcases List.mem_cons.mp hg with rfl | hg
        · cases heq
        · exact hupon.1 g hg q e heq p List.mem_cons_self
  | all _ hwork =>
      rcases hwork with hwork | ⟨l, hwork | ⟨q, d, hwork⟩⟩ <;> simp [hwork, Frame.serves_of_ne]
  | round _ hwork =>
      cases hp : m.sim.pending <;> simp [hwork, hp, syncsAfter, Frame.serves_of_ne]
  | settle _ hwork | sync _ hwork | unchanged _ _ hwork | commit _ _ hwork | change _ hwork =>
      simp [hwork, Frame.serves_of_ne]

/-- No field that combinational processes write follows another field. -/
theorem WorkStep.spared (h : WorkStep outer m b m') (ht : Sheltered outer m) (hd : Downstream m) :
    ∀ fs v, Frame.propagate fs v ∈ m'.work → ∀ f ∈ fs, ¬ m.sim.tree.CombWritten f := by
  have hspared := hd.spared
  have htargets : ∀ f, ∀ g ∈ m.sim.tree.targets f, ¬ m.sim.tree.CombWritten g := by
    rintro f g hg ⟨p, hp⟩
    exact ht.tree.unbound p g hp f hg
  cases h with
  | still hwork | stage _ _ _ hwork => rwa [hwork]
  | same hdrives _ _ hwork =>
      rw [hwork]
      exact hd.spared_base hdrives
  | @changed _ f _ _ _ hdrives _ _ hwork =>
      rw [hwork]
      intro fs w hmem
      rcases List.mem_cons.mp hmem with heq | hmem
      · cases heq
        exact htargets f
      · exact hd.spared_base hdrives fs w (by simpa using hmem)
  | spent hm _ hwork =>
      rw [hm] at hspared
      rw [hwork]
      exact fun fs w hmem => hspared fs w (List.mem_cons_of_mem _ hmem)
  | comb hm hwork =>
      rw [hm] at hspared
      rcases hwork with hwork | ⟨d, hwork⟩ <;> simpa [hwork] using hspared
  | all _ hwork => rcases hwork with hwork | ⟨l, hwork | ⟨q, d, hwork⟩⟩ <;> simp [hwork]
  | round _ hwork => cases hp : m.sim.pending <;> simp [hwork, hp, syncsAfter]
  | settle _ hwork | sync _ hwork | unchanged _ _ hwork => simp [hwork]
  | @commit _ f _ new _ _ _ hwork | @change _ f _ new _ _ hwork =>
      intro fs w hmem
      obtain ⟨rfl, rfl⟩ : fs = m.sim.tree.targets f ∧ w = new := by simpa [hwork] using hmem
      exact htargets f

theorem WorkStep.downstream (h : WorkStep outer m b m') (ha : Addressed m)
    (ht : Sheltered outer m) (hl : Layered m) (hd : Downstream m) (hown : OwnWrites m) :
    Downstream m' := by
  have htree := h.design.1
  refine ⟨?_, ?_, ?_⟩ <;> rw [htree]
  · exact h.upon ht hl hd hown
  · exact h.spared ht hd
  · exact fun f slot v => h.unstaged ha ht hl hd

/-- A process that is to be run stays so until its turn comes. -/
theorem WorkStep.willRun (h : WorkStep outer m b m') (ht : Sheltered outer m) (hp : WillRun m p)
    (hturn : ∀ l rest, m.work ≠ .combs (p :: l) :: rest) : WillRun m' p := by
  have htree := h.design.1
  have keep : (∀ l, Frame.combs l ∈ m.work → p ∈ l → Frame.combs l ∈ m'.work) →
      m'.dueChanges = m.dueChanges → WillRun m' p := by
    intro hcombs hdue
    rcases hp with ⟨l, hmem, hp⟩ | ⟨c, hc, hr⟩
    · exact .inl ⟨l, hcombs l hmem hp, hp⟩
    · exact .inr ⟨c, by rwa [hdue], by rwa [htree]⟩
  have base : ∀ {f : FieldRef} {v : Value} {base : List Frame}, Drives outer m f v base →
      ∀ l, Frame.combs l ∈ m.work → Frame.combs l ∈ base := by
    intro f v base hd l hmem
    cases hd with
    | pass hm => simpa [hm] using hmem
    | write => exact List.mem_cons_of_mem _ hmem
  cases h with
  | still hwork hs =>
      exact keep (by rw [hwork]; exact fun l hmem _ => hmem) (dueChanges_of_work hwork)
  | stage _ _ _ hwork _ =>
      exact keep (by rw [hwork]; exact fun l hmem _ => hmem) (dueChanges_of_work hwork)
  | same hd _ _ hwork _ =>
      refine keep ?_ ?_
      · rw [hwork]
        exact fun l hmem _ => base hd l hmem
      · rw [dueChanges, hwork, hd.due.1]
  | changed hd _ _ hwork _ =>
      refine keep ?_ ?_
      · rw [hwork]
        exact fun l hmem _ => List.mem_cons_of_mem _ (List.mem_cons_of_mem _ (base hd l hmem))
      · rw [dueChanges, hwork, ← hd.due.1]
        rfl
  | spent hm hg hwork _ =>
      refine keep ?_ ?_
      · rw [hm, hwork]
        intro l hmem hp
        rcases List.mem_cons.mp hmem with heq | hmem
        · rw [← heq] at hg
          cases l with
          | nil => cases hp
          | cons => cases hg
        · exact hmem
      · rw [dueChanges, dueChanges, hm, hwork, List.flatMap_cons, (due_of_isSpent hg).1]
        rfl
  | @comb _ q l rest hm hwork _ =>
      have hl : Frame.combs l ∈ m'.work ∧ ∀ g ∈ rest, g ∈ m'.work := by
        rcases hwork with hwork | ⟨d, hwork⟩ <;> rw [hwork] <;>
          exact ⟨by simp, fun g hg => by simp [hg]⟩
      have hdue : m'.dueChanges = m.dueChanges := by
        rcases hwork with hwork | ⟨d, hwork⟩ <;> rw [dueChanges, dueChanges, hm, hwork] <;> rfl
      rcases hp with ⟨l', hmem, hp⟩ | ⟨c, hc, hr⟩
      · rw [hm] at hmem
        rcases List.mem_cons.mp hmem with heq | hmem
        · cases heq
          rcases List.mem_cons.mp hp with rfl | hp
          · exact absurd hm (hturn l rest)
          · exact .inl ⟨l, hl.1, hp⟩
        · exact .inl ⟨l', hl.2 _ hmem, hp⟩
      · exact .inr ⟨c, by rwa [hdue], by rwa [htree]⟩
  | @change _ f old new l hm hwork _ =>
      have hcombs : ∀ l', Frame.combs l' ∉ m.work := by simp [hm]
      have hdue : m.dueChanges = (f, old, new) :: l := by
        rw [dueChanges, hm]
        simp [Frame.dueChanges]
      have hdue' : m'.dueChanges = l := by
        rw [dueChanges, hwork]
        simp [Frame.dueChanges]
      rcases hp with ⟨l', hmem, -⟩ | ⟨c, hc, hr⟩
      · exact absurd hmem (hcombs l')
      · rw [hdue] at hc
        rcases List.mem_cons.mp hc with rfl | hc
        · exact .inl ⟨m.sim.watchers f, by simp [hwork], ht.mem_watchers.mpr hr⟩
        · exact .inr ⟨c, by rwa [hdue'], by rwa [htree]⟩
  | all hm | settle hm | sync hm | unchanged hm | commit hm =>
      simp [WillRun, dueChanges, hm, Frame.dueChanges] at hp
  | round hm =>
      rcases hm with hm | hm <;> simp [WillRun, dueChanges, hm, Frame.dueChanges] at hp

theorem WorkStep.executes (h : WorkStep outer m b m') (hp : Executes m' p) :
    Executes m p ∨ (∃ l rest, m.work = .combs (p :: l) :: rest) ∨ m.work = [] := by
  obtain ⟨d, hp⟩ := hp
  cases h with
  | still hwork => exact .inl ⟨d, by rwa [← hwork]⟩
  | stage _ _ _ hwork => exact .inl ⟨d, by rwa [← hwork]⟩
  | same hd _ _ hwork => exact .inl ⟨d, hd.mem_base (by rwa [← hwork])⟩
  | changed hd _ _ hwork => exact .inl ⟨d, hd.mem_base (by simpa [hwork] using hp)⟩
  | spent hm _ hwork => exact .inl ⟨d, by rw [hm, ← hwork]; exact List.mem_cons_of_mem _ hp⟩
  | @comb _ q l rest hm hwork =>
      by_cases hq : p = q
      · exact .inr (.inl ⟨l, rest, by rw [hm, hq]⟩)
      · refine .inl ⟨d, ?_⟩
        rcases hwork with hwork | ⟨e, hwork⟩ <;> simpa [hm, hwork, hq] using hp
  | all hm => exact .inr (.inr hm)
  | settle _ hwork | sync _ hwork | unchanged _ _ hwork | commit _ _ hwork | change _ hwork =>
      simp [hwork] at hp
  | round _ hwork => cases hpending : m.sim.pending <;> simp [hwork, hpending, syncsAfter] at hp

theorem Executes.of_write {f : FieldRef} {v : Value} {mode : WriteMode}
    (h : Executes (m.write f v mode) p) : Executes m p := by
  rcases m.write_cases f v mode with ⟨e, heq⟩ | ⟨slot, hslot, -, hstaged, hnow⟩
  · rw [heq] at h
    exact h
  · cases mode with
    | staged =>
        rw [hstaged rfl] at h
        exact h
    | immediate =>
        rw [hnow rfl, driveAndSettle] at h
        let m₁ : Machine := { m with
          sim := { m.sim with driveDepth := m.sim.driveDepth + 1 }
          stack := .driven :: m.stack }
        have hm₁ : m₁.work = .driven :: m.work := List.filter_cons_of_pos rfl
        change Executes (m₁.drive f v) p at h
        obtain ⟨d, h⟩ := h
        refine ⟨d, ?_⟩
        cases hv : ((m₁.sim.signalsOf f.owner).read slot.key).same
            (v.fit slot.width slot.signed) with
        | true =>
            rw [drive_same (m := m₁) hslot hv] at h
            change _ ∈ m₁.work at h
            simpa [hm₁] using h
        | false =>
            rw [drive_changed (m := m₁) hslot hv, announce_work] at h
            change _ ∈ _ :: (_ ++ m₁.work) at h
            simpa [hm₁, Frame.isWork] using h

theorem Layered.executes_of_step {waker : Waker} (hl : Layered m) (hstep : m.step waker = .go m')
    (hok : m'.fault? = none) (hp : Executes m' p) :
    Executes m p ∨ ∃ l rest, m.work = .combs (p :: l) :: rest := by
  have hw : WorkStep (fun _ => False) m m.beat m' := hl.workStep hstep (fault?_eq_none hok)
  rcases hw.executes hp with hp | hturn | hnone
  · exact .inl hp
  · exact .inr hturn
  · left
    obtain ⟨-, hmove⟩ := hl.step hstep
    cases hmove with
    | still hw => 
        obtain ⟨d, hp⟩ := hp
        exact ⟨d, by rwa [← hw]⟩
    | write rest f v _ _ hrest => 
        obtain ⟨d, hp⟩ := hp.of_write
        exact ⟨d, by rwa [← hrest]⟩
    | engine f rest c hf _ _ hs =>
        rw [work_cons hs hf] at hnone
        cases hnone

end Steps

end Machine

end Clockwork
