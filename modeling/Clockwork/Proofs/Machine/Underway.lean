import Clockwork.Proofs.Machine.Layers
import Clockwork.Proofs.Signals

namespace Clockwork

/-- The simulations have the same tree, wiring and limits, and equally many instances have
signals. -/
structure Simulation.SameDesign (s s' : Simulation) : Prop where
  tree : s'.tree = s.tree
  wiring : s'.wiring = s.wiring
  maxCombDepth : s'.maxCombDepth = s.maxCombDepth
  size : s'.signals.size = s.signals.size

/-- The simulations have the same design, tasks and counters, and no value is staged in the second
one only. -/
structure Simulation.SameWork (s s' : Simulation) : Prop extends s.SameDesign s' where
  kernel : s'.kernel = s.kernel
  driveDepth : s'.driveDepth = s.driveDepth
  combDepth : s'.combDepth = s.combDepth
  inRound : s'.inRound = s.inRound
  staged : s'.hasStaged = true → s.hasStaged = true

namespace Simulation

theorem SameDesign.refl (s : Simulation) : s.SameDesign s := ⟨rfl, rfl, rfl, rfl⟩

theorem SameDesign.trans {s s₁ s₂ : Simulation} (h : s.SameDesign s₁) (h₁ : s₁.SameDesign s₂) :
    s.SameDesign s₂ :=
  ⟨h₁.tree.trans h.tree, h₁.wiring.trans h.wiring, h₁.maxCombDepth.trans h.maxCombDepth,
    h₁.size.trans h.size⟩

theorem SameDesign.after {s s₁ s₁' s₂ : Simulation} (h : s.SameDesign s₁)
    (h₁ : s₁'.SameDesign s₂) (ht : s₁'.tree = s₁.tree) (hw : s₁'.wiring = s₁.wiring)
    (hd : s₁'.maxCombDepth = s₁.maxCombDepth) (hs : s₁'.signals.size = s₁.signals.size) :
    s.SameDesign s₂ :=
  h.trans ⟨h₁.tree.trans ht, h₁.wiring.trans hw, h₁.maxCombDepth.trans hd, h₁.size.trans hs⟩

theorem SameWork.refl (s : Simulation) : s.SameWork s := ⟨.refl s, rfl, rfl, rfl, rfl, id⟩

theorem SameWork.trans {s s₁ s₂ : Simulation} (h : s.SameWork s₁) (h₁ : s₁.SameWork s₂) :
    s.SameWork s₂ :=
  ⟨h.toSameDesign.trans h₁.toSameDesign, h₁.kernel.trans h.kernel,
    h₁.driveDepth.trans h.driveDepth, h₁.combDepth.trans h.combDepth, h₁.inRound.trans h.inRound,
    h.staged ∘ h₁.staged⟩

theorem sameWork_withValue (s : Simulation) (f : FieldRef) (slot : FieldSlot) (v : Value) :
    s.SameWork (s.withValue f slot v) :=
  ⟨⟨rfl, rfl, rfl, s.signals.size_set f.owner slot.key v⟩, rfl, rfl, rfl, rfl, id⟩

theorem sameWork_announce (s : Simulation) (f : FieldRef) (name : String) (old new : Value) :
    s.SameWork ((s.trace f name old new).noteEdge f old new) := by
  obtain ⟨p, c, l, h⟩ := s.announce_eq f name old new
  rw [h]
  exact ⟨⟨rfl, rfl, rfl, rfl⟩, rfl, rfl, rfl, rfl, id⟩

end Simulation

/-- A task is in bodies whose writes are immediate. -/
structure Task.Sound (t : Task) : Prop where
  stack : Machine.LayeredStack t.stack
  bodies : ∀ f ∈ t.stack, f.isWork = false
  mode : t.activation.mode = Machine.modeAt t.stack

def Simulation.SoundTasks (s : Simulation) : Prop :=
  ∀ id t, s.kernel.tasks.get? id = some t → t.Sound

namespace Machine

/-- A move of a frame that works off changes: it adds frames, but no further rounds. -/
structure WorkMove (m m' : Machine) : Prop where
  frames : ∃ fs, m'.stack = fs ++ m.stack ∧ ∀ g ∈ fs, g.isSettled = false
  sim : m.sim.SameWork m'.sim

namespace WorkMove

variable {m : Machine}

theorem here (c : Control) (a : Activation) {s : Simulation} (hs : m.sim.SameWork s) :
    WorkMove m ⟨c, a, m.stack, s⟩ := ⟨⟨[], rfl, by simp⟩, hs⟩

theorem above {m' : Machine} {g : Frame} {a : Activation} {s : Simulation}
    (h : WorkMove { m with stack := g :: m.stack, activation := a, sim := s } m')
    (hs : m.sim.SameWork s) (hg : g.isSettled = false) : WorkMove m m' := by
  obtain ⟨⟨fs, hfs, hnone⟩, hsim⟩ := h
  refine ⟨⟨fs ++ [g], ?_, ?_⟩, hs.trans hsim⟩
  · rw [hfs, List.append_assoc]
    rfl
  · intro g' hg'
    rcases List.mem_append.mp hg' with hg' | hg'
    · exact hnone g' hg'
    · rw [List.mem_singleton.mp hg']
      exact hg

theorem push (m : Machine) (f : Frame) (c : Control) (hf : f.isSettled = false) :
    WorkMove m (m.push f c) := ⟨⟨[f], rfl, by simpa using hf⟩, .refl _⟩

theorem announce (m : Machine) (f : FieldRef) (name : String) (old new : Value)
    {after : List Frame} (hafter : ∀ g ∈ after, g.isSettled = false) :
    WorkMove m (m.announce f name old new after) := by
  refine ⟨⟨_ :: after, rfl, ?_⟩, m.sim.sameWork_announce f name old new⟩
  rintro g (_ | ⟨_, hg⟩)
  · rfl
  · exact hafter g hg

theorem drive (m : Machine) (f : FieldRef) (v : Value) : WorkMove m (m.drive f v) := by
  cases h : m.sim.tree.slot f.owner f.index with
  | error e =>
      rw [drive_error h]
      exact .here _ _ (.refl _)
  | ok slot =>
      cases hv : ((m.sim.signalsOf f.owner).read slot.key).same
          (v.fit slot.width slot.signed) with
      | true =>
          rw [drive_same h hv]
          exact .here _ _ (.refl _)
      | false =>
          rw [drive_changed h hv]
          let m₁ := m.setSim (m.sim.withValue f slot (v.fit slot.width slot.signed))
          have hafter : ∀ g ∈ [Frame.combs (m.sim.watchers f)], g.isSettled = false := by
            simp [Frame.isSettled]
          obtain ⟨hframes, hsim⟩ := announce m₁ f slot.name
            ((m.sim.signalsOf f.owner).read slot.key) (v.fit slot.width slot.signed) hafter
          exact ⟨hframes, (m.sim.sameWork_withValue f slot _).trans hsim⟩

theorem workOff (m : Machine) (l : List (FieldRef × Value × Value)) :
    WorkMove m (m.workOff l) := by
  rcases l with _ | ⟨⟨f, old, new⟩, l⟩
  · exact .here _ _ (.refl _)
  · refine announce m f _ old new ?_
    simp [Frame.isSettled]

theorem syncBody (m : Machine) (p : ProcessRef) (next : Nat) (body : List Stmt) :
    WorkMove m (m.syncBody p next body) := by
  have paused : ∀ t, m.sim.SameWork { m.sim with paused := t } :=
    fun _ => ⟨⟨rfl, rfl, rfl, rfl⟩, rfl, rfl, rfl, rfl, id⟩
  cases body with
  | nil => exact .here _ _ (.refl _)
  | cons s rest =>
      simp only [Machine.syncBody]
      split
      · exact .here _ _ (paused _)
      · exact .push m _ _ rfl
      · exact .push m _ _ rfl

theorem runSync (m : Machine) (p : ProcessRef) : WorkMove m (m.runSync p) := by
  have paused : ∀ t, m.sim.SameWork { m.sim with paused := t } :=
    fun _ => ⟨⟨rfl, rfl, rfl, rfl⟩, rfl, rfl, rfl, rfl, id⟩
  have resume : ∀ t f next locals,
      WorkMove m ((m.setSim { m.sim with paused := t }).resumeSync p f next locals) :=
    fun t f next locals => .above (syncBody _ p next _) (paused t) rfl
  simp only [Machine.runSync]
  split
  · exact .here _ _ (.refl _)
  · rename_i f _
    cases isReset m.sim p with
    | error e => exact .here _ _ (.refl _)
    | ok reset =>
        simp only [withResult]
        split
        · exact resume _ f 0 .empty
        · rename_i pause _
          split
          · exact .here _ _ (paused _)
          · exact resume _ f pause.next pause.locals

theorem runSyncs (m : Machine) (l : List ProcessRef) : WorkMove m (m.runSyncs l) := by
  cases l with
  | nil => exact .here _ _ (.refl _)
  | cons p l => exact .above (runSync _ p) (.refl _) rfl

theorem head {m' : Machine} (h : WorkMove m m') (hm : ∀ below, m.stack ≠ .settled :: below)
    (below : List Frame) : m'.stack ≠ .settled :: below := by
  obtain ⟨⟨fs, hfs, hnone⟩, -⟩ := h
  intro hs
  rw [hfs] at hs
  cases fs with
  | nil => exact hm below hs
  | cons f fs =>
      cases hs
      cases hnone .settled (by simp)

end WorkMove

/-- What holds of all states of a run that has the design of a simulation: what is pending or staged
will be worked off. -/
structure Tidy (s₀ : Simulation) (m : Machine) : Prop extends Layered m where
  design : s₀.SameDesign m.sim
  bound : m.sim.combDepth ≤ m.sim.maxCombDepth
  pending : m.sim.pending = [] ∨ 0 < m.sim.driveDepth ∨ m.sim.inRound = true
  staged : m.sim.hasStaged = true → m.sim.inRound = true
  settled : ∀ v below, m.control = .done (.value v) → m.stack = .settled :: below →
    m.sim.pending = [] ∧ m.sim.hasStaged = false
  tasks : m.sim.SoundTasks

theorem Task.calling_sound (owner : Nat) (name : String) : (Task.calling owner name).Sound := by
  refine ⟨⟨⟨rfl, rfl⟩, trivial⟩, ?_, rfl⟩
  simp [Task.calling, Frame.isWork]

section Steps

variable {s₀ : Simulation} {m : Machine}

theorem Layered.under (h : Layered m) {f : Frame} {rest : List Frame} (hs : m.stack = f :: rest)
    (hf : f.isWork = true) : 0 < m.sim.driveDepth ∨ m.sim.inRound = true := by
  by_cases hd : 0 < m.sim.driveDepth
  · exact .inl hd
  · right
    cases hr : m.sim.inRound with
    | true => rfl
    | false =>
        obtain ⟨hdriven, -, hround⟩ := h.counted
        have hnone := h.stack.no_work (by omega) (hround.symm.trans hr) f (by simp [hs])
        rw [hf] at hnone
        cases hnone

theorem LayeredStack.of_staged {l : List Frame} (h : LayeredStack l) (hm : modeAt l = .staged) :
    l.any Frame.isSettled = true ∧ ∃ ps, .syncs ps ∈ l := by
  induction l with
  | nil => cases hm
  | cons f l ih =>
      obtain ⟨hf, hl⟩ := h
      by_cases hend : ∃ name caller, f = .boundary name caller
      · obtain ⟨name, caller, rfl⟩ := hend
        obtain ⟨-, hb | ⟨p, depth, rest, rfl⟩ | ⟨ps, rest, rfl⟩⟩ := hf
        · rw [modeAt_boundary hb] at hm
          cases hm
        · cases hm
        · obtain ⟨⟨rest, rfl⟩, ⟨rest, rfl⟩, ⟨rest, rfl⟩, -⟩ := hl
          exact ⟨by simp [Frame.isSettled], ps, by simp⟩
      · rw [modeAt_cons fun name caller heq => hend ⟨name, caller, heq⟩] at hm
        obtain ⟨hsettled, ps, hmem⟩ := ih hl hm
        exact ⟨by rw [List.any_cons, hsettled, Bool.or_true], ps, List.mem_cons_of_mem f hmem⟩

theorem Tidy.still {m' : Machine} (h : Tidy s₀ m) (hl : Layered m') (hs : m.sim.Still m'.sim)
    (hhead : ∀ rest, m'.stack ≠ .settled :: rest) : Tidy s₀ m' := by
  obtain ⟨hk, k, o, p, c, l, heq⟩ := hs
  refine ⟨hl, ?_, ?_, ?_, ?_, ?_, ?_⟩
  · rw [heq]
    exact h.design.trans ⟨rfl, rfl, rfl, rfl⟩
  · rw [heq]
    exact h.bound
  · rw [heq]
    exact h.pending
  · rw [heq]
    exact h.staged
  · intro v below _ hstack
    exact absurd hstack (hhead below)
  · intro id t ht
    rcases hk id t ht with hold | ⟨owner, name, rfl⟩
    · exact h.tasks id t hold
    · exact Task.calling_sound owner name

theorem Tidy.work (h : Tidy s₀ m) (m₁ : Machine) {m' : Machine} (hs : m.sim.SameWork m₁.sim)
    (hm : WorkMove m₁ m') (hl : Layered m')
    (hunder : 0 < m.sim.driveDepth ∨ m.sim.inRound = true)
    (hhead : ∀ below, m₁.stack ≠ .settled :: below) : Tidy s₀ m' := by
  have hsim := hs.trans hm.sim
  refine ⟨hl, h.design.trans hsim.toSameDesign, ?_, .inr ?_, ?_, ?_, ?_⟩
  · rw [hsim.combDepth, hsim.maxCombDepth]
    exact h.bound
  · rwa [hsim.driveDepth, hsim.inRound]
  · intro hstaged
    rw [hsim.inRound]
    exact h.staged (hsim.staged hstaged)
  · intro v below _ hstack
    exact absurd hstack (hm.head hhead below)
  · intro id t ht
    rw [hsim.kernel] at ht
    exact h.tasks id t ht

theorem Tidy.fault (h : Tidy s₀ m) {m' : Machine} (hl : Layered m')
    (hsim : m'.sim = m.sim) {e : SimError}
    (hc : m'.control = .done (.failed e)) : Tidy s₀ m' := by
  refine ⟨hl, ?_, ?_, ?_, ?_, ?_, ?_⟩
  · rw [hsim]
    exact h.design
  · rw [hsim]
    exact h.bound
  · rw [hsim]
    exact h.pending
  · rw [hsim]
    exact h.staged
  · intro v below hv
    rw [hc] at hv
    cases hv
  · rw [hsim]
    exact h.tasks

theorem write_cases (m : Machine) (f : FieldRef) (v : Value) (mode : WriteMode) :
    (∃ e, m.write f v mode = m.fail e) ∨
      ∃ slot, m.sim.tree.slot f.owner f.index = .ok slot ∧ slot.storage = .signal ∧
        (mode = .staged → m.write f v mode = (m.setSim (m.sim.stage f slot v)).finish) ∧
        (mode = .immediate → m.write f v mode = m.driveAndSettle f v) := by
  cases hslot : m.sim.tree.slot f.owner f.index with
  | error e => exact .inl ⟨e, by simp only [write, hslot]⟩
  | ok slot =>
      cases hst : slot.storage with
      | signal =>
          refine .inr ⟨slot, rfl, hst, ?_, ?_⟩
          · rintro rfl
            simp only [write, hslot, hst]
          · rintro rfl
            simp only [write, hslot, hst]
      | _ => exact .inl ⟨_, by simp only [write, hslot, hst]; rfl⟩

/-- A machine with the counters and tasks of a state of a run may write a field. -/
theorem write_tidy {rest : List Frame} (h : Tidy s₀ m) (hp : Placed { m with stack := rest })
    (hb : onBody rest = true) (f : FieldRef) (v : Value) :
    Tidy s₀ ({ m with stack := rest }.write f v (modeAt rest)) := by
  have hl := write_layered hp hb f v (modeAt rest)
  cases hmode : modeAt rest with
  | staged =>
      rw [hmode] at hl
      have hround : m.sim.inRound = true :=
        hp.counted.inRound.trans (hp.stack.of_staged hmode).1
      rcases write_cases { m with stack := rest } f v .staged with
        ⟨e, heq⟩ | ⟨slot, -, -, heq, -⟩
      · rw [heq] at hl ⊢
        exact h.fault hl rfl rfl
      · rw [heq rfl] at hl ⊢
        refine ⟨hl, h.design.trans ⟨rfl, rfl, rfl, Simulation.size_stage _ f _ _⟩, h.bound,
          .inr (.inr hround), fun _ => hround, ?_, h.tasks⟩
        intro v' below _ hs
        exact absurd hs (head_of_onBody hb below)
  | immediate =>
      rw [hmode] at hl
      rcases write_cases { m with stack := rest } f v .immediate with
        ⟨e, heq⟩ | ⟨slot, -, -, -, heq⟩
      · rw [heq] at hl ⊢
        exact h.fault hl rfl rfl
      · rw [heq rfl, driveAndSettle] at hl ⊢
        have hmove := WorkMove.drive { m with
          sim := { m.sim with driveDepth := m.sim.driveDepth + 1 }
          stack := .driven :: rest } f v
        have hsim := hmove.sim
        refine ⟨hl, h.design.after hsim.toSameDesign rfl rfl rfl rfl, ?_,
          .inr (.inl ?_), ?_, ?_, ?_⟩
        · rw [hsim.combDepth, hsim.maxCombDepth]
          exact h.bound
        · rw [hsim.driveDepth]
          exact Nat.succ_pos _
        · intro hstaged
          rw [hsim.inRound]
          exact h.staged (hsim.staged hstaged)
        · intro v' below _ hs
          exact absurd hs (hmove.head (by simp) below)
        · intro id t ht
          rw [hsim.kernel] at ht
          exact h.tasks id t ht

theorem round_tidy (hl : Layered m.round) (hdesign : s₀.SameDesign m.sim)
    (hb : m.sim.combDepth ≤ m.sim.maxCombDepth)
    (hr : m.sim.inRound = true) (ht : m.sim.SoundTasks) : Tidy s₀ m.round := by
  cases hover : m.sim.pending.isEmpty && !m.sim.hasStaged with
  | true =>
      rw [round_over hover] at hl ⊢
      refine ⟨hl, hdesign, hb, .inr (.inr hr), fun _ => hr, ?_, ht⟩
      intro _ _ _ _
      have hempty : m.sim.pending = [] ∧ m.sim.hasStaged = false := by simpa using hover
      exact hempty
  | false =>
      rw [round_begin hover] at hl ⊢
      have hmove := WorkMove.runSyncs { m with
        sim := { m.sim with pending := [] }
        stack := .commit :: .round :: m.stack } m.sim.pending
      have hsim := hmove.sim
      refine ⟨hl, hdesign.after hsim.toSameDesign rfl rfl rfl rfl, ?_, .inr (.inr ?_),
        fun _ => ?_, ?_, ?_⟩
      · rw [hsim.combDepth, hsim.maxCombDepth]
        exact hb
      · rw [hsim.inRound]
        exact hr
      · rw [hsim.inRound]
        exact hr
      · intro v' below _ hs
        exact absurd hs (hmove.head (by simp) below)
      · intro id t htask
        rw [hsim.kernel] at htask
        exact ht id t htask

theorem endDrive_tidy (h : Tidy s₀ m) {rest : List Frame} (hs : m.stack = .driven :: rest)
    {c : Completion} (hl : Layered ({ m with stack := rest }.endDrive c)) :
    Tidy s₀ ({ m with stack := rest }.endDrive c) := by
  let m₁ : Machine := { m with stack := rest }
  have hhead : ∀ below, rest ≠ .settled :: below := by
    have hstack := h.stack
    rw [hs] at hstack
    exact head_of_onBody hstack.1
  have ended : ∀ c' : Completion, Layered (m₁.undriven.complete c') →
      (m.sim.pending = [] ∨ 0 < m₁.undriven.sim.driveDepth ∨ m.sim.inRound = true) →
      Tidy s₀ (m₁.undriven.complete c') := by
    intro c' hl' hp
    exact ⟨hl', h.design.trans ⟨rfl, rfl, rfl, rfl⟩, h.bound, hp, h.staged,
      fun v below _ hs' => absurd hs' (hhead below), h.tasks⟩
  by_cases hin : 0 < m₁.undriven.sim.driveDepth
  · rw [endDrive_inner c hin] at hl ⊢
    exact ended c hl (.inr (.inl hin))
  · have settle : Layered m₁.undriven.settle → Tidy s₀ m₁.undriven.settle := by
      intro hl'
      cases hr : m.sim.inRound with
      | true =>
          rw [settle_inRound (m := m₁.undriven) hr] at hl' ⊢
          exact ended _ hl' (.inr (.inr hr))
      | false =>
          rw [settle_outside (m := m₁.undriven) hr] at hl' ⊢
          exact round_tidy hl' (h.design.trans ⟨rfl, rfl, rfl, rfl⟩) h.bound rfl h.tasks
    cases c with
    | failed e =>
        cases hr : m.sim.inRound with
        | true =>
            rw [endDrive_failed_inRound (m := m₁) e hin hr] at hl ⊢
            exact ended _ hl (.inr (.inr hr))
        | false =>
            rw [endDrive_failed_outside (m := m₁) e hin hr] at hl ⊢
            refine ⟨hl, h.design.trans ⟨rfl, rfl, rfl, Simulation.size_discardPending _⟩, h.bound,
              .inl rfl, ?_, ?_, h.tasks⟩
            · intro hstaged
              have hnone := m₁.undriven.sim.hasStaged_discardPending
              exact absurd (hstaged.symm.trans hnone) (by simp)
            · intro v below hv
              cases hv
    | _ =>
        rw [endDrive_settle hin (by simp)] at hl ⊢
        exact settle hl

theorem runComb_cases (m : Machine) (p : ProcessRef) :
    (∃ c : Completion, c.isPlain = true ∧ m.runComb p = m.complete c) ∨
      ∃ f, (m.sim.tree.inst p.owner).combs[p.index]? = some f ∧
        m.sim.combDepth + 1 ≤ m.sim.maxCombDepth ∧
        m.runComb p =
          { m with
            sim := { m.sim with combDepth := m.sim.combDepth + 1 }
            stack := .combOver p (m.sim.combDepth + 1) :: m.stack }.runBody p.owner f := by
  cases hf : (m.sim.tree.inst p.owner).combs[p.index]? with
  | none => exact .inl ⟨.value .none, rfl, by simp only [runComb, hf]; rfl⟩
  | some f =>
      by_cases hdeep : m.sim.maxCombDepth < m.sim.combDepth + 1
      · exact .inl ⟨.failed _, rfl, by simp only [runComb, hf, hdeep, ↓reduceIte]; rfl⟩
      · refine .inr ⟨f, rfl, Nat.le_of_not_lt hdeep, ?_⟩
        simp only [runComb, hf, hdeep, ↓reduceIte]

theorem runCombs_tidy (h : Tidy s₀ m) {g : Frame} {rest : List Frame} (hg : g.isSettled = false)
    (hunder : 0 < m.sim.driveDepth ∨ m.sim.inRound = true) (l : List ProcessRef)
    (hl : Layered ({ m with stack := g :: rest }.runCombs l)) :
    Tidy s₀ ({ m with stack := g :: rest }.runCombs l) := by
  have head : ∀ below, g :: rest ≠ .settled :: below := by
    intro below heq
    cases heq
    cases hg
  cases l with
  | nil => exact h.work { m with stack := g :: rest } (.refl _) (.here _ _ (.refl _)) hl hunder head
  | cons p l =>
      let m₁ : Machine := { m with stack := .combs l :: g :: rest }
      change Layered (m₁.runComb p) at hl
      change Tidy s₀ (m₁.runComb p)
      rcases m₁.runComb_cases p with ⟨c, -, heq⟩ | ⟨f, -, hdeep, heq⟩
      · rw [heq] at hl ⊢
        exact h.work m₁ (.refl _) (.here _ _ (.refl _)) hl hunder (by simp [m₁])
      · rw [heq, runBody] at hl ⊢
        have hsim := block_sim { m₁ with
          sim := { m.sim with combDepth := m.sim.combDepth + 1 }
          stack := .boundary f.name m.activation :: .combOver p (m.sim.combDepth + 1) :: m₁.stack
          activation := .begin p.owner f.name .immediate } f.body
        refine ⟨hl, ?_, ?_, .inr ?_, ?_, ?_, ?_⟩
        · rw [hsim]
          exact h.design.trans ⟨rfl, rfl, rfl, rfl⟩
        · rw [hsim]
          exact hdeep
        · rw [hsim]
          exact hunder
        · rw [hsim]
          exact h.staged
        · intro v below _ hstack
          exact absurd hstack (head_of_onBody (onBody_block rfl f.body) below)
        · rw [hsim]
          exact h.tasks

/-- A frame that works something off takes a value or a fault. -/
theorem Tidy.accept_work (h : Tidy s₀ m) {f : Frame} {rest : List Frame} {c : Completion}
    (hs : m.stack = f :: rest) (hc : m.control = .done c) (hf : f.isWork = true)
    (hplain : c.isPlain = true) (hl : Layered ({ m with stack := rest }.accept f c)) :
    Tidy s₀ ({ m with stack := rest }.accept f c) := by
  have hunder := h.toLayered.under hs hf
  have hlies : f.LiesOn rest := by
    have hstack := h.stack
    rw [hs] at hstack
    exact hstack.1
  have fault : ∀ {m' : Machine}, Layered m' → m'.sim = m.sim → ∀ e,
      m'.control = .done (.failed e) → Tidy s₀ m' := fun hl' hsim e he => h.fault hl' hsim he
  cases f with
  | propagate targets v =>
      obtain ⟨l, below, rfl⟩ := hlies
      cases c with
      | value w =>
          cases targets with
          | nil =>
              exact h.work { m with stack := .combs l :: below } (.refl _) (.here _ _ (.refl _)) hl
                hunder (by simp)
          | cons g targets =>
              exact h.work { m with stack := .propagate targets v :: .combs l :: below } (.refl _)
                (.drive _ g v) hl hunder (by simp)
      | failed e => exact fault hl rfl e rfl
      | _ => cases hplain
  | combs l =>
      obtain ⟨g, below, rfl, hg⟩ := hlies
      cases c with
      | value w =>
          refine runCombs_tidy h ?_ hunder l hl
          cases g <;> first | rfl | cases hg
      | failed e => exact fault hl rfl e rfl
      | _ => cases hplain
  | combOver p depth =>
      obtain ⟨hdepth, l, below, rfl⟩ := hlies
      have ended : ∀ c' : Completion, Layered
          ⟨.done c', m.activation, .combs l :: below, { m.sim with combDepth := depth - 1 }⟩ →
          Tidy s₀ ⟨.done c', m.activation, .combs l :: below,
            { m.sim with combDepth := depth - 1 }⟩ := by
        intro c' hl'
        refine ⟨hl', h.design.trans ⟨rfl, rfl, rfl, rfl⟩, ?_, .inr hunder, h.staged, ?_, h.tasks⟩
        · have hcount := h.counted.combDepth
          rw [hs, List.countP_cons_of_pos rfl] at hcount
          have hbound := h.bound
          simp only
          omega
        · intro v b _ heq
          cases heq
      cases c <;> exact ended _ hl
  | driven =>
      have hend : ({ m with stack := rest } : Machine).accept .driven c =
          ({ m with stack := rest } : Machine).endDrive c := by
        cases c <;> rfl
      rw [hend] at hl ⊢
      exact endDrive_tidy h hs hl
  | settled =>
      have hhead : ∀ below, rest ≠ .settled :: below := by
        rintro below rfl
        cases hlies .settled (by simp)
      cases c with
      | value w =>
          obtain ⟨hpending, hstaged⟩ := h.settled w rest hc hs
          refine ⟨hl, h.design.trans ⟨rfl, rfl, rfl, rfl⟩, h.bound, .inl hpending, ?_,
            fun v b _ heq => absurd heq (hhead b), h.tasks⟩
          intro hst
          exact absurd (hst.symm.trans hstaged) (by simp)
      | failed e =>
          refine ⟨hl, h.design.trans ⟨rfl, rfl, rfl, Simulation.size_discardPending _⟩, h.bound,
            .inl rfl, ?_, ?_, h.tasks⟩
          · intro hst
            have hnone := ({ m.sim with inRound := false } : Simulation).hasStaged_discardPending
            exact absurd (hst.symm.trans hnone) (by simp)
          · intro v b hv
            cases hv
      | _ => cases hplain
  | round =>
      cases c with
      | value w =>
          have hround : m.sim.inRound = true := by
            obtain ⟨below, rfl⟩ := hlies
            rw [h.counted.inRound, hs]
            rfl
          exact round_tidy hl h.design h.bound hround h.tasks
      | failed e => exact fault hl rfl e rfl
      | _ => cases hplain
  | syncs l =>
      obtain ⟨below, rfl⟩ := hlies
      cases c with
      | value w =>
          exact h.work { m with stack := .commit :: below } (.refl _) (.runSyncs _ l) hl hunder
            (by simp)
      | failed e => exact fault hl rfl e rfl
      | _ => cases hplain
  | commit =>
      obtain ⟨below, rfl⟩ := hlies
      cases c with
      | value w =>
          have hsim : m.sim.SameWork m.sim.applyStaged.1 := by
            have hnone := m.sim.hasStaged_applyStaged
            have hsize := m.sim.size_applyStaged
            obtain ⟨signals, heq⟩ := m.sim.applyStaged_eq
            rw [heq] at hnone hsize ⊢
            refine ⟨⟨rfl, rfl, rfl, hsize⟩, rfl, rfl, rfl, rfl, fun hst => ?_⟩
            exact absurd (hst.symm.trans hnone) (by simp)
          exact h.work { m with stack := .round :: below, sim := m.sim.applyStaged.1 } hsim
            (.workOff _ m.sim.applyStaged.2) hl hunder (by simp)
      | failed e => exact fault hl rfl e rfl
      | _ => cases hplain
  | changes l =>
      obtain ⟨below, rfl⟩ := hlies
      cases c with
      | value w =>
          exact h.work { m with stack := .round :: below } (.refl _) (.workOff _ l) hl hunder
            (by simp)
      | failed e => exact fault hl rfl e rfl
      | _ => cases hplain
  | _ => cases hf

theorem Tidy.move {m' : Machine} (h : Tidy s₀ m) (hl : Layered m') (hm : LayerMove m m') :
    Tidy s₀ m' := by
  cases hm with
  | still hw hs hhead => exact h.still hl hs hhead
  | write rest f v hp hb hrest hmode hw => exact write_tidy h hp hb f v
  | engine f rest c hf hc hplain hs => exact h.accept_work hs hc hf hplain hl

theorem Tidy.step {waker : Waker} {m' : Machine} (h : Tidy s₀ m)
    (hstep : m.step waker = .go m') : Tidy s₀ m' := by
  obtain ⟨hl, hmove⟩ := h.toLayered.step hstep
  exact h.move hl hmove

end Steps

end Machine

end Clockwork
