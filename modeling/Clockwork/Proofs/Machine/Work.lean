import Clockwork.Proofs.Machine.Fault
import Clockwork.Proofs.Machine.Underway
import Clockwork.Proofs.Values

namespace Clockwork

namespace Simulation

theorem Still.agrees {s s' : Simulation} (h : s.Still s') : s.Agrees s' := by
  obtain ⟨-, k, o, p, c, l, rfl⟩ := h
  exact ⟨rfl, rfl, rfl, rfl, rfl, rfl⟩

theorem changed_eq (s : Simulation) (f : FieldRef) (old new : Value) :
    ∃ p c l, s.changed f old new = { s with pending := p, changes := c, log := l } :=
  s.announce_eq f _ old new

theorem pending_changed (s : Simulation) (f : FieldRef) (old new : Value) :
    (s.changed f old new).pending = (s.noteEdge f old new).pending := by
  obtain ⟨c, l, h⟩ := s.trace_eq f (s.fieldName f) old new
  rw [changed, h]
  simp only [noteEdge]
  split <;> rfl

end Simulation

def Frame.isSpent : Frame → Bool
  | .propagate [] _ | .combs [] | .combOver _ _ | .driven | .settled | .round | .syncs []
  | .changes [] => true
  | _ => false

inductive Beat where
  | other
  | round
  | sync (p : ProcessRef)
  deriving DecidableEq, Repr

namespace Machine

def hasRound (m : Machine) : Bool := !(m.sim.pending.isEmpty && !m.sim.hasStaged)

/-- What the next step is to the rounds. One begins after another one, or at the end of the
outermost write outside of all rounds. -/
def beat (m : Machine) : Beat :=
  match m.control, m.stack with
  | .done (.value _), .syncs (p :: _) :: _ => .sync p
  | .done (.value _), .round :: _ => if m.hasRound then .round else .other
  | .done (.value _), .driven :: _ =>
    if m.sim.driveDepth ≤ 1 ∧ m.sim.inRound = false ∧ m.hasRound then .round else .other
  | _, _ => .other

def syncsAfter : List ProcessRef → List Frame
  | [] => []
  | _ :: l => [.syncs l]

/-- A field gets a value above some frames: it is written by a body or, if it is one of `outer`,
from outside, or it follows another field. -/
inductive Drives (outer : FieldRef → Prop) (m : Machine) (f : FieldRef) (v : Value) :
    List Frame → Prop
  | write {slot : FieldSlot} (hslot : m.sim.tree.SignalAt f slot)
      (hw : m.write? = some (f, v) ∨ outer f ∧ m.work = []) :
      Drives outer m f v (.driven :: m.work)
  | pass {fs : List FieldRef} {rest : List Frame} (hm : m.work = .propagate (f :: fs) v :: rest) :
      Drives outer m f v (.propagate fs v :: rest)

/-- What a step does to the frames that work off changes or run rounds, and to the signals. -/
inductive WorkStep (outer : FieldRef → Prop) (m : Machine) : Beat → Machine → Prop
  | still {m' : Machine} (hwork : m'.work = m.work) (hs : m.sim.Agrees m'.sim) :
      WorkStep outer m .other m'
  | stage {m' : Machine} {f : FieldRef} {slot : FieldSlot} {v : Value}
      (hslot : m.sim.tree.SignalAt f slot) (hw : m.write? = some (f, v))
      (hmode : m.activation.mode = .staged) (hwork : m'.work = m.work)
      (hs : (m.sim.stage f slot v).Agrees m'.sim) : WorkStep outer m .other m'
  | same {m' : Machine} {f : FieldRef} {slot : FieldSlot} {v : Value} {base : List Frame}
      (hd : Drives outer m f v base) (hslot : m.sim.tree.slot f.owner f.index = .ok slot)
      (hv : (m.sim.current f slot).same (v.fit slot.width slot.signed) = true)
      (hwork : m'.work = base) (hs : m.sim.Agrees m'.sim) : WorkStep outer m .other m'
  | changed {m' : Machine} {f : FieldRef} {slot : FieldSlot} {v : Value} {base : List Frame}
      (hd : Drives outer m f v base) (hslot : m.sim.tree.slot f.owner f.index = .ok slot)
      (hv : (m.sim.current f slot).same (v.fit slot.width slot.signed) = false)
      (hwork : m'.work = .propagate (m.sim.tree.targets f) (v.fit slot.width slot.signed) ::
        .combs (m.sim.watchers f) :: base)
      (hs : ((m.sim.withValue f slot (v.fit slot.width slot.signed)).changed f
        (m.sim.current f slot) (v.fit slot.width slot.signed)).Agrees m'.sim) :
      WorkStep outer m .other m'
  | spent {m' : Machine} {g : Frame} {rest : List Frame} (hm : m.work = g :: rest)
      (hg : g.isSpent = true) (hwork : m'.work = rest) (hs : m.sim.Agrees m'.sim) :
      WorkStep outer m .other m'
  | comb {m' : Machine} {p : ProcessRef} {l : List ProcessRef} {rest : List Frame}
      (hm : m.work = .combs (p :: l) :: rest)
      (hwork : m'.work = .combs l :: rest ∨ ∃ d, m'.work = .combOver p d :: .combs l :: rest)
      (hs : m.sim.Agrees m'.sim) : WorkStep outer m .other m'
  | all {m' : Machine} (hm : m.work = [])
      (hwork : m'.work = [.driven] ∨
        ∃ l, m'.work = [.combs l, .driven] ∨ ∃ p d, m'.work = [.combOver p d, .combs l, .driven])
      (hs : m.sim.Agrees m'.sim) : WorkStep outer m .other m'
  | settle {m' : Machine} (hm : m.work = [.driven]) (hwork : m'.work = [.settled])
      (hs : m.sim.Agrees m'.sim) : WorkStep outer m .other m'
  | round {m' : Machine} (hm : m.work = [.round, .settled] ∨ m.work = [.driven])
      (hwork : m'.work = syncsAfter m.sim.pending ++ [.commit, .round, .settled])
      (hs : ({ m.sim with pending := [] } : Simulation).Agrees m'.sim) :
      WorkStep outer m .round m'
  | sync {m' : Machine} {p : ProcessRef} {l : List ProcessRef}
      (hm : m.work = [.syncs (p :: l), .commit, .round, .settled])
      (hwork : m'.work = [.syncs l, .commit, .round, .settled])
      (hs : m.sim.Agrees m'.sim) : WorkStep outer m (.sync p) m'
  | unchanged {m' : Machine} (hm : m.work = [.commit, .round, .settled])
      (hl : m.sim.applyStaged.2 = []) (hwork : m'.work = [.round, .settled])
      (hs : m.sim.applyStaged.1.Agrees m'.sim) : WorkStep outer m .other m'
  | commit {m' : Machine} {f : FieldRef} {old new : Value}
      {l : List (FieldRef × Value × Value)} (hm : m.work = [.commit, .round, .settled])
      (hl : m.sim.applyStaged.2 = (f, old, new) :: l)
      (hwork : m'.work = [.propagate (m.sim.tree.targets f) new, .combs (m.sim.watchers f),
        .changes l, .round, .settled])
      (hs : (m.sim.applyStaged.1.changed f old new).Agrees m'.sim) : WorkStep outer m .other m'
  | change {m' : Machine} {f : FieldRef} {old new : Value}
      {l : List (FieldRef × Value × Value)}
      (hm : m.work = [.changes ((f, old, new) :: l), .round, .settled])
      (hwork : m'.work = [.propagate (m.sim.tree.targets f) new, .combs (m.sim.watchers f),
        .changes l, .round, .settled])
      (hs : (m.sim.changed f old new).Agrees m'.sim) : WorkStep outer m .other m'

theorem announce_work (m : Machine) (f : FieldRef) (name : String) (old new : Value)
    (after : List Frame) :
    (m.announce f name old new after).work =
      .propagate (m.sim.tree.targets f) new :: (after.filter Frame.isWork ++ m.work) := by
  obtain ⟨p, c, l, h⟩ := m.sim.announce_eq f name old new
  simp only [announce, pushAll, work, finish, give, complete, setSim, h, List.cons_append]
  rw [List.filter_cons_of_pos rfl, List.filter_append]

theorem announce_agrees {m : Machine} {f : FieldRef} {name : String}
    (hname : name = m.sim.fieldName f) (old new : Value) (after : List Frame) :
    (m.sim.changed f old new).Agrees (m.announce f name old new after).sim := by
  subst hname
  exact .refl _

theorem runSync_still (m : Machine) (p : ProcessRef) :
    (m.runSync p).work = m.work ∧ m.sim.Agrees (m.runSync p).sim := by
  have resume : ∀ t f next locals,
      ((m.setSim { m.sim with paused := t }).resumeSync p f next locals).work = m.work ∧
        m.sim.Agrees ((m.setSim { m.sim with paused := t }).resumeSync p f next locals).sim := by
    intro t f next locals
    obtain ⟨hw, hs, -⟩ := syncBody_still
      { m with
        sim := { m.sim with paused := t }
        stack := .boundary f.name m.activation :: m.stack
        activation := { Activation.begin p.owner f.name .staged with locals := locals } } rfl p next
      (f.body.drop next)
    exact ⟨hw, (m.sim.still_setPaused t).agrees.trans hs.agrees⟩
  simp only [runSync]
  split
  · exact ⟨rfl, .refl _⟩
  · rename_i f _
    cases isReset m.sim p with
    | error e => exact ⟨rfl, .refl _⟩
    | ok reset =>
        simp only [withResult]
        split
        · exact resume _ f 0 .empty
        · rename_i pause _
          split
          · exact ⟨rfl, (m.sim.still_setPaused _).agrees⟩
          · exact resume _ f pause.next pause.locals

theorem runSyncs_still (m : Machine) (batch : List ProcessRef) :
    (m.runSyncs batch).work = syncsAfter batch ++ m.work ∧ m.sim.Agrees (m.runSyncs batch).sim := by
  cases batch with
  | nil => exact ⟨rfl, .refl _⟩
  | cons p l => exact runSync_still { m with stack := .syncs l :: m.stack } p

section Steps

variable {outer : FieldRef → Prop} {m : Machine}

/-- A field that is driven takes the value and is followed by others, or has the value already. -/
theorem drive_workStep {f : FieldRef} {v : Value} {base : List Frame} (m₁ : Machine)
    (hd : Drives outer m f v base) (hsim : m.sim.Agrees m₁.sim) (hbase : m₁.work = base)
    (hok : ∀ e, (m₁.drive f v).control ≠ .done (.failed e)) :
    WorkStep outer m .other (m₁.drive f v) := by
  have htree := hsim.tree
  have hread :
      ∀ slot : FieldSlot, (m₁.sim.signalsOf f.owner).read slot.key = m.sim.current f slot := by
    intro slot
    rw [Simulation.current, Simulation.signalsOf, hsim.signals, Simulation.signalsOf]
  cases hslot : m₁.sim.tree.slot f.owner f.index with
  | error e =>
      rw [drive_error hslot] at hok
      exact absurd rfl (hok e)
  | ok slot =>
      cases hv : ((m₁.sim.signalsOf f.owner).read slot.key).same
          (v.fit slot.width slot.signed) with
      | true =>
          rw [drive_same hslot hv]
          rw [htree] at hslot
          rw [hread] at hv
          exact .same hd hslot hv hbase hsim
      | false =>
          rw [drive_changed hslot hv]
          rw [htree] at hslot
          have hset : (m.sim.withValue f slot (v.fit slot.width slot.signed)).Agrees
              (m₁.sim.withValue f slot (v.fit slot.width slot.signed)) := by
            refine ⟨htree, hsim.wiring, ?_, hsim.pending, hsim.tracing, hsim.recorded⟩
            simp only [Simulation.withValue, hsim.signals]
          rw [hread] at hv ⊢
          refine .changed hd hslot hv ?_ ?_
          · rw [announce_work]
            have hwatchers : m₁.sim.watchers f = m.sim.watchers f := by
              rw [Simulation.watchers, hsim.wiring, Simulation.watchers]
            change .propagate (m₁.sim.tree.targets f) _ ::
              .combs (m₁.sim.watchers f) :: m₁.work = _
            rw [htree, hwatchers, hbase]
          · refine (hset.changed f _ _).trans (announce_agrees
              (m := m₁.setSim (m₁.sim.withValue f slot (v.fit slot.width slot.signed))) ?_ _ _ _)
            exact (m₁.sim.fieldName_of_slot (htree ▸ hslot)).symm

theorem workOff_work (m : Machine) (f : FieldRef) (old new : Value)
    (l : List (FieldRef × Value × Value)) :
    (m.workOff ((f, old, new) :: l)).work =
        .propagate (m.sim.tree.targets f) new :: .combs (m.sim.watchers f) :: .changes l :: m.work ∧
      (m.sim.changed f old new).Agrees (m.workOff ((f, old, new) :: l)).sim := by
  refine ⟨?_, announce_agrees rfl old new _⟩
  simp only [workOff]
  rw [announce_work]
  rfl

theorem round_workStep (m₁ : Machine) (hbase : m₁.work = [.settled])
    (hm : m.work = [.round, .settled] ∨ m.work = [.driven]) (hsim : m.sim.Agrees m₁.sim)
    (h : m₁.hasRound = true) :
    WorkStep outer m .round m₁.round := by
  have hbegin : (m₁.sim.pending.isEmpty && !m₁.sim.hasStaged) = false := by
    simpa only [hasRound, Bool.not_eq_true'] using h
  rw [round_begin hbegin]
  obtain ⟨hw, hs⟩ := runSyncs_still { m₁ with
    sim := { m₁.sim with pending := [] }
    stack := .commit :: .round :: m₁.stack } m₁.sim.pending
  have hpending :
      ({ m.sim with pending := [] } : Simulation).Agrees { m₁.sim with pending := [] } :=
    ⟨hsim.tree, hsim.wiring, hsim.signals, rfl, hsim.tracing, hsim.recorded⟩
  refine .round hm ?_ (hpending.trans hs)
  have hwork : ({ m₁ with
      sim := { m₁.sim with pending := [] }
      stack := .commit :: .round :: m₁.stack } : Machine).work = .commit :: .round :: m₁.work := rfl
  rw [hw, hsim.pending, hwork, hbase]

theorem runComb_work (m : Machine) (p : ProcessRef) :
    ((m.runComb p).work = m.work ∨ ∃ d, (m.runComb p).work = .combOver p d :: m.work) ∧
      m.sim.Agrees (m.runComb p).sim := by
  rcases m.runComb_cases p with ⟨c, -, heq⟩ | ⟨f, -, -, heq⟩
  · rw [heq]
    exact ⟨.inl rfl, .refl _⟩
  · rw [heq, runBody]
    refine ⟨.inr ⟨m.sim.combDepth + 1, ?_⟩, ?_⟩
    · rw [block_work]
      rfl
    · rw [block_sim]
      exact ⟨rfl, rfl, rfl, rfl, rfl, rfl⟩

theorem beat_of_onBody (hb : onBody m.stack = true) : m.beat = .other := by
  unfold beat
  split
  · rename_i hs
    rw [hs] at hb
    cases hb
  · rename_i hs
    rw [hs] at hb
    cases hb
  · rename_i hs
    rw [hs] at hb
    cases hb
  · rfl

theorem work_cons {f : Frame} {rest : List Frame} (hs : m.stack = f :: rest)
    (hf : f.isWork = true) : m.work = f :: rest.filter Frame.isWork := by
  rw [work, hs, List.filter_cons_of_pos hf]

theorem LayeredStack.work_settled {rest : List Frame} (h : LayeredStack (.settled :: rest)) :
    rest.filter Frame.isWork = [] := by
  rw [List.filter_eq_nil_iff]
  intro f hf
  simp [h.1 f hf]

theorem LayeredStack.work_round {rest : List Frame} (h : LayeredStack (.round :: rest)) :
    rest.filter Frame.isWork = [.settled] := by
  obtain ⟨⟨below, rfl⟩, hrest⟩ := h
  rw [List.filter_cons_of_pos rfl, hrest.work_settled]

theorem LayeredStack.work_commit {f : Frame} {rest : List Frame} (h : LayeredStack (f :: rest))
    (hf : f = .commit ∨ ∃ l, f = .changes l) :
    rest.filter Frame.isWork = [.round, .settled] := by
  obtain ⟨hlies, hrest⟩ := h
  obtain ⟨below, rfl⟩ : ∃ below, rest = .round :: below := by
    rcases hf with rfl | ⟨l, rfl⟩ <;> exact hlies
  rw [List.filter_cons_of_pos rfl, hrest.work_round]

theorem LayeredStack.work_syncs {l : List ProcessRef} {rest : List Frame}
    (h : LayeredStack (.syncs l :: rest)) :
    rest.filter Frame.isWork = [.commit, .round, .settled] := by
  obtain ⟨⟨below, rfl⟩, hrest⟩ := h
  rw [List.filter_cons_of_pos rfl, hrest.work_commit (.inl rfl)]

/-- What the end of a write is to the rounds, and what it does. -/
theorem endDrive_workStep {rest : List Frame} {v : Value} (h : Layered m)
    (hs : m.stack = .driven :: rest) (hc : m.control = .done (.value v)) :
    WorkStep outer m m.beat ({ m with stack := rest }.endDrive (.value v)) := by
  let m₁ : Machine := { m with stack := rest }
  have hwork := work_cons hs rfl
  by_cases hin : 0 < m₁.undriven.sim.driveDepth
  · have hbeat : m.beat = .other := by
      have hdepth : ¬ m.sim.driveDepth ≤ 1 := by
        change 0 < m.sim.driveDepth - 1 at hin
        omega
      simp [beat, hc, hs, hdepth]
    rw [hbeat, endDrive_inner (m := m₁) (.value v) hin]
    exact .spent hwork rfl rfl ⟨rfl, rfl, rfl, rfl, rfl, rfl⟩
  · rw [endDrive_settle (m := m₁) hin (by simp)]
    cases hr : m.sim.inRound with
    | true =>
        have hbeat : m.beat = .other := by simp [beat, hc, hs, hr]
        rw [hbeat, settle_inRound (m := m₁.undriven) hr]
        exact .spent hwork rfl rfl ⟨rfl, rfl, rfl, rfl, rfl, rfl⟩
    | false =>
        have hdepth : m.sim.driveDepth ≤ 1 := by
          change ¬ 0 < m.sim.driveDepth - 1 at hin
          omega
        have hnone : rest.filter Frame.isWork = [] := by
          obtain ⟨hdriven, -, hround⟩ := h.counted
          have hstack := h.stack
          rw [hs] at hdriven hround hstack
          rw [List.countP_cons_of_pos rfl] at hdriven
          have hwork := hstack.2.no_work (by omega) (by simpa [hr, Frame.isSettled] using hround)
          rw [List.filter_eq_nil_iff]
          intro g hg
          simp [hwork g hg]
        rw [hnone] at hwork
        rw [settle_outside (m := m₁.undriven) hr]
        let m₂ : Machine := { m₁.undriven with
          sim := { m₁.undriven.sim with inRound := true }
          stack := .settled :: rest }
        have hbase : m₂.work = [.settled] := by
          rw [work_cons (m := m₂) rfl rfl, hnone]
        have hbeat : m.beat = if m.hasRound then .round else .other := by
          simp [beat, hc, hs, hdepth, hr]
        rw [hbeat]
        cases hround : m.hasRound with
        | true => exact round_workStep m₂ hbase (.inr hwork) ⟨rfl, rfl, rfl, rfl, rfl, rfl⟩ hround
        | false =>
            have hover : (m.sim.pending.isEmpty && !m.sim.hasStaged) = true := by
              simpa only [hasRound, Bool.not_eq_false'] using hround
            change WorkStep outer m .other m₂.round
            rw [round_over (m := m₂) hover]
            exact .settle hwork hbase ⟨rfl, rfl, rfl, rfl, rfl, rfl⟩

/-- A frame that works off changes or runs rounds takes a value. -/
theorem resume_workStep {f : Frame} {rest : List Frame} {v : Value} (h : Layered m)
    (hs : m.stack = f :: rest) (hc : m.control = .done (.value v)) (hf : f.isWork = true)
    (hok : ∀ e, ({ m with stack := rest }.resume f v).control ≠ .done (.failed e)) :
    WorkStep outer m m.beat ({ m with stack := rest }.resume f v) := by
  have hwork := work_cons hs hf
  have hstack := h.stack
  rw [hs] at hstack
  have spent : f.isSpent = true → m.beat = .other → ∀ m' : Machine,
      m'.work = rest.filter Frame.isWork → m.sim.Agrees m'.sim → WorkStep outer m m.beat m' := by
    intro hspent hbeat m' hm' hsim
    rw [hbeat]
    exact .spent hwork hspent hm' hsim
  cases f with
  | propagate fs w =>
      have hbeat : m.beat = .other := by simp [beat, hs]
      cases fs with
      | nil => exact spent rfl hbeat _ rfl (.refl _)
      | cons g fs =>
          rw [hbeat]
          exact drive_workStep { m with stack := .propagate fs w :: rest }
            (.pass hwork) (.refl _) rfl
            hok
  | combs l =>
      have hbeat : m.beat = .other := by simp [beat, hs]
      cases l with
      | nil => exact spent rfl hbeat _ rfl (.refl _)
      | cons p l =>
          let m₁ : Machine := { m with stack := .combs l :: rest }
          change ∀ e, (m₁.runComb p).control ≠ .done (.failed e) at hok
          change WorkStep outer m m.beat (m₁.runComb p)
          rw [hbeat]
          obtain ⟨hw, hsim⟩ := m₁.runComb_work p
          exact .comb hwork hw hsim
  | combOver p d =>
      have hbeat : m.beat = .other := by simp [beat, hs]
      exact spent rfl hbeat _ rfl ⟨rfl, rfl, rfl, rfl, rfl, rfl⟩
  | driven => exact endDrive_workStep h hs hc
  | settled =>
      have hbeat : m.beat = .other := by simp [beat, hs]
      exact spent rfl hbeat _ rfl ⟨rfl, rfl, rfl, rfl, rfl, rfl⟩
  | round =>
      have hbeat : m.beat = if m.hasRound then .round else .other := by simp [beat, hc, hs]
      let m₁ : Machine := { m with stack := rest }
      change WorkStep outer m m.beat m₁.round
      cases hround : m.hasRound with
      | true =>
          rw [hbeat, hround, if_pos rfl]
          have hbase := hstack.work_round
          rw [hbase] at hwork
          exact round_workStep m₁ hbase (.inl hwork) (.refl _) hround
      | false =>
          have hover : (m₁.sim.pending.isEmpty && !m₁.sim.hasStaged) = true := by
            simpa only [hasRound, Bool.not_eq_false'] using hround
          rw [round_over hover]
          refine spent rfl ?_ _ rfl (.refl _)
          rw [hbeat, hround]
          rfl
  | syncs l =>
      cases l with
      | nil => exact spent rfl (by simp [beat, hs]) _ rfl (.refl _)
      | cons p l =>
          have hbeat : m.beat = .sync p := by simp [beat, hc, hs]
          rw [hbeat]
          have hbase := hstack.work_syncs
          rw [hbase] at hwork
          obtain ⟨hw, hsim⟩ := runSync_still { m with stack := .syncs l :: rest } p
          refine .sync hwork (hw.trans ?_) hsim
          rw [work, List.filter_cons_of_pos rfl, hbase]
  | commit =>
      have hbeat : m.beat = .other := by simp [beat, hs]
      rw [hbeat]
      let m₁ : Machine := { m with stack := rest, sim := m.sim.applyStaged.1 }
      change WorkStep outer m .other (m₁.workOff m.sim.applyStaged.2)
      obtain ⟨signals, heq⟩ := m.sim.applyStaged_eq
      have hbase : m₁.work = [.round, .settled] := hstack.work_commit (.inl rfl)
      rw [hstack.work_commit (.inl rfl)] at hwork
      have htree : m₁.sim.tree = m.sim.tree := by simp only [m₁, heq]
      have hwatchers : ∀ g, m₁.sim.watchers g = m.sim.watchers g := by
        intro g
        simp only [m₁, heq, Simulation.watchers]
      rcases hl : m.sim.applyStaged.2 with _ | ⟨⟨g, old, new⟩, l⟩
      · exact .unchanged hwork hl hbase (.refl _)
      · obtain ⟨hw, hsim⟩ := workOff_work m₁ g old new l
        refine .commit hwork hl ?_ hsim
        rw [hw, htree, hwatchers, hbase]
  | changes l =>
      have hbeat : m.beat = .other := by simp [beat, hs]
      rcases l with _ | ⟨⟨g, old, new⟩, l⟩
      · exact spent rfl hbeat _ rfl (.refl _)
      · have hbase := hstack.work_commit (.inr ⟨_, rfl⟩)
        rw [hbase] at hwork
        obtain ⟨hw, hsim⟩ := workOff_work { m with stack := rest } g old new l
        have hrest : ({ m with stack := rest } : Machine).work = [.round, .settled] := hbase
        rw [hrest] at hw
        rw [hbeat]
        exact .change hwork hw hsim
  | _ => cases hf

theorem write_workStep {rest : List Frame} {f : FieldRef} {v : Value}
    (hbeat : m.beat = .other) (hrest : rest.filter Frame.isWork = m.work)
    (hmode : m.activation.mode = modeAt rest)
    (hw : m.write? = some (f, v) ∨ outer f ∧ m.work = [] ∧ modeAt rest = .immediate)
    (hok : ∀ e, ({ m with stack := rest }.write f v (modeAt rest)).control ≠ .done (.failed e)) :
    WorkStep outer m m.beat ({ m with stack := rest }.write f v (modeAt rest)) := by
  let m₁ : Machine := { m with stack := rest }
  change ∀ e, (m₁.write f v (modeAt rest)).control ≠ .done (.failed e) at hok
  change WorkStep outer m m.beat (m₁.write f v (modeAt rest))
  rw [hbeat]
  rcases m₁.write_cases f v (modeAt rest) with ⟨e, heq⟩ | ⟨slot, hslot, hsignal, hstaged, hnow⟩
  · rw [heq] at hok
    exact absurd rfl (hok e)
  · cases hm : modeAt rest with
    | staged =>
        rw [hm] at hstaged
        rw [hstaged rfl]
        rcases hw with hw | ⟨-, -, himmediate⟩
        · exact .stage ⟨hslot, hsignal⟩ hw (hmode.trans hm) hrest (.refl _)
        · rw [hm] at himmediate
          cases himmediate
    | immediate =>
        rw [hm] at hnow hok
        rw [hnow rfl] at hok ⊢
        refine drive_workStep { m₁ with
          sim := { m.sim with driveDepth := m.sim.driveDepth + 1 }
          stack := .driven :: rest } (.write ⟨hslot, hsignal⟩ ?_)
          ⟨rfl, rfl, rfl, rfl, rfl, rfl⟩ ?_ hok
        · exact hw.imp_right fun h => ⟨h.1, h.2.1⟩
        · rw [work, List.filter_cons_of_pos rfl, hrest]

/-- Every step that does not fail is one of those. -/
theorem Layered.workStep {waker : Waker} {m' : Machine} (h : Layered m)
    (hstep : m.step waker = .go m') (hok : ∀ e, m'.control ≠ .done (.failed e)) :
    WorkStep outer m m.beat m' := by
  cases hb : onBody m.stack with
  | true =>
      have hbeat := beat_of_onBody hb
      obtain ⟨-, hmove⟩ := h.step hstep
      cases hmove with
      | still hw hs hhead =>
          rw [hbeat]
          exact .still hw hs.agrees
      | write rest f v hp hrest hfilter hmode hw =>
          exact write_workStep hbeat hfilter hmode (.inl hw) hok
      | engine f rest c hf hc hplain hs =>
          rw [hs] at hb
          simp [onBody, hf] at hb
  | false =>
      obtain ⟨c, hc, hplain⟩ := h.control hb
      cases hs : m.stack with
      | nil =>
          rw [hs] at hb
          cases hb
      | cons f rest =>
          have hf : f.isWork = true := by
            rw [hs] at hb
            simpa [onBody] using hb
          rw [step_done hc hs] at hstep
          cases hstep
          cases c with
          | value v => exact resume_workStep h hs hc hf hok
          | failed e =>
              exact absurd (unwind_failsWith { m with stack := rest } f e).control (hok e)
          | _ => cases hplain

end Steps

end Machine

end Clockwork
