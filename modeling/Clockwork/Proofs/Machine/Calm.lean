import Clockwork.Proofs.Machine.Step

namespace Clockwork

def Frame.calm : Frame → Prop
  | .settled | .round | .syncs _ | .syncStep _ _ _ | .syncPause _ _ | .commit | .changes _
  | .clock _ _ _ _ | .clockEdge _ _ _ _ => False
  | _ => True

theorem Frame.inBody.calm {mode : WriteMode} {g : Frame} (h : g.inBody mode) : g.calm := by
  cases g <;> trivial

/-- The simulations have the same tree and wiring, and the same processes are paused in a round
or outside of one. -/
structure Simulation.SamePauses (s s' : Simulation) : Prop where
  tree : s'.tree = s.tree
  wiring : s'.wiring = s.wiring
  paused : s'.paused = s.paused
  inRound : s'.inRound = s.inRound

namespace Simulation

theorem SamePauses.refl (s : Simulation) : s.SamePauses s := ⟨rfl, rfl, rfl, rfl⟩

theorem SamePauses.trans {s s₁ s₂ : Simulation} (h : s.SamePauses s₁) (h₁ : s₁.SamePauses s₂) :
    s.SamePauses s₂ :=
  ⟨h₁.tree.trans h.tree, h₁.wiring.trans h.wiring, h₁.paused.trans h.paused,
    h₁.inRound.trans h.inRound⟩

theorem Mild.samePauses {s s' : Simulation} (h : s.Mild s') : s.SamePauses s' := by
  obtain ⟨-, k, o, c, l, rfl⟩ := h
  exact ⟨rfl, rfl, rfl, rfl⟩

theorem samePauses_trace (s : Simulation) (f : FieldRef) (name : String) (old new : Value) :
    s.SamePauses (s.trace f name old new) := by
  cases h : s.tracing <;> simp only [trace, h] <;> exact ⟨rfl, rfl, rfl, rfl⟩

theorem samePauses_noteEdge (s : Simulation) (f : FieldRef) (old new : Value) :
    s.SamePauses (s.noteEdge f old new) := by
  unfold noteEdge
  split
  · exact ⟨rfl, rfl, rfl, rfl⟩
  · exact .refl s

end Simulation

namespace Machine

structure CalmMove (m m' : Machine) : Prop where
  frames : ∃ fs, m'.stack = fs ++ m.stack ∧ ∀ g ∈ fs, g.calm
  sim : m.sim.SamePauses m'.sim

namespace CalmMove

theorem here {m : Machine} (c : Control) (a : Activation) {s : Simulation}
    (hs : m.sim.SamePauses s) : CalmMove m ⟨c, a, m.stack, s⟩ :=
  ⟨⟨[], rfl, by simp⟩, hs⟩

theorem above {m m' : Machine} {g : Frame} {a : Activation} {s : Simulation}
    (h : CalmMove { m with stack := g :: m.stack, activation := a, sim := s } m')
    (hs : m.sim.SamePauses s) (hg : g.calm) : CalmMove m m' := by
  obtain ⟨⟨fs, hfs, hcalm⟩, hsim⟩ := h
  refine ⟨⟨fs ++ [g], ?_, ?_⟩, hs.trans hsim⟩
  · rw [hfs, List.append_assoc]
    rfl
  · intro g' hg'
    rcases List.mem_append.mp hg' with hg' | hg'
    · exact hcalm g' hg'
    · rw [List.mem_singleton.mp hg']
      exact hg

end CalmMove

variable {m : Machine}

theorem block_calm (body : List Stmt) : CalmMove m (m.block body) := by
  cases body with
  | nil => exact .here _ _ (.refl _)
  | cons s rest => exact ⟨⟨[.block rest], rfl, by simp [Frame.calm]⟩, .refl _⟩

theorem callFunction_calm (owner : Nat) (name : String) (args : List Value)
    (keywords : List (String × Value)) (mode : WriteMode) :
    CalmMove m (m.callFunction owner name args keywords mode) := by
  simp only [callFunction]
  split
  · exact .here _ _ (.refl _)
  · split
    · exact .here _ _ (.refl _)
    · exact .above (block_calm _) (.refl _) trivial

theorem callFunction_sim (owner : Nat) (name : String) (args : List Value)
    (keywords : List (String × Value)) (mode : WriteMode) :
    (m.callFunction owner name args keywords mode).sim = m.sim := by
  simp only [callFunction]
  split
  · rfl
  · split
    · rfl
    · rename_i f _ _ _ _
      cases f.body <;> rfl

theorem callNow_calm (owner : Nat) (name : String) (args : List Value) :
    CalmMove m (m.callNow owner name args) :=
  .above (callFunction_calm owner name args [] .immediate) (.refl _) trivial

theorem announce_calm (f : FieldRef) (name : String) (old new : Value) {after : List Frame}
    (hafter : ∀ g ∈ after, g.calm) : CalmMove m (m.announce f name old new after) := by
  refine ⟨⟨_ :: after, rfl, ?_⟩, ?_⟩
  · rintro g (_ | ⟨_, hg⟩)
    · trivial
    · exact hafter g hg
  · exact (m.sim.samePauses_trace f name old new).trans (Simulation.samePauses_noteEdge _ _ _ _)

theorem drive_calm (f : FieldRef) (v : Value) : CalmMove m (m.drive f v) := by
  cases h : m.sim.tree.slot f.owner f.index with
  | error e =>
      rw [drive_error h]
      exact .here _ _ (.refl _)
  | ok slot =>
      cases hv : ((m.sim.signalsOf f.owner).read slot.key).same
          (v.fit slot.width slot.signed) with
      | true =>
          rw [drive_same h hv]
          exact .here _ _ (.refl _)
      | false =>
          rw [drive_changed h hv]
          have hafter : ∀ g ∈ [Frame.combs (m.sim.watchers f)], g.calm := by simp [Frame.calm]
          obtain ⟨hframes, hsim⟩ := announce_calm
            (m := m.setSim (m.sim.withValue f slot (v.fit slot.width slot.signed))) f slot.name
            ((m.sim.signalsOf f.owner).read slot.key) (v.fit slot.width slot.signed) hafter
          have hset : m.sim.SamePauses (m.sim.withValue f slot (v.fit slot.width slot.signed)) :=
            ⟨rfl, rfl, rfl, rfl⟩
          exact ⟨hframes, hset.trans hsim⟩

theorem write_calm (f : FieldRef) (v : Value) (mode : WriteMode) :
    CalmMove m (m.write f v mode) := by
  simp only [write]
  split
  · exact .here _ _ (.refl _)
  · split
    · exact .here _ _ ⟨rfl, rfl, rfl, rfl⟩
    · exact .above (drive_calm f v) ⟨rfl, rfl, rfl, rfl⟩ trivial
    · exact .here _ _ (.refl _)
    · exact .here _ _ (.refl _)

theorem BodyMove.calm {mode : WriteMode} {w : Option (FieldRef × Value)} {m' : Machine}
    (h : BodyMove mode w m m') : CalmMove m m' := by
  cases h with
  | quiet c a fs s ha hf hs => exact ⟨⟨fs, rfl, fun g hg => (hf g hg).calm⟩, hs.samePauses⟩
  | write f v hw => exact write_calm f v mode
  | callback k hook hk =>
      exact .above (callNow_calm hook.owner hook.method []) (m.sim.mild_setKernel hk).samePauses
        trivial

theorem runComb_calm (p : ProcessRef) : CalmMove m (m.runComb p) := by
  simp only [runComb]
  split
  · exact .here _ _ (.refl _)
  · split
    · exact .here _ _ (.refl _)
    · rename_i f _ _
      exact .above (g := .combOver p (m.sim.combDepth + 1))
        (.above (block_calm f.body) (.refl _) trivial) ⟨rfl, rfl, rfl, rfl⟩ trivial

theorem runCombs_calm (l : List ProcessRef) : CalmMove m (m.runCombs l) := by
  cases l with
  | nil => exact .here _ _ (.refl _)
  | cons p rest => exact .above (runComb_calm p) (.refl _) trivial

theorem endDrive_calm (hr : m.sim.inRound = true) (c : Completion) :
    CalmMove m (m.endDrive c) := by
  have hsim : m.sim.SamePauses m.undriven.sim := ⟨rfl, rfl, rfl, rfl⟩
  by_cases h : 0 < m.undriven.sim.driveDepth
  · rw [endDrive_inner c h]
    exact .here _ _ hsim
  · cases c with
    | failed e =>
        rw [endDrive_failed_inRound e h hr]
        exact .here _ _ hsim
    | _ =>
        rw [endDrive_settle h (by simp), settle_inRound (m := m.undriven) hr]
        exact .here _ _ hsim

/-- Within a round a calm frame makes a calm move, and so do all of them but the end of a write
outside of rounds. -/
theorem resume_calm {f : Frame} (hr : f = .driven → m.sim.inRound = true) (hf : f.calm)
    (v : Value) : CalmMove m (m.resume f v) := by
  cases f with
  | returning caller => exact .here _ _ (.refl _)
  | boundary process caller => exact .here _ _ (.refl _)
  | calling owner name => exact callFunction_calm owner name [] [] .immediate
  | propagate targets value =>
      cases targets with
      | nil => exact .here _ _ (.refl _)
      | cons f rest => exact .above (drive_calm f value) (.refl _) trivial
  | combs rest => exact runCombs_calm rest
  | combOver p depth => exact .here _ _ ⟨rfl, rfl, rfl, rfl⟩
  | driven => exact endDrive_calm (hr rfl) (.value v)
  | settled | round | syncs | syncStep | syncPause | commit | changes | clock | clockEdge =>
      exact hf.elim
  | _ =>
      apply BodyMove.calm
      refine @resume_body _ m rfl _ ?_ v
      trivial

theorem unwind_calm {f : Frame} (hr : f = .driven → m.sim.inRound = true) (hf : f.calm)
    (c : Completion) : CalmMove m (m.unwind f c) := by
  cases f with
  | returning caller => cases c <;> exact .here _ _ (.refl _)
  | boundary process caller => cases c <;> exact .here _ _ (.refl _)
  | combOver p depth => cases c <;> exact .here _ _ ⟨rfl, rfl, rfl, rfl⟩
  | driven => exact endDrive_calm (hr rfl) c
  | calling | propagate | combs => cases c <;> exact .here _ _ (.refl _)
  | settled | round | syncs | syncStep | syncPause | commit | changes | clock | clockEdge =>
      exact hf.elim
  | _ =>
      refine BodyMove.calm (?_ : BodyMove m.activation.mode none m _)
      refine unwind_body rfl ?_ c
      trivial

theorem accept_calm {f : Frame} (hr : f = .driven → m.sim.inRound = true) (hf : f.calm)
    (c : Completion) : CalmMove m (m.accept f c) := by
  cases c with
  | value v => exact resume_calm hr hf v
  | _ => exact unwind_calm hr hf _

theorem innermostBody_suffix {x rest : List Frame} {process : String}
    (h : innermostBody x = some (process, rest)) : ∃ z, x = z ++ rest := by
  induction x with
  | nil => cases h
  | cons f x ih =>
      cases f with
      | boundary name caller =>
          cases h
          exact ⟨[], rfl⟩
      | _ =>
          obtain ⟨z, hz⟩ := ih h
          exact ⟨_ :: z, congrArg (List.cons _) hz⟩

/-- Above the end of a body a step within a round keeps to calm frames. -/
theorem step_calm {waker : Waker} {m' : Machine} {y tail : List Frame} {process : String}
    {caller : Activation} (hs : m.stack = y ++ .boundary process caller :: tail)
    (hy : ∀ g ∈ y, g.calm) (hr : m.sim.inRound = true) (h : m.step waker = .go m') :
    m.sim.SamePauses m'.sim ∧
      ((∃ y', m'.stack = y' ++ .boundary process caller :: tail ∧ ∀ g ∈ y', g.calm) ∨
        (y = [] ∧ ∃ c, m' = ⟨.done c, caller, tail, m.sim⟩)) := by
  have look : ∀ {z m₁}, (∀ g ∈ z, g.calm) →
      CalmMove { m with stack := z ++ .boundary process caller :: tail } m₁ →
      m.sim.SamePauses m₁.sim ∧
        ∃ y', m₁.stack = y' ++ .boundary process caller :: tail ∧ ∀ g ∈ y', g.calm := by
    rintro z m₁ hz ⟨⟨fs, hfs, hcalm⟩, hsim⟩
    refine ⟨hsim, fs ++ z, ?_, ?_⟩
    · rw [hfs, List.append_assoc]
    · intro g hg
      rcases List.mem_append.mp hg with hg | hg
      · exact hcalm g hg
      · exact hz g hg
  have here : ∀ {m₁}, CalmMove m m₁ → m.sim.SamePauses m₁.sim ∧
      ((∃ y', m₁.stack = y' ++ .boundary process caller :: tail ∧ ∀ g ∈ y', g.calm) ∨
        (y = [] ∧ ∃ c, m₁ = ⟨.done c, caller, tail, m.sim⟩)) := by
    intro m₁ hmove
    have hm : { m with stack := y ++ .boundary process caller :: tail } = m := by rw [← hs]
    rw [← hm] at hmove
    obtain ⟨hsim, hstack⟩ := look hy hmove
    exact ⟨hsim, .inl hstack⟩
  cases step_goes h with
  | eval e => exact here (show BodyMove _ none m _ from eval_body rfl e).calm
  | exec s => exact here (show BodyMove _ none m _ from exec_body rfl s).calm
  | store target v => exact here (show BodyMove _ none m _ from store_body rfl target v).calm
  | matching p subject =>
      exact here (show BodyMove _ none m _ from matchPattern_body rfl p subject).calm
  | await w hc h =>
      -- A wait that fails drops frames, down to the end of the innermost body.
      obtain ⟨name, rest, z, hbody, hrest, hz⟩ : ∃ name rest z,
          innermostBody m.stack = some (name, rest) ∧
            rest = z ++ .boundary process caller :: tail ∧ ∀ g ∈ z, g.calm := by
        cases hin : innermostBody y with
        | none =>
            refine ⟨process, .boundary process caller :: tail, [], ?_, rfl, by simp⟩
            rw [hs, innermostBody_append_none hin]
            rfl
        | some r =>
            obtain ⟨name, rest⟩ := r
            obtain ⟨z, hz⟩ := innermostBody_suffix hin
            refine ⟨name, rest ++ .boundary process caller :: tail, rest, ?_, rfl, ?_⟩
            · rw [hs, innermostBody_append, hin]
            · intro g hg
              exact hy g (by rw [hz]; exact List.mem_append_right z hg)
      rcases await_go h with ⟨k, v, htasks, rfl⟩ | ⟨k, process', rest', hin, htasks, rfl⟩
      · exact here (.here _ _ (m.sim.mild_setKernel htasks).samePauses)
      · rw [hbody] at hin
        cases hin
        exact ⟨(m.sim.mild_setKernel htasks).samePauses, .inl ⟨z, hrest, hz⟩⟩
  | done c f below hc hs' =>
      rw [hs] at hs'
      cases y with
      | nil =>
          cases hs'
          cases c <;> exact ⟨.refl _, .inr ⟨rfl, _, rfl⟩⟩
      | cons f y =>
          cases hs'
          have hf := hy f (by simp)
          have hy' : ∀ g ∈ y, g.calm := fun g hg => hy g (by simp [hg])
          obtain ⟨hsim, hstack⟩ := look hy' (accept_calm
            (m := { m with stack := y ++ .boundary process caller :: tail }) (fun _ => hr) hf c)
          exact ⟨hsim, .inl hstack⟩

end Machine

end Clockwork
