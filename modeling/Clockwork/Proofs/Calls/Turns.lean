import Clockwork.Proofs.Calls.Session
import Clockwork.Proofs.Round.Activation
import Clockwork.Proofs.Round.Snapshot
import Mathlib.Data.List.Forall2
/-!
The activations of a clocked process in all states that commands lead through. They follow one
another as the segments of the body and the markers between them say.
-/

namespace Clockwork

open Machine

variable {outer : FieldRef → Prop} {p : ProcessRef} {f : Function} {s s' : Simulation}
  {states : List Machine}

/-- The states before a certain one at which a process is activated. -/
def activatedBefore (p : ProcessRef) (states : List Machine) (i : Nat) : List Nat :=
  (List.range i).filter fun k => states[k]?.bind activated? = some p

theorem activatedBefore_succ_of_ne {i : Nat} {m : Machine} (hm : states[i]? = some m)
    (hp : m.activated? ≠ some p) :
    activatedBefore p states (i + 1) = activatedBefore p states i := by
  rw [activatedBefore, List.range_succ, List.filter_append, activatedBefore]
  simp [hm, hp]

theorem activatedBefore_succ {i : Nat} {m : Machine} (hm : states[i]? = some m)
    (hp : m.activated? = some p) :
    activatedBefore p states (i + 1) = activatedBefore p states i ++ [i] := by
  rw [activatedBefore, List.range_succ, List.filter_append, activatedBefore]
  simp [hm, hp]

/-- An activation at one state is over at another one. -/
structure OverAt (states : List Machine) (k j : Nat) : Prop where
  later : k < j
  ends : ∃ m, states[j]? = some m ∧ m.betweenProcesses
  first : ∀ i m, k < i → i < j → states[i]? = some m → ¬ m.betweenProcesses

/-- What a clocked process with the function `f` does at a state where it is activated. -/
inductive TurnAt (p : ProcessRef) (f : Function) (states : List Machine) (k : Nat) :
    ProcessTurn → Prop
  | idle {m m' : Machine} {reset : Bool} (hm : states[k]? = some m)
      (hm' : states[k + 1]? = some m') (hreset : isReset m.sim p = .ok reset)
      (hc : m'.control = .done (.value .none)) (hover : m'.betweenProcesses)
      (hsim : m.sim.SameButRounds m'.sim) : TurnAt p f states k ⟨reset, .idle⟩
  | runs {m m₁ m₂ m₃ : Machine} {reset : Bool} {i j : Nat} {locals : Table String Value}
      {stop : Stop} {seg : Segment} (hm : states[k]? = some m) (hm₁ : states[k + 1]? = some m₁)
      (hreset : isReset m.sim p = .ok reset) (hsim : m.sim.SameButRounds m₁.sim)
      (hactivation : m₁.activation =
        { Activation.begin p.owner f.name .staged with locals := locals })
      (hseg : (segments f.body)[i]? = some seg) (hover : OverAt states k j)
      (hm₃ : states[j]? = some m₃) (hlead : Leads .nobody (Above m₃.stack) m₁ m₃)
      (hrun : RunsSegment p (.boundary f.name m.activation :: m₃.stack) seg m₁ stop m₂)
      (hleaves : m₂.sim.SameButPauses m₃.sim) : TurnAt p f states k ⟨reset, .runs i locals stop⟩

/-- A pause is kept for a process that goes on with a segment, and none for one that begins anew. -/
def Standing.Kept (body : List Stmt) : Standing → Option Pause → Prop
  | .anew, pause? => pause? = none
  | .held i skip locals, pause? => ∃ next, pause? = some ⟨next, skip, locals⟩ ∧
      segments (body.drop next) = (segments body).drop i

theorem Machine.LeavesPause.kept {body : List Stmt} {next i : Nat} {seg : Segment}
    {more : List Segment} {stop : Stop} {locals : Table String Value} {reset : Bool} {st : Standing}
    (h : LeavesPause p (body.drop next) next more s stop)
    (hsegs : seg :: more = (segments body).drop i) :
    (st.after ⟨reset, .runs i locals stop⟩).Kept body (s.paused.get? p) := by
  cases h with
  | «over» h => exact h
  | fault h => exact h
  | marker d n locals' h hl =>
      refine ⟨next + d, h, ?_⟩
      rw [← List.drop_drop, hl, ← List.drop_drop, ← hsegs]
      rfl

theorem Simulation.SameButPauses.sameButRounds {s s' : Simulation} (h : s.SameButPauses s') :
    s.SameButRounds s' := by
  obtain ⟨t, rfl⟩ := h
  exact ⟨t, _, _, _, rfl⟩

namespace Machine

theorem isReset_of_sameButRounds {s s' : Simulation} (h : s.SameButRounds s') (p : ProcessRef) :
    isReset s' p = isReset s p := by
  obtain ⟨t, l, r, d, rfl⟩ := h
  rfl

theorem syncBody_activation (m : Machine) (p : ProcessRef) (next : Nat) (body : List Stmt) :
    (m.syncBody p next body).activation = m.activation := by
  cases body with
  | nil => rfl
  | cons st body =>
      simp only [syncBody]
      split <;> rfl

theorem syncBody_stack (m : Machine) (p : ProcessRef) (next : Nat) (body : List Stmt) :
    ∃ y, (m.syncBody p next body).stack = y ++ m.stack := by
  cases body with
  | nil => exact ⟨[], rfl⟩
  | cons st body =>
      simp only [syncBody]
      split
      · exact ⟨[], rfl⟩
      · exact ⟨[_], rfl⟩
      · exact ⟨[_], rfl⟩

theorem syncBody_sim (m : Machine) (p : ProcessRef) (next : Nat) (body : List Stmt) :
    m.sim.SameButPauses (m.syncBody p next body).sim := by
  cases body with
  | nil => exact .refl _
  | cons st body =>
      simp only [syncBody]
      split
      · exact ⟨_, rfl⟩
      · exact .refl _
      · exact .refl _

/-- A process lets an edge pass, or begins at the segment that follows. -/
theorem runSync_kept {m : Machine} {reset : Bool} {st : Standing}
    (hf : (m.sim.tree.inst p.owner).syncs[p.index]? = some f)
    (hreset : isReset m.sim p = .ok reset) (hkept : st.Kept f.body (m.sim.paused.get? p)) :
    (∃ i skip locals s, reset = false ∧ st = .held i (skip + 1) locals ∧
      m.runSync p = ⟨.done (.value .none), m.activation, m.stack, s⟩ ∧ m.sim.SameButPauses s ∧
      (Standing.held i skip locals).Kept f.body (s.paused.get? p)) ∨
    ∃ i next locals s, m.runSync p = (⟨m.control,
        { Activation.begin p.owner f.name .staged with locals := locals },
        .boundary f.name m.activation :: m.stack, s⟩ : Machine).syncBody p next (f.body.drop next) ∧
      m.sim.SameButPauses s ∧ s.paused.get? p = none ∧
      segments (f.body.drop next) = (segments f.body).drop i ∧
      ∀ stop, st.Takes ⟨reset, .runs i locals stop⟩ := by
  have herase : (m.sim.paused.erase p).get? p = none := Table.get?_erase_self _ _
  simp only [runSync, hf, hreset, withResult]
  cases reset with
  | true => exact .inr ⟨0, 0, .empty, _, rfl, ⟨_, rfl⟩, herase, rfl, fun stop => ⟨stop, rfl⟩⟩
  | false =>
      cases st with
      | anew =>
          simp only [Standing.Kept] at hkept
          simp only [Bool.false_eq_true, if_false, hkept]
          exact .inr ⟨0, 0, .empty, _, rfl, ⟨_, rfl⟩, herase, rfl, fun stop => ⟨stop, rfl⟩⟩
      | held i skip locals =>
          obtain ⟨next, hpause, hsegs⟩ := hkept
          simp only [Bool.false_eq_true, if_false, hpause]
          cases skip with
          | zero =>
              exact .inr ⟨i, next, locals, _, rfl, ⟨_, rfl⟩, herase, hsegs, fun stop => ⟨stop, rfl⟩⟩
          | succ skip =>
              refine .inl ⟨i, skip, locals, _, trivial, rfl, rfl, ⟨_, rfl⟩, next, ?_, hsegs⟩
              exact Table.get?_insert_self _ _ _

theorem Follows.step_of_work {m m' : Machine} (h : Follows outer m m') (hw : m.work ≠ []) :
    ∃ waker, m.step waker = .go m' := by
  cases h with
  | step hstep => exact ⟨_, hstep⟩
  | begins hm =>
      subst hm
      exact absurd rfl hw
  | later hm => exact absurd hm hw

theorem begins_calm {m : Machine} (h : s.Begins outer m) : CalmMove s.machine m := by
  cases h with
  | write f v hf => exact write_calm f v .immediate
  | combs =>
      exact .above (g := .driven) (s := { s with driveDepth := s.driveDepth + 1 }) (runCombs_calm _)
        ⟨rfl, rfl, rfl, rfl⟩ trivial
  | call owner function args => exact callNow_calm owner function args
  | event event =>
      have hmove : BodyMove s.machine.activation.mode none s.machine (s.machine.setEvent event) :=
        setEvent_body rfl event
      exact hmove.calm

theorem Follows.idle {m m' : Machine} (h : Follows outer m m') (hl : Layered m) (hl' : Layered m')
    (hm : m.activated? ≠ some p) (hf : ∀ g ∈ m.stack, ¬ g.ofProcess p) :
    (∀ g ∈ m'.stack, ¬ g.ofProcess p) ∧ m'.sim.paused.get? p = m.sim.paused.get? p := by
  have bystands : Bystands p m m' →
      (∀ g ∈ m'.stack, ¬ g.ofProcess p) ∧ m'.sim.paused.get? p = m.sim.paused.get? p :=
    fun hby => ⟨fun g hg hp => hf g (hby.frames g hg hp) hp, hby.paused⟩
  cases h with
  | step hstep => exact bystands (hl.bystands hstep hm fun c g rest _ hs => hf g (by simp [hs]))
  | begins hm hb =>
      subst hm
      exact bystands (.calm (begins_calm hb))
  | later hw hw' hs =>
      obtain ⟨k, b, traced, hsim⟩ := hs
      exact ⟨hl'.no_process_of_work hw', by rw [hsim]⟩

end Machine

namespace Recorded.Runs

variable {s₀ : Simulation} {fault : Option SimError}

theorem next (h : Runs outer s₀ fault ⟨s, states⟩) {k : Nat} {m : Machine}
    (hm : states[k]? = some m) (hw : m.work ≠ []) :
    ∃ waker m', states[k + 1]? = some m' ∧ m.step waker = .go m' := by
  obtain ⟨hlt, -⟩ := List.getElem?_eq_some_iff.mp hm
  cases hm' : states[k + 1]? with
  | some m' =>
      obtain ⟨waker, hstep⟩ := (h.linked k m m' hm hm').step_of_work hw
      exact ⟨waker, m', rfl, hstep⟩
  | none =>
      have hlast : states.getLast? = some m := by
        rw [List.getLast?_eq_getElem?, ← hm]
        congr 1
        have hle := List.getElem?_eq_none_iff.mp hm'
        omega
      exact absurd (h.last m hlast).1 hw

theorem layered (h : Runs outer s₀ fault ⟨s, states⟩) {k : Nat} {m : Machine}
    (hm : states[k]? = some m) : Layered m := (h.tidy m (List.mem_of_getElem? hm)).toLayered

theorem ends (h : Runs outer s₀ fault ⟨s, states⟩) {l : List ProcessRef} {rest : List Frame} :
    ∀ (d k : Nat) (m : Machine), states.length - k = d → states[k]? = some m →
      Above (.syncs l :: rest) m → ∃ j m', k < j ∧ states[j]? = some m' ∧
        m'.stack = .syncs l :: rest ∧ Leads .nobody (Above (.syncs l :: rest)) m m' ∧
        ∀ i m₁, k ≤ i → i < j → states[i]? = some m₁ → Above (.syncs l :: rest) m₁ := by
  intro d
  induction d with
  | zero =>
      intro k m hd hm
      obtain ⟨hlt, -⟩ := List.getElem?_eq_some_iff.mp hm
      omega
  | succ d ih =>
      intro k m hd hm habove
      have hl := h.layered hm
      have hw : m.work ≠ [] := by
        obtain ⟨y, hs, -⟩ := habove
        rw [work, hs]
        simp [Frame.isWork]
      obtain ⟨waker, m', hm', hstep⟩ := h.next hm hw
      obtain ⟨hnobody, hgo⟩ := hl.step_aboveSyncs habove hstep
      rcases hgo with hgo | hover
      · obtain ⟨j, m₂, hj, hm₂, hs₂, hlead, hbetween⟩ := ih (k + 1) m' (by omega) hm' hgo
        refine ⟨j, m₂, by omega, hm₂, hs₂, (Leads.step .here habove hnobody).trans hlead, ?_⟩
        intro i m₁ hki hij hm₁
        rcases Nat.eq_or_lt_of_le hki with rfl | hlt
        · rw [hm] at hm₁
          cases hm₁
          exact habove
        · exact hbetween i m₁ hlt hij hm₁
      · refine ⟨k + 1, m', by omega, hm', hover, .step .here habove hnobody, ?_⟩
        intro i m₁ hki hij hm₁
        obtain rfl : i = k := by omega
        rw [hm] at hm₁
        cases hm₁
        exact habove

/-- A state at which no statement of a process is run, and its pause is the one that is kept where
it stands. -/
structure Stands (p : ProcessRef) (body : List Stmt) (st : Standing) (m : Machine) : Prop where
  frames : ∀ g ∈ m.stack, ¬ g.ofProcess p
  kept : st.Kept body (m.sim.paused.get? p)

/-- What a process does when it is activated, and where it stands when that is over. -/
theorem activated (h : Runs outer s₀ fault ⟨s, states⟩) {k : Nat} {m : Machine} {reset : Bool}
    {st : Standing} (hm : states[k]? = some m) (hp : m.activated? = some p)
    (hf : (m.sim.tree.inst p.owner).syncs[p.index]? = some f)
    (hreset : isReset m.sim p = .ok reset) (hst : Stands p f.body st m) :
    ∃ t j m', TurnAt p f states k t ∧ st.Takes t ∧ k < j ∧ states[j]? = some m' ∧
      (∀ i m₁, k < i → i < j → states[i]? = some m₁ → m₁.activated? = none) ∧
      Stands p f.body (st.after t) m' := by
  have hw : m.work ≠ [] := by
    intro hw
    rw [activated?, beat_of_onBody (onBody_of_work hw)] at hp
    cases hp
  obtain ⟨waker, m₁, hm₁, hstep⟩ := h.next hm hw
  obtain ⟨m₀, hstep₀, ⟨l, rest, hs₀⟩, hactivation, hpaused, hsim⟩ := step_of_activated hp waker
  rw [hstep] at hstep₀
  cases hstep₀
  have hl₁ := h.layered hm₁
  have hf₀ : (m₀.sim.tree.inst p.owner).syncs[p.index]? = some f := by
    obtain ⟨_, _, _, _, heq⟩ := hsim
    rw [heq]
    exact hf
  have hreset₀ : isReset m₀.sim p = .ok reset := by rw [isReset_of_sameButRounds hsim, hreset]
  have hkept₀ : st.Kept f.body (m₀.sim.paused.get? p) := by rw [hpaused]; exact hst.kept
  rcases runSync_kept hf₀ hreset₀ hkept₀ with
    ⟨i, skip, locals, s₁, rfl, rfl, hrun, hpauses, hkept⟩ |
      ⟨i, next, locals, s₁, hrun, hpauses, hnone, hsegs, htakes⟩
  · rw [hrun] at hm₁ hl₁
    refine ⟨⟨false, .idle⟩, k + 1, _, ?_, rfl, Nat.lt_succ_self k, hm₁, fun j _ hkj hj => ?_, ?_⟩
    · exact .idle hm hm₁ hreset rfl ⟨l, rest, hs₀⟩ (hsim.trans hpauses.sameButRounds)
    · omega
    · exact ⟨hl₁.no_process_of_syncs hs₀, hkept⟩
  · obtain ⟨y, hy⟩ := syncBody_stack ⟨m₀.control,
      { Activation.begin p.owner f.name .staged with locals := locals },
      .boundary f.name m₀.activation :: m₀.stack, s₁⟩ p next (f.body.drop next)
    have habove : Above (.syncs l :: rest) (m₀.runSync p) := by
      refine ⟨y ++ [.boundary f.name m₀.activation], ?_, .inl (by simp)⟩
      rw [hrun, hy, hs₀, List.append_assoc]
      rfl
    obtain ⟨j, m₃, hj, hm₃, hs₃, hlead, hbetween⟩ := h.ends _ _ _ rfl hm₁ habove
    rw [hs₀] at hrun
    obtain ⟨seg, more, stop, m₂, hbody, hsegment, hleft, hleaves⟩ :=
      syncBody_runsFirst hrun hl₁ hnone hlead hs₃
    rw [hbody] at hsegs
    have hseg : (segments f.body)[i]? = some seg := by
      rw [← List.head?_drop, ← hsegs]
      rfl
    rw [hactivation] at hsegment
    refine ⟨⟨reset, .runs i locals stop⟩, j, m₃, ?_, htakes stop, Nat.lt_of_succ_lt hj, hm₃,
      fun i' m' hki hij hm' => ?_, ?_⟩
    · refine .runs (j := j) hm hm₁ hreset ?_ ?_ hseg
        ⟨Nat.lt_of_succ_lt hj, ⟨m₃, hm₃, l, rest, hs₃⟩, ?_⟩
        hm₃ (hs₃ ▸ hlead) (hs₃ ▸ hsegment) hleft
      · rw [hrun]
        exact hsim.trans (hpauses.sameButRounds.trans (syncBody_sim _ p next _).sameButRounds)
      · rw [hrun, syncBody_activation]
      · exact fun i' m' hki hij hm' => (h.layered hm').not_between (hbetween i' m' hki hij hm')
    · exact (h.layered hm').not_activated (hbetween i' m' hki hij hm')
    · exact ⟨(h.layered hm₃).no_process_of_syncs hs₃, hleaves.kept hsegs⟩

/-- The history of a process up to a state: what it did at its activations so far, and where it
stands when the last of them is over. -/
structure History (p : ProcessRef) (f : Function) (states : List Machine) (i : Nat)
    (turns : List ProcessTurn) : Prop where
  agree : List.Forall₂ (TurnAt p f states) (activatedBefore p states i) turns
  regular : Regular turns
  stands : i < states.length → ∃ j m, i ≤ j ∧ states[j]? = some m ∧
    (∀ k m₁, i ≤ k → k < j → states[k]? = some m₁ → m₁.activated? ≠ some p) ∧
    Stands p f.body (Standing.afterAll turns) m

theorem History.succ (h : Runs outer s₀ fault ⟨s, states⟩) {i : Nat} {turns : List ProcessTurn}
    (hist : History p f states i turns) (hi : i < states.length)
    (hf : (s₀.tree.inst p.owner).syncs[p.index]? = some f)
    (hreset : ∃ reset, isReset s₀ p = .ok reset) :
    ∃ turns', History p f states (i + 1) turns' := by
  obtain ⟨j, m, hij, hm, hquiet, hst⟩ := hist.stands hi
  rcases Nat.eq_or_lt_of_le hij with rfl | hlt
  · by_cases hp : m.activated? = some p
    · have hdesign := (h.tidy m (List.mem_of_getElem? hm)).design
      obtain ⟨reset, hread⟩ : ∃ reset, isReset m.sim p = .ok reset := by
        cases hread : isReset m.sim p with
        | ok reset => exact ⟨reset, rfl⟩
        | error e =>
            obtain ⟨reset, hok⟩ := hreset
            rw [isReset_error hdesign.tree.symm hdesign.wiring.symm hread] at hok
            cases hok
      obtain ⟨t, k, m', hturn, htakes, hk, hm', hnone, hst'⟩ :=
        h.activated hm hp (hdesign.tree ▸ hf) hread hst
      refine ⟨turns ++ [t], ?_, hist.regular.snoc htakes, fun _ => ⟨k, m', hk, hm', ?_, ?_⟩⟩
      · rw [activatedBefore_succ hm hp]
        exact List.rel_append hist.agree (.cons hturn .nil)
      · intro k' m₁ hle hlt hm₁
        simp [hnone k' m₁ hle hlt hm₁]
      · rwa [Standing.afterAll_snoc]
    · refine ⟨turns, ?_, hist.regular, fun hlt => ?_⟩
      · rw [activatedBefore_succ_of_ne hm hp]
        exact hist.agree
      · have hm' : states[i + 1]? = some states[i + 1] := List.getElem?_eq_getElem hlt
        obtain ⟨hframes, hpaused⟩ :=
          (h.linked i m _ hm hm').idle (h.layered hm) (h.layered hm') hp hst.frames
        refine ⟨i + 1, _, Nat.le_refl _, hm', fun k _ hle hlt => ?_, hframes, ?_⟩
        · omega
        · rw [hpaused]
          exact hst.kept
  · have hi' : states[i]? = some states[i] := List.getElem?_eq_getElem hi
    refine ⟨turns, ?_, hist.regular, fun _ => ⟨j, m, hlt, hm, fun k m₁ hle => ?_, hst⟩⟩
    · rw [activatedBefore_succ_of_ne hi' (hquiet i _ (Nat.le_refl i) hlt hi')]
      exact hist.agree
    · exact hquiet k m₁ (Nat.le_of_succ_le hle)

theorem history (h : Runs outer s₀ fault ⟨s, states⟩) (hnone : s₀.paused = .empty)
    (hf : (s₀.tree.inst p.owner).syncs[p.index]? = some f)
    (hreset : ∃ reset, isReset s₀ p = .ok reset) :
    ∀ i, i ≤ states.length → ∃ turns, History p f states i turns := by
  intro i
  induction i with
  | zero =>
      intro _
      refine ⟨[], .nil, .nil, fun hlt => ?_⟩
      have hm : states[0]? = some states[0] := List.getElem?_eq_getElem hlt
      obtain ⟨hw, k, b, traced, hsim⟩ := h.first states[0] (by rw [List.head?_eq_getElem?, hm])
      refine ⟨0, _, Nat.le_refl 0, hm, fun k _ _ hlt => absurd hlt (Nat.not_lt_zero k),
        (h.layered hm).no_process_of_work hw, ?_⟩
      change states[0].sim.paused.get? p = none
      rw [hsim, hnone]
      rfl
  | succ i ih =>
      intro hi
      obtain ⟨turns, hist⟩ := ih (Nat.le_of_succ_le hi)
      exact hist.succ h hi hf hreset

end Recorded.Runs

/-- The activations of a clocked process with the function `f`, in all states that commands lead
through from an elaborated design on, make a state machine of the segments of its body. A reset that
cannot be read makes all of them faults. -/
theorem activations_follow_segments {types : TypeTable} {objects : Objects} {top : String}
    {values : Table String Value} {settings : ElabSettings} {e : Elaborated} {log : List LogRecord}
    {options : SimOptions} (he : elaborate types objects top values settings = (.ok e, log))
    (hs : Simulation.ofElaborated e options = .ok s)
    (hf : (s.tree.inst p.owner).syncs[p.index]? = some f)
    (hreset : ∃ reset, isReset s p = .ok reset) (h : Commands s states s') :
    ∃ turns, List.Forall₂ (TurnAt p f states) (activatedBefore p states states.length) turns ∧
      FollowSegments turns := by
  obtain ⟨fault, hruns⟩ := h.runs (.initial he hs)
  obtain ⟨turns, hist⟩ := hruns.history (Simulation.fresh_ofElaborated hs).paused hf hreset
    states.length (Nat.le_refl _)
  exact ⟨turns, hist.agree, hist.regular.followSegments⟩

/-- A clocked process with a reset that gives `q` two numbers, two cycles apart. -/
def twoSegments : TypeTable :=
  ⟨[⟨"Top", .component { Component.ofName "Top" with
      body := { Body.ofName "Top" with
        fields := [.ofType "clk" (.int 1 false), .ofType "rst" (.int 1 false),
          .ofType "q" (.int 8 false)] }
      syncs := [{ Function.ofName "p" with
        body := [.assign [.ownField 2] (.int 5), .expr (.builtinCall .cycles [.int 2]),
          .assign [.ownField 2] (.int 6)]
        process := some ⟨.sync, some (.ownField 0), some (.ownField 1), []⟩ }] }⟩], by decide⟩

/-- Three edges, at the second of which the process is idle. -/
theorem activations_follow_segments_spanning : ∃ e log s s' states f,
    elaborate twoSegments .empty "Top" .empty .standard = (.ok e, log) ∧
      Simulation.ofElaborated e .standard = .ok s ∧
      (s.tree.inst Tree.root).syncs[0]? = some f ∧
      (∃ reset, isReset s ⟨Tree.root, 0⟩ = .ok reset) ∧ Commands s states s' ∧
      (activatedBefore ⟨Tree.root, 0⟩ states states.length).length = 3 ∧
      ∃ turns, List.Forall₂ (TurnAt ⟨Tree.root, 0⟩ f states)
        (activatedBefore ⟨Tree.root, 0⟩ states states.length) turns ∧ FollowSegments turns := by
  let edge : Command := .clockEdge "clk"
  have hrun : ((twoSegments.simulation "Top").bind fun s =>
      ((Command.start).run 200 s).bind fun r => (edge.run 200 r.1).bind fun r₁ =>
        (edge.run 200 r₁.1).bind fun r₂ => (edge.run 200 r₂.1).map fun _ =>
          let states := Command.start.states 200 s ++ edge.states 200 r.1 ++ edge.states 200 r₁.1 ++
            edge.states 200 r₂.1
          ((activatedBefore ⟨Tree.root, 0⟩ states states.length).length,
            ((s.tree.inst Tree.root).syncs[0]?).isSome,
            (isReset s ⟨Tree.root, 0⟩).toOption.isSome)) = some (3, true, true) := by
    decide +kernel
  obtain ⟨s, hs, hrun⟩ := Option.bind_eq_some_iff.mp hrun
  obtain ⟨⟨s₁, _⟩, h₁, hrun⟩ := Option.bind_eq_some_iff.mp hrun
  obtain ⟨⟨s₂, _⟩, h₂, hrun⟩ := Option.bind_eq_some_iff.mp hrun
  obtain ⟨⟨s₃, _⟩, h₃, hrun⟩ := Option.bind_eq_some_iff.mp hrun
  obtain ⟨⟨s₄, _⟩, h₄, hrun⟩ := Option.map_eq_some_iff.mp hrun
  obtain ⟨hcount, hrest⟩ := Prod.mk.inj hrun
  obtain ⟨hsome, hok⟩ := Prod.mk.inj hrest
  obtain ⟨f, hf⟩ := Option.isSome_iff_exists.mp hsome
  have hreset : ∃ reset, isReset s ⟨Tree.root, 0⟩ = .ok reset := by
    cases hread : isReset s ⟨Tree.root, 0⟩ with
    | ok reset => exact ⟨reset, rfl⟩
    | error e =>
        rw [hread] at hok
        cases hok
  obtain ⟨e, log, he, hsim⟩ := TypeTable.exists_elaborated hs
  have hcommands := Commands.start.command h₁ |>.command h₂ |>.command h₃ |>.command h₄
  rw [List.nil_append] at hcommands
  exact ⟨e, log, s, s₄, _, f, he, hsim, hf, hreset, hcommands, hcount,
    activations_follow_segments he hsim hf hreset hcommands⟩

end Clockwork
