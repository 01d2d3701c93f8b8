import Clockwork.Proofs.Machine.Expression
import Clockwork.Proofs.Machine.Pauses
import Clockwork.Proofs.Round.Batch
import Clockwork.Proofs.Round.Segments

namespace Clockwork

def Simulation.SameButPauses (s s' : Simulation) : Prop := ∃ t, s' = { s with paused := t }

theorem Simulation.SameButPauses.refl (s : Simulation) : s.SameButPauses s := ⟨s.paused, rfl⟩

namespace Machine

/-- A statement or an expression is looked at until the machine has come to something with it. -/
structure Completes (p : ProcessRef) (base : List Frame) (c : Control) (r : Completion)
    (m m' : Machine) : Prop where
  begins : m.control = c
  ends : m'.control = .done r
  leads : ∃ g, g.ofProcess p ∧ m.stack = g :: base ∧ m'.stack = g :: base ∧
    Leads .nobody (Above (g :: base)) m m'

/-- A statement or an expression is looked at until there is a fault. -/
structure Fails (base : List Frame) (c : Control) (m m' : Machine) : Prop where
  begins : m.control = c
  ends : ∃ e, m'.control = .done (.failed e)
  stack : m'.stack = base
  leads : Leads .nobody (Above base) m m'

/-- A clocked process executes the statements of a segment one after the other, up to the marker at
its end or to the end of the body, or up to a statement that returns or comes to a fault. -/
inductive RunsSegment (p : ProcessRef) (base : List Frame) :
    Segment → Machine → Stop → Machine → Prop
  | statement {s : Stmt} {l : List Stmt} {marker : Option (List Expr)} {m m₁ m₂ m₃ : Machine}
      {v : Value} {stop : Stop} (hexec : Completes p base (.exec s) (.value v) m m₁)
      (hnext : m₁.step .nobody = .go m₂) (hrest : RunsSegment p base ⟨l, marker⟩ m₂ stop m₃) :
      RunsSegment p base ⟨s :: l, marker⟩ m stop m₃
  | result {s : Stmt} {l : List Stmt} {marker : Option (List Expr)} {m m₁ : Machine} {v : Value}
      (hexec : Completes p base (.exec s) (.result v) m m₁) :
      RunsSegment p base ⟨s :: l, marker⟩ m .over m₁
  | failed {s : Stmt} {l : List Stmt} {marker : Option (List Expr)} {m m₁ : Machine}
      (hexec : Fails base (.exec s) m m₁) : RunsSegment p base ⟨s :: l, marker⟩ m .fault m₁
  | «end» {m : Machine} (hc : m.control = .done (.value .none)) (hs : m.stack = base) :
      RunsSegment p base ⟨[], none⟩ m .over m
  | marker {m : Machine} (hc : m.control = .done (.value .none)) (hs : m.stack = base) :
      RunsSegment p base ⟨[], some []⟩ m (.marker 1 m.activation.locals) m
  | counted {e : Expr} {l : List Expr} {m m₁ : Machine} {v : Value} {n : Int}
      (heval : Completes p base (.eval e) (.value v) m m₁) (hn : v.asInt = .ok n) :
      RunsSegment p base ⟨[], some (e :: l)⟩ m (.marker n m₁.activation.locals) m₁
  | uncounted {e : Expr} {l : List Expr} {m m₁ : Machine} (heval : Fails base (.eval e) m m₁) :
      RunsSegment p base ⟨[], some (e :: l)⟩ m .fault m₁

section Pieces

variable {waker : Waker} {g : Frame} {name : String} {caller : Activation} {base : List Frame}
  {p : ProcessRef} {m m₁ : Machine}

theorem Leads.leave {c : Completion} {a : Activation} {s : Simulation}
    (h : Leads waker (Above base) ⟨.done c, a, .boundary name caller :: base, s⟩ m₁)
    (hend : m₁.stack = base) :
    m₁ = (⟨.done c, a, base, s⟩ : Machine).accept (.boundary name caller) c := by
  rcases h.head with rfl | ⟨-, m', hm', h'⟩
  · simp at hend
  · rw [step_done (m := ⟨.done c, a, _, s⟩) rfl rfl] at hm'
    cases hm'
    have hover :
        ∃ c', ((⟨.done c, a, base, s⟩ : Machine).accept (.boundary name caller) c).control =
        .done c' := by cases c <;> exact ⟨_, rfl⟩
    have hstack : ((⟨.done c, a, base, s⟩ : Machine).accept (.boundary name caller) c).stack =
        base := by cases c <;> rfl
    obtain ⟨c', hc'⟩ := hover
    rcases h'.head with heq | ⟨habove, -⟩
    · exact heq.symm
    · exact absurd habove (not_above_self hstack hc')

/-- The first piece of a body comes to something before the body is left, unless a wait cuts the
body short. -/
theorem Leads.piece (hg : g.ofProcess p) (h : Leads waker (Above base) m m₁)
    (hm : m.stack = g :: .boundary name caller :: base) (hend : m₁.stack = base) :
    ∃ m₂, Leads waker (Above (g :: .boundary name caller :: base)) m m₂ ∧
      Leads waker (Above base) m₂ m₁ ∧
        ((m₂.stack = g :: .boundary name caller :: base ∧ ∃ c, m₂.control = .done c) ∨
          m₂.stack = .boundary name caller :: base ∧ ∃ e, m₂.control = .done (.failed e)) := by
  have key : ∀ m', Leads waker (Above base) m m' →
      (Leads waker (Above (g :: .boundary name caller :: base)) m m' ∧
        ∃ y, m'.stack = y ++ g :: .boundary name caller :: base) ∨
      ∃ m₂, Leads waker (Above (g :: .boundary name caller :: base)) m m₂ ∧
        Leads waker (Above base) m₂ m' ∧
          ((m₂.stack = g :: .boundary name caller :: base ∧ ∃ c, m₂.control = .done c) ∨
            m₂.stack = .boundary name caller :: base ∧ ∃ e, m₂.control = .done (.failed e)) := by
    intro m' h
    induction h with
    | here => exact .inl ⟨.here, [], hm⟩
    | @step m₁ m₂ h hP hstep ih =>
        rcases ih with ⟨hlead, y, hy⟩ | ⟨m₀, hlead, hrest, hends⟩
        · by_cases hdone : y = [] ∧ ∃ c, m₁.control = .done c
          · obtain ⟨rfl, hc⟩ := hdone
            exact .inr ⟨m₁, hlead, .step .here hP hstep, .inl ⟨hy, hc⟩⟩
          · have hgo : y ≠ [] ∨ ∀ c, m₁.control ≠ .done c := by
              by_cases hnil : y = []
              · exact .inr fun c hc => hdone ⟨hnil, c, hc⟩
              · exact .inl hnil
            have hlead' := hlead.step ⟨y, hy, hgo⟩ hstep
            rcases step_above hy hgo hstep with ⟨y', hy'⟩ | ⟨_, rest, e, hbody, hstack, hfail⟩
            · exact .inl ⟨hlead', y', hy'⟩
            · rw [hg.innermostBody] at hbody
              cases hbody
              exact .inr ⟨m₂, hlead', .here, .inr ⟨hstack, e, hfail⟩⟩
        · exact .inr ⟨m₀, hlead, .step hrest hP hstep, hends⟩
  rcases key m₁ h with ⟨-, y, hy⟩ | hpiece
  · have hlength := congrArg List.length (hend.symm.trans hy)
    simp only [List.length_append, List.length_cons] at hlength
    omega
  · exact hpiece

theorem Leads.resumes {c : Completion} {a : Activation} {s : Simulation}
    (h : Leads waker (Above base) ⟨.done c, a, g :: .boundary name caller :: base, s⟩ m₁)
    (hend : m₁.stack = base) :
    Leads waker (Above base) ((⟨.done c, a, .boundary name caller :: base, s⟩ : Machine).accept g c)
      m₁ := by
  rcases h.head with heq | ⟨-, m', hm', h'⟩
  · rw [← heq] at hend
    have hlength := congrArg List.length hend
    simp only [List.length_cons] at hlength
    omega
  · rw [step_done (m := ⟨.done c, a, _, s⟩) rfl rfl] at hm'
    cases hm'
    exact h'

/-- An expression that is looked at comes to a value or a fault. -/
theorem Leads.looking {c : Completion} (hg : g.ofProcess p)
    (h : Leads waker (Above (g :: .boundary name caller :: base)) m m₁)
    (hm : m.stack = g :: .boundary name caller :: base) {e : Expr} (hc : m.control = .eval e)
    (hend : m₁.stack = g :: .boundary name caller :: base) (hc₁ : m₁.control = .done c) :
    c.isPlain = true := by
  have key : ∀ m', Leads waker (Above (g :: .boundary name caller :: base)) m m' →
      Looking (g :: .boundary name caller :: base) m' ∨
        m'.stack = .boundary name caller :: base := by
    intro m' h
    induction h with
    | here => exact .inl (.here hm (by rw [hc]; trivial))
    | @step m₁ m₂ h hP hstep ih =>
        obtain ⟨y, hy, hgo⟩ := hP
        rcases ih with hlook | hs
        · have hgo' : m₁.stack ≠ g :: .boundary name caller :: base ∨
              ∀ c, m₁.control ≠ .done c := by
            refine hgo.imp_left fun hne heq => hne ?_
            simpa [heq] using hy
          rcases hlook.step hgo' hstep with hlook | ⟨_, rest, e, hbody, hstack, -⟩
          · exact .inl hlook
          · rw [hg.innermostBody] at hbody
            cases hbody
            exact .inr hstack
        · have hlength := congrArg List.length (hs.symm.trans hy)
          simp only [List.length_append, List.length_cons] at hlength
          omega
  rcases key m₁ h with hlook | hs
  · cases hlook with
    | expr w hs hw hofExpr =>
        rwa [hc₁] at hofExpr
    | call z w g' hs hg' hw =>
        have hlength := congrArg List.length (hend.symm.trans hs)
        simp only [List.length_append, List.length_cons] at hlength
        omega
  · rw [hend] at hs
    have hlength := congrArg List.length hs
    simp only [List.length_cons] at hlength
    omega

/-- A fault that the statements of a process make leaves all else as it is. -/
theorem accept_failed (hg : g.ofProcess p) {c : Completion} {e : SimError}
    (he : (m.accept g c).control = .done (.failed e)) :
    (m.accept g c).stack = m.stack ∧ (m.accept g c).sim = m.sim := by
  cases g with
  | syncStep q next body =>
      cases c with
      | value v =>
          simp only [accept, resume] at he
          cases body with
          | nil => cases he
          | cons st body =>
              simp only [syncBody] at he
              split at he <;> cases he
      | _ => exact ⟨rfl, rfl⟩
  | syncPause q next =>
      cases c with
      | value v =>
          simp only [accept, resume] at he ⊢
          cases hn : v.asInt with
          | error err => exact ⟨rfl, rfl⟩
          | ok n =>
              rw [hn] at he
              cases he
      | _ => exact ⟨rfl, rfl⟩
  | _ => exact hg.elim

end Pieces

section Segments

variable {waker : Waker} {p : ProcessRef} {name : String} {caller : Activation}
  {l : List ProcessRef} {rest : List Frame} {m m₁ : Machine}

/-- While a piece of a body is run, the pause of its process stays as it is. -/
theorem Layered.paused_piece {g : Frame} (h : Layered m)
    (hlead : Leads waker (Above (g :: .boundary name caller :: .syncs l :: rest)) m m₁) :
    Layered m₁ ∧ m₁.sim.paused.get? p = m.sim.paused.get? p := by
  induction hlead with
  | here => exact ⟨h, rfl⟩
  | @step m₁ m₂ _ habove hstep ih =>
      obtain ⟨hl, hpaused⟩ := ih
      obtain ⟨y, hs, hgo⟩ := habove
      have hsyncs : Above (.syncs l :: rest) m₁ :=
        ⟨y ++ [g, .boundary name caller], by simp [hs], .inl (by simp)⟩
      have hby : Bystands p m₁ m₂ := by
        refine hl.bystands hstep (by simp [hl.not_activated hsyncs]) ?_
        intro c f below hc hs' hf
        rw [hs] at hs'
        cases y with
        | nil => exact hgo.elim (fun hne => hne rfl) fun hnot => hnot c hc
        | cons f y =>
            cases hs'
            have hstack := hl.stack
            rw [hs] at hstack
            have hlies :
                LayeredStack (f :: ((y ++ [g, .boundary name caller]) ++ .syncs l :: rest)) := by
              simpa using hstack
            obtain ⟨name', caller', heq⟩ := hlies.above_ofProcess hf
            have hlength := congrArg List.length heq
            simp at hlength
      exact ⟨(hl.step hstep).1, hby.paused.trans hpaused⟩

/-- What is left of a process that ran a segment: a pause at the marker of the segment, or none. The
rest `body` of the process from the segment on begins at the statement `next`, and the segments `l`
follow. -/
inductive LeavesPause (p : ProcessRef) (body : List Stmt) (next : Nat) (l : List Segment)
    (s : Simulation) : Stop → Prop
  | over (h : s.paused.get? p = none) : LeavesPause p body next l s .over
  | fault (h : s.paused.get? p = none) : LeavesPause p body next l s .fault
  | marker (d : Nat) (n : Int) (locals : Table String Value)
      (h : s.paused.get? p = some ⟨next + d, edges n - 1, locals⟩)
      (hl : segments (body.drop d) = l) : LeavesPause p body next l s (.marker n locals)

theorem Leads.fails {m₂ : Machine} {k : Control} {e : SimError} {base : List Frame}
    (hk : m.control = k) (hlead : Leads .nobody (Above (.boundary name caller :: base)) m m₂)
    (hs : m₂.stack = .boundary name caller :: base) (he : m₂.control = .done (.failed e))
    (hrest : Leads waker (Above base) m₂ m₁) (hend : m₁.stack = base) :
    Fails (.boundary name caller :: base) k m m₂ ∧ m₂.sim = m₁.sim := by
  obtain ⟨c, a, stack, s⟩ := m₂
  cases hs
  cases he
  refine ⟨⟨hk, ⟨e, rfl⟩, rfl, hlead⟩, ?_⟩
  rw [hrest.leave hend]
  rfl

/-- A piece of a body comes to something that its frame goes on with, or there is a fault. -/
theorem Layered.piece {k : Control} {a : Activation} {s : Simulation} {g : Frame}
    (hg : g.ofProcess p) (hl : Layered ⟨k, a, g :: .boundary name caller :: .syncs l :: rest, s⟩)
    (hnone : s.paused.get? p = none)
    (hlead : Leads .nobody (Above (.syncs l :: rest))
      ⟨k, a, g :: .boundary name caller :: .syncs l :: rest, s⟩ m₁)
    (hend : m₁.stack = .syncs l :: rest) :
    (∃ m₂, Fails (.boundary name caller :: .syncs l :: rest) k
        ⟨k, a, g :: .boundary name caller :: .syncs l :: rest, s⟩ m₂ ∧
      m₂.sim = m₁.sim ∧ m₂.sim.paused.get? p = none) ∨
    ∃ c a₂ s₂, Leads .nobody (Above (g :: .boundary name caller :: .syncs l :: rest))
        ⟨k, a, g :: .boundary name caller :: .syncs l :: rest, s⟩
        ⟨.done c, a₂, g :: .boundary name caller :: .syncs l :: rest, s₂⟩ ∧
      Layered ⟨.done c, a₂, g :: .boundary name caller :: .syncs l :: rest, s₂⟩ ∧
      s₂.paused.get? p = none ∧
      (∀ e, ((⟨.done c, a₂, .boundary name caller :: .syncs l :: rest, s₂⟩ : Machine).accept g
        c).control ≠ .done (.failed e)) ∧
      Leads .nobody (Above (.syncs l :: rest))
        ((⟨.done c, a₂, .boundary name caller :: .syncs l :: rest, s₂⟩ : Machine).accept g c)
        m₁ := by
  obtain ⟨m₂, hpiece, hrest, hends⟩ := hlead.piece hg rfl hend
  obtain ⟨hl₂, hpaused⟩ := hl.paused_piece (p := p) hpiece
  have hbelow := hpiece.imp (Q := Above (.boundary name caller :: .syncs l :: rest)) fun _ h =>
    h.weaken (y := [g]) (by simp)
  obtain ⟨hs₂, c, hc₂⟩ | ⟨hs₂, e, he⟩ := hends
  · obtain ⟨c₂, a₂, stack₂, s₂⟩ := m₂
    cases hs₂
    cases hc₂
    have hresumes := hrest.resumes hend
    by_cases hfail : ∃ e, ((⟨.done c, a₂, .boundary name caller :: .syncs l :: rest, s₂⟩ :
        Machine).accept g c).control = .done (.failed e)
    · obtain ⟨e, he⟩ := hfail
      obtain ⟨hstack, hsim⟩ := accept_failed hg he
      have hlead' := hbelow.step ⟨[g], rfl, .inl (by simp)⟩ (step_done rfl rfl)
      obtain ⟨hfails, hsim'⟩ := hlead'.fails rfl hstack he hresumes hend
      exact .inl ⟨_, hfails, hsim', by rw [hsim]; exact hpaused.trans hnone⟩
    · exact .inr ⟨c, a₂, s₂, hpiece, hl₂, hpaused.trans hnone, not_exists.mp hfail, hresumes⟩
  · obtain ⟨hfails, hsim⟩ := hbelow.fails rfl hs₂ he hrest hend
    exact .inl ⟨m₂, hfails, hsim, hpaused.trans hnone⟩

def RunsFirst (p : ProcessRef) (base : List Frame) (body : List Stmt) (next : Nat)
    (m m₁ : Machine) : Prop :=
  ∃ seg more stop m₂, segments body = seg :: more ∧ RunsSegment p base seg m stop m₂ ∧
    m₂.sim.SameButPauses m₁.sim ∧ LeavesPause p body next more m₁.sim stop

section Body

variable {a : Activation} {s : Simulation} {st : Stmt} {body : List Stmt} {next : Nat}

/-- A process comes to the marker at the end of a segment. -/
theorem marker_runsFirst {e : Expr} {es : List Expr} (hcycles : cyclesArgs? st = some (e :: es))
    (hl : Layered
      ⟨.eval e, a, .syncPause p (next + 1) :: .boundary name caller :: .syncs l :: rest, s⟩)
    (hnone : s.paused.get? p = none)
    (hlead : Leads .nobody (Above (.syncs l :: rest))
      ⟨.eval e, a, .syncPause p (next + 1) :: .boundary name caller :: .syncs l :: rest, s⟩ m₁)
    (hend : m₁.stack = .syncs l :: rest) :
    RunsFirst p (.boundary name caller :: .syncs l :: rest) (st :: body) next
      ⟨.eval e, a, .syncPause p (next + 1) :: .boundary name caller :: .syncs l :: rest, s⟩ m₁ := by
  have hg : (Frame.syncPause p (next + 1)).ofProcess p := rfl
  have hsegs := segments_cons_marker hcycles body
  rcases hl.piece hg hnone hlead hend with
    ⟨m₂, hfails, hsim, hpaused⟩ | ⟨c, a₂, s₂, hpiece, -, -, hok, hrest⟩
  · rw [hsim] at hpaused
    exact ⟨_, _, _, m₂, hsegs, .uncounted hfails, ⟨_, hsim.symm⟩, .fault hpaused⟩
  · have hplain := hpiece.looking hg rfl rfl rfl rfl
    cases c with
    | value v =>
        cases hn : v.asInt with
        | error err =>
            simp only [accept, resume, hn] at hok
            exact absurd rfl (hok err)
        | ok n =>
            simp only [accept, resume, hn] at hrest
            refine ⟨_, _, _, _, hsegs, .counted ⟨rfl, rfl, _, hg, rfl, rfl, hpiece⟩ hn, ?_,
              .marker 1 n _ ?_ rfl⟩
            · rw [hrest.leave hend]
              exact ⟨_, rfl⟩
            · rw [hrest.leave hend]
              exact Table.get?_insert_self _ _ _
    | failed err => exact absurd rfl (hok err)
    | _ => cases hplain

/-- A process executes a statement of a segment, and goes on with the rest of the segment. -/
theorem statement_runsFirst (hcycles : cyclesArgs? st = none)
    (hl : Layered
      ⟨.exec st, a, .syncStep p (next + 1) body :: .boundary name caller :: .syncs l :: rest, s⟩)
    (hnone : s.paused.get? p = none)
    (hlead : Leads .nobody (Above (.syncs l :: rest))
      ⟨.exec st, a, .syncStep p (next + 1) body :: .boundary name caller :: .syncs l :: rest, s⟩ m₁)
    (hend : m₁.stack = .syncs l :: rest)
    (hbody : ∀ k a s, s.paused.get? p = none →
      ∀ m, m = (⟨k, a, .boundary name caller :: .syncs l :: rest, s⟩ :
        Machine).syncBody p (next + 1)
        body → Layered m → Leads .nobody (Above (.syncs l :: rest)) m m₁ →
      RunsFirst p (.boundary name caller :: .syncs l :: rest) body (next + 1) m m₁) :
    RunsFirst p (.boundary name caller :: .syncs l :: rest) (st :: body) next
      ⟨.exec st, a, .syncStep p (next + 1) body :: .boundary name caller :: .syncs l :: rest, s⟩
      m₁ := by
  have hg : (Frame.syncStep p (next + 1) body).ofProcess p := rfl
  obtain ⟨seg, more, hsegs⟩ := exists_segments body
  have hcons := segments_cons hcycles hsegs
  rcases hl.piece hg hnone hlead hend with
    ⟨m₂, hfails, hsim, hpaused⟩ | ⟨c, a₂, s₂, hpiece, hl₂, hpaused, hok, hrest⟩
  · rw [hsim] at hpaused
    exact ⟨_, _, _, m₂, hcons, .failed hfails, ⟨_, hsim.symm⟩, .fault hpaused⟩
  · have hexec := fun r hr => (⟨rfl, hr, _, hg, rfl, rfl, hpiece⟩ : Completes p
      (.boundary name caller :: .syncs l :: rest) (.exec st) r _ _)
    cases c with
    | value v =>
        obtain ⟨seg', more', stop, m₃, hsegs', hrun, hsim, hleaves⟩ :=
          hbody (.done (.value v)) a₂ s₂ hpaused _ rfl
          (hl₂.step (show Machine.step .nobody _ = _ from rfl)).1 hrest
        rw [hsegs] at hsegs'
        cases hsegs'
        refine ⟨_, _, stop, m₃, hcons, .statement (hexec _ rfl) rfl hrun, hsim, ?_⟩
        cases hleaves with
        | «over» h => exact .over h
        | fault h => exact .fault h
        | marker d n locals h hmore =>
            refine .marker (d + 1) n locals ?_ hmore
            rw [h, Nat.add_assoc, Nat.add_comm 1 d]
    | result v =>
        refine ⟨_, _, _, _, hcons, .result (hexec _ rfl), ?_, .over ?_⟩
        · rw [hrest.leave hend]
          exact .refl _
        · rw [hrest.leave hend]
          exact hpaused
    | failed e => exact absurd rfl (hok e)
    | leave | again => exact absurd rfl (hok _)

/-- A process that begins at a segment or goes on within it runs what is left of it. -/
theorem syncBody_runsFirst {k : Control} {m : Machine}
    (hm : m = (⟨k, a, .boundary name caller :: .syncs l :: rest, s⟩ : Machine).syncBody p next body)
    (hl : Layered m) (hnone : s.paused.get? p = none)
    (hlead : Leads .nobody (Above (.syncs l :: rest)) m m₁) (hend : m₁.stack = .syncs l :: rest) :
    RunsFirst p (.boundary name caller :: .syncs l :: rest) body next m m₁ := by
  induction body generalizing next k a s m with
  | nil =>
      subst hm
      refine ⟨_, _, _, _, rfl, .end rfl rfl, ?_, .over ?_⟩
      · rw [hlead.leave hend]
        exact .refl _
      · rw [hlead.leave hend]
        exact hnone
  | cons st body ih =>
      cases hcycles : cyclesArgs? st with
      | none =>
          simp only [syncBody, hcycles] at hm
          subst hm
          exact statement_runsFirst hcycles hl hnone hlead hend
            fun k a s hnone m hm hl hlead => ih hm hl hnone hlead
      | some args =>
          simp only [syncBody, hcycles] at hm
          cases args with
          | nil =>
              subst hm
              refine ⟨_, _, _, _, segments_cons_marker hcycles body, .marker rfl rfl, ?_,
                .marker 1 1 _ ?_ rfl⟩
              · rw [hlead.leave hend]
                exact .refl _
              · rw [hlead.leave hend]
                exact Table.get?_insert_self _ _ _
          | cons e es =>
              subst hm
              exact marker_runsFirst hcycles hl hnone hlead hend

end Body

end Segments

end Machine

end Clockwork
