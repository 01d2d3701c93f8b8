import Clockwork.Proofs.Combs.Downstream
import Clockwork.Proofs.Combs.Suspension
import Clockwork.Proofs.Round.Batch

namespace Clockwork

theorem Simulation.readField_of_current {s s' : Simulation} {g : FieldRef} (ht : s'.tree = s.tree)
    (h : ∀ slot, s.tree.SignalAt g slot → s'.current g slot = s.current g slot) :
    s'.readField g = s.readField g := by
  simp only [readField, ht]
  cases hslot : s.tree.slot g.owner g.index with
  | error e => rfl
  | ok slot =>
      cases hst : slot.storage with
      | signal =>
          simp only [hst]
          exact congrArg Except.ok (h slot ⟨hslot, hst⟩)
      | _ => simp only [hst]

theorem Frame.isWork_of_fits {A : List Access} {f : Frame} (hf : f.Fits A) : f.isWork = false := by
  cases f with
  | propagate | combs | combOver | driven | settled | round | syncs | commit | changes =>
      exact hf.elim
  | _ => rfl

theorem Seeks.bodies {A : List Access} {q : FieldPath} {stack : List Frame} (h : Seeks A q stack) :
    ∀ f ∈ stack, f.isWork = false := by
  induction stack generalizing q with
  | nil => simp
  | cons f rest ih =>
      have cons : f.isWork = false → (∀ g ∈ rest, g.isWork = false) →
          ∀ g ∈ f :: rest, g.isWork = false := by
        rintro hf hrest g (_ | ⟨_, hg⟩)
        · exact hf
        · exact hrest g hg
      cases f
      case fieldOf index => exact cons rfl (ih (show Seeks A (q ++ [index]) rest from h))
      case storeField index v => exact cons rfl fun g hg => Frame.isWork_of_fits (h.2 g hg)
      all_goals exact fun g hg => Frame.isWork_of_fits (h.2 g hg)

namespace Machine

theorem Plain.bodies {t : Tree} {A : List Access} {id : Nat} {m : Machine} (h : m.Plain t A id) :
    (∀ f ∈ m.stack, f.isWork = false) ∧ ∀ w, m.control ≠ .await w := by
  obtain ⟨control, activation, stack, sim⟩ := m
  obtain ⟨hspot, -, -⟩ := h
  cases hspot with
  | seek h => exact ⟨h.bodies, by simp⟩
  | found hq hf h =>
      refine ⟨?_, by simp⟩
      exact h.bodies
  | eval _ hs | exec _ hs | store _ hs | matching _ hs | done hs =>
      exact ⟨fun f hf => Frame.isWork_of_fits (hs f hf), by simp⟩

/-- What a combinational process that is under way has done so far is what it does on the present
values, and what it has written is there. -/
inductive Underway (p : ProcessRef) (m : Machine) : Prop
  | ended {d : Nat} {rest : List Frame} (hs : m.stack = .combOver p d :: rest)
      (h : m.sim.UpToDate p)
  | runs {x : Machine} {name : String} {caller : Activation} {d : Nat} {rest : List Frame}
      {log : List (FieldRef × Value)}
      (hm : m = x.onto (.boundary name caller :: .combOver p d :: rest))
      (h : DryRun m.sim p log x) (hk : m.sim.Keeps log)
  | waits {x : Machine} {name : String} {caller : Activation} {d : Nat} {rest : List Frame}
      {log : List (FieldRef × Value)} (hc : x.control = .done (.value .none))
      (hm : Suspended x.activation (x.stack ++ .boundary name caller :: .combOver p d :: rest) m)
      (h : DryRun m.sim p log x) (hk : m.sim.Keeps log)

theorem write?_onto_boundary (x : Machine) (name : String) (caller : Activation)
    (rest : List Frame) : (x.onto (.boundary name caller :: rest)).write? = x.write? := by
  cases hs : x.stack with
  | cons g below => exact write?_onto (by simp [hs]) _
  | nil =>
      have hnone : x.write? = none := by simp [write?, hs]
      rw [hnone]
      obtain ⟨c, a, stack, s⟩ := x
      cases hs
      exact write?_of_boundary

theorem touchesStorage_onto_boundary (x : Machine) (name : String) (caller : Activation)
    (rest : List Frame) :
    (x.onto (.boundary name caller :: rest)).touchesStorage = x.touchesStorage := by
  obtain ⟨control, a, stack, s⟩ := x
  cases control with
  | done c => cases stack <;> cases c <;> rfl
  | _ => cases stack <;> rfl

section Steps

variable {outer : FieldRef → Prop} {m m' : Machine} {b : Beat} {p : ProcessRef} {waker : Waker}

theorem Suspended.work_eq {a : Activation} {base : List Frame} (h : Suspended a base m) :
    ∃ W, m.work = W ++ .driven :: base.filter Frame.isWork := by
  cases h with
  | engine low hs =>
      refine ⟨low.filter Frame.isWork, ?_⟩
      rw [work, hs, List.filter_append, List.filter_cons_of_pos rfl]
  | body top low name hs =>
      refine ⟨(top ++ .boundary name a :: low).filter Frame.isWork, ?_⟩
      rw [work, hs, ← List.cons_append, ← List.append_assoc, List.filter_append,
        List.filter_cons_of_pos rfl]

theorem Suspended.not_on_top {a : Activation} {x rest : List Frame} {name : String}
    {caller : Activation} {d : Nat}
    (h : Suspended a (x ++ .boundary name caller :: .combOver p d :: rest) m)
    (hd : Downstream m) (ht : m.sim.tree.Combinational) (d' : Nat) (below : List Frame) :
    m.work ≠ .combOver p d' :: below := by
  intro hwork
  obtain ⟨W, hW⟩ := h.work_eq
  have hmem : .combOver p d ∈
      (x ++ .boundary name caller :: .combOver p d :: rest).filter Frame.isWork :=
    List.mem_filter.mpr ⟨by simp, rfl⟩
  cases W with
  | nil =>
      rw [hwork] at hW
      cases hW
  | cons f W =>
      rw [hwork] at hW
      cases hW
      refine hd.not_again ht hwork d (List.mem_append_right _ ?_)
      exact List.mem_cons_of_mem _ hmem

theorem Underway.executes (h : Underway p m) : Executes m p := by
  have filtered : ∀ {x rest : List Frame} {name : String} {caller : Activation} {d : Nat},
      .combOver p d ∈ (x ++ .boundary name caller :: .combOver p d :: rest).filter Frame.isWork :=
    List.mem_filter.mpr ⟨by simp, rfl⟩
  cases h with
  | @ended d rest hs => exact ⟨d, by simp [work, hs, Frame.isWork]⟩
  | @runs x name caller d rest log hm => 
      refine ⟨d, ?_⟩
      rw [hm]
      exact filtered
  | @waits x name caller d rest log hc hm =>
      obtain ⟨W, hW⟩ := hm.work_eq
      refine ⟨d, ?_⟩
      rw [hW]
      exact List.mem_append_right _ (List.mem_cons_of_mem _ filtered)

theorem Underway.writes (h : Underway p m) (ht : Sheltered outer m) (hd : Downstream m)
    {f : FieldRef} {v : Value} {d : Nat} {rest : List Frame} (hw : m.write? = some (f, v))
    (hwork : m.work = .combOver p d :: rest) : m.sim.tree.Writes p f := by
  cases h with
  | ended hs => 
      have hb := onBody_of_write hw
      rw [hs] at hb
      cases hb
  | waits hc hm => exact absurd hwork (hm.not_on_top hd ht.tree d rest)
  | @runs x name caller d rest log hm h hk =>
      subst hm
      rw [write?_onto_boundary] at hw
      exact (h.writes ht.tree ht.pathsLead hw).1

/-- A body goes on by itself, or it writes a field that the process writes. -/
theorem Underway.move {x x' : Machine} {log : List (FieldRef × Value)} {name : String}
    {caller : Activation} {d : Nat} {rest : List Frame}
    (hm : m = x.onto (.boundary name caller :: .combOver p d :: rest))
    (h : DryRun m.sim p log x) (hk : m.sim.Keeps log) (ht : Sheltered outer m)
    (hs : m.sim.Coherent) (hstorage : x.touchesStorage = false) (hstep : x.step waker = .go x')
    (hm' : m' = x'.onto (.boundary name caller :: .combOver p d :: rest)) (hok : m'.fault? = none)
    (htree : m'.sim.tree = m.sim.tree)
    (hread : ∀ g, m.sim.tree.Reads p g → m'.sim.readField g = m.sim.readField g)
    (hwritten : ∀ g, m.sim.tree.Writes p g → (∀ v, m.write? ≠ some (g, v)) → ∀ slot,
      m.sim.tree.SignalAt g slot → m'.sim.current g slot = m.sim.current g slot) :
    Underway p m' := by
  have hsim : m'.sim = x'.sim := by rw [hm', onto_sim]
  have hxsim : m.sim = x.sim := by rw [hm, onto_sim]
  have hx : m.write? = x.write? := by rw [hm, write?_onto_boundary]
  have hold : ∀ g v, FinalWrite log g v → (∀ v, x.write? ≠ some (g, v)) → m'.sim.Holds g v := by
    intro g v hlast hne
    refine (hk g v hlast).congr htree (hwritten g ?_ (by rwa [hx]))
    exact h.mem_writes ht.tree ht.pathsLead _ hlast.mem
  cases hw : x.write? with
  | none =>
      have hnobody := h.step_nobody ht.tree ht.pathsLead hstorage hstep
      have hok' : x'.fault? = none := by rwa [hm'] at hok
      have hrun := (h.move hstorage hw hnobody hok').congr ht.tree ht.pathsLead htree hread
      rw [setSim_setSim, hsim] at hrun
      exact .runs hm' (by rw [hsim]; exact hrun) fun g v hlast => hold g v hlast (by simp [hw])
  | some y =>
      obtain ⟨g, v⟩ := y
      obtain ⟨-, f, below, hstack, hgo⟩ := h.writes ht.tree ht.pathsLead hw
      have hgo' : x.step waker = .go ({ x with stack := below }.write g v .immediate) :=
        hgo x.sim waker
      rw [hgo'] at hstep
      cases hstep
      let z : Machine :=
        { x with stack := below }.onto (.boundary name caller :: .combOver p d :: rest)
      have hwrite : m' = z.write g v .immediate := by rw [hm', write_onto]
      have hrun := (h.write hw hstack).congr ht.tree ht.pathsLead htree hread
      rw [hwrite] at hok
      have hcoherent : z.sim.Coherent := hxsim ▸ hs
      have hwaits : Suspended x.activation
          (below ++ .boundary name caller :: .combOver p d :: rest) m' := by
        rw [hwrite]
        exact .of_write (m := z) hok
      refine .waits (x := ({ x with stack := below }.finish).setSim m'.sim) rfl hwaits hrun ?_
      intro g' v' hlast
      rcases finalWrite_snoc.mp hlast with ⟨rfl, rfl⟩ | ⟨hne, hlast⟩
      · rw [hwrite]
        exact holds_of_write hcoherent hok
      · refine hold g' v' hlast fun w hw' => hne ?_
        rw [hw] at hw'
        cases hw'
        rfl

/-- A process that is under way goes on, or its run ends with all of it done. -/
theorem Underway.step (h : Underway p m) (hl : Layered m) (ha : Addressed m)
    (ht : Sheltered outer m) (hd : Downstream m) (hown : OwnWrites m)
    (hw : WorkStep outer m b m') (hstep : m.step waker = .go m') (hok : m'.fault? = none) :
    Underway p m' ∨ m'.sim.UpToDate p ∧ ¬ Executes m' p := by
  have hexec := h.executes
  have htree := hw.design.1
  have hread : ∀ g, m.sim.tree.Reads p g → m'.sim.readField g = m.sim.readField g :=
    fun g hr => Simulation.readField_of_current htree fun slot hslot =>
      hw.kept_read ha ht hl hd hown hexec hslot hr
  have hwritten : ∀ g, m.sim.tree.Writes p g →
      ((∃ d rest, m.work = .combOver p d :: rest) → ∀ v, m.write? ≠ some (g, v)) → ∀ slot,
      m.sim.tree.SignalAt g slot → m'.sim.current g slot = m.sim.current g slot := by
    intro g hg hne slot hslot
    rcases hw.kept_written ha ht hd hown hslot hg with hsame | ⟨⟨v, hv⟩, htop⟩
    · exact hsame
    · exact absurd hv (hne htop v)
  cases h with
  | @ended d rest hs h =>
      right
      have hnone : m.write? = none := by
        cases hwrite : m.write? with
        | none => rfl
        | some y =>
            have hb := onBody_of_write (f := y.1) (v := y.2) hwrite
            rw [hs] at hb
            cases hb
      have htop : m.work = .combOver p d :: rest.filter Frame.isWork := work_cons hs rfl
      refine ⟨h.congr ht.tree ht.pathsLead htree hread fun g slot hg hslot => ?_, ?_⟩
      · exact hwritten g hg (by simp [hnone]) slot hslot
      · rintro ⟨d', hmem⟩
        obtain ⟨c, hc, hplain⟩ := hl.control (by rw [hs]; rfl)
        rw [step_done hc hs] at hstep
        cases hstep
        refine hd.not_again ht.tree htop d' ?_
        cases c <;> exact hmem
  | @waits x name caller d rest log hc hm h hk =>
      left
      have hcomb : ∃ q e, Frame.combOver q e ∈ x.stack ++ .boundary name caller ::
          .combOver p d :: rest := ⟨p, d, by simp⟩
      have hrun := h.congr ht.tree ht.pathsLead htree hread
      have hkeeps : m'.sim.Keeps log := by
        intro g v hlast
        have hg := h.mem_writes ht.tree ht.pathsLead _ hlast.mem
        refine (hk g v hlast).congr htree (hwritten g hg ?_)
        -- The field could change only if the process were on top, but it waits below.
        rintro ⟨e, below, htop⟩
        exact absurd htop (hm.not_on_top hd ht.tree e below)
      rcases hm.step hl hcomb hstep hok with hm' | ⟨s, hm'⟩
      · exact .waits (x := x.setSim m'.sim) hc hm' hrun hkeeps
      · have heq :
            m' = (x.setSim m'.sim).onto (.boundary name caller :: .combOver p d :: rest) := by
          rw [hm', onto, setSim, hc]
        exact .runs heq hrun hkeeps
  | @runs x name caller d rest log hm h hk =>
      obtain ⟨f, hf⟩ := h.comb
      obtain ⟨hbodies, hawait⟩ := (h.plain ht.tree ht.pathsLead hf).bodies
      have htop : m.work = .combOver p d :: rest.filter Frame.isWork := by
        rw [hm, work, onto_stack, filter_append_body hbodies,
          List.filter_cons_of_neg (by simp [Frame.isWork]),
          List.filter_cons_of_pos rfl]
      by_cases hover : x.isOver
      · obtain ⟨hstack, c, hc⟩ := hover
        left
        have hs : m.stack = .boundary name caller :: .combOver p d :: rest := by
          rw [hm, onto_stack, hstack]
          rfl
        have hcm : m.control = .done c := by rw [hm, onto_control, hc]
        rw [step_done hcm hs] at hstep
        cases hstep
        have hup : m.sim.UpToDate p := ⟨log, ⟨x, c, h, hstack, hc⟩, hk⟩
        cases c <;> exact .ended rfl hup
      · left
        -- The body takes the step by itself, whatever lies below it.
        obtain ⟨x', hx⟩ : ∃ x', x.step waker = .go x' :=
          step_go hover fun w hw' => absurd hw' (hawait w)
        have hgo := step_onto (.boundary name caller :: .combOver p d :: rest)
          (fun w hw' => absurd hw' (hawait w)) hx
        rw [← hm, hstep] at hgo
        cases hgo
        refine Underway.move hm h hk ht ha.coherent ?_ hx rfl hok htree hread
          fun g hg hne => hwritten g hg fun _ => hne
        rw [← touchesStorage_onto_boundary x name caller (.combOver p d :: rest), ← hm]
        exact ht.storage p d _ htop

theorem Underway.begun {f : Function} (s : Simulation) (hf : s.tree.CombAt p f)
    (caller : Activation) (d : Nat) (rest : List Frame) :
    Underway p ((f.begun p s).onto (.boundary f.name caller :: .combOver p d :: rest)) := by
  have hsim : (f.begun p s).sim = s := block_sim _ _
  have hrun : DryRun (f.begun p s).sim p [] (f.begun p s) := by
    rw [hsim]
    exact .begin hf
  refine .runs rfl hrun ?_
  rintro g v ⟨l₁, l₂, heq, -⟩
  simp at heq

theorem Underway.of_turn (hl : Layered m) (hstep : m.step waker = .go m') (hok : m'.fault? = none)
    {l : List ProcessRef} {rest : List Frame} (hm : m.work = .combs (p :: l) :: rest) :
    Underway p m' ∨ (∀ f, ¬ m.sim.tree.CombAt p f) ∧ m'.work = .combs l :: rest := by
  obtain ⟨low, hs, rfl⟩ := hl.turn hm hstep hok
  let m₁ : Machine := { m with stack := .combs l :: low }
  change Underway p (m₁.runComb p) ∨ _ ∧ (m₁.runComb p).work = _
  rcases m₁.runComb_begun hok with ⟨hnone, heq⟩ | ⟨f, hf, -, heq⟩
  · rw [work_cons hs rfl] at hm
    cases hm
    rw [heq]
    exact .inr ⟨hnone, rfl⟩
  · rw [heq]
    exact .inl (.begun { m₁.sim with combDepth := m₁.sim.combDepth + 1 } hf _ _ _)

/-- How far all combinational processes are. -/
structure Converging (m : Machine) : Prop extends Addressed m, Downstream m where
  underway : ∀ p, Executes m p → Underway p m
  resting : ∀ p f, m.sim.tree.CombAt p f → ¬ Executes m p → WillRun m p ∨ m.sim.UpToDate p

theorem Converging.ownWrites (h : Converging m) (ht : Sheltered outer m) : OwnWrites m := by
  intro f v p d rest hw hwork
  refine (h.underway p ⟨d, ?_⟩).writes ht h.toDownstream hw hwork
  rw [hwork]
  exact List.mem_cons_self

theorem WorkStep.resting (hw : WorkStep outer m b m') (h : Converging m) (ht : Sheltered outer m)
    {f : Function} (hf : m.sim.tree.CombAt p f) (hp : ¬ Executes m p)
    (hturn : ∀ l rest, m.work ≠ .combs (p :: l) :: rest) : WillRun m' p ∨ m'.sim.UpToDate p := by
  rcases h.resting p f hf hp with hwill | hup
  · exact .inl (hw.willRun ht hwill hturn)
  · by_cases hread : ∃ g slot, m.sim.tree.Reads p g ∧ m.sim.tree.SignalAt g slot ∧
        m'.sim.current g slot ≠ m.sim.current g slot
    · obtain ⟨g, slot, hg, hslot, hne⟩ := hread
      exact .inl (((hw.current h.toAddressed ht hslot).resolve_left hne).1 p hg)
    · right
      have htree := hw.design.1
      refine hup.congr ht.tree ht.pathsLead htree ?_ ?_
      · refine fun g hg => Simulation.readField_of_current htree fun slot hslot => ?_
        exact Classical.byContradiction fun hne => hread ⟨g, slot, hg, hslot, hne⟩
      · intro g slot hg hslot
        rcases hw.kept_written h.toAddressed ht h.toDownstream (h.ownWrites ht) hslot hg with
          hsame | ⟨-, d, rest, htop⟩
        · exact hsame
        · exact absurd ⟨d, by rw [htop]; exact List.mem_cons_self⟩ hp

/-- Every step leaves all combinational processes on their way to be up to date. -/
theorem Converging.step (h : Converging m) (hl : Layered m) (ht : Sheltered outer m)
    (hstep : m.step waker = .go m') (hok : m'.fault? = none) : Converging m' := by
  have hw : WorkStep outer m m.beat m' := hl.workStep hstep (fault?_eq_none hok)
  have hown := h.ownWrites ht
  have htree := hw.design.1
  have hgo : ∀ p, Executes m p → Underway p m' ∨ m'.sim.UpToDate p ∧ ¬ Executes m' p := fun p hp =>
    (h.underway p hp).step hl h.toAddressed ht h.toDownstream hown hw hstep hok
  refine ⟨hw.addressed h.toAddressed, hw.downstream h.toAddressed ht hl h.toDownstream hown, ?_, ?_⟩
  · intro p hp'
    rcases hl.executes_of_step hstep hok hp' with hp | ⟨l, rest, hm⟩
    · rcases hgo p hp with hunder | ⟨-, hover⟩
      · exact hunder
      · exact absurd hp' hover
    · rcases Underway.of_turn hl hstep hok hm with hunder | ⟨-, hwork⟩
      · exact hunder
      · obtain ⟨d, hp'⟩ := hp'
        rw [hwork] at hp'
        have hp : Executes m p := ⟨d, by simpa [hm] using hp'⟩
        rcases hgo p hp with hunder | ⟨-, hover⟩
        · exact hunder
        · exact absurd ⟨d, by rwa [hwork]⟩ hover
  · rw [htree]
    intro p f hf hp'
    by_cases hp : Executes m p
    · rcases hgo p hp with hunder | ⟨hup, -⟩
      · exact absurd hunder.executes hp'
      · exact .inr hup
    · refine hw.resting h ht hf hp fun l rest hm => ?_
      rcases Underway.of_turn hl hstep hok hm with hunder | ⟨hnone, -⟩
      · exact hp' hunder.executes
      · exact hnone f hf

end Steps

end Machine

end Clockwork
