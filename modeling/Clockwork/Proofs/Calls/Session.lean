import Clockwork.Proofs.Calls.Reachable
import Clockwork.Proofs.Machine.Addressed
import Clockwork.Proofs.Machine.Work
/-!
The states of commands one after the other. Each of them leads to the next one by a step, or a
command or a task begins with it. What holds where nothing is under way, and what every step keeps,
holds of all states of commands without a fault.
-/

namespace Clockwork

def Linked {α : Type} (r : α → α → Prop) (l : List α) : Prop :=
  ∀ i a b, l[i]? = some a → l[i + 1]? = some b → r a b

namespace Linked

variable {α : Type} {r : α → α → Prop} {l l₁ l₂ : List α}

theorem nil : Linked r [] := by
  intro i a b ha
  cases ha

theorem cons {a : α} (h : Linked r l) (ha : ∀ b, l.head? = some b → r a b) :
    Linked r (a :: l) := by
  intro i x y hx hy
  cases i with
  | zero =>
      cases hx
      rw [List.getElem?_cons_succ, ← List.head?_eq_getElem?] at hy
      exact ha y hy
  | succ i => exact h i x y hx hy

theorem append (h₁ : Linked r l₁) (h₂ : Linked r l₂)
    (h : ∀ a b, l₁.getLast? = some a → l₂.head? = some b → r a b) : Linked r (l₁ ++ l₂) := by
  induction l₁ with
  | nil => exact h₂
  | cons x l₁ ih =>
      have htail : Linked r l₁ := fun i a b ha hb => h₁ (i + 1) a b ha hb
      have hnext := ih htail fun a b ha hb => h a b (by rw [List.getLast?_cons, ha]; rfl) hb
      refine hnext.cons ?_
      intro b hb
      cases l₁ with
      | nil => exact h x b rfl hb
      | cons y l₁ =>
          cases hb
          exact h₁ 0 x b rfl rfl

end Linked

def Simulation.SameButTasks (s s' : Simulation) : Prop :=
  ∃ k b l, s' = { s with kernel := k, started := b, traced := l }

namespace Simulation.SameButTasks

theorem refl (s : Simulation) : s.SameButTasks s := ⟨_, _, _, rfl⟩

theorem trans {s s₁ s₂ : Simulation} (h : s.SameButTasks s₁) (h₁ : s₁.SameButTasks s₂) :
    s.SameButTasks s₂ := by
  obtain ⟨k, b, l, rfl⟩ := h
  obtain ⟨k₁, b₁, l₁, rfl⟩ := h₁
  exact ⟨k₁, b₁, l₁, rfl⟩

theorem agrees {s s' : Simulation} (h : s.SameButTasks s') : s.Agrees s' := by
  obtain ⟨k, b, l, rfl⟩ := h
  exact ⟨rfl, rfl, rfl, rfl, rfl, rfl⟩

end Simulation.SameButTasks

namespace Machine

/-- How a state leads to the next one: by a step, or a command begins at rest, or a command or a
task begins after another one. -/
inductive Follows (outer : FieldRef → Prop) (m m' : Machine) : Prop
  | step {waker : Waker} (h : m.step waker = .go m')
  | begins {s : Simulation} (hm : m = s.machine) (hb : s.Begins outer m')
  | later (hm : m.work = []) (hm' : m'.work = []) (hs : m.sim.SameButTasks m'.sim)

theorem onBody_of_work {m : Machine} (h : m.work = []) : onBody m.stack = true := by
  cases hs : m.stack with
  | nil => rfl
  | cons f rest =>
      rw [work, hs, List.filter_eq_nil_iff] at h
      have hf := h f (by simp)
      simpa [onBody] using hf

/-- The way from one state to the next is always a step, as far as it concerns the frames that work
off changes and the signals. -/
theorem Follows.workStep {outer : FieldRef → Prop} {m m' : Machine} (h : Follows outer m m')
    (hl : m.Layered) (hok : m'.fault? = none) : WorkStep outer m m.beat m' := by
  cases h with
  | step hstep => exact hl.workStep hstep (fault?_eq_none hok)
  | later hm hm' hs =>
      rw [beat_of_onBody (onBody_of_work hm)]
      exact .still (hm'.trans hm.symm) hs.agrees
  | @begins s hm hb =>
      subst hm
      have hbeat : s.machine.beat = .other := rfl
      cases hb with
      | write f v hf =>
          have hnone : [].filter Frame.isWork = s.machine.work := rfl
          exact write_workStep hbeat hnone rfl (.inr ⟨hf, rfl, rfl⟩) (fault?_eq_none hok)
      | combs =>
          rw [hbeat]
          let m₁ : Machine :=
            { ({ s with driveDepth := s.driveDepth + 1 } : Simulation).machine with
              stack := [.driven] }
          change WorkStep outer s.machine .other (m₁.runCombs s.wiring.order)
          cases s.wiring.order with
          | nil => exact .all rfl (.inl rfl) ⟨rfl, rfl, rfl, rfl, rfl, rfl⟩
          | cons p l =>
              obtain ⟨hw, hsim⟩ := runComb_work { m₁ with stack := .combs l :: m₁.stack } p
              have hbegun : s.machine.sim.Agrees m₁.sim := ⟨rfl, rfl, rfl, rfl, rfl, rfl⟩
              refine .all rfl (.inr ⟨l, hw.imp id ?_⟩) (hbegun.trans hsim)
              exact fun ⟨d, hd⟩ => ⟨p, d, hd⟩
      | call owner function args =>
          rw [hbeat]
          refine .still (callNow_work _ owner function args) ?_
          rw [callNow_sim]
          exact .refl _
      | event event =>
          have hplaced : Placed s.machine := hl.placed (by simp [Simulation.machine])
          have hbody : s.machine.Bodily [] := ⟨hplaced, rfl, rfl⟩
          have hmove : BodyMove (modeAt []) s.machine.write? { s.machine with stack := [] }
              (s.machine.setEvent event) := setEvent_body (m := s.machine) rfl event
          rw [hbeat]
          generalize s.machine.setEvent event = m' at hmove hok ⊢
          obtain ⟨-, hmove⟩ := hbody.move hmove
          cases hmove with
          | still hw hs _ => exact .still hw hs.agrees
          | write _ f v _ _ _ _ hw => cases hw
          | engine f rest c _ _ _ hs => cases hs

theorem states_linked (outer : FieldRef → Prop) (waker : Waker) (fuel : Nat) (m : Machine) :
    Linked (Follows outer) (m.states waker fuel) := by
  induction fuel generalizing m with
  | zero => exact .nil
  | succ fuel ih =>
      rw [states]
      cases hstep : m.step waker with
      | go m' =>
          refine (ih m').cons ?_
          intro b hb
          cases fuel with
          | zero => cases hb
          | succ fuel =>
              cases hb
              exact .step hstep
      | _ => exact Linked.nil.cons (by simp)

theorem states_head {waker : Waker} {fuel : Nat} {m : Machine} {s : Simulation} {o : Outcome}
    (hrun : m.run waker fuel = some (s, o)) : (m.states waker fuel).head? = some m := by
  cases fuel with
  | zero => cases hrun
  | succ fuel => rfl

/-- A run that does not end with a fault has no state with one. -/
theorem states_no_fault {waker : Waker} {fuel : Nat} {m : Machine} {s : Simulation} {o : Outcome}
    (hrun : m.run waker fuel = some (s, o)) (ho : ∀ e, o ≠ .over (.failed e)) :
    ∀ m' ∈ m.states waker fuel, m'.fault? = none := by
  induction fuel generalizing m with
  | zero => cases hrun
  | succ fuel ih =>
      rw [run] at hrun
      rw [states]
      cases hstep : m.step waker with
      | go m₁ =>
          rw [hstep] at hrun
          have hrest := ih hrun
          intro m' hm'
          rcases List.mem_cons.mp hm' with rfl | hm'
          · exact fault?_of_step hstep (hrest _ (List.mem_of_head? (states_head hrun)))
          · exact hrest m' hm'
      | «over» c s' =>
          rw [hstep] at hrun
          cases hrun
          intro m' hm'
          obtain rfl : m' = m := by simpa using hm'
          obtain ⟨-, hc, -⟩ := step_over hstep
          cases c with
          | failed e => exact absurd rfl (ho e)
          | _ => simp [fault?, hc]
      | parked t s' =>
          rw [hstep] at hrun
          cases hrun
          intro m' hm'
          obtain rfl : m' = m := by simpa using hm'
          obtain ⟨-, hc, -⟩ := step_parked hstep
          unfold fault?
          split
          · rename_i e he
            exact absurd he (hc _)
          · rfl

end Machine

namespace Recorded

/-- What is known of the states of commands so far. -/
structure Runs (outer : FieldRef → Prop) (s₀ : Simulation) (fault : Option SimError)
    (r : Recorded) : Prop extends Rests s₀ r where
  linked : Linked (Machine.Follows outer) r.states
  first : ∀ m, r.states.head? = some m → m.work = [] ∧ s₀.SameButTasks m.sim
  last : ∀ m, r.states.getLast? = some m → m.work = [] ∧ m.sim.SameButTasks r.sim
  empty : r.states = [] → s₀.SameButTasks r.sim
  faults : fault = none → ∀ m ∈ r.states, m.fault? = none

namespace Runs

variable {outer : FieldRef → Prop} {s₀ : Simulation} {fault : Option SimError} {r : Recorded}

theorem start (hr : Rests s₀ ⟨s₀, []⟩) (fault : Option SimError) : Runs outer s₀ fault ⟨s₀, []⟩ :=
  ⟨hr, .nil, by simp, by simp, fun _ => .refl s₀, by simp⟩

/-- Further states that begin where nothing is under way, and end so. -/
theorem append (h : Runs outer s₀ fault r) {states : List Machine} {s : Simulation}
    {e : Option SimError} (hrests : Rests s₀ ⟨s, r.states ++ states⟩)
    (hlinked : Linked (Machine.Follows outer) states)
    (hfirst : ∃ m, states.head? = some m ∧ m.work = [] ∧ m.sim = r.sim)
    (hlast : ∃ m, states.getLast? = some m ∧ m.work = [] ∧ m.sim.SameButTasks s)
    (hfaults : e = none → ∀ m ∈ states, m.fault? = none) :
    Runs outer s₀ (fault.or e) ⟨s, r.states ++ states⟩ := by
  obtain ⟨m₁, hm₁, hwork₁, hsim₁⟩ := hfirst
  obtain ⟨m₂, hm₂, hwork₂, hsim₂⟩ := hlast
  refine ⟨hrests, h.linked.append hlinked ?_, ?_, ?_, ?_, ?_⟩
  · intro a b ha hb
    rw [hm₁] at hb
    cases hb
    obtain ⟨hwork, hsim⟩ := h.last a ha
    exact .later hwork hwork₁ (by rw [hsim₁]; exact hsim)
  · intro m hm
    cases hstates : r.states with
    | nil =>
        simp only [hstates, List.nil_append] at hm
        rw [hm₁] at hm
        cases hm
        exact ⟨hwork₁, by rw [hsim₁]; exact h.empty hstates⟩
    | cons x l =>
        refine h.first m ?_
        simp only [hstates, List.cons_append, List.head?_cons] at hm ⊢
        exact hm
  · intro m hm
    simp only [List.getLast?_append, hm₂, Option.some_or] at hm
    cases hm
    exact ⟨hwork₂, hsim₂⟩
  · intro hempty
    have hnil : states = [] := by simpa using (List.append_eq_nil_iff.mp hempty).2
    rw [hnil] at hm₁
    cases hm₁
  · intro hnone m hm
    obtain ⟨hf, he⟩ := Option.or_eq_none_iff.mp hnone
    rcases List.mem_append.mp hm with hm | hm
    · exact h.faults hf m hm
    · exact hfaults he m hm

end Runs

theorem last_of_run {m : Machine} {waker : Waker} {fuel : Nat} {s s₀ : Simulation}
    {o : Machine.Outcome} (h : m.Tidy s₀) (hrun : m.run waker fuel = some (s, o)) :
    ∃ m', (m.states waker fuel).getLast? = some m' ∧ m'.work = [] ∧ m'.sim.SameButTasks s := by
  obtain ⟨m', hlast, hend⟩ := Machine.run_ends hrun
  have hm := Machine.states_keep Machine.Tidy.step fuel h m' (List.mem_of_getLast? hlast)
  refine ⟨m', hlast, ?_⟩
  rcases hend with ⟨c, -, hover⟩ | ⟨t, -, hparked⟩
  · obtain ⟨hstack, -, rfl⟩ := Machine.step_over hover
    exact ⟨by rw [Machine.work, hstack]; rfl, .refl _⟩
  · obtain ⟨-, -, -, -, k, -, rfl⟩ := Machine.step_parked hparked
    refine ⟨?_, _, _, _, rfl⟩
    rw [Machine.work, List.filter_eq_nil_iff]
    intro f hf
    simp [hm.toLayered.parked hparked f hf]

theorem runs_invariant (outer : FieldRef → Prop) (s₀ : Simulation) :
    Invariant outer (Runs outer s₀) where
  tasks hr := hr.tasks
  fails {fault r} e hr := by
    refine ⟨hr.toRests, hr.linked, hr.first, hr.last, hr.empty, ?_⟩
    intro hnone
    cases fault <;> cases hnone
  change {fault r} k started traced hr hk := by
    have hsim : r.sim.SameButTasks
        { r.sim with kernel := k, started := started, traced := traced } := ⟨_, _, _, rfl⟩
    exact ⟨(rests_invariant outer s₀).change (e := fault) k started traced hr.toRests hk,
      hr.linked, hr.first, fun m hm => ⟨(hr.last m hm).1, (hr.last m hm).2.trans hsim⟩,
      fun h => (hr.empty h).trans hsim, hr.faults⟩
  run {fault r m fuel r' result} hr hm hrun := by
    have hrests := (rests_invariant outer s₀).run (e := fault) hr.toRests hm hrun
    have hbegun := hr.rest.begins hr.tasks hr.design hm
    obtain ⟨⟨s, result'⟩, hmachine, heq⟩ := Option.map_eq_some_iff.mp hrun
    cases heq
    obtain ⟨o, hend, hfault⟩ := Simulation.runMachine_ends hmachine
    have hhead := Machine.states_head hend
    obtain ⟨m', hlast, hwork, hsim⟩ := last_of_run hbegun hend
    refine hr.append hrests ((Machine.states_linked outer _ fuel m).cons ?_)
      ⟨r.sim.machine, rfl, rfl, rfl⟩ ⟨m', ?_, hwork, hsim⟩ ?_
    · intro b hb
      rw [hhead] at hb
      cases hb
      exact .begins rfl hm
    · rw [List.getLast?_cons, hlast]
      rfl
    · intro hnone m₁ hm₁
      rcases List.mem_cons.mp hm₁ with rfl | hm₁
      · rfl
      · refine Machine.states_no_fault hend ?_ m₁ hm₁
        intro e ho
        rw [(hfault e).mp ho] at hnone
        cases hnone
  poll {fault r t fuel r' turn} hr ht hrun := by
    obtain ⟨hrests, hturn⟩ := (rests_invariant outer s₀).poll (e := fault) hr.toRests ht hrun
    refine ⟨?_, hturn⟩
    have hbegun := hr.rest.task hr.tasks hr.design ht
    obtain ⟨⟨s, turn'⟩, hpoll, heq⟩ := Option.map_eq_some_iff.mp hrun
    cases heq
    obtain ⟨o, hend, -, hfault⟩ := Simulation.pollTask_ends hpoll
    have hhead := Machine.states_head hend
    refine hr.append hrests (Machine.states_linked outer _ fuel _) ⟨_, hhead, ?_, rfl⟩
      (last_of_run hbegun hend) ?_
    · rw [Machine.work, List.filter_eq_nil_iff]
      intro f hf
      simp [ht.bodies f hf]
    · intro hnone
      refine Machine.states_no_fault hend ?_
      intro e ho
      rw [(hfault e).mp ho] at hnone
      cases hnone

end Recorded

/-- Commands without a fault lead from a simulation through some states to another one. -/
inductive Session (s : Simulation) : List Machine → Simulation → Prop
  | start : Session s [] s
  | command {states : List Machine} {s₁ s₂ : Simulation} {c : Command} {fuel : Nat}
      (h : Session s states s₁) (hrun : c.run fuel s₁ = some (s₂, none)) :
      Session s (states ++ c.states fuel s₁) s₂

/-- Commands lead from a simulation through some states to another one, whether they come to faults
or not. -/
inductive Commands (s : Simulation) : List Machine → Simulation → Prop
  | start : Commands s [] s
  | command {states : List Machine} {s₁ s₂ : Simulation} {c : Command} {fuel : Nat}
      {fault : Option SimError} (h : Commands s states s₁)
      (hrun : c.run fuel s₁ = some (s₂, fault)) : Commands s (states ++ c.states fuel s₁) s₂

theorem Commands.reachable {s s' : Simulation} {states : List Machine} (h : Commands s states s')
    (hs : Reachable s) : Reachable s' := by
  induction h with
  | start => exact hs
  | command _ hrun ih => exact ih.command hrun

theorem Session.commands {s s' : Simulation} {states : List Machine} (h : Session s states s') :
    Commands s states s' := by
  induction h with
  | start => exact .start
  | command _ hrun ih => exact .command ih hrun

theorem Session.reachable {s s' : Simulation} {states : List Machine} (h : Session s states s')
    (hs : Reachable s) : Reachable s' := h.commands.reachable hs

theorem Machine.Tidy.transfer {m : Machine} {s s' : Simulation} (h : m.Tidy s')
    (hs : s.SameDesign s') : m.Tidy s :=
  ⟨h.toLayered, hs.trans h.design, h.bound, h.pending, h.staged, h.settled, h.tasks⟩

namespace Recorded

theorem Rests.of_settled {s : Simulation} (h : Reachable.Settled s) : Rests s ⟨s, []⟩ :=
  ⟨h.rest, h.tasks, .refl s, by simp⟩

namespace Runs

variable {outer : FieldRef → Prop} {s₀ : Simulation} {r : Recorded}

theorem command {s s' : Simulation} {c : Command} {fuel : Nat} {fault : Option SimError}
    (h : Reachable.Settled s) (hc : ∀ f, c.field? s = some f → outer f)
    (hrun : c.run fuel s = some (s', fault)) :
    Runs outer s fault ⟨s', c.states fuel s⟩ :=
  (runs_invariant outer s).command (.start (.of_settled h) none) hc (Command.recorded hrun)

/-- Runs from where others ended go on with them. -/
theorem trans {s : Simulation} {states : List Machine} {fault fault₁ : Option SimError}
    (h : Runs outer s₀ fault r) (h₁ : Runs outer r.sim fault₁ ⟨s, states⟩) :
    Runs outer s₀ (fault.or fault₁) ⟨s, r.states ++ states⟩ := by
  have hrests : Rests s₀ ⟨s, r.states ++ states⟩ := by
    refine ⟨h₁.rest, h₁.tasks, h.design.trans h₁.design, ?_⟩
    intro m hm
    rcases List.mem_append.mp hm with hm | hm
    · exact h.tidy m hm
    · exact (h₁.tidy m hm).transfer h.design
  cases states with
  | nil =>
      rw [List.append_nil] at hrests ⊢
      have hsim := h₁.empty rfl
      exact ⟨hrests, h.linked, h.first,
        fun m hm => ⟨(h.last m hm).1, (h.last m hm).2.trans hsim⟩,
        fun hnil => (h.empty hnil).trans hsim,
        fun hnone => h.faults (Option.or_eq_none_iff.mp hnone).1⟩
  | cons x states =>
      refine ⟨hrests, h.linked.append h₁.linked ?_, ?_, ?_, by simp, ?_⟩
      · intro a b ha hb
        obtain ⟨hwork, hsim⟩ := h.last a ha
        obtain ⟨hwork', hsim'⟩ := h₁.first b hb
        exact .later hwork hwork' (hsim.trans hsim')
      · intro m hm
        cases hstates : r.states with
        | nil =>
            rw [hstates, List.nil_append] at hm
            obtain ⟨hwork, hsim⟩ := h₁.first m hm
            exact ⟨hwork, (h.empty hstates).trans hsim⟩
        | cons y l =>
            refine h.first m ?_
            rw [hstates] at hm ⊢
            exact hm
      · intro m hm
        refine h₁.last m ?_
        rw [List.getLast?_append, List.getLast?_cons, Option.some_or] at hm
        rwa [List.getLast?_cons]
      · intro hnone m hm
        obtain ⟨hf, hf₁⟩ := Option.or_eq_none_iff.mp hnone
        rcases List.mem_append.mp hm with hm | hm
        · exact h.faults hf m hm
        · exact h₁.faults hf₁ m hm

/-- What holds where nothing is under way, and what is kept from one state to the next one, holds of
all states, whether there are faults or not. -/
theorem follow {P : Nat → Machine → Prop} {fault : Option SimError} (h : Runs outer s₀ fault r)
    (hfirst : ∀ m, m.work = [] → s₀.SameButTasks m.sim → P 0 m)
    (hnext : ∀ k m m', r.states[k]? = some m → r.states[k + 1]? = some m' → m.Tidy s₀ →
      Machine.Follows outer m m' → P k m → P (k + 1) m')
    {k : Nat} {m : Machine} (hm : r.states[k]? = some m) : P k m := by
  induction k generalizing m with
  | zero =>
      rw [← List.head?_eq_getElem?] at hm
      exact hfirst m (h.first m hm).1 (h.first m hm).2
  | succ k ih =>
      have hlt : k < r.states.length := by
        have := (List.getElem?_eq_some_iff.mp hm).1
        omega
      have hk : r.states[k]? = some r.states[k] := List.getElem?_eq_getElem hlt
      have htidy := h.tidy _ (List.mem_of_getElem? hk)
      exact hnext k _ m hk hm htidy (h.linked k _ m hk hm) (ih hk)

theorem induct {P : Nat → Machine → Prop} (h : Runs outer s₀ none r)
    (hfirst : ∀ m, m.work = [] → s₀.SameButTasks m.sim → P 0 m)
    (hnext : ∀ k m m', r.states[k]? = some m → r.states[k + 1]? = some m' → m.Tidy s₀ →
      Machine.WorkStep outer m m.beat m' → P k m → P (k + 1) m')
    {k : Nat} {m : Machine} (hm : r.states[k]? = some m) : P k m := by
  refine h.follow hfirst (fun k m m' hk hk' htidy hfollows hp => ?_) hm
  have hok := h.faults rfl m' (List.mem_of_getElem? hk')
  exact hnext k m m' hk hk' htidy (hfollows.workStep htidy.toLayered hok) hp

theorem last_or_step (h : Runs outer s₀ none r) {k : Nat} {m : Machine}
    (hm : r.states[k]? = some m) :
    (k + 1 = r.states.length ∧ m.work = []) ∨
      ∃ m', r.states[k + 1]? = some m' ∧ Machine.WorkStep outer m m.beat m' := by
  obtain ⟨hlt, -⟩ := List.getElem?_eq_some_iff.mp hm
  by_cases hlast : k + 1 = r.states.length
  · refine .inl ⟨hlast, (h.last m ?_).1⟩
    rw [List.getLast?_eq_getElem?, ← hlast]
    exact hm
  · have hk : r.states[k + 1]? = some r.states[k + 1] := List.getElem?_eq_getElem (by omega)
    refine .inr ⟨_, hk, ?_⟩
    exact (h.linked k m _ hm hk).workStep (h.tidy m (List.mem_of_getElem? hm)).toLayered
      (h.faults rfl _ (List.mem_of_getElem? hk))

theorem addressed (h : Runs outer s₀ none r) (hs : Reachable s₀) {k : Nat} {m : Machine}
    (hm : r.states[k]? = some m) : m.Addressed := by
  refine h.induct (P := fun _ m => m.Addressed) ?_
    (fun _ _ _ _ _ _ hstep ha => hstep.addressed ha) hm
  intro m hwork hsim
  refine ⟨hs.coherent.congr hsim.agrees.tree hsim.agrees.signals, ?_, ?_⟩
  · rw [hsim.agrees.tree]
    exact hs.designed.bound
  · intro fs v hmem
    rw [hwork] at hmem
    cases hmem

end Runs

end Recorded

theorem Session.runs {s s' : Simulation} {states : List Machine} (h : Session s states s')
    (hs : Reachable s) : Recorded.Runs (fun _ => True) s none ⟨s', states⟩ := by
  induction h with
  | start => exact .start (.of_settled hs.settled) none
  | command h hrun ih =>
      exact ih.trans (.command (h.reachable hs).settled (fun _ _ => trivial) hrun)

theorem Commands.runs {s s' : Simulation} {states : List Machine} (h : Commands s states s')
    (hs : Reachable s) : ∃ fault, Recorded.Runs (fun _ => True) s fault ⟨s', states⟩ := by
  induction h with
  | start => exact ⟨none, .start (.of_settled hs.settled) none⟩
  | command h hrun ih =>
      obtain ⟨fault, ih⟩ := ih
      exact ⟨_, ih.trans (.command (h.reachable hs).settled (fun _ _ => trivial) hrun)⟩

end Clockwork
