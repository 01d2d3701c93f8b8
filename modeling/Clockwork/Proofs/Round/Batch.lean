import Clockwork.Proofs.Machine.Fault
import Clockwork.Proofs.Round.Order

namespace Clockwork.Machine

/-- The states that a machine comes through as long as `P` holds. -/
inductive Leads (waker : Waker) (P : Machine → Prop) (m : Machine) : Machine → Prop
  | here : Leads waker P m m
  | step {m₁ m₂ : Machine} (h : Leads waker P m m₁) (hP : P m₁) (hstep : m₁.step waker = .go m₂) :
      Leads waker P m m₂

namespace Leads

variable {waker : Waker} {P : Machine → Prop} {m m₁ m₂ : Machine}

theorem trans (h : Leads waker P m m₁) (h₁ : Leads waker P m₁ m₂) : Leads waker P m m₂ := by
  induction h₁ with
  | here => exact h
  | step _ hP hstep ih => exact .step ih hP hstep

theorem head (h : Leads waker P m m₁) :
    m = m₁ ∨ P m ∧ ∃ m', m.step waker = .go m' ∧ Leads waker P m' m₁ := by
  induction h with
  | here => exact .inl rfl
  | @step m₁ m₂ _ hP hstep ih =>
      rcases ih with rfl | ⟨hm, m', hm', h'⟩
      · exact .inr ⟨hP, _, hstep, .here⟩
      · exact .inr ⟨hm, m', hm', .step h' hP hstep⟩

theorem last (h : Leads waker P m m₁) (h₂ : Leads waker P m m₂) (hend : ¬ P m₂) :
    Leads waker P m₁ m₂ := by
  induction h with
  | here => exact h₂
  | @step m₁ m₁' _ hP hstep ih =>
      rcases ih.head with rfl | ⟨-, m', hm', h'⟩
      · exact absurd hP hend
      · rw [hstep] at hm'
        cases hm'
        exact h'

theorem unique (h : Leads waker P m m₁) (h₂ : Leads waker P m m₂) (hend₁ : ¬ P m₁)
    (hend₂ : ¬ P m₂) : m₁ = m₂ := by
  rcases (h.last h₂ hend₂).head with rfl | ⟨hP, -⟩
  · rfl
  · exact absurd hP hend₁

theorem imp {Q : Machine → Prop} (hPQ : ∀ m, P m → Q m) (h : Leads waker P m m₁) :
    Leads waker Q m m₁ := by
  induction h with
  | here => exact .here
  | step _ hP hstep ih => exact .step ih (hPQ _ hP) hstep

theorem run (h : Leads waker P m m₁) :
    ∃ n, ∀ fuel, m.run waker (fuel + n) = m₁.run waker fuel := by
  induction h with
  | here => exact ⟨0, fun _ => rfl⟩
  | @step m₁ m₂ _ _ hstep ih =>
      obtain ⟨n, hn⟩ := ih
      refine ⟨n + 1, fun fuel => ?_⟩
      rw [Nat.add_comm n, ← Nat.add_assoc, hn, Machine.run, hstep]

end Leads

/-- A machine comes to a state, whatever it comes through. -/
abbrev Reaches (waker : Waker) : Machine → Machine → Prop := Leads waker fun _ => True

theorem Reaches.next {waker : Waker} {m m' : Machine} (h : m.step waker = .go m') :
    Reaches waker m m' := .step .here trivial h

/-- The machine is about to go on with the next round. -/
def BeforeRound (m : Machine) : Prop := ∃ rest, m.stack = .round :: rest

/-- The machine with other processes to run in its next round. -/
def withBatch (m : Machine) (batch : List ProcessRef) : Machine :=
  { m with sim := { m.sim with pending := batch } }

/-- The process that a state of a round is in, which is the one before those that are still to
run. -/
def running? (m₀ m : Machine) : Option ProcessRef :=
  match m.stack[m.stack.length - (m₀.roundBase.length + 1)]? with
  | some (.syncs rest) => m₀.sim.pending[m₀.sim.pending.length - (rest.length + 1)]?
  | _ => none

theorem running?_onto {m₀ : Machine} {p : ProcessRef} {ran rest : List ProcessRef}
    (hb : m₀.sim.pending = ran ++ p :: rest) (m : Machine) :
    m₀.running? (m.onto (.syncs rest :: m₀.roundBase)) = some p := by
  have hlast : ∀ {α : Type} (l l' : List α) (a : α),
      (l ++ a :: l')[(l ++ a :: l').length - (l'.length + 1)]? = some a := by
    intro α l l' a
    have hlength : (l ++ a :: l').length - (l'.length + 1) = l.length := by
      simp only [List.length_append, List.length_cons]
      omega
    rw [hlength, List.getElem?_append_right (Nat.le_refl _), Nat.sub_self]
    rfl
  rw [running?, onto_stack, hlast]
  dsimp only
  rw [hb, hlast]

/-- A process of a round writes a field in one of the states of the round. -/
def Writes (waker : Waker) (m₀ : Machine) (p : ProcessRef) (f : FieldRef) : Prop :=
  ∃ m v, RoundState waker m₀ m ∧ m₀.running? m = some p ∧ m.write? = some (f, v)

/-- The processes of a round call nothing back and leave objects, tasks, cover points and the log
alone. -/
def PlainRound (waker : Waker) (m₀ : Machine) : Prop :=
  ∀ m, RoundState waker m₀ m → m₀.sim.SameSurroundings m.sim ∧ ¬ InCallback m₀ m

variable {waker : Waker} {m₀ : Machine}

/-- How far a round has come: which of its processes ran to their end, and what they left. -/
inductive Progress (waker : Waker) (m₀ : Machine) : Machine → Prop
  | ready {v : Value} {s : Simulation} {ran rest : List ProcessRef}
      (hb : m₀.sim.pending = ran ++ rest)
      (hrun : RunsSyncs waker m₀.activation (Writes waker m₀) ran m₀.beginRound.sim s) :
      Progress waker m₀ ⟨.done (.value v), m₀.activation, .syncs rest :: m₀.roundBase, s⟩
  | within {m : Machine} {p : ProcessRef} {ran rest : List ProcessRef} {s : Simulation}
      {l l' : List Mark} (hb : m₀.sim.pending = ran ++ p :: rest)
      (hrun : RunsSyncs waker m₀.activation (Writes waker m₀) ran m₀.beginRound.sim s)
      (hbegun : (begun m₀.activation p s).sim = s.marks l) (hl : ∀ k ∈ l, k.place = .inr p)
      (hin : Within p m₀.activation m)
      (h : Proceeds waker p m₀.activation (Writes waker m₀ p) l' (begun m₀.activation p s) m) :
      Progress waker m₀ (m.onto (.syncs rest :: m₀.roundBase))
  | finished {s : Simulation}
      (hrun : RunsSyncs waker m₀.activation (Writes waker m₀) m₀.sim.pending m₀.beginRound.sim s) :
      Progress waker m₀ ⟨.done (.value .none), m₀.activation, m₀.roundBase, s⟩
  | fault {e : SimError} {a : Activation} {stack : List Frame} {s : Simulation}
      (hstack : stack = m₀.roundBase ∨ ∃ rest, stack = .syncs rest :: m₀.roundBase) :
      Progress waker m₀ ⟨.done (.failed e), a, stack, s⟩

inductive Begun (p : ProcessRef) (a : Activation) (s : Simulation) : Machine → Prop
  | fault (e : SimError) : Begun p a s ⟨.done (.failed e), a, [], s⟩
  | over {l : List Mark} (hl : ∀ k ∈ l, k.place = .inr p) :
      Begun p a s ⟨.done (.value .none), a, [], s.marks l⟩
  | within {m : Machine} {l : List Mark} (hl : ∀ k ∈ l, k.place = .inr p)
      (hsim : m.sim = s.marks l) (hin : Within p a m) : Begun p a s m

theorem begun_cases (a : Activation) (p : ProcessRef) (s : Simulation) :
    Begun p a s (begun a p s) := by
  have resume : ∀ (f : Function) (next : Nat) (locals : Table String Value),
      Begun p a s ((⟨.done (.value .none), a, [], s.mark (.paused p none)⟩ : Machine).resumeSync p
        f next locals) := by
    intro f next locals
    obtain ⟨l, hl, hsim, hin⟩ := syncBody_within (p := p) (a := a) (.done (.value .none)) f.name
      (s.mark (.paused p none)) (show Activation.mode
        { Activation.begin p.owner f.name .staged with locals := locals } = .staged from rfl)
      next (f.body.drop next)
    refine .within (l := .paused p none :: l) ?_ hsim hin
    intro k hk
    rcases List.mem_cons.mp hk with rfl | hk
    · rfl
    · rcases hl with rfl | ⟨pause, rfl⟩
      · cases hk
      · rw [List.mem_singleton] at hk
        rw [hk]
        rfl
  simp only [begun, runSync]
  split
  · exact .over (l := []) (by simp)
  · rename_i f _
    cases isReset s p with
    | error e => exact .fault e
    | ok reset =>
        simp only [withResult]
        split
        · exact resume f 0 .empty
        · rename_i pause _
          split
          · refine .over (l := [.paused p none,
              .paused p (some { pause with skip := pause.skip - 1 })]) ?_
            intro k hk
            simp only [List.mem_cons, List.not_mem_nil, or_false] at hk
            rcases hk with rfl | rfl <;> rfl
          · exact resume f pause.next pause.locals

theorem resumeSync_look (m : Machine) (c : Control) (p : ProcessRef) (f : Function) (next : Nat)
    (locals : Table String Value) :
    (m.look c).resumeSync p f next locals = m.resumeSync p f next locals := by
  simp only [resumeSync]
  cases f.body.drop next with
  | nil => rfl
  | cons stmt rest =>
      simp only [syncBody]
      rcases cyclesArgs? stmt with _ | _ | ⟨e, _⟩ <;> rfl

/-- What the machine came to before is of no concern to a process that begins. -/
theorem runSync_begun (c : Control) (a : Activation) (base : List Frame) (s : Simulation)
    (p : ProcessRef) : (⟨c, a, base, s⟩ : Machine).runSync p = (begun a p s).onto base := by
  have hcontrol : ((⟨.done (.value .none), a, [], s⟩ : Machine).look c).runSync p =
      begun a p s := by
    have hsim : ((⟨.done (.value .none), a, [], s⟩ : Machine).look c).sim = s := rfl
    simp only [begun, runSync, hsim]
    cases (s.tree.inst p.owner).syncs[p.index]? with
    | none => rfl
    | some f =>
        change withResult _ (isReset s p) _ = withResult _ (isReset s p) _
        cases isReset s p with
        | error e => rfl
        | ok reset =>
            simp only [withResult]
            cases (if reset = true then none else s.paused.get? p) with
            | none =>
                exact resumeSync_look (m := ⟨_, a, [], s.mark (.paused p none)⟩) c p f 0 .empty
            | some pause =>
                dsimp only
                split
                · rfl
                · exact resumeSync_look (m := ⟨_, a, [], s.mark (.paused p none)⟩) c p f _ _
  rw [← hcontrol, ← runSync_onto]
  rfl

theorem Within.innermostBody {p : ProcessRef} {a : Activation} {m : Machine} (h : Within p a m) :
    (innermostBody m.stack).isSome := by
  cases h with
  | body c a' y g name s ha hy hg =>
      rw [innermostBody_append_none (innermostBody_inBody hy), hg.innermostBody]
      rfl
  | leaving c a' name s => rfl

theorem Within.not_isOver {p : ProcessRef} {a : Activation} {m : Machine} (h : Within p a m) :
    ¬ m.isOver := by
  rintro ⟨hs, -⟩
  have := h.innermostBody
  rw [hs] at this
  cases this

theorem write?_onto {m : Machine} (h : m.stack ≠ []) (base : List Frame) :
    (m.onto base).write? = m.write? := by
  obtain ⟨c, a, stack, s⟩ := m
  cases stack with
  | nil => exact absurd rfl h
  | cons g rest =>
      cases c with
      | done c => cases c <;> rfl
      | _ => rfl

theorem Within.write?_onto {p : ProcessRef} {a : Activation} {m : Machine} (h : Within p a m)
    (base : List Frame) : (m.onto base).write? = m.write? := by
  refine Machine.write?_onto ?_ base
  intro hs
  have := h.innermostBody
  rw [hs] at this
  cases this

theorem Within.step_base {p : ProcessRef} {a : Activation} {m m' : Machine} (h : Within p a m)
    {base : List Frame} (hstep : (m.onto base).step waker = .go m') :
    ∃ m₁, m.step waker = .go m₁ ∧ m' = m₁.onto base := by
  obtain ⟨m₁, h₁⟩ : ∃ m₁, m.step waker = .go m₁ :=
    step_go h.not_isOver fun _ _ => h.innermostBody
  have h₂ := step_onto base (fun _ _ => h.innermostBody) h₁
  rw [hstep] at h₂
  cases h₂
  exact ⟨m₁, h₁, rfl⟩

theorem Begun.progress {p : ProcessRef} {ran rest : List ProcessRef} {s : Simulation}
    (hb : m₀.sim.pending = ran ++ p :: rest)
    (hrun : RunsSyncs waker m₀.activation (Writes waker m₀) ran m₀.beginRound.sim s) :
    Progress waker m₀ ((begun m₀.activation p s).onto (.syncs rest :: m₀.roundBase)) := by
  have hb' : m₀.sim.pending = (ran ++ [p]) ++ rest := by rw [hb]; simp
  have hcases := begun_cases m₀.activation p s
  generalize hm : begun m₀.activation p s = m at hcases ⊢
  cases hcases with
  | fault e => exact .fault (.inr ⟨rest, rfl⟩)
  | «over» hl => exact .ready hb' (hrun.snoc ⟨_, [], _, by rw [hm], hl, by rw [hm]; exact .refl _⟩)
  | within hl hsim hin =>
      exact .within hb hrun (by rw [hm, hsim]) hl hin (by rw [hm]; exact .refl _)

theorem Progress.step {m m' : Machine} (h : Progress waker m₀ m) (hplain : PlainRound waker m₀)
    (hm : RoundState waker m₀ m) (hs : m.stack ≠ m₀.roundBase) (hstep : m.step waker = .go m') :
    Progress waker m₀ m' := by
  have hm' := hm.step hs hstep
  cases h with
  | @ready v s ran rest hb hrun =>
      rw [step_done (m := ⟨_, m₀.activation, _, s⟩) rfl rfl] at hstep
      cases hstep
      cases rest with
      | nil =>
          rw [List.append_nil] at hb
          rw [← hb] at hrun
          exact .finished hrun
      | cons p rest =>
          change Progress waker m₀
            ((⟨.done (.value v), m₀.activation, .syncs rest :: m₀.roundBase, s⟩ :
              Machine).runSync p)
          rw [runSync_begun]
          exact Begun.progress hb hrun
  | @within m p ran rest s l l' hb hrun hbegun hl hin h =>
      obtain ⟨m₁, h₁, rfl⟩ := hin.step_base hstep
      have hsame : m.sim.SameSurroundings m₁.sim := (hplain _ hm).1.symm.trans (hplain _ hm').1
      have hwrites : ∀ f v, m.write? = some (f, v) → Writes waker m₀ p f := fun f v hw =>
        ⟨_, v, hm, running?_onto hb m, (hin.write?_onto _).trans hw⟩
      have hnext := hin.step h₁ hsame
      cases hnext with
      | within hleaves hsim hin₁ =>
          exact .within hb hrun hbegun hl hin₁ (.step h hin h₁ hleaves hsim hwrites)
      | value v hleaves =>
          have hb' : m₀.sim.pending = (ran ++ [p]) ++ rest := by rw [hb]; simp
          exact .ready hb' (hrun.snoc ⟨l, _, v, hbegun, hl, .step h hin h₁ hleaves rfl hwrites⟩)
      | fault e hleaves => exact .fault (.inr ⟨rest, rfl⟩)
      | callback hcount =>
          refine absurd ⟨m₁.stack ++ [.syncs rest], by simp, ?_⟩ (hplain _ hm').2
          rw [List.countP_append]
          omega
  | finished hrun => exact absurd rfl hs
  | fault hstack =>
      rcases hstack with rfl | ⟨rest, rfl⟩
      · exact absurd rfl hs
      · rw [step_done (m := ⟨.done (.failed _), _, _, _⟩) rfl rfl] at hstep
        cases hstep
        exact .fault (.inl rfl)

theorem RoundState.progress {m : Machine} (h : RoundState waker m₀ m)
    (hplain : PlainRound waker m₀) : Progress waker m₀ m := by
  induction h with
  | start => exact .ready (show m₀.sim.pending = [] ++ m₀.sim.pending from rfl) (.nil _)
  | step h hs hstep ih => exact ih.step hplain h hs hstep

/-- A round comes to its commit without a fault. -/
structure RoundEnds (waker : Waker) (m₀ m : Machine) : Prop where
  state : RoundState waker m₀ m
  stack : m.stack = m₀.roundBase
  ok : m.fault? = none

theorem RoundEnds.runsSyncs {m : Machine} (h : RoundEnds waker m₀ m)
    (hplain : PlainRound waker m₀) :
    m = ⟨.done (.value .none), m₀.activation, m₀.roundBase, m.sim⟩ ∧
      RunsSyncs waker m₀.activation (Writes waker m₀) m₀.sim.pending m₀.beginRound.sim m.sim := by
  obtain ⟨hstate, hend, hok⟩ := h
  cases hstate.progress hplain with
  | ready hb hrun => simp at hend
  | @within m p ran rest s l l' hb hrun hbegun hl hin h =>
      have hlength := congrArg List.length hend
      simp only [onto_stack, List.length_append, List.length_cons] at hlength
      omega
  | finished hrun => exact ⟨rfl, hrun⟩
  | fault hstack => cases hok

def Amid (m₀ m : Machine) : Prop := m.stack ≠ m₀.roundBase ∧ ¬ m.BeforeRound

theorem Leads.roundState {P : Machine → Prop} (hP : ∀ m, P m → m.stack ≠ m₀.roundBase)
    {m m₁ : Machine} (h : Leads waker P m m₁) (hm : RoundState waker m₀ m) :
    RoundState waker m₀ m₁ := by
  induction h with
  | here => exact hm
  | step _ hP₁ hstep ih => exact ih.step (hP _ hP₁) hstep

theorem amid_syncs {c : Control} {a : Activation} {l : List ProcessRef} {s : Simulation} :
    Amid m₀ ⟨c, a, .syncs l :: m₀.roundBase, s⟩ := by
  constructor
  · simp
  · rintro ⟨rest, hs⟩
    cases hs

theorem Within.amid {p : ProcessRef} {a : Activation} {m : Machine} (h : Within p a m)
    (l : List ProcessRef) : Amid m₀ (m.onto (.syncs l :: m₀.roundBase)) := by
  constructor
  · intro heq
    have hlength := congrArg List.length heq
    simp only [onto_stack, List.length_append, List.length_cons] at hlength
    omega
  · rintro ⟨rest, hs⟩
    cases h with
    | leaving c a' name s => cases hs
    | body c a' y g name s ha hy hg =>
        cases y with
        | nil =>
            cases hs
            exact hg
        | cons f y =>
            have hf := hy f (by simp)
            cases hs
            exact hf

theorem Proceeds.leads {p : ProcessRef} {a : Activation} {W : FieldRef → Prop} {l : List Mark}
    {m m₁ : Machine} (h : Proceeds waker p a W l m m₁) (rest : List ProcessRef) :
    Leads waker (Amid m₀) (m.onto (.syncs rest :: m₀.roundBase))
      (m₁.onto (.syncs rest :: m₀.roundBase)) := by
  induction h with
  | refl => exact .here
  | step h hin hstep hl hsim hW ih =>
      exact .step ih (hin.amid rest) (step_onto _ (fun _ _ => hin.innermostBody) hstep)

theorem RunsSyncs.leads {W : ProcessRef → FieldRef → Prop} {l : List ProcessRef}
    {s s' : Simulation} (h : RunsSyncs waker m₀.activation W l s s') (v : Value) :
    Leads waker (Amid m₀) ⟨.done (.value v), m₀.activation, .syncs l :: m₀.roundBase, s⟩
      ⟨.done (.value .none), m₀.activation, m₀.roundBase, s'⟩ := by
  induction h generalizing v with
  | nil s =>
      refine .step .here amid_syncs ?_
      rw [step_done (m := ⟨_, m₀.activation, _, s⟩) rfl rfl]
      rfl
  | @cons p l s s₁ s₂ hp _ ih =>
      obtain ⟨_, _, v', _, _, hproc⟩ := hp
      have hbegin : Leads waker (Amid m₀)
          ⟨.done (.value v), m₀.activation, .syncs (p :: l) :: m₀.roundBase, s⟩
          ((begun m₀.activation p s).onto (.syncs l :: m₀.roundBase)) := by
        refine .step .here amid_syncs ?_
        rw [step_done (m := ⟨_, m₀.activation, _, s⟩) rfl rfl, ← runSync_begun (.done (.value v))]
        rfl
      exact (hbegin.trans (hproc.leads l)).trans (ih v')

/-- A round with its processes in another order comes to the same end, if the processes write
different fields. -/
theorem RoundEnds.perm {m : Machine} {batch batch' : List ProcessRef}
    (h : RoundEnds waker (m₀.withBatch batch) m) (hplain : PlainRound waker (m₀.withBatch batch))
    (hs : m₀.sim.Ordered) (ht : m₀.sim.tree.Sound) (hbatch : batch.Nodup)
    (hW : ∀ p q f, Writes waker (m₀.withBatch batch) p f → Writes waker (m₀.withBatch batch) q f →
      p = q) (hperm : batch.Perm batch') :
    Leads waker (Amid m₀) (m₀.withBatch batch).beginRound m ∧
      Leads waker (Amid m₀) (m₀.withBatch batch').beginRound m := by
  obtain ⟨heq, hrun⟩ := h.runsSyncs hplain
  have hs₀ : (m₀.withBatch batch).beginRound.sim.Ordered := ⟨hs.staged, hs.paused⟩
  have hrun' := hrun.perm hperm hs₀ ht hbatch hW
  rw [heq]
  exact ⟨@RunsSyncs.leads _ m₀ _ _ _ _ hrun .none, @RunsSyncs.leads _ m₀ _ _ _ _ hrun' .none⟩

end Clockwork.Machine
