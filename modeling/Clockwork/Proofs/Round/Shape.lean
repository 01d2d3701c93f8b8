import Clockwork.Proofs.Machine.Calm
import Clockwork.Proofs.Signals
import Clockwork.Proofs.Table

namespace Clockwork

def Frame.isBoundary : Frame → Bool
  | .boundary _ _ => true
  | _ => false

def Frame.ofProcess (p : ProcessRef) : Frame → Prop
  | .syncStep q _ _ | .syncPause q _ => q = p
  | _ => False

theorem Frame.ofProcess.innermostBody {p : ProcessRef} {g : Frame} (hg : g.ofProcess p)
    (rest : List Frame) : Machine.innermostBody (g :: rest) = Machine.innermostBody rest := by
  cases g <;> first | rfl | exact hg.elim

namespace Machine

/-- The frames of a round below its clocked processes. -/
def roundBase (m : Machine) : List Frame := .commit :: .round :: m.stack

/-- The machine before the first clocked process of a round. -/
def beginRound (m : Machine) : Machine :=
  { m with
    control := .done (.value .none)
    stack := .syncs m.sim.pending :: m.roundBase
    sim := { m.sim with pending := [] } }

/-- The machine that the next round begins with, if there is one now that something is pending. -/
def opening? (m : Machine) : Option Machine :=
  match m.control, m.stack with
  | .done (.value _), .round :: rest => some { m with stack := rest }
  | .done (.value _), .driven :: rest =>
    if 0 < m.undriven.sim.driveDepth ∨ m.sim.inRound = true then none
    else
      some { m.undriven with
        sim := { m.undriven.sim with inRound := true }
        stack := .settled :: rest }
  | _, _ => none

theorem opening?_cases {m m₀ : Machine} (h : m.opening? = some m₀) :
    ∃ v rest, m.control = .done (.value v) ∧
      ((m.stack = .round :: rest ∧ m₀ = { m with stack := rest }) ∨
        (m.stack = .driven :: rest ∧ ¬ 0 < m.undriven.sim.driveDepth ∧ m.sim.inRound = false ∧
          m₀ = { m.undriven with
            sim := { m.undriven.sim with inRound := true }
            stack := .settled :: rest })) := by
  unfold opening? at h
  split at h
  · rename_i v rest hc hs
    cases h
    exact ⟨v, rest, hc, .inl ⟨hs, rfl⟩⟩
  · rename_i v rest hc hs
    split at h
    · cases h
    · rename_i hnone
      cases h
      rw [not_or, Bool.not_eq_true] at hnone
      exact ⟨v, rest, hc, .inr ⟨hs, hnone.1, hnone.2, rfl⟩⟩
  · cases h

theorem opening?_outside {m m₀ : Machine} (h : m.opening? = some m₀) (hm : m.sim.inRound = false)
    (hm₀ : m₀.sim.inRound = true) : ∃ below, m₀.stack = .settled :: below := by
  obtain ⟨v, rest, -, ⟨-, rfl⟩ | ⟨-, -, -, rfl⟩⟩ := opening?_cases h
  · simp [hm] at hm₀
  · exact ⟨rest, rfl⟩

/-- The states of a round up to its commit. -/
inductive RoundState (waker : Waker) (m₀ : Machine) : Machine → Prop
  | start : RoundState waker m₀ m₀.beginRound
  | step {m m' : Machine} (h : RoundState waker m₀ m) (hs : m.stack ≠ m₀.roundBase)
      (hstep : m.step waker = .go m') : RoundState waker m₀ m'

/-- Whether a state of a round is within the callback of an event: a second body stands above that
of the clocked process. -/
def InCallback (m₀ m : Machine) : Prop :=
  ∃ x, m.stack = x ++ m₀.roundBase ∧ 2 ≤ x.countP Frame.isBoundary

/-- What a round that began with the simulation `s₀` keeps while the processes `ran` run. -/
structure Kept (s₀ : Simulation) (ran : List ProcessRef) (s : Simulation) : Prop where
  tree : s.tree = s₀.tree
  wiring : s.wiring = s₀.wiring
  inRound : s.inRound = true
  paused : ∀ q, q ∉ ran → s.paused.get? q = s₀.paused.get? q

/-- What is kept when the process `p` comes to a fault: `p` will begin anew, unless it did not
begin since its reset could not be read. -/
def Faulty (s₀ : Simulation) (ran : List ProcessRef) (p : ProcessRef) (s : Simulation) : Prop :=
  (Kept s₀ (ran ++ [p]) s ∧ s.paused.get? p = none) ∨
    (Kept s₀ ran s ∧ ∃ e, isReset s₀ p = .error e)

namespace Kept

theorem start {s₀ : Simulation} (h : s₀.inRound = true) :
    Kept s₀ [] { s₀ with pending := [] } := ⟨rfl, rfl, h, fun _ _ => rfl⟩

theorem samePauses {s₀ s s' : Simulation} {ran : List ProcessRef} (h : Kept s₀ ran s)
    (hs : s.SamePauses s') : Kept s₀ ran s' :=
  ⟨hs.tree.trans h.tree, hs.wiring.trans h.wiring, hs.inRound.trans h.inRound,
    fun q hq => by rw [hs.paused, h.paused q hq]⟩

theorem erase {s₀ s : Simulation} {ran : List ProcessRef} (h : Kept s₀ ran s) (p : ProcessRef) :
    Kept s₀ (ran ++ [p]) { s with paused := s.paused.erase p } := by
  refine ⟨h.tree, h.wiring, h.inRound, ?_⟩
  intro q hq
  rw [List.mem_append, List.mem_singleton, not_or] at hq
  rw [Table.get?_erase_of_ne _ hq.2]
  exact h.paused q hq.1

theorem insert {s₀ s : Simulation} {ran : List ProcessRef} {p : ProcessRef}
    (h : Kept s₀ (ran ++ [p]) s) (pause : Pause) :
    Kept s₀ (ran ++ [p]) { s with paused := s.paused.insert p pause } := by
  refine ⟨h.tree, h.wiring, h.inRound, ?_⟩
  intro q hq
  have hne : q ≠ p := fun heq => hq (by simp [heq])
  rw [Table.get?_insert_of_ne _ hne]
  exact h.paused q hq

theorem widen {s₀ s : Simulation} {ran : List ProcessRef} (h : Kept s₀ ran s) (p : ProcessRef) :
    Kept s₀ (ran ++ [p]) s :=
  ⟨h.tree, h.wiring, h.inRound, fun q hq => h.paused q fun hr => hq (by simp [hr])⟩

end Kept

/-- The shapes of the states of a round. What is kept is kept only if the round runs among rounds,
since a callback could start rounds of its own otherwise. -/
inductive RoundShape (m₀ : Machine) : Machine → Prop
  | ready (v : Value) (a : Activation) (s : Simulation) (ran rest : List ProcessRef)
      (hb : m₀.sim.pending = ran ++ rest) (hk : m₀.sim.inRound = true → Kept m₀.sim ran s) :
      RoundShape m₀ ⟨.done (.value v), a, .syncs rest :: m₀.roundBase, s⟩
  | finished (v : Value) (a : Activation) (s : Simulation) :
      RoundShape m₀ ⟨.done (.value v), a, m₀.roundBase, s⟩
  | failing (e : SimError) (a : Activation) (s : Simulation) (ran : List ProcessRef)
      (p : ProcessRef) (rest : List ProcessRef) (hb : m₀.sim.pending = ran ++ p :: rest)
      (hk : m₀.sim.inRound = true → Faulty m₀.sim ran p s) :
      RoundShape m₀ ⟨.done (.failed e), a, .syncs rest :: m₀.roundBase, s⟩
  | failed (e : SimError) (a : Activation) (s : Simulation) (ran : List ProcessRef)
      (p : ProcessRef) (rest : List ProcessRef) (hb : m₀.sim.pending = ran ++ p :: rest)
      (hk : m₀.sim.inRound = true → Faulty m₀.sim ran p s) :
      RoundShape m₀ ⟨.done (.failed e), a, m₀.roundBase, s⟩
  | leaving (c : Completion) (a : Activation) (s : Simulation) (name : String)
      (caller : Activation) (ran : List ProcessRef) (p : ProcessRef) (rest : List ProcessRef)
      (hb : m₀.sim.pending = ran ++ p :: rest)
      (hk : m₀.sim.inRound = true →
        Kept m₀.sim (ran ++ [p]) s ∧ ∀ e, c = .failed e → s.paused.get? p = none) :
      RoundShape m₀ ⟨.done c, a, .boundary name caller :: .syncs rest :: m₀.roundBase, s⟩
  | body (c : Control) (a : Activation) (s : Simulation) (y : List Frame) (g : Frame)
      (name : String) (caller : Activation) (ran : List ProcessRef) (p : ProcessRef)
      (rest : List ProcessRef) (hb : m₀.sim.pending = ran ++ p :: rest)
      (hk : m₀.sim.inRound = true →
        Kept m₀.sim (ran ++ [p]) s ∧ s.paused.get? p = none)
      (ha : a.mode = .staged) (hy : ∀ g ∈ y, g.inBody .staged) (hg : g.ofProcess p) :
      RoundShape m₀
        ⟨c, a, y ++ g :: .boundary name caller :: .syncs rest :: m₀.roundBase, s⟩
  | callback (c : Control) (a : Activation) (s : Simulation) (x : List Frame) (hook : String)
      (a' : Activation) (y : List Frame) (g : Frame) (name : String) (caller : Activation)
      (ran : List ProcessRef) (p : ProcessRef) (rest : List ProcessRef)
      (hb : m₀.sim.pending = ran ++ p :: rest)
      (hk : m₀.sim.inRound = true →
        Kept m₀.sim (ran ++ [p]) s ∧ s.paused.get? p = none ∧ ∀ f ∈ x, f.calm)
      (ha : a'.mode = .staged) (hy : ∀ g ∈ y, g.inBody .staged) (hg : g.ofProcess p) :
      RoundShape m₀
        ⟨c, a, x ++ .boundary hook a' :: .discard ::
          (y ++ g :: .boundary name caller :: .syncs rest :: m₀.roundBase), s⟩

theorem isReset_error {s s' : Simulation} (ht : s'.tree = s.tree) (hw : s'.wiring = s.wiring)
    {p : ProcessRef} {e : SimError} (h : isReset s p = .error e) : isReset s' p = .error e := by
  simp only [isReset, hw] at h ⊢
  cases hf : s.wiring.resets.get? p with
  | none =>
      rw [hf] at h
      cases h
  | some f =>
      rw [hf] at h
      dsimp only at h ⊢
      cases hread : s.readField f with
      | error e' =>
          rw [hread] at h
          rw [Simulation.readField_error ht hread]
          exact h
      | ok v =>
          rw [hread] at h
          cases h

/-- A move of a round: it keeps the shape, and no field gets another value. -/
structure RoundMove (m₀ : Machine) (s : Simulation) (m : Machine) : Prop where
  shape : RoundShape m₀ m
  values : s.SameValues m.sim

theorem RoundMove.after {m₀ m : Machine} {s s₁ : Simulation} (h : RoundMove m₀ s₁ m)
    (hs : s.SameValues s₁) : RoundMove m₀ s m := ⟨h.shape, hs.trans h.values⟩

section Moves

variable {m₀ : Machine} {a : Activation} {s : Simulation} {ran : List ProcessRef}
  {p : ProcessRef} {rest : List ProcessRef}

theorem pause_roundMove (c : Control) (name : String) (caller : Activation)
    (hb : m₀.sim.pending = ran ++ p :: rest)
    (hk : m₀.sim.inRound = true → Kept m₀.sim (ran ++ [p]) s ∧ s.paused.get? p = none)
    (next : Nat) (cycles : Int) :
    RoundMove m₀ s
      ((⟨c, a, .boundary name caller :: .syncs rest :: m₀.roundBase, s⟩ : Machine).pause p next
        cycles) := by
  refine ⟨.leaving _ a _ name caller ran p rest hb ?_, fun _ => rfl⟩
  intro hr
  exact ⟨(hk hr).1.insert _, fun e he => by cases he⟩

/-- A clocked process begins or goes on with its next statement, or is over. -/
theorem syncBody_roundMove (c : Control) (name : String) (caller : Activation)
    (hb : m₀.sim.pending = ran ++ p :: rest)
    (hk : m₀.sim.inRound = true → Kept m₀.sim (ran ++ [p]) s ∧ s.paused.get? p = none)
    (ha : a.mode = .staged) (next : Nat) (body : List Stmt) :
    RoundMove m₀ s
      ((⟨c, a, .boundary name caller :: .syncs rest :: m₀.roundBase, s⟩ : Machine).syncBody p
        next body) := by
  cases body with
  | nil =>
      refine ⟨.leaving _ a s name caller ran p rest hb ?_, .refl s⟩
      exact fun hr => ⟨(hk hr).1, fun _ _ => (hk hr).2⟩
  | cons stmt body =>
      simp only [syncBody]
      split
      · exact pause_roundMove c name caller hb hk _ 1
      · rename_i e _ _
        exact ⟨.body (.eval e) a s [] (.syncPause p (next + 1)) name caller ran p rest hb hk ha
          (by simp) rfl, .refl s⟩
      · exact ⟨.body (.exec stmt) a s [] (.syncStep p (next + 1) body) name caller ran p rest hb hk
          ha (by simp) rfl, .refl s⟩

theorem resumeSync_roundMove (c : Control) (hb : m₀.sim.pending = ran ++ p :: rest)
    (hk : m₀.sim.inRound = true → Kept m₀.sim (ran ++ [p]) s ∧ s.paused.get? p = none)
    (f : Function) (next : Nat) (locals : Table String Value) :
    RoundMove m₀ s
      ((⟨c, a, .syncs rest :: m₀.roundBase, s⟩ : Machine).resumeSync p f next locals) := by
  apply syncBody_roundMove c f.name a hb hk
  rfl

theorem runSyncs_roundMove (c : Control) (rest : List ProcessRef)
    (hb : m₀.sim.pending = ran ++ rest) (hk : m₀.sim.inRound = true → Kept m₀.sim ran s) :
    RoundMove m₀ s ((⟨c, a, m₀.roundBase, s⟩ : Machine).runSyncs rest) := by
  cases rest with
  | nil => exact ⟨.finished .none a s, .refl s⟩
  | cons p rest =>
      have hb' : m₀.sim.pending = (ran ++ [p]) ++ rest := by rw [hb]; simp
      simp only [runSyncs, runSync]
      split
      · exact ⟨.ready .none a s _ rest hb' fun hr => (hk hr).widen p, .refl s⟩
      · rename_i f _
        cases hreset : isReset s p with
        | error e =>
            refine ⟨.failing e a s ran p rest hb fun hr => .inr ⟨hk hr, e, ?_⟩, .refl s⟩
            exact isReset_error (hk hr).tree.symm (hk hr).wiring.symm hreset
        | ok reset =>
            have hk' : m₀.sim.inRound = true →
                Kept m₀.sim (ran ++ [p]) { s with paused := s.paused.erase p } ∧
                  (s.paused.erase p).get? p = none :=
              fun hr => ⟨(hk hr).erase p, Table.get?_erase_self _ p⟩
            simp only [withResult]
            split
            · exact (resumeSync_roundMove c hb hk' f 0 .empty).after fun _ => rfl
            · rename_i pause _
              split
              · exact ⟨.ready .none a _ _ rest hb' fun hr => (hk' hr).1.insert _, fun _ => rfl⟩
              · exact (resumeSync_roundMove c hb hk' f pause.next pause.locals).after fun _ => rfl

theorem RoundShape.ofCallback {m : Machine} {x : List Frame} {hook : String} {a' : Activation}
    {y : List Frame} {g : Frame} {name : String} {caller : Activation}
    (hs : m.stack = x ++ .boundary hook a' :: .discard ::
      (y ++ g :: .boundary name caller :: .syncs rest :: m₀.roundBase))
    (hb : m₀.sim.pending = ran ++ p :: rest)
    (hk : m₀.sim.inRound = true →
      Kept m₀.sim (ran ++ [p]) m.sim ∧ m.sim.paused.get? p = none ∧ ∀ f ∈ x, f.calm)
    (ha : a'.mode = .staged) (hy : ∀ g ∈ y, g.inBody .staged) (hg : g.ofProcess p) :
    RoundShape m₀ m := by
  obtain ⟨c, a, stack, s⟩ := m
  cases hs
  exact .callback c a s x hook a' y g name caller ran p rest hb hk ha hy hg

theorem ofProcess_roundMove {g : Frame} {name : String} {caller : Activation}
    (hb : m₀.sim.pending = ran ++ p :: rest)
    (hk : m₀.sim.inRound = true → Kept m₀.sim (ran ++ [p]) s ∧ s.paused.get? p = none)
    (ha : a.mode = .staged) (hg : g.ofProcess p) (k : Control) (c : Completion) :
    RoundMove m₀ s
      ((⟨k, a, .boundary name caller :: .syncs rest :: m₀.roundBase, s⟩ : Machine).accept g c) := by
  have leave : ∀ c, RoundMove m₀ s
      ⟨.done c, a, .boundary name caller :: .syncs rest :: m₀.roundBase, s⟩ := fun c =>
    ⟨.leaving c a s name caller ran p rest hb fun hr => ⟨(hk hr).1, fun _ _ => (hk hr).2⟩,
      .refl s⟩
  cases g with
  | syncStep q next body =>
      obtain rfl : q = p := hg
      cases c with
      | value v => exact syncBody_roundMove k name caller hb hk ha next body
      | _ => exact leave _
  | syncPause q next =>
      obtain rfl : q = p := hg
      cases c with
      | value v =>
          simp only [accept, resume]
          cases v.asInt with
          | ok n => exact pause_roundMove k name caller hb hk next n
          | error e => exact leave _
      | _ => exact leave _
  | _ => exact hg.elim

theorem write_roundMove {c : Control} {y : List Frame} {g : Frame} {name : String}
    {caller : Activation} (hb : m₀.sim.pending = ran ++ p :: rest)
    (hk : m₀.sim.inRound = true → Kept m₀.sim (ran ++ [p]) s ∧ s.paused.get? p = none)
    (ha : a.mode = .staged) (hy : ∀ g ∈ y, g.inBody .staged) (hg : g.ofProcess p)
    (f : FieldRef) (v : Value) :
    RoundMove m₀ s
      ((⟨c, a, y ++ g :: .boundary name caller :: .syncs rest :: m₀.roundBase, s⟩ :
        Machine).write f v .staged) := by
  have fails : ∀ e, RoundMove m₀ s
      ⟨.done (.failed e), a, y ++ g :: .boundary name caller :: .syncs rest :: m₀.roundBase, s⟩ :=
    fun e => ⟨.body _ a s y g name caller ran p rest hb hk ha hy hg, .refl s⟩
  simp only [write]
  split
  · exact fails _
  · rename_i slot _
    cases slot.storage with
    | signal =>
        refine ⟨.body _ a _ y g name caller ran p rest hb ?_ ha hy hg, s.readField_stage f slot v⟩
        exact fun hr => ⟨(hk hr).1.samePauses ⟨rfl, rfl, rfl, rfl⟩, (hk hr).2⟩
    | _ => exact fails _

theorem body_roundMove {waker : Waker} {c : Control} {y : List Frame} {g : Frame} {name : String}
    {caller : Activation} {m' : Machine} (hb : m₀.sim.pending = ran ++ p :: rest)
    (hk : m₀.sim.inRound = true → Kept m₀.sim (ran ++ [p]) s ∧ s.paused.get? p = none)
    (ha : a.mode = .staged) (hy : ∀ g ∈ y, g.inBody .staged) (hg : g.ofProcess p)
    (h : (⟨c, a, y ++ g :: .boundary name caller :: .syncs rest :: m₀.roundBase, s⟩ :
      Machine).step waker = .go m') : RoundMove m₀ s m' := by
  have mild : ∀ {s'}, s.Mild s' → m₀.sim.inRound = true →
      Kept m₀.sim (ran ++ [p]) s' ∧ s'.paused.get? p = none := by
    intro s' hs hr
    obtain ⟨hkept, hnone⟩ := hk hr
    exact ⟨hkept.samePauses hs.samePauses, by rw [hs.samePauses.paused, hnone]⟩
  by_cases hend : y = [] ∧ ∃ c', c = .done c'
  · obtain ⟨rfl, c', rfl⟩ := hend
    rw [List.nil_append, step_done (m := ⟨.done c', a, _, s⟩) rfl rfl] at h
    cases h
    exact ofProcess_roundMove hb hk ha hg (.done c') c'
  · have hgo : y ≠ [] ∨ ∀ c', c ≠ .done c' := by
      by_cases hnil : y = []
      · exact .inr fun c' hc => hend ⟨hnil, c', hc⟩
      · exact .inl hnil
    have htail : innermostBody (g :: .boundary name caller :: .syncs rest :: m₀.roundBase) =
        some (name, .boundary name caller :: .syncs rest :: m₀.roundBase) :=
      hg.innermostBody _
    have hstep := step_body rfl htail ha hy hgo h
    cases hstep with
    | quiet c' a' y' s' ha' hy' hs =>
        exact ⟨.body c' a' s' y' g name caller ran p rest hb (mild hs) ha' hy' hg, hs.readField⟩
    | cut e s' hs =>
        exact ⟨.leaving _ a s' name caller ran p rest hb
          fun hr => ⟨(mild hs hr).1, fun _ _ => (mild hs hr).2⟩, hs.readField⟩
    | write y' f v _ hy' => exact write_roundMove hb hk ha hy' hg f v
    | callback y' k hook hk' hy' =>
        have hs := s.mild_setKernel hk'
        let m₁ : Machine := ⟨c, a, .boundary hook.method a :: .discard ::
          (y' ++ g :: .boundary name caller :: .syncs rest :: m₀.roundBase), s.setKernel k⟩
        obtain ⟨fs, hfs, hcalm⟩ :=
          (callFunction_calm (m := m₁) hook.owner hook.method [] [] .immediate).frames
        have hsim := callFunction_sim (m := m₁) hook.owner hook.method [] [] .immediate
        have hmove : RoundMove m₀ s
            (m₁.callFunction hook.owner hook.method [] [] .immediate) := by
          refine ⟨.ofCallback hfs hb ?_ ha hy' hg, ?_⟩
          · rw [hsim]
            exact fun hr => ⟨(mild hs hr).1, (mild hs hr).2, hcalm⟩
          · rw [hsim]
            exact hs.readField
        exact hmove

/-- A step of a round keeps the shape, and only within a callback a field gets another value. -/
theorem RoundShape.step {waker : Waker} {m m' : Machine} (h : RoundShape m₀ m)
    (hs : m.stack ≠ m₀.roundBase) (hstep : m.step waker = .go m') :
    RoundShape m₀ m' ∧ (m.sim.SameValues m'.sim ∨ InCallback m₀ m) := by
  have done : RoundMove m₀ m.sim m' →
      RoundShape m₀ m' ∧ (m.sim.SameValues m'.sim ∨ InCallback m₀ m) :=
    fun hmove => ⟨hmove.shape, .inl hmove.values⟩
  cases h with
  | ready v a s ran rest hb hk =>
      rw [step_done (m := ⟨_, a, _, s⟩) rfl rfl] at hstep
      cases hstep
      exact done (runSyncs_roundMove _ rest hb hk)
  | finished v a s => exact absurd rfl hs
  | failing e a s ran p rest hb hk =>
      rw [step_done (m := ⟨_, a, _, s⟩) rfl rfl] at hstep
      cases hstep
      exact done ⟨.failed e a s ran p rest hb hk, .refl s⟩
  | failed e a s ran p rest hb hk => exact absurd rfl hs
  | leaving c a s name caller ran p rest hb hk =>
      have hb' : m₀.sim.pending = (ran ++ [p]) ++ rest := by rw [hb]; simp
      rw [step_done (m := ⟨_, a, _, s⟩) rfl rfl] at hstep
      cases hstep
      cases c with
      | failed e =>
          exact done ⟨.failing e caller s ran p rest hb
            fun hr => .inl ⟨(hk hr).1, (hk hr).2 e rfl⟩, .refl s⟩
      | _ => exact done ⟨.ready _ caller s _ rest hb' fun hr => (hk hr).1, .refl s⟩
  | body c a s y g name caller ran p rest hb hk ha hy hg =>
      exact done (body_roundMove hb hk ha hy hg hstep)
  | callback c a s x hook a' y g name caller ran p rest hb hk ha hy hg =>
      have hin : InCallback m₀ ⟨c, a, x ++ .boundary hook a' :: .discard ::
          (y ++ g :: .boundary name caller :: .syncs rest :: m₀.roundBase), s⟩ := by
        refine ⟨x ++ .boundary hook a' :: .discard ::
          (y ++ [g, .boundary name caller, .syncs rest]), by simp, ?_⟩
        simp only [List.countP_append, List.countP_cons, Frame.isBoundary]
        simp
        omega
      refine ⟨?_, .inr hin⟩
      by_cases hr : m₀.sim.inRound = true
      · obtain ⟨hkept, hnone, hcalm⟩ := hk hr
        obtain ⟨hsim, hnext⟩ := step_calm rfl hcalm hkept.inRound hstep
        have hkept' : Kept m₀.sim (ran ++ [p]) m'.sim ∧ m'.sim.paused.get? p = none :=
          ⟨hkept.samePauses hsim, by rw [hsim.paused]; exact hnone⟩
        rcases hnext with ⟨x', hx', hcalm'⟩ | ⟨_, c', rfl⟩
        · exact .ofCallback hx' hb (fun _ => ⟨hkept'.1, hkept'.2, hcalm'⟩) ha hy hg
        · refine .body _ a' s (.discard :: y) g name caller ran p rest hb (fun _ => hkept') ha ?_ hg
          rintro f (_ | ⟨_, hf⟩)
          · trivial
          · exact hy f hf
      · rcases step_above_boundary rfl hstep with ⟨x', hx'⟩ | ⟨_, c', rfl⟩
        · exact .ofCallback hx' hb (fun hr' => absurd hr' hr) ha hy hg
        · refine .body _ a' s (.discard :: y) g name caller ran p rest hb
            (fun hr' => absurd hr' hr) ha ?_ hg
          rintro f (_ | ⟨_, hf⟩)
          · trivial
          · exact hy f hf

theorem RoundState.shape {waker : Waker} {m : Machine} (h : RoundState waker m₀ m) :
    RoundShape m₀ m := by
  induction h with
  | start =>
      refine .ready .none m₀.activation _ [] m₀.sim.pending rfl ?_
      exact fun hr => .start hr
  | step _ hs hstep ih => exact (ih.step hs hstep).1

end Moves

end Machine

end Clockwork
