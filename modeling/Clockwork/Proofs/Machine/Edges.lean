import Clockwork.Proofs.Results
import Clockwork.Proofs.Combs.Wiring
import Clockwork.Proofs.Machine.Addressed
/-!
Rising edges. A clocked process is due if it is pending or if a rising change that starts it is
still to be worked off; a step makes those processes due that a field starts which rises in it.
-/

namespace Clockwork

namespace Tree

def SyncAt (t : Tree) (p : ProcessRef) (f : Function) : Prop :=
  (t.inst p.owner).syncs[p.index]? = some f

theorem SyncAt.owner_lt {t : Tree} {p : ProcessRef} {f : Function} (h : t.SyncAt p f) :
    p.owner < t.size := by
  apply Decidable.byContradiction
  intro hle
  have hnone : t.instances[p.owner]? = none := Array.getElem?_eq_none (Nat.le_of_not_lt hle)
  rw [SyncAt, inst, hnone] at h
  cases h

/-- A field is the clock or the reset of a function of an instance. -/
def StartedBy (t : Tree) (owner : Nat) (f : Function) (g : FieldRef) : Prop :=
  ∃ info e, f.process = some info ∧ (info.clock = some e ∨ info.reset = some e) ∧
    Wiring.fieldOf t owner e = .ok g

/-- A field is the clock or the reset of a clocked process. -/
def Starts (t : Tree) (g : FieldRef) (p : ProcessRef) : Prop :=
  ∃ f, t.SyncAt p f ∧ t.StartedBy p.owner f g

end Tree

namespace Wiring

def started (w : Wiring) (g : FieldRef) : List ProcessRef := (w.triggers.get? g).getD []

theorem mem_started_addTo {w w' : Wiring} {f g : FieldRef} {p q : ProcessRef}
    (h : w'.triggers = addTo w.triggers f p) :
    q ∈ w'.started g ↔ q ∈ w.started g ∨ (q = p ∧ g = f) := by
  rw [started, h, mem_addTo, started, and_comm (a := q = p)]

theorem mem_started_addSync {t : Tree} {w w' : Wiring} {p q : ProcessRef} {f : Function}
    {g : FieldRef} (h : addSync t w p f = .ok w') :
    q ∈ w'.started g ↔ q ∈ w.started g ∨ (q = p ∧ t.StartedBy p.owner f g) := by
  cases hf : f.process with
  | none =>
      simp only [addSync, hf] at h
      cases h
      simp [Tree.StartedBy, hf]
  | some info =>
      have hstarted : t.StartedBy p.owner f g ↔
          (∃ e, info.clock = some e ∧ fieldOf t p.owner e = .ok g) ∨
            ∃ e, info.reset = some e ∧ fieldOf t p.owner e = .ok g := by
        simp [Tree.StartedBy, hf, or_and_right, exists_or]
      simp only [addSync, hf] at h
      rw [hstarted, and_or_left, ← or_assoc]
      cases hc : info.clock with
      | none =>
          rw [hc] at h
          obtain ⟨w₁, hw₁, h⟩ := bind_eq_ok h
          cases hw₁
          cases hr : info.reset with
          | none =>
              rw [hr] at h
              cases h
              simp
          | some e =>
              rw [hr] at h
              obtain ⟨field, hfield, h⟩ := bind_eq_ok h
              cases h
              rw [mem_started_addTo rfl]
              simp [hfield, eq_comm]
      | some c =>
          rw [hc] at h
          obtain ⟨clock, hclock, h⟩ := bind_eq_ok h
          obtain ⟨w₁, hw₁, h⟩ := bind_eq_ok h
          cases hw₁
          cases hr : info.reset with
          | none =>
              rw [hr] at h
              cases h
              rw [mem_started_addTo rfl]
              simp [hclock, eq_comm]
          | some e =>
              rw [hr] at h
              obtain ⟨field, hfield, h⟩ := bind_eq_ok h
              cases h
              rw [mem_started_addTo rfl, mem_started_addTo rfl]
              simp [hclock, hfield, eq_comm]

theorem mem_started_foldlM {t : Tree} {l : List (ProcessRef × Function)} {w w' : Wiring}
    {q : ProcessRef} {g : FieldRef}
    (h : l.foldlM (fun w x => addSync t w x.1 x.2) w = .ok w') :
    q ∈ w'.started g ↔ q ∈ w.started g ∨ ∃ f, (q, f) ∈ l ∧ t.StartedBy q.owner f g := by
  induction l generalizing w with
  | nil =>
      cases h
      simp
  | cons x l ih =>
      rw [List.foldlM_cons] at h
      obtain ⟨w₁, hw₁, h⟩ := bind_eq_ok h
      rw [ih h, mem_started_addSync hw₁, or_assoc]
      apply or_congr Iff.rfl
      constructor
      · rintro (⟨rfl, hx⟩ | ⟨f, hf, hstart⟩)
        · exact ⟨x.2, List.mem_cons_self, hx⟩
        · exact ⟨f, List.mem_cons_of_mem _ hf, hstart⟩
      · rintro ⟨f, hf, hstart⟩
        rcases List.mem_cons.mp hf with rfl | hf
        · exact .inl ⟨rfl, hstart⟩
        · exact .inr ⟨f, hf, hstart⟩

theorem mem_started_addInstance {t : Tree}
    {state state' : Wiring × List (ProcessRef × List FieldRef)} {id : Nat}
    (h : addInstance t state id = .ok state') {q : ProcessRef} {g : FieldRef} :
    q ∈ state'.1.started g ↔ q ∈ state.1.started g ∨ (q.owner = id ∧ t.Starts g q) := by
  obtain ⟨w₁, hw₁, h⟩ := bind_eq_ok h
  obtain ⟨combs, -, h⟩ := bind_eq_ok h
  cases h
  rw [mem_started_foldlM hw₁]
  apply or_congr Iff.rfl
  constructor
  · rintro ⟨f, hf, hstart⟩
    obtain ⟨rfl, hsync⟩ := mem_placed.mp hf
    exact ⟨rfl, f, hsync, hstart⟩
  · rintro ⟨rfl, f, hsync, hstart⟩
    exact ⟨f, mem_placed.mpr ⟨rfl, hsync⟩, hstart⟩

theorem mem_started_instances {t : Tree} {ids : List Nat}
    {state state' : Wiring × List (ProcessRef × List FieldRef)}
    (h : ids.foldlM (addInstance t) state = .ok state') {q : ProcessRef} {g : FieldRef} :
    q ∈ state'.1.started g ↔ q ∈ state.1.started g ∨ (q.owner ∈ ids ∧ t.Starts g q) := by
  induction ids generalizing state with
  | nil =>
      cases h
      simp
  | cons id ids ih =>
      rw [List.foldlM_cons] at h
      obtain ⟨state₁, hstate₁, h⟩ := bind_eq_ok h
      rw [ih h, mem_started_addInstance hstate₁, List.mem_cons, or_and_right, or_assoc]

theorem mem_started_iff {t : Tree} {w : Wiring} {log : List LogRecord}
    (h : ofTree t = .ok (w, log)) {q : ProcessRef} {g : FieldRef} :
    q ∈ w.started g ↔ t.Starts g q := by
  obtain ⟨state, hstate, h⟩ := bind_eq_ok h
  cases h
  refine (mem_started_instances hstate).trans ?_
  constructor
  · rintro (hnil | ⟨-, hstart⟩)
    · simp [started, empty, Table.get?_empty] at hnil
    · exact hstart
  · rintro ⟨f, hsync, hstart⟩
    exact .inr ⟨List.mem_range.mpr hsync.owner_lt, f, hsync, hstart⟩

end Wiring

namespace Simulation

def started? (s : Simulation) (f : FieldRef) : List ProcessRef := s.wiring.started f

variable (s : Simulation) (f : FieldRef) (old new : Value)

theorem mem_pending_changed (p : ProcessRef) :
    p ∈ (s.changed f old new).pending ↔
      p ∈ s.pending ∨ old.truthy = false ∧ new.truthy = true ∧ p ∈ s.started? f := by
  rw [pending_changed]
  simp only [noteEdge]
  split
  · rename_i h
    rw [mem_foldl_note]
    simp only [Bool.and_eq_true, Bool.not_eq_true'] at h
    simp [h, started?, Wiring.started]
  · rename_i h
    simp only [Bool.and_eq_true, Bool.not_eq_true', not_and] at h
    constructor
    · exact .inl
    · rintro (hp | ⟨hold, hnew, -⟩)
      · exact hp
      · exact absurd hnew (h hold)

theorem nodup_pending_changed (h : s.pending.Nodup) : (s.changed f old new).pending.Nodup := by
  rw [pending_changed]
  simp only [noteEdge]
  split
  · exact nodup_foldl_note _ h
  · exact h

end Simulation

/-- The simulations differ in what is paused, pending and under way only. -/
def Simulation.SameButRounds (s s' : Simulation) : Prop :=
  ∃ t l r d, s' = { s with paused := t, pending := l, inRound := r, driveDepth := d }

namespace Simulation.SameButRounds

theorem refl (s : Simulation) : s.SameButRounds s := ⟨_, _, _, _, rfl⟩

theorem trans {s s₁ s₂ : Simulation} (h : s.SameButRounds s₁) (h₁ : s₁.SameButRounds s₂) :
    s.SameButRounds s₂ := by
  obtain ⟨t, l, r, d, rfl⟩ := h
  obtain ⟨t₁, l₁, r₁, d₁, rfl⟩ := h₁
  exact ⟨t₁, l₁, r₁, d₁, rfl⟩

end Simulation.SameButRounds

/-- The changes of a commit that a frame has still to work off. -/
def Frame.dueChanges : Frame → List (FieldRef × Value × Value)
  | .changes l => l
  | _ => []

def Frame.dueSyncs : Frame → List ProcessRef
  | .syncs l => l
  | _ => []

namespace Machine

/-- The changes of a commit that are still to be worked off. -/
def dueChanges (m : Machine) : List (FieldRef × Value × Value) := m.work.flatMap Frame.dueChanges

def dueSyncs (m : Machine) : List ProcessRef := m.work.flatMap Frame.dueSyncs

/-- A process runs in the next round, as far as it can be told by now. -/
def Due (m : Machine) (p : ProcessRef) : Prop :=
  p ∈ m.sim.pending ∨ ∃ c ∈ m.dueChanges, c.2.1.truthy = false ∧ c.2.2.truthy = true ∧
    p ∈ m.sim.started? c.1

/-- The process that the next step runs in a round. -/
def activated? (m : Machine) : Option ProcessRef :=
  match m.beat with
  | .other => none
  | .round => m.sim.pending.head?
  | .sync p => some p

/-- The second machine is at the processes of a round, and differs from the first one in what the
round takes over only. -/
structure Enters (m m₁ : Machine) : Prop where
  stack : ∃ l rest, m₁.stack = .syncs l :: rest
  activation : m₁.activation = m.activation
  paused : m₁.sim.paused = m.sim.paused
  sim : m.sim.SameButRounds m₁.sim

/-- The process is run indeed. -/
theorem step_of_activated {m : Machine} {p : ProcessRef} (h : m.activated? = some p)
    (waker : Waker) : ∃ m₁ : Machine, m.step waker = .go (m₁.runSync p) ∧ m.Enters m₁ := by
  have runs_first : ∀ m₁ : Machine, m.sim.pending.head? = some p → m.sim.SameButRounds m₁.sim →
      m₁.activation = m.activation → m₁.sim.paused = m.sim.paused →
      ∃ m₂ : Machine, m₁.runSyncs m.sim.pending = m₂.runSync p ∧ m.Enters m₂ := by
    intro m₁ hp hsim ha hpaused
    cases hl : m.sim.pending with
    | nil => simp [hl] at hp
    | cons q l =>
        rw [hl] at hp
        cases hp
        exact ⟨{ m₁ with stack := .syncs l :: m₁.stack }, rfl, ⟨l, _, rfl⟩, ha, hpaused, hsim⟩
  have begins : ∀ m₁ : Machine, m₁.sim.pending = m.sim.pending →
      m₁.sim.hasStaged = m.sim.hasStaged → m.hasRound = true → m.sim.pending.head? = some p →
      m.sim.SameButRounds m₁.sim → m₁.activation = m.activation → m₁.sim.paused = m.sim.paused →
      ∃ m₂ : Machine, m₁.round = m₂.runSync p ∧ m.Enters m₂ := by
    intro m₁ hpending hstaged hround hp hsim ha hpaused
    rw [hasRound, ← hpending, ← hstaged, Bool.not_eq_true'] at hround
    rw [round_begin hround, hpending]
    exact runs_first _ hp (hsim.trans ⟨_, _, _, _, rfl⟩) ha hpaused
  unfold activated? beat at h
  split at h
  · cases h
  · rename_i hbeat
    split at hbeat
    · cases hbeat
    · rename_i v rest hc hs
      split at hbeat
      · rename_i hround
        obtain ⟨m₂, hm₂, henters⟩ :=
          begins { m with stack := rest } rfl rfl hround h (.refl _) rfl rfl
        refine ⟨m₂, ?_, henters⟩
        rw [step_done hc hs, ← hm₂]
        rfl
      · cases hbeat
    · rename_i v rest hc hs
      split at hbeat
      · rename_i hround
        obtain ⟨hdepth, hin, hround⟩ := hround
        let m₁ : Machine := { m with stack := rest }
        have hover : ¬ 0 < m₁.undriven.sim.driveDepth := by
          change ¬ 0 < m.sim.driveDepth - 1
          omega
        obtain ⟨m₂, hm₂, henters⟩ := begins { m₁.undriven with
          sim := { m₁.undriven.sim with inRound := true }
          stack := .settled :: rest } rfl rfl hround h ⟨_, _, _, _, rfl⟩ rfl rfl
        refine ⟨m₂, ?_, henters⟩
        rw [step_done hc hs, ← hm₂]
        change Next.go (m₁.endDrive (.value v)) = _
        rw [endDrive_settle hover (by simp), settle_outside (m := m₁.undriven) hin]
        rfl
      · cases hbeat
    · cases hbeat
  · rename_i q hbeat
    cases h
    split at hbeat
    · rename_i v q l rest hc hs
      cases hbeat
      exact ⟨{ m with stack := .syncs l :: rest }, step_done hc hs, ⟨l, rest, rfl⟩,
        rfl, rfl, .refl _⟩
    · split at hbeat <;> cases hbeat
    · split at hbeat <;> cases hbeat
    · cases hbeat

section Steps

variable {outer : FieldRef → Prop} {m m' : Machine} {b : Beat}

theorem started?_of_agrees {s s' : Simulation} (h : s.Agrees s') (f : FieldRef) :
    s'.started? f = s.started? f := by
  rw [Simulation.started?, h.wiring, Simulation.started?]

theorem due_of_agrees (h : m.sim.Agrees m'.sim) (hdue : m'.dueChanges = m.dueChanges)
    (p : ProcessRef) :
    m'.Due p ↔ m.Due p ∨ ∃ f, m.sim.Rose m'.sim f ∧ p ∈ m.sim.started? f := by
  have hnone : ¬ ∃ f, m.sim.Rose m'.sim f ∧ p ∈ m.sim.started? f := by
    rintro ⟨f, hrose, -⟩
    exact Simulation.not_rose_of_signals h.tree h.signals f hrose
  simp only [Due, h.pending, hdue, started?_of_agrees h, hnone, or_false]

theorem due_of_changed {s : Simulation} {f : FieldRef} {old new : Value}
    (hs : (s.changed f old new).Agrees m'.sim) (hwiring : s.wiring = m.sim.wiring)
    (hpending : s.pending = m.sim.pending) (p : ProcessRef) :
    m'.Due p ↔ p ∈ m.sim.pending ∨
      ∃ c ∈ (f, old, new) :: m'.dueChanges, c.2.1.truthy = false ∧ c.2.2.truthy = true ∧
        p ∈ m.sim.started? c.1 := by
  have hstarted : ∀ g, m'.sim.started? g = m.sim.started? g := by
    intro g
    rw [started?_of_agrees hs, Simulation.started?, Simulation.wiring_changed,
      Simulation.started?, ← hwiring]
  have hs_started : s.started? f = m.sim.started? f := by
    rw [Simulation.started?, hwiring, Simulation.started?]
  simp only [Due, hs.pending, Simulation.mem_pending_changed, hpending, hstarted, hs_started,
    List.mem_cons, or_and_right, exists_or, exists_eq_left, or_assoc]

theorem dueChanges_of_work (h : m'.work = m.work) : m'.dueChanges = m.dueChanges := by
  rw [dueChanges, h, dueChanges]

theorem Drives.due {f : FieldRef} {v : Value} {base : List Frame} (h : Drives outer m f v base) :
    base.flatMap Frame.dueChanges = m.dueChanges ∧ base.flatMap Frame.dueSyncs = m.dueSyncs := by
  cases h with
  | write _ _ => exact ⟨rfl, rfl⟩
  | pass hm =>
      simp only [dueChanges, dueSyncs, hm]
      exact ⟨rfl, rfl⟩

theorem WorkStep.design (h : WorkStep outer m b m') : m'.sim.tree = m.sim.tree ∧
    m'.sim.wiring = m.sim.wiring ∧ m'.sim.tracing = m.sim.tracing := by
  have of_changed : ∀ {s : Simulation} {f : FieldRef} {old new : Value},
      (s.changed f old new).Agrees m'.sim →
      m'.sim.tree = s.tree ∧ m'.sim.wiring = s.wiring ∧ m'.sim.tracing = s.tracing := by
    intro s f old new hs
    obtain ⟨p, c, l, heq⟩ := s.changed_eq f old new
    rw [heq] at hs
    exact ⟨hs.tree, hs.wiring, hs.tracing⟩
  cases h with
  | changed _ _ _ _ hs => exact of_changed (s := m.sim.withValue _ _ _) hs
  | unchanged _ _ _ hs =>
      obtain ⟨signals, heq⟩ := m.sim.applyStaged_eq
      rw [heq] at hs
      exact ⟨hs.tree, hs.wiring, hs.tracing⟩
  | commit _ _ _ hs =>
      obtain ⟨signals, heq⟩ := m.sim.applyStaged_eq
      rw [heq] at hs
      exact of_changed (s := { m.sim with signals := signals }) hs
  | change _ _ hs => exact of_changed hs
  | still _ hs | stage _ _ _ _ hs | same _ _ _ _ hs | spent _ _ _ hs | comb _ _ hs | all _ _ hs
  | settle _ _ hs | round _ _ hs | sync _ _ hs => exact ⟨hs.tree, hs.wiring, hs.tracing⟩

theorem due_of_isSpent {g : Frame} (h : g.isSpent = true) :
    g.dueChanges = [] ∧ g.dueSyncs = [] := by
  unfold Frame.isSpent at h
  split at h
  all_goals first | exact ⟨rfl, rfl⟩ | cases h

/-- A step that begins no round makes those processes due that a field starts which rises in it. -/
theorem WorkStep.due (h : WorkStep outer m b m') (ha : Addressed m) (hb : b ≠ .round)
    (p : ProcessRef) :
    m'.Due p ↔ m.Due p ∨ ∃ f, m.sim.Rose m'.sim f ∧ p ∈ m.sim.started? f := by
  cases h with
  | still hwork hs => exact due_of_agrees hs (dueChanges_of_work hwork) p
  | @stage _ f slot v hslot hw hmode hwork hs =>
      have hnone : ¬ ∃ g, m.sim.Rose m'.sim g ∧ p ∈ m.sim.started? g := by
        rintro ⟨g, hrose, -⟩
        obtain ⟨slot', -, hfalse, htrue⟩ := (Simulation.rose_iff (s := m.sim) hs.tree).mp hrose
        rw [Simulation.current_congr hs.signals, Simulation.Coherent.current_stage, hfalse] at htrue
        cases htrue
      simp only [Due, hs.pending, dueChanges_of_work hwork, started?_of_agrees hs, hnone, or_false]
      rfl
  | same hd hslot hv hwork hs =>
      refine due_of_agrees hs ?_ p
      rw [dueChanges, hwork, hd.due.1]
  | @changed _ f slot v base hd hslot hv hwork hs =>
      have hsignal := ha.drives hd hslot
      rw [due_of_changed hs rfl rfl]
      have hdue : m'.dueChanges = m.dueChanges := by
        rw [dueChanges, hwork, ← hd.due.1]
        rfl
      have hrose : ∀ g, m.sim.Rose m'.sim g ↔
          g = f ∧ (m.sim.current f slot).truthy = false ∧
            (v.fit slot.width slot.signed).truthy = true := by
        intro g
        rw [← ha.coherent.rose_withValue hsignal]
        refine Simulation.rose_congr ?_ ?_ g
        · rw [hs.tree, Simulation.tree_changed]
        · rw [hs.signals, Simulation.signals_changed]
      simp only [hrose, hdue, Due, List.mem_cons, or_and_right, exists_or,
        exists_eq_left, and_assoc,
        or_assoc]
      rw [or_comm (b := ∃ c, _)]
  | spent hm hg hwork hs =>
      refine due_of_agrees hs ?_ p
      rw [dueChanges, dueChanges, hm, hwork, List.flatMap_cons, (due_of_isSpent hg).1]
      rfl
  | comb hm hwork hs =>
      refine due_of_agrees hs ?_ p
      rcases hwork with hwork | ⟨d, hwork⟩ <;> rw [dueChanges, dueChanges, hm, hwork] <;> rfl
  | all hm hwork hs =>
      refine due_of_agrees hs ?_ p
      rcases hwork with hwork | ⟨l, hwork | ⟨q, d, hwork⟩⟩ <;>
        rw [dueChanges, dueChanges, hm, hwork] <;> rfl
  | settle hm hwork hs =>
      refine due_of_agrees hs ?_ p
      rw [dueChanges, dueChanges, hm, hwork]
      rfl
  | round => exact absurd rfl hb
  | sync hm hwork hs =>
      refine due_of_agrees hs ?_ p
      rw [dueChanges, dueChanges, hm, hwork]
      rfl
  | unchanged hm hl hwork hs =>
      obtain ⟨signals, heq⟩ := m.sim.applyStaged_eq
      have hnone : ¬ ∃ f, m.sim.Rose m'.sim f ∧ p ∈ m.sim.started? f := by
        rintro ⟨f, hrose, -⟩
        rw [Simulation.rose_congr hs.tree hs.signals, ha.coherent.rose_applyStaged, hl] at hrose
        obtain ⟨_, _, hmem, -⟩ := hrose
        cases hmem
      have hdue : m'.dueChanges = m.dueChanges := by
        rw [dueChanges, dueChanges, hm, hwork]
        rfl
      simp only [Due, hs.pending, hdue, started?_of_agrees hs, hnone, or_false]
      rw [heq]
      rfl
  | @commit _ f old new l hm hl hwork hs =>
      obtain ⟨signals, heq⟩ := m.sim.applyStaged_eq
      have hrose : ∀ g, m.sim.Rose m'.sim g ↔ ∃ old' new', (g, old', new') ∈ (f, old, new) :: l ∧
          old'.truthy = false ∧ new'.truthy = true := by
        intro g
        rw [← hl, ← ha.coherent.rose_applyStaged]
        refine Simulation.rose_congr ?_ ?_ g
        · rw [hs.tree, Simulation.tree_changed]
        · rw [hs.signals, Simulation.signals_changed]
      have hdue : m'.dueChanges = l := by
        rw [dueChanges, hwork]
        simp [Frame.dueChanges]
      have hnone : m.dueChanges = [] := by
        rw [dueChanges, hm]
        rfl
      rw [due_of_changed hs (by rw [heq]) (by rw [heq]), hdue]
      simp only [Due, hnone, hrose, List.not_mem_nil, false_and, exists_false, or_false]
      refine or_congr_right ⟨?_, ?_⟩
      · rintro ⟨⟨g, old', new'⟩, hmem, hold, hnew, hp⟩
        exact ⟨g, ⟨old', new', hmem, hold, hnew⟩, hp⟩
      · rintro ⟨g, ⟨old', new', hmem, hold, hnew⟩, hp⟩
        exact ⟨⟨g, old', new'⟩, hmem, hold, hnew, hp⟩
  | @change _ f old new l hm hwork hs =>
      have hnone : ¬ ∃ g, m.sim.Rose m'.sim g ∧ p ∈ m.sim.started? g := by
        rintro ⟨g, hrose, -⟩
        refine Simulation.not_rose_of_signals ?_ ?_ g hrose
        · rw [hs.tree, Simulation.tree_changed]
        · rw [hs.signals, Simulation.signals_changed]
      have hdue : m'.dueChanges = l := by
        rw [dueChanges, hwork]
        simp [Frame.dueChanges]
      have hbefore : m.dueChanges = (f, old, new) :: l := by
        rw [dueChanges, hm]
        simp [Frame.dueChanges]
      rw [due_of_changed hs rfl rfl, hdue]
      simp only [Due, hbefore, hnone, or_false]

theorem WorkStep.begins (h : WorkStep outer m .round m') :
    m.dueChanges = [] ∧ (∀ p, ¬ m'.Due p) ∧ ∀ f, ¬ m.sim.Rose m'.sim f := by
  cases h with
  | round hm hwork hs =>
      refine ⟨?_, ?_, Simulation.not_rose_of_signals hs.tree hs.signals⟩
      · rcases hm with hm | hm <;> rw [dueChanges, hm] <;> rfl
      · intro p
        have hdue : m'.dueChanges = [] := by
          rw [dueChanges, hwork]
          cases m.sim.pending <;> rfl
        simp [Due, hs.pending, hdue]

theorem WorkStep.nodup (h : WorkStep outer m b m') (hn : m.sim.pending.Nodup) :
    m'.sim.pending.Nodup := by
  obtain ⟨signals, heq⟩ := m.sim.applyStaged_eq
  have hcommit : m.sim.applyStaged.1.pending = m.sim.pending := by rw [heq]
  cases h with
  | changed _ _ _ _ hs =>
      rw [hs.pending]
      exact Simulation.nodup_pending_changed _ _ _ _ hn
  | commit _ _ _ hs =>
      rw [hs.pending]
      exact Simulation.nodup_pending_changed _ _ _ _ (by rwa [hcommit])
  | change _ _ hs =>
      rw [hs.pending]
      exact Simulation.nodup_pending_changed _ _ _ _ hn
  | unchanged _ _ _ hs => rwa [hs.pending, hcommit]
  | round _ _ hs =>
      rw [hs.pending]
      exact List.nodup_nil
  | stage _ _ _ _ hs => rwa [hs.pending]
  | still _ hs | same _ _ _ _ hs | spent _ _ _ hs | comb _ _ hs | all _ _ hs | settle _ _ hs
  | sync _ _ hs => rwa [hs.pending]

theorem WorkStep.dueSyncs_other (h : WorkStep outer m .other m') : m'.dueSyncs = m.dueSyncs := by
  cases h with
  | still hwork hs | stage _ _ _ hwork hs => rw [dueSyncs, hwork, dueSyncs]
  | same hd hslot hv hwork hs => rw [dueSyncs, hwork, hd.due.2]
  | changed hd hslot hv hwork hs =>
      rw [dueSyncs, hwork, ← hd.due.2]
      rfl
  | spent hm hg hwork hs =>
      rw [dueSyncs, dueSyncs, hm, hwork, List.flatMap_cons, (due_of_isSpent hg).2]
      rfl
  | comb hm hwork hs =>
      rcases hwork with hwork | ⟨d, hwork⟩ <;> rw [dueSyncs, dueSyncs, hm, hwork] <;> rfl
  | all hm hwork hs =>
      rcases hwork with hwork | ⟨l, hwork | ⟨q, d, hwork⟩⟩ <;>
        rw [dueSyncs, dueSyncs, hm, hwork] <;> rfl
  | settle hm hwork hs | unchanged hm _ hwork hs | commit hm _ hwork hs | change hm hwork hs =>
      rw [dueSyncs, dueSyncs, hm, hwork]
      rfl

theorem WorkStep.dueSyncs_round (h : WorkStep outer m .round m') :
    m.dueSyncs = [] ∧ m'.dueSyncs = m.sim.pending.tail := by
  cases h with
  | round hm hwork hs =>
      constructor
      · rcases hm with hm | hm <;> rw [dueSyncs, hm] <;> rfl
      · rw [dueSyncs, hwork]
        cases m.sim.pending <;> simp [syncsAfter, Frame.dueSyncs]

theorem WorkStep.dueSyncs_sync {p : ProcessRef} (h : WorkStep outer m (.sync p) m') :
    m.dueSyncs = p :: m'.dueSyncs := by
  cases h with
  | sync hm hwork hs =>
      rw [dueSyncs, dueSyncs, hm, hwork]
      rfl

end Steps

end Machine

end Clockwork
