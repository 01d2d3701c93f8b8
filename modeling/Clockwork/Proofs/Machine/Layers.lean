import Clockwork.Proofs.Signals
import Clockwork.Proofs.Machine.Calm

namespace Clockwork

namespace Frame

/-- Whether a frame works off changes or runs rounds, and so is no part of a body. -/
def isWork : Frame → Bool
  | .propagate _ _ | .combs _ | .combOver _ _ | .driven | .settled | .round | .syncs _ | .commit
  | .changes _ => true
  | _ => false

/-- Whether the combinational processes that depend on a field are run above a frame. -/
def carriesCombs : Frame → Bool
  | .propagate _ _ | .driven | .changes _ => true
  | _ => false

def isCombOver : Frame → Bool
  | .combOver _ _ => true
  | _ => false

def isDriven : Frame → Bool
  | .driven => true
  | _ => false

def isSettled : Frame → Bool
  | .settled => true
  | _ => false

end Frame

namespace Machine

/-- The mode of writes above some frames: those of clocked processes are staged. -/
def modeAt : List Frame → WriteMode
  | [] => .immediate
  | .boundary _ _ :: .syncs _ :: _ => .staged
  | .boundary _ _ :: _ => .immediate
  | _ :: rest => modeAt rest

def onBody : List Frame → Bool
  | [] => true
  | f :: _ => !f.isWork

end Machine

def Frame.LiesOn (below : List Frame) : Frame → Prop
  | .propagate _ _ => ∃ l rest, below = .combs l :: rest
  | .combs _ => ∃ f rest, below = f :: rest ∧ f.carriesCombs = true
  | .combOver _ depth =>
    depth = below.countP isCombOver + 1 ∧ ∃ l rest, below = .combs l :: rest
  | .settled => ∀ f ∈ below, f.isWork = false
  | .round => ∃ rest, below = .settled :: rest
  | .syncs _ => ∃ rest, below = .commit :: rest
  | .syncStep _ _ _ | .syncPause _ _ =>
    ∃ name caller l rest, below = .boundary name caller :: .syncs l :: rest
  | .commit | .changes _ => ∃ rest, below = .round :: rest
  | .boundary _ caller =>
    caller.mode = Machine.modeAt below ∧
      (Machine.onBody below = true ∨ (∃ p depth rest, below = .combOver p depth :: rest) ∨
        ∃ l rest, below = .syncs l :: rest)
  | .returning caller =>
    Machine.onBody below = true ∧
      (caller.mode = Machine.modeAt below ∨
        ∃ name caller' rest, below = .boundary name caller' :: rest)
  | .calling _ _ | .clock _ _ _ _ | .clockEdge _ _ _ _ =>
    Machine.onBody below = true ∧ Machine.modeAt below = .immediate
  | _ => Machine.onBody below = true

/-- Whether a completion reaches the frames that work off changes: a value or a fault. -/
def Completion.isPlain : Completion → Bool
  | .value _ | .failed _ => true
  | _ => false

namespace Machine

def LayeredStack : List Frame → Prop
  | [] => True
  | f :: rest => f.LiesOn rest ∧ LayeredStack rest

/-- The counters of a simulation are those of a stack. -/
structure Counted (s : Simulation) (stack : List Frame) : Prop where
  driveDepth : s.driveDepth = stack.countP Frame.isDriven
  combDepth : s.combDepth = stack.countP Frame.isCombOver
  inRound : s.inRound = stack.any Frame.isSettled

/-- A layered stack with an activation and counters that fit it. -/
structure Placed (m : Machine) : Prop where
  stack : LayeredStack m.stack
  counted : Counted m.sim m.stack
  mode : m.activation.mode = modeAt m.stack

/-- What holds of all states of a run. A function that must not wait leaves its caller's activation
at the end of its body, where nothing but that end is left to do. -/
structure Layered (m : Machine) : Prop where
  stack : LayeredStack m.stack
  counted : Counted m.sim m.stack
  control : onBody m.stack = false → ∃ c, m.control = .done c ∧ c.isPlain = true
  mode : m.activation.mode = modeAt m.stack ∨
    (∃ c, m.control = .done c) ∧ ∃ name caller rest, m.stack = .boundary name caller :: rest

/-- The frames of a stack that work off changes or run rounds. -/
def work (m : Machine) : List Frame := m.stack.filter Frame.isWork

end Machine

/-- The simulations agree on all but waits and calls, objects, paused processes, cover points and
the log. -/
def Simulation.Still (s s' : Simulation) : Prop :=
  s.kernel.AddsCalls s'.kernel ∧
    ∃ k o p c l, s' = { s with kernel := k, objects := o, paused := p, covers := c, log := l }

namespace Simulation

theorem Still.refl (s : Simulation) : s.Still s := ⟨.refl _, _, _, _, _, _, rfl⟩

theorem Mild.still {s s' : Simulation} (h : s.Mild s') : s.Still s' := by
  obtain ⟨hk, k, o, c, l, rfl⟩ := h
  exact ⟨hk, _, _, _, _, _, rfl⟩

theorem still_setPaused (s : Simulation) (p : Table ProcessRef Pause) :
    s.Still { s with paused := p } := ⟨.refl _, _, _, _, _, _, rfl⟩

end Simulation

namespace Machine

theorem Counted.congr {s s' : Simulation} {stack : List Frame} (h : Counted s stack)
    (hd : s'.driveDepth = s.driveDepth) (hc : s'.combDepth = s.combDepth)
    (hr : s'.inRound = s.inRound) : Counted s' stack :=
  ⟨hd.trans h.driveDepth, hc.trans h.combDepth, hr.trans h.inRound⟩

theorem Counted.still {s s' : Simulation} {stack : List Frame} (h : Counted s stack)
    (hs : s.Still s') : Counted s' stack := by
  obtain ⟨-, k, o, p, c, l, rfl⟩ := hs
  exact h.congr rfl rfl rfl

theorem isWork_of_inBody {mode : WriteMode} {f : Frame} (h : f.inBody mode) : f.isWork = false := by
  cases f <;> first | rfl | exact h.elim

theorem Counted.append_iff {s : Simulation} {fs : List Frame} (hfs : ∀ g ∈ fs, g.isWork = false)
    (rest : List Frame) : Counted s (fs ++ rest) ↔ Counted s rest := by
  have hd : fs.countP Frame.isDriven = 0 := by
    rw [List.countP_eq_zero]
    intro g hg hd
    have := hfs g hg
    cases g <;> simp_all [Frame.isWork, Frame.isDriven]
  have hc : fs.countP Frame.isCombOver = 0 := by
    rw [List.countP_eq_zero]
    intro g hg hc
    have := hfs g hg
    cases g <;> simp_all [Frame.isWork, Frame.isCombOver]
  have hr : fs.any Frame.isSettled = false := by
    rw [List.any_eq_false]
    intro g hg hr
    have := hfs g hg
    cases g <;> simp_all [Frame.isWork, Frame.isSettled]
  constructor
  · rintro ⟨h₁, h₂, h₃⟩
    exact ⟨by simpa [hd] using h₁, by simpa [hc] using h₂, by simpa [hr] using h₃⟩
  · rintro ⟨h₁, h₂, h₃⟩
    exact ⟨by simpa [hd] using h₁, by simpa [hc] using h₂, by simpa [hr] using h₃⟩

theorem Counted.cons_iff {s : Simulation} {f : Frame} (hd : f.isDriven = false)
    (hc : f.isCombOver = false) (hr : f.isSettled = false) (rest : List Frame) :
    Counted s (f :: rest) ↔ Counted s rest := by
  constructor
  · rintro ⟨h₁, h₂, h₃⟩
    exact ⟨by simpa [hd] using h₁, by simpa [hc] using h₂, by simpa [hr] using h₃⟩
  · rintro ⟨h₁, h₂, h₃⟩
    exact ⟨by simpa [hd] using h₁, by simpa [hc] using h₂, by simpa [hr] using h₃⟩

theorem filter_append_body {fs : List Frame} (hfs : ∀ g ∈ fs, g.isWork = false)
    (rest : List Frame) : (fs ++ rest).filter Frame.isWork = rest.filter Frame.isWork := by
  rw [List.filter_append, List.filter_eq_nil_iff.mpr]
  · rfl
  · intro g hg
    simp [hfs g hg]

theorem modeAt_cons {f : Frame} (hf : ∀ name caller, f ≠ .boundary name caller)
    (rest : List Frame) : modeAt (f :: rest) = modeAt rest := by
  cases f <;> first | rfl | exact absurd rfl (hf _ _)

theorem modeAt_append_inBody {mode : WriteMode} {fs : List Frame} (hfs : ∀ g ∈ fs, g.inBody mode)
    (rest : List Frame) : modeAt (fs ++ rest) = modeAt rest := by
  induction fs with
  | nil => rfl
  | cons f fs ih =>
      have hf := hfs f (by simp)
      rw [List.cons_append, modeAt_cons]
      · exact ih fun g hg => hfs g (by simp [hg])
      · intro name caller heq
        rw [heq] at hf
        exact hf

theorem liesOn_of_inBody {f : Frame} {below : List Frame} (hf : f.inBody (modeAt below))
    (hb : onBody below = true) : f.LiesOn below := by
  cases f with
  | returning caller => exact ⟨hb, .inl hf⟩
  | boundary | calling | propagate | combs | combOver | driven | settled | round | syncs
  | syncStep | syncPause | commit | changes | clock | clockEdge => exact hf.elim
  | _ => exact hb

theorem onBody_append {fs rest : List Frame} (hfs : ∀ g ∈ fs, g.isWork = false)
    (hb : onBody rest = true) : onBody (fs ++ rest) = true := by
  cases fs with
  | nil => exact hb
  | cons f fs => simp [onBody, hfs f]

theorem layeredStack_append {fs rest : List Frame} (hfs : ∀ g ∈ fs, g.inBody (modeAt rest))
    (h : LayeredStack rest) (hb : onBody rest = true) : LayeredStack (fs ++ rest) := by
  induction fs with
  | nil => exact h
  | cons f fs ih =>
      have hrest : ∀ g ∈ fs, g.inBody (modeAt rest) := fun g hg => hfs g (by simp [hg])
      have hf : f.inBody (modeAt (fs ++ rest)) := by
        rw [modeAt_append_inBody hrest]
        exact hfs f (by simp)
      refine ⟨liesOn_of_inBody hf ?_, ih hrest⟩
      exact onBody_append (fun g hg => isWork_of_inBody (hrest g hg)) hb

namespace Placed

variable {m : Machine}

theorem layered (h : Placed m) (hb : onBody m.stack = true) : Layered m :=
  ⟨h.stack, h.counted, fun hn => absurd hb (by simp [hn]), .inl h.mode⟩

theorem complete (h : Placed m) {c : Completion} (hc : c.isPlain = true) :
    Layered (m.complete c) :=
  ⟨h.stack, h.counted, fun _ => ⟨c, rfl, hc⟩, .inl h.mode⟩

theorem withSim (h : Placed m) {s : Simulation} (hs : Counted s m.stack) :
    Placed (m.setSim s) := ⟨h.stack, hs, h.mode⟩

theorem cons (h : Placed m) {f : Frame} (hf : f.LiesOn m.stack) (hd : f.isDriven = false)
    (hc : f.isCombOver = false) (hr : f.isSettled = false)
    (hm : ∀ name caller, f ≠ .boundary name caller) : Placed { m with stack := f :: m.stack } :=
  ⟨⟨hf, h.stack⟩, (Counted.cons_iff hd hc hr _).mpr h.counted, h.mode.trans (modeAt_cons hm _).symm⟩

theorem push (h : Placed m) {f : Frame} (hf : f.LiesOn m.stack) (hw : f.isWork = false)
    (hm : ∀ name caller, f ≠ .boundary name caller) {c : Control} : Layered (m.push f c) := by
  have hcounted : Counted m.sim ([f] ++ m.stack) := by
    rw [Counted.append_iff (by simpa using hw)]
    exact h.counted
  refine ⟨⟨hf, h.stack⟩, hcounted, ?_, .inl (h.mode.trans (modeAt_cons hm _).symm)⟩
  intro hn
  simp [Machine.push, onBody, hw] at hn

end Placed

end Machine

namespace Simulation

theorem trace_eq (s : Simulation) (f : FieldRef) (name : String) (old new : Value) :
    ∃ c l, s.trace f name old new = { s with changes := c, log := l } := by
  simp only [trace]
  split <;> exact ⟨_, _, rfl⟩

theorem noteEdge_eq (s : Simulation) (f : FieldRef) (old new : Value) :
    ∃ p, s.noteEdge f old new = { s with pending := p } := by
  unfold noteEdge
  split
  · exact ⟨_, rfl⟩
  · exact ⟨_, rfl⟩

theorem announce_eq (s : Simulation) (f : FieldRef) (name : String) (old new : Value) :
    ∃ p c l, (s.trace f name old new).noteEdge f old new =
      { s with pending := p, changes := c, log := l } := by
  obtain ⟨c, l, h⟩ := s.trace_eq f name old new
  obtain ⟨p, h₁⟩ := (s.trace f name old new).noteEdge_eq f old new
  refine ⟨p, c, l, ?_⟩
  rw [h₁, h]

end Simulation

namespace Machine

section Work

variable {m : Machine}

theorem announce_layered {f : FieldRef} {name : String} {old new : Value} {l : List ProcessRef}
    {after : List Frame} (h : Placed { m with stack := .combs l :: (after ++ m.stack) }) :
    Layered (m.announce f name old new (.combs l :: after)) := by
  obtain ⟨p, c, log, heq⟩ := m.sim.announce_eq f name old new
  have hplaced : Placed
      { m with
        sim := (m.sim.trace f name old new).noteEdge f old new
        stack := .combs l :: (after ++ m.stack) } := by
    rw [heq]
    exact h.withSim (h.counted.congr rfl rfl rfl)
  exact (hplaced.cons (f := .propagate _ new) ⟨l, _, rfl⟩ rfl rfl rfl (by simp)).complete
    (c := .value .none) rfl

theorem drive_layered (h : Placed m) {g : Frame} {rest : List Frame} (hs : m.stack = g :: rest)
    (hg : g.carriesCombs = true) (f : FieldRef) (v : Value) : Layered (m.drive f v) := by
  cases hslot : m.sim.tree.slot f.owner f.index with
  | error e =>
      rw [drive_error hslot]
      exact h.complete rfl
  | ok slot =>
      cases hv : ((m.sim.signalsOf f.owner).read slot.key).same
          (v.fit slot.width slot.signed) with
      | true =>
          rw [drive_same hslot hv]
          exact h.complete rfl
      | false =>
          rw [drive_changed hslot hv]
          apply announce_layered
          have hset := h.withSim (s := m.sim.withValue f slot (v.fit slot.width slot.signed))
            (h.counted.congr rfl rfl rfl)
          exact hset.cons ⟨g, rest, hs, hg⟩ rfl rfl rfl (by simp)

theorem driveAndSettle_layered (h : Placed m) (hb : onBody m.stack = true) (f : FieldRef)
    (v : Value) : Layered (m.driveAndSettle f v) := by
  have hplaced : Placed
      { m with
        sim := { m.sim with driveDepth := m.sim.driveDepth + 1 }
        stack := .driven :: m.stack } := by
    refine ⟨⟨hb, h.stack⟩, ?_, h.mode⟩
    obtain ⟨hd, hc, hr⟩ := h.counted
    refine ⟨?_, ?_, ?_⟩
    · rw [List.countP_cons_of_pos rfl, hd]
    · rw [List.countP_cons_of_neg (by simp [Frame.isCombOver]), hc]
    · simp [Frame.isSettled, ← hr]
  exact drive_layered hplaced rfl rfl f v

theorem write_layered (h : Placed m) (hb : onBody m.stack = true) (f : FieldRef) (v : Value)
    (mode : WriteMode) : Layered (m.write f v mode) := by
  simp only [write]
  split
  · exact h.complete rfl
  · split
    · exact (h.withSim (s := m.sim.stage f _ v) (h.counted.congr rfl rfl rfl)).complete rfl
    · exact driveAndSettle_layered h hb f v
    · exact h.complete rfl
    · exact h.complete rfl

theorem block_layered (h : Placed m) (hb : onBody m.stack = true) (body : List Stmt) :
    Layered (m.block body) := by
  cases body with
  | nil => exact h.complete rfl
  | cons s rest => exact h.push (f := .block rest) hb rfl (by simp)

theorem boundary_placed (h : Placed m) {n : String} {a : Activation}
    (hl : (Frame.boundary n m.activation).LiesOn m.stack)
    (ha : a.mode = modeAt (.boundary n m.activation :: m.stack)) :
    Placed { m with stack := .boundary n m.activation :: m.stack, activation := a } :=
  ⟨⟨hl, h.stack⟩, (Counted.cons_iff rfl rfl rfl _).mpr h.counted, ha⟩

theorem runComb_layered (h : Placed m) {l : List ProcessRef} {rest : List Frame}
    (hs : m.stack = .combs l :: rest) (p : ProcessRef) : Layered (m.runComb p) := by
  simp only [runComb]
  split
  · exact h.complete rfl
  · rename_i f _
    split
    · exact h.complete rfl
    · obtain ⟨hd, hc, hr⟩ := h.counted
      let m₁ : Machine :=
        { m with
          sim := { m.sim with combDepth := m.sim.combDepth + 1 }
          stack := .combOver p (m.sim.combDepth + 1) :: m.stack }
      have hplaced : Placed m₁ := by
        refine ⟨⟨⟨by rw [hc], l, rest, hs⟩, h.stack⟩, ⟨?_, ?_, ?_⟩, h.mode⟩
        · rw [List.countP_cons_of_neg (by simp [Frame.isDriven]), ← hd]
        · rw [List.countP_cons_of_pos rfl, ← hc]
        · simpa [m₁, Frame.isSettled] using hr
      have hbody := boundary_placed (m := m₁) (n := f.name)
        (a := .begin p.owner f.name .immediate) hplaced
        ⟨hplaced.mode, .inr (.inl ⟨_, _, _, rfl⟩)⟩ rfl
      exact block_layered hbody rfl f.body

theorem runCombs_layered (h : Placed m) {g : Frame} {rest : List Frame} (hs : m.stack = g :: rest)
    (hg : g.carriesCombs = true) (l : List ProcessRef) : Layered (m.runCombs l) := by
  cases l with
  | nil => exact h.complete rfl
  | cons p l =>
      exact runComb_layered (h.cons (f := .combs l) ⟨g, rest, hs, hg⟩ rfl rfl rfl (by simp)) rfl p

theorem pause_layered (h : Placed m) (p : ProcessRef) (next : Nat) (cycles : Int) :
    Layered (m.pause p next cycles) := by
  refine (h.withSim ?_).complete rfl
  exact h.counted.congr rfl rfl rfl

theorem syncBody_layered (h : Placed m)
    (hs : ∃ name caller l rest, m.stack = .boundary name caller :: .syncs l :: rest)
    (p : ProcessRef) (next : Nat) (body : List Stmt) : Layered (m.syncBody p next body) := by
  cases body with
  | nil => exact h.complete rfl
  | cons s rest =>
      simp only [syncBody]
      split
      · exact pause_layered h p _ 1
      · exact h.push (f := .syncPause p (next + 1)) hs rfl (by simp)
      · exact h.push (f := .syncStep p (next + 1) rest) hs rfl (by simp)

theorem runSync_layered (h : Placed m) {l : List ProcessRef} {rest : List Frame}
    (hs : m.stack = .syncs l :: rest) (p : ProcessRef) : Layered (m.runSync p) := by
  have resume : ∀ paused f next locals, Layered
      ((m.setSim { m.sim with paused := paused }).resumeSync p f next locals) := by
    intro paused f next locals
    have hset := h.withSim (s := { m.sim with paused := paused }) (h.counted.congr rfl rfl rfl)
    have hmode : WriteMode.staged = modeAt (.boundary f.name m.activation :: m.stack) := by
      rw [hs]
      rfl
    exact syncBody_layered
      (boundary_placed (m := m.setSim { m.sim with paused := paused }) (n := f.name)
        (a := { Activation.begin p.owner f.name .staged with locals := locals }) hset
        ⟨hset.mode, .inr (.inr ⟨l, rest, hs⟩)⟩ hmode) ⟨_, _, l, rest, congrArg _ hs⟩ p next _
  simp only [runSync]
  split
  · exact h.complete rfl
  · rename_i f _
    cases isReset m.sim p with
    | error e => exact h.complete rfl
    | ok reset =>
        simp only [withResult]
        split
        · exact resume _ f 0 .empty
        · rename_i pause _
          split
          · refine Placed.complete (m := m.setSim _) (h.withSim ?_) rfl
            exact h.counted.congr rfl rfl rfl
          · exact resume _ f pause.next pause.locals

theorem runSyncs_layered (h : Placed m) {rest : List Frame} (hs : m.stack = .commit :: rest)
    (l : List ProcessRef) : Layered (m.runSyncs l) := by
  cases l with
  | nil => exact h.complete rfl
  | cons p l =>
      exact runSync_layered (h.cons (f := .syncs l) ⟨rest, hs⟩ rfl rfl rfl (by simp)) rfl p

theorem workOff_layered (h : Placed m) {rest : List Frame} (hs : m.stack = .round :: rest)
    (l : List (FieldRef × Value × Value)) : Layered (m.workOff l) := by
  rcases l with _ | ⟨⟨f, old, new⟩, l⟩
  · exact h.complete rfl
  · apply announce_layered
    have hchanges : Placed { m with stack := .changes l :: m.stack } :=
      h.cons ⟨rest, hs⟩ rfl rfl rfl (by simp)
    exact hchanges.cons ⟨_, _, rfl, rfl⟩ rfl rfl rfl (by simp)

theorem commit_layered (h : Placed m) {rest : List Frame} (hs : m.stack = .round :: rest) :
    Layered m.commit := by
  obtain ⟨signals, heq⟩ := m.sim.applyStaged_eq
  refine workOff_layered (m := m.setSim m.sim.applyStaged.1) (h.withSim ?_) hs _
  rw [heq]
  exact h.counted.congr rfl rfl rfl

theorem round_layered (h : Placed m) {rest : List Frame} (hs : m.stack = .settled :: rest) :
    Layered m.round := by
  cases hb : m.sim.pending.isEmpty && !m.sim.hasStaged with
  | true =>
      rw [round_over hb]
      exact h.complete rfl
  | false =>
      rw [round_begin hb]
      have hround : Placed { m with stack := .round :: m.stack } :=
        h.cons ⟨rest, hs⟩ rfl rfl rfl (by simp)
      have hcommit : Placed { m with stack := .commit :: .round :: m.stack } :=
        hround.cons ⟨_, rfl⟩ rfl rfl rfl (by simp)
      exact runSyncs_layered
        (hcommit.withSim (s := { m.sim with pending := [] }) (hcommit.counted.congr rfl rfl rfl))
        rfl _

/-- Whatever is worked off belongs to a write or to rounds. -/
theorem LayeredStack.no_work {l : List Frame} (h : LayeredStack l)
    (hd : l.countP Frame.isDriven = 0) (hr : l.any Frame.isSettled = false) :
    ∀ f ∈ l, f.isWork = false := by
  induction l with
  | nil => simp
  | cons f l ih =>
      obtain ⟨hf, hl⟩ := h
      have hrest := ih hl (by simp_all [List.countP_cons]) (by simp_all)
      have hno : ∀ {g rest}, l = g :: rest → g.isWork = true → False := by
        intro g rest heq hg
        have := hrest g (by simp [heq])
        simp [hg] at this
      intro g hg
      rcases List.mem_cons.mp hg with rfl | hg
      · cases g with
        | propagate =>
            obtain ⟨_, _, heq⟩ := hf
            exact (hno heq rfl).elim
        | combs =>
            obtain ⟨g, _, heq, hg⟩ := hf
            refine (hno heq ?_).elim
            cases g <;> first | rfl | cases hg
        | combOver =>
            obtain ⟨-, _, _, heq⟩ := hf
            exact (hno heq rfl).elim
        | driven => simp [Frame.isDriven] at hd
        | settled => simp [Frame.isSettled] at hr
        | round | syncs | commit | changes =>
            obtain ⟨_, heq⟩ := hf
            exact (hno heq rfl).elim
        | _ => rfl
      · exact hrest g hg

theorem Placed.settling (h : Placed m) (hd : m.sim.driveDepth = 0) (hr : m.sim.inRound = false) :
    Placed { m with sim := { m.sim with inRound := true }, stack := .settled :: m.stack } := by
  obtain ⟨hdriven, hcomb, hround⟩ := h.counted
  have hnone := h.stack.no_work (hdriven.symm.trans hd) (hround.symm.trans hr)
  refine ⟨⟨hnone, h.stack⟩, ⟨?_, ?_, ?_⟩, h.mode⟩
  · rw [List.countP_cons_of_neg (by simp [Frame.isDriven]), ← hdriven]
  · rw [List.countP_cons_of_neg (by simp [Frame.isCombOver]), ← hcomb]
  · rfl

theorem settle_layered (h : Placed m) (hd : m.sim.driveDepth = 0) : Layered m.settle := by
  cases hr : m.sim.inRound with
  | true =>
      rw [settle_inRound hr]
      exact h.complete rfl
  | false =>
      rw [settle_outside hr]
      exact round_layered (h.settling hd hr) rfl

theorem Placed.undriven (h : Placed { m with stack := .driven :: m.stack }) :
    Placed m.undriven := by
  obtain ⟨⟨-, hstack⟩, ⟨hd, hcomb, hr⟩, hmode⟩ := h
  refine ⟨hstack, ⟨?_, ?_, ?_⟩, hmode⟩
  · rw [List.countP_cons_of_pos rfl] at hd
    exact Nat.sub_eq_of_eq_add hd
  · rwa [List.countP_cons_of_neg (by simp [Frame.isCombOver])] at hcomb
  · exact hr

theorem endDrive_layered (h : Placed { m with stack := .driven :: m.stack })
    {c : Completion} (hc : c.isPlain = true) : Layered (m.endDrive c) := by
  have hplaced := h.undriven
  by_cases hin : 0 < m.undriven.sim.driveDepth
  · rw [endDrive_inner c hin]
    exact hplaced.complete hc
  · cases c with
    | failed e =>
        cases hr : m.sim.inRound with
        | true =>
            rw [endDrive_failed_inRound e hin hr]
            exact hplaced.complete rfl
        | false =>
            rw [endDrive_failed_outside e hin hr]
            exact (hplaced.withSim (s := m.undriven.sim.discardPending)
              (hplaced.counted.congr rfl rfl rfl)).complete rfl
    | _ =>
        rw [endDrive_settle hin (by simp)]
        exact settle_layered hplaced (Nat.eq_zero_of_not_pos hin)

end Work

section Steps

variable {m : Machine}

theorem Layered.placed (h : Layered m)
    (hn : ∀ name caller rest, m.stack ≠ .boundary name caller :: rest) : Placed m := by
  refine ⟨h.stack, h.counted, h.mode.resolve_right ?_⟩
  rintro ⟨-, name, caller, rest, hs⟩
  exact hn name caller rest hs

theorem Placed.pop {f : Frame} {rest : List Frame} (h : Placed m) (hs : m.stack = f :: rest)
    (hd : f.isDriven = false) (hc : f.isCombOver = false) (hr : f.isSettled = false)
    (hm : ∀ name caller, f ≠ .boundary name caller) : Placed { m with stack := rest } := by
  obtain ⟨hstack, hcounted, hmode⟩ := h
  rw [hs] at hstack hcounted hmode
  exact ⟨hstack.2, (Counted.cons_iff hd hc hr _).mp hcounted, hmode.trans (modeAt_cons hm _)⟩

/-- What a frame that works off changes or runs rounds makes of a value or a fault. -/
theorem Layered.accept_work {f : Frame} {rest : List Frame} {c : Completion} (h : Layered m)
    (hs : m.stack = f :: rest) (hc : m.control = .done c) (hf : f.isWork = true) :
    Layered ({ m with stack := rest }.accept f c) := by
  have hplain : c.isPlain = true := by
    obtain ⟨c', hc', hplain⟩ := h.control (by simp [hs, onBody, hf])
    rw [hc] at hc'
    cases hc'
    exact hplain
  have hm : ∀ name caller, f ≠ .boundary name caller := by
    rintro name caller rfl
    cases hf
  have hplaced := h.placed fun name caller rest' hs' => by
    rw [hs] at hs'
    cases hs'
    cases hf
  have hlies : f.LiesOn rest := by
    have hstack := h.stack
    rw [hs] at hstack
    exact hstack.1
  have pop : f.isDriven = false → f.isCombOver = false → f.isSettled = false →
      Placed { m with stack := rest } := fun hd hcomb hr => hplaced.pop hs hd hcomb hr hm
  have pass : f.isDriven = false → f.isCombOver = false → f.isSettled = false → ∀ c' : Completion,
      c'.isPlain = true → Layered ({ m with stack := rest }.complete c') :=
    fun hd hcomb hr c' hc' => (pop hd hcomb hr).complete hc'
  cases f with
  | propagate targets v =>
      cases c with
      | value v' =>
          cases targets with
          | nil => exact pass rfl rfl rfl _ rfl
          | cons g targets =>
              have hnext :=
                (pop rfl rfl rfl).cons (f := .propagate targets v) hlies rfl rfl rfl (by simp)
              exact drive_layered hnext rfl rfl g v
      | _ => exact pass rfl rfl rfl _ hplain
  | combs l =>
      cases c with
      | value v' =>
          obtain ⟨g, below, hrest, hg⟩ := hlies
          exact runCombs_layered (pop rfl rfl rfl) hrest hg l
      | _ => exact pass rfl rfl rfl _ hplain
  | combOver p depth =>
      have hover : Placed
          { m with stack := rest, sim := { m.sim with combDepth := depth - 1 } } := by
        obtain ⟨hstack, ⟨hd, hcomb, hr⟩, hmode⟩ := hplaced
        rw [hs] at hstack hd hcomb hr hmode
        refine ⟨hstack.2, ⟨?_, ?_, hr⟩, hmode⟩
        · rwa [List.countP_cons_of_neg (by simp [Frame.isDriven])] at hd
        · exact Nat.sub_eq_of_eq_add hlies.1
      cases c with
      | value v' => exact hover.complete rfl
      | _ => exact hover.complete hplain
  | driven =>
      have hdriven : Placed { m with stack := .driven :: rest } := by rwa [← hs]
      cases c with
      | value v' => exact endDrive_layered (m := { m with stack := rest }) hdriven hplain
      | _ => exact endDrive_layered (m := { m with stack := rest }) hdriven hplain
  | settled =>
      have hover : Placed { m with stack := rest, sim := { m.sim with inRound := false } } := by
        obtain ⟨hstack, ⟨hd, hcomb, hr⟩, hmode⟩ := hplaced
        rw [hs] at hstack hd hcomb hr hmode
        refine ⟨hstack.2, ⟨?_, ?_, ?_⟩, hmode⟩
        · rwa [List.countP_cons_of_neg (by simp [Frame.isDriven])] at hd
        · rwa [List.countP_cons_of_neg (by simp [Frame.isCombOver])] at hcomb
        · symm
          rw [List.any_eq_false]
          intro g hg hset
          have := hlies g hg
          cases g <;> simp_all [Frame.isWork, Frame.isSettled]
      cases c with
      | value v' => exact hover.complete rfl
      | failed e =>
          exact (hover.withSim (s := { m.sim with inRound := false }.discardPending)
            (hover.counted.congr rfl rfl rfl)).complete hplain
      | _ => cases hplain
  | round =>
      cases c with
      | value v' =>
          obtain ⟨below, hrest⟩ := hlies
          exact round_layered (pop rfl rfl rfl) hrest
      | _ => exact pass rfl rfl rfl _ hplain
  | syncs l =>
      cases c with
      | value v' =>
          obtain ⟨below, hrest⟩ := hlies
          exact runSyncs_layered (pop rfl rfl rfl) hrest l
      | _ => exact pass rfl rfl rfl _ hplain
  | commit =>
      cases c with
      | value v' =>
          obtain ⟨below, hrest⟩ := hlies
          exact commit_layered (pop rfl rfl rfl) hrest
      | _ => exact pass rfl rfl rfl _ hplain
  | changes l =>
      cases c with
      | value v' =>
          obtain ⟨below, hrest⟩ := hlies
          exact workOff_layered (pop rfl rfl rfl) hrest l
      | _ => exact pass rfl rfl rfl _ hplain
  | _ => cases hf

/-- How a run gets on: a body goes on by itself, or writes a field in the mode of its place, or a
frame that works off changes or runs rounds takes a value or a fault. -/
inductive LayerMove (m : Machine) : Machine → Prop
  | still {m' : Machine} (hw : m'.work = m.work) (hs : m.sim.Still m'.sim)
      (hhead : ∀ rest, m'.stack ≠ .settled :: rest) : LayerMove m m'
  | write (rest : List Frame) (f : FieldRef) (v : Value) (hp : Placed { m with stack := rest })
      (hb : onBody rest = true) (hrest : rest.filter Frame.isWork = m.work)
      (hmode : m.activation.mode = modeAt rest)
      (hw : m.write? = some (f, v)) :
      LayerMove m ({ m with stack := rest }.write f v (modeAt rest))
  | engine (f : Frame) (rest : List Frame) (c : Completion) (hf : f.isWork = true)
      (hc : m.control = .done c) (hplain : c.isPlain = true) (hs : m.stack = f :: rest) :
      LayerMove m ({ m with stack := rest }.accept f c)

theorem head_of_onBody {l : List Frame} (h : onBody l = true) (rest : List Frame) :
    l ≠ .settled :: rest := by
  rintro rfl
  cases h

theorem Placed.quiet (h : Placed m) (hb : onBody m.stack = true) {c : Control} {a : Activation}
    {fs : List Frame} {s : Simulation} (ha : a.mode = modeAt m.stack)
    (hf : ∀ g ∈ fs, g.inBody (modeAt m.stack)) (hs : m.sim.Still s) :
    Layered ⟨c, a, fs ++ m.stack, s⟩ := by
  have hwork : ∀ g ∈ fs, g.isWork = false := fun g hg => isWork_of_inBody (hf g hg)
  refine Placed.layered ⟨layeredStack_append hf h.stack hb, ?_, ?_⟩ (onBody_append hwork hb)
  · exact ((Counted.append_iff hwork _).mpr h.counted).still hs
  · exact ha.trans (modeAt_append_inBody hf _).symm

theorem callFunction_cases (m : Machine) (owner : Nat) (name : String) (args : List Value)
    (keywords : List (String × Value)) (mode : WriteMode) :
    (∃ e, m.callFunction owner name args keywords mode = m.fail e) ∨
      ∃ a body, a.mode = mode ∧ m.callFunction owner name args keywords mode =
        { m with stack := .returning m.activation :: m.stack, activation := a }.block body := by
  simp only [callFunction]
  split
  · exact .inl ⟨_, rfl⟩
  · split
    · exact .inl ⟨_, rfl⟩
    · exact .inr ⟨_, _, rfl, rfl⟩

theorem callFunction_layered (h : Placed m) (hb : onBody m.stack = true) (owner : Nat)
    (name : String) (args : List Value) (keywords : List (String × Value)) {mode : WriteMode}
    (hmode : mode = modeAt m.stack) :
    Layered (m.callFunction owner name args keywords mode) := by
  rcases m.callFunction_cases owner name args keywords mode with ⟨e, heq⟩ | ⟨a, body, ha, heq⟩
  · rw [heq]
    exact h.complete rfl
  · rw [heq]
    have hreturning : Placed { m with stack := .returning m.activation :: m.stack } :=
      h.cons ⟨hb, .inl h.mode⟩ rfl rfl rfl (by simp)
    refine block_layered (m := { m with
      stack := .returning m.activation :: m.stack
      activation := a }) ⟨hreturning.stack, hreturning.counted, ?_⟩ rfl body
    exact ha.trans hmode

theorem modeAt_boundary {l : List Frame} (hb : onBody l = true) (name : String) (a : Activation) :
    modeAt (.boundary name a :: l) = .immediate := by
  cases l with
  | nil => rfl
  | cons f l => cases f <;> first | rfl | cases hb

/-- The call of a function that must not wait. Its caller's activation comes back before the end
of its body. -/
theorem callNow_layered (h : Placed m) (hb : onBody m.stack = true) (owner : Nat) (name : String)
    (args : List Value) : Layered (m.callNow owner name args) := by
  have hl : (Frame.boundary name m.activation).LiesOn m.stack := ⟨h.mode, .inl hb⟩
  have hcounted : Counted m.sim (.boundary name m.activation :: m.stack) :=
    (Counted.cons_iff rfl rfl rfl _).mpr h.counted
  simp only [callNow]
  rcases ({ m with stack := .boundary name m.activation :: m.stack } :
    Machine).callFunction_cases owner name args [] .immediate with ⟨e, heq⟩ | ⟨a, body, ha, heq⟩
  · rw [heq]
    refine ⟨⟨hl, h.stack⟩, hcounted, ?_, .inr ⟨⟨_, rfl⟩, _, _, _, rfl⟩⟩
    intro hn
    cases hn
  · rw [heq]
    refine block_layered (m := { m with
      stack := .returning m.activation :: .boundary name m.activation :: m.stack
      activation := a }) ⟨⟨⟨rfl, .inr ⟨_, _, _, rfl⟩⟩, hl, h.stack⟩, ?_, ?_⟩ rfl body
    · exact (Counted.cons_iff rfl rfl rfl _).mpr hcounted
    · exact ha.trans (modeAt_boundary hb name m.activation).symm

theorem block_work (m : Machine) (body : List Stmt) : (m.block body).work = m.work := by
  cases body <;> rfl

theorem block_sim (m : Machine) (body : List Stmt) : (m.block body).sim = m.sim := by
  cases body <;> rfl

theorem onBody_block {m : Machine} (hb : onBody m.stack = true) (body : List Stmt) :
    onBody (m.block body).stack = true := by
  cases body with
  | nil => exact hb
  | cons s rest => rfl

theorem callFunction_work (m : Machine) (owner : Nat) (name : String) (args : List Value)
    (keywords : List (String × Value)) (mode : WriteMode) :
    (m.callFunction owner name args keywords mode).work = m.work := by
  rcases m.callFunction_cases owner name args keywords mode with ⟨e, heq⟩ | ⟨a, body, -, heq⟩
  · rw [heq]
    rfl
  · rw [heq, block_work]
    rfl

theorem callNow_work (m : Machine) (owner : Nat) (name : String) (args : List Value) :
    (m.callNow owner name args).work = m.work := by
  exact callFunction_work _ owner name args [] .immediate

theorem setEvent_work (m : Machine) (event : Nat) : (m.setEvent event).work = m.work := by
  simp only [setEvent]
  split
  · rfl
  · rw [callNow_work]
    rfl
  · split <;> rfl

theorem callNow_sim (m : Machine) (owner : Nat) (name : String) (args : List Value) :
    (m.callNow owner name args).sim = m.sim := by
  simp only [callNow]
  exact callFunction_sim owner name args [] .immediate

theorem CalmMove.head {m' : Machine} (h : CalmMove m m') (hb : onBody m.stack = true)
    (below : List Frame) : m'.stack ≠ .settled :: below := by
  obtain ⟨⟨fs, hfs, hcalm⟩, -⟩ := h
  intro hs
  rw [hfs] at hs
  cases fs with
  | nil => exact head_of_onBody hb below hs
  | cons f fs =>
      cases hs
      exact hcalm .settled (by simp)

/-- The frames `rest` are those of a machine, perhaps less one of a body, and a body may go on above
them. -/
structure Bodily (m : Machine) (rest : List Frame) : Prop where
  placed : Placed { m with stack := rest }
  onBody : onBody rest = true
  work : rest.filter Frame.isWork = m.work

namespace Bodily

variable {rest : List Frame}

theorem still (h : Bodily m rest) {m' : Machine} (hl : Layered m') (hw : m'.work = m.work)
    (hs : m.sim.Still m'.sim) (hm : CalmMove { m with stack := rest } m') :
    Layered m' ∧ LayerMove m m' := ⟨hl, .still hw hs (hm.head h.onBody)⟩

theorem complete (h : Bodily m rest) (c : Completion) :
    Layered ({ m with stack := rest }.complete c) ∧
      LayerMove m ({ m with stack := rest }.complete c) := by
  refine h.still ?_ h.work (.refl _) (.here _ _ (.refl _))
  exact Placed.layered ⟨h.placed.stack, h.placed.counted, h.placed.mode⟩ h.onBody

theorem move (h : Bodily m rest) {m' : Machine}
    (hm : BodyMove (modeAt rest) m.write? { m with stack := rest } m') :
    Layered m' ∧ LayerMove m m' := by
  cases hm with
  | quiet c a fs s ha hf hs =>
      have hfs : ∀ g ∈ fs, g.isWork = false := fun g hg => isWork_of_inBody (hf g hg)
      refine ⟨h.placed.quiet h.onBody ha hf hs.still, .still ?_ hs.still ?_⟩
      · exact (filter_append_body hfs _).trans h.work
      · exact head_of_onBody (onBody_append hfs h.onBody)
  | write f v hw =>
      exact ⟨write_layered h.placed h.onBody f v _,
        .write rest f v h.placed h.onBody h.work h.placed.mode hw⟩
  | callback k hook hk =>
      have hs := m.sim.mild_setKernel hk
      have hdiscard : Placed
          { m with stack := .discard :: rest, sim := m.sim.setKernel k } :=
        (h.placed.withSim (h.placed.counted.still hs.still)).cons (f := .discard) h.onBody rfl rfl
          rfl (by simp)
      refine ⟨callNow_layered hdiscard rfl hook.owner hook.method [], .still ?_ ?_ ?_⟩
      · exact (callNow_work _ _ _ _).trans h.work
      · rw [callNow_sim]
        exact hs.still
      · exact (callNow_calm hook.owner hook.method []).head rfl

end Bodily

theorem Layered.looking (h : Layered m) (hc : ∀ c, m.control ≠ .done c) : Bodily m m.stack := by
  refine ⟨⟨h.stack, h.counted, h.mode.resolve_right ?_⟩, ?_, rfl⟩
  · rintro ⟨⟨c, hdone⟩, -⟩
    exact hc c hdone
  · cases hb : onBody m.stack with
    | true => rfl
    | false =>
        obtain ⟨c, hdone, -⟩ := h.control hb
        exact absurd hdone (hc c)

theorem innermostBody_eq {l rest : List Frame} {process : String}
    (h : innermostBody l = some (process, rest)) :
    ∃ z caller tail, l = z ++ rest ∧ rest = .boundary process caller :: tail ∧
      ∀ g ∈ z, ∀ name caller, g ≠ .boundary name caller := by
  induction l with
  | nil => cases h
  | cons f l ih =>
      by_cases hf : ∃ name caller, f = .boundary name caller
      · obtain ⟨name, caller, rfl⟩ := hf
        cases h
        exact ⟨[], caller, l, rfl, rfl, by simp⟩
      · have hnext : innermostBody (f :: l) = innermostBody l := by
          cases f <;> first | rfl | exact absurd ⟨_, _, rfl⟩ hf
        rw [hnext] at h
        obtain ⟨z, caller, tail, hl, hrest, hz⟩ := ih h
        refine ⟨f :: z, caller, tail, by rw [hl]; rfl, hrest, ?_⟩
        intro g hg name caller
        rcases List.mem_cons.mp hg with rfl | hg
        · exact fun heq => hf ⟨name, caller, heq⟩
        · exact hz g hg name caller

theorem LayeredStack.append {z rest : List Frame} (h : LayeredStack (z ++ rest)) :
    LayeredStack rest := by
  induction z with
  | nil => exact h
  | cons f z ih => exact ih h.2

theorem onBody_of_liesOn {f : Frame} {below : List Frame} (h : f.LiesOn below)
    (hf : f.isWork = false) (hn : ∀ name caller, f ≠ .boundary name caller) :
    onBody below = true := by
  cases f with
  | boundary name caller => exact absurd rfl (hn name caller)
  | returning | calling | clock | clockEdge => exact h.1
  | propagate | combs | combOver | driven | settled | round | syncs | commit | changes => cases hf
  | syncStep | syncPause =>
      obtain ⟨_, _, _, _, rfl⟩ := h
      rfl
  | _ => exact h

theorem no_boundary_of_innermostBody {l : List Frame} (h : innermostBody l = none) :
    ∀ f ∈ l, ∀ name caller, f ≠ .boundary name caller := by
  induction l with
  | nil => simp
  | cons f l ih =>
      intro g hg name caller
      rcases List.mem_cons.mp hg with rfl | hg
      · rintro rfl
        cases h
      · refine ih ?_ g hg name caller
        cases f <;> first | exact h | cases h

theorem LayeredStack.body {z rest : List Frame} (h : LayeredStack (z ++ rest))
    (hb : onBody (z ++ rest) = true) (hz : ∀ g ∈ z, ∀ name caller, g ≠ .boundary name caller) :
    ∀ g ∈ z, g.isWork = false := by
  induction z with
  | nil => simp
  | cons f z ih =>
      have hf : f.isWork = false := by simpa [onBody] using hb
      have hbelow := onBody_of_liesOn h.1 hf (hz f (by simp))
      intro g hg
      rcases List.mem_cons.mp hg with rfl | hg
      · exact hf
      · exact ih h.2 hbelow (fun g hg => hz g (by simp [hg])) g hg

theorem modeAt_append {z : List Frame} (hz : ∀ g ∈ z, ∀ name caller, g ≠ .boundary name caller)
    (rest : List Frame) : modeAt (z ++ rest) = modeAt rest := by
  induction z with
  | nil => rfl
  | cons f z ih =>
      rw [List.cons_append, modeAt_cons (hz f (by simp))]
      exact ih fun g hg => hz g (by simp [hg])

/-- A wait either is over, or ends the body that it is in. -/
theorem Layered.await {waker : Waker} {m' : Machine} {w : Wait} (h : Layered m)
    (hc : m.control = .await w) (hstep : m.await waker w = .go m') :
    Layered m' ∧ LayerMove m m' := by
  obtain ⟨hp, hb, -⟩ := h.looking (by simp [hc])
  rcases await_go hstep with ⟨k, v, htasks, rfl⟩ | ⟨k, process, rest, hin, htasks, rfl⟩
  · have hs := (m.sim.mild_setKernel htasks).still
    exact ⟨(hp.withSim (hp.counted.still hs)).complete rfl, .still rfl hs (head_of_onBody hb)⟩
  · have hs := (m.sim.mild_setKernel htasks).still
    obtain ⟨z, caller, tail, hl, hrest, hz⟩ := innermostBody_eq hin
    have hstack := h.stack
    have hcounted := h.counted
    have hmode := hp.mode
    rw [hl] at hstack hcounted hmode hb
    have hbody := hstack.body hb hz
    have hplaced : Placed { m with stack := rest, sim := m.sim.setKernel k } := by
      refine ⟨hstack.append, ?_, hmode.trans (modeAt_append hz rest)⟩
      exact ((Counted.append_iff hbody rest).mp hcounted).still hs
    refine ⟨hplaced.complete rfl, .still ?_ hs ?_⟩
    · simp only [work, hl, filter_append_body hbody]
      rfl
    · intro below heq
      rw [hrest] at heq
      cases heq

theorem syncBody_still (m : Machine) (hb : onBody m.stack = true) (p : ProcessRef) (next : Nat)
    (body : List Stmt) : (m.syncBody p next body).work = m.work ∧
      m.sim.Still (m.syncBody p next body).sim ∧ onBody (m.syncBody p next body).stack = true := by
  cases body with
  | nil => exact ⟨rfl, .refl _, hb⟩
  | cons s rest =>
      simp only [syncBody]
      split
      · exact ⟨rfl, m.sim.still_setPaused _, hb⟩
      · exact ⟨rfl, .refl _, rfl⟩
      · exact ⟨rfl, .refl _, rfl⟩

namespace Bodily

variable {rest : List Frame}

/-- The end of a function whose caller is the body below, or the end of a body that a function is
all of. -/
theorem accept_returning (h : Bodily m (rest)) {caller : Activation}
    (hl : (Frame.returning caller).LiesOn rest) (c : Completion) :
    Layered ({ m with stack := rest }.accept (.returning caller) c) ∧
      LayerMove m ({ m with stack := rest }.accept (.returning caller) c) := by
  have leave : ∀ c' : Completion, Layered ⟨.done c', caller, rest, m.sim⟩ ∧
      LayerMove m ⟨.done c', caller, rest, m.sim⟩ := by
    intro c'
    refine h.still ⟨h.placed.stack, h.placed.counted, ?_, ?_⟩ h.work (.refl _)
      (.here _ _ (.refl _))
    · intro hnot
      rw [h.onBody] at hnot
      cases hnot
    · rcases hl.2 with hmode | hend
      · exact .inl hmode
      · exact .inr ⟨⟨c', rfl⟩, hend⟩
  cases c <;> exact leave _

theorem accept_calling (h : Bodily m rest) {owner : Nat} {name : String}
    (hl : (Frame.calling owner name).LiesOn rest) (c : Completion) :
    Layered ({ m with stack := rest }.accept (.calling owner name) c) ∧
      LayerMove m ({ m with stack := rest }.accept (.calling owner name) c) := by
  cases c with
  | value v =>
      simp only [accept, resume]
      refine h.still (callFunction_layered h.placed h.onBody owner name [] [] hl.2.symm) ?_ ?_
        (callFunction_calm owner name [] [] .immediate)
      · exact (callFunction_work _ owner name [] [] .immediate).trans h.work
      · rw [callFunction_sim]
        exact .refl _
  | _ => exact h.complete _

theorem accept_syncStep (h : Bodily m rest) {p : ProcessRef} {next : Nat} {body : List Stmt}
    (hl : (Frame.syncStep p next body).LiesOn rest) (c : Completion) :
    Layered ({ m with stack := rest }.accept (.syncStep p next body) c) ∧
      LayerMove m ({ m with stack := rest }.accept (.syncStep p next body) c) := by
  cases c with
  | value v =>
      obtain ⟨hw, hs, hbody⟩ := syncBody_still { m with stack := rest } h.onBody p next body
      exact ⟨syncBody_layered h.placed hl p next body,
        .still (hw.trans h.work) hs (head_of_onBody hbody)⟩
  | _ => exact h.complete _

theorem accept_syncPause (h : Bodily m rest) (p : ProcessRef) (next : Nat) (c : Completion) :
    Layered ({ m with stack := rest }.accept (.syncPause p next) c) ∧
      LayerMove m ({ m with stack := rest }.accept (.syncPause p next) c) := by
  cases c with
  | value v =>
      simp only [accept, resume]
      cases v.asInt with
      | error e => exact h.complete _
      | ok n =>
          exact ⟨pause_layered h.placed p next n,
            .still h.work (m.sim.still_setPaused _) (head_of_onBody h.onBody)⟩
  | _ => exact h.complete _

theorem accept_clock (h : Bodily m rest) {field : FieldRef} {low high : Nat} {level : Bool}
    (hl : (Frame.clock field low high level).LiesOn rest) (c : Completion) :
    Layered ({ m with stack := rest }.accept (.clock field low high level) c) ∧
      LayerMove m ({ m with stack := rest }.accept (.clock field low high level) c) := by
  cases c with
  | value v =>
      exact ⟨h.placed.push (f := .clockEdge field low high level) hl rfl (by simp),
        .still h.work (.refl _) (head_of_onBody rfl)⟩
  | _ => exact h.complete _

theorem accept_clockEdge (h : Bodily m rest) {field : FieldRef} {low high : Nat} {level : Bool}
    (hl : (Frame.clockEdge field low high level).LiesOn rest) {c : Completion}
    (hc : m.control = .done c) (hs : m.stack = .clockEdge field low high level :: rest) :
    Layered ({ m with stack := rest }.accept (.clockEdge field low high level) c) ∧
      LayerMove m ({ m with stack := rest }.accept (.clockEdge field low high level) c) := by
  cases c with
  | value v =>
      have hclock : Placed { m with stack := .clock field low high (!level) :: rest } :=
        h.placed.cons hl rfl rfl rfl (by simp)
      have hmode : modeAt (.clock field low high (!level) :: rest) = .immediate := hl.2
      have hwrite : m.write? = some (field, .int (Value.ofTruth level)) := by
        simp only [write?, hc, hs]
        rfl
      have hmove := LayerMove.write _ field _ hclock rfl h.work hclock.mode hwrite
      rw [hmode] at hmove
      exact ⟨write_layered hclock rfl field _ .immediate, hmove⟩
  | _ => exact h.complete _

end Bodily

theorem Layered.accept_boundary {name : String} {caller : Activation} {rest : List Frame}
    (h : Layered m) (hs : m.stack = .boundary name caller :: rest) (c : Completion) :
    Layered ({ m with stack := rest }.accept (.boundary name caller) c) ∧
      LayerMove m ({ m with stack := rest }.accept (.boundary name caller) c) := by
  obtain ⟨hstack, hcounted, -, -⟩ := h
  rw [hs] at hstack hcounted
  obtain ⟨hlies, hrest⟩ := hstack
  have hcounted' : Counted m.sim rest := (Counted.cons_iff rfl rfl rfl rest).mp hcounted
  have hwork : rest.filter Frame.isWork = m.work := by
    simp [work, hs, Frame.isWork]
  have leave : ∀ c' : Completion, c'.isPlain = true → Layered ⟨.done c', caller, rest, m.sim⟩ ∧
      LayerMove m ⟨.done c', caller, rest, m.sim⟩ := by
    intro c' hc'
    refine ⟨⟨hrest, hcounted', fun _ => ⟨c', rfl, hc'⟩, .inl hlies.1⟩, ?_⟩
    refine .still hwork (.refl _) ?_
    rintro below rfl
    rcases hlies.2 with hb | ⟨_, _, _, heq⟩ | ⟨_, _, heq⟩
    · cases hb
    · cases heq
    · cases heq
  cases c <;> exact leave _ rfl

/-- What a frame makes of a completion. -/
theorem Layered.accept {f : Frame} {rest : List Frame} {c : Completion} (h : Layered m)
    (hs : m.stack = f :: rest) (hc : m.control = .done c) :
    Layered ({ m with stack := rest }.accept f c) ∧
      LayerMove m ({ m with stack := rest }.accept f c) := by
  cases hf : f.isWork with
  | true =>
      obtain ⟨c', hc', hplain⟩ := h.control (by simp [hs, Machine.onBody, hf])
      rw [hc] at hc'
      cases hc'
      exact ⟨h.accept_work hs hc hf, .engine f rest c hf hc hplain hs⟩
  | false =>
      by_cases hend : ∃ name caller, f = .boundary name caller
      · obtain ⟨name, caller, rfl⟩ := hend
        exact h.accept_boundary hs c
      · have hn : ∀ name caller, f ≠ .boundary name caller :=
          fun name caller heq => hend ⟨name, caller, heq⟩
        have hp := h.placed fun name caller below heq => hn name caller (by
          rw [hs] at heq
          cases heq
          rfl)
        obtain ⟨hstack, hcounted, hmode⟩ := hp
        rw [hs] at hstack hcounted hmode
        obtain ⟨hlies, hrest⟩ := hstack
        have hbody : Bodily m rest := by
          refine ⟨⟨hrest, ?_, hmode.trans (modeAt_cons hn rest)⟩, onBody_of_liesOn hlies hf hn, ?_⟩
          · have hone : ∀ g ∈ [f], g.isWork = false := by simpa using hf
            exact (Counted.append_iff hone rest).mp hcounted
          · simp [work, hs, hf]
        have move : f.inBody (modeAt rest) → Layered ({ m with stack := rest }.accept f c) ∧
            LayerMove m ({ m with stack := rest }.accept f c) := by
          intro hin
          refine hbody.move ?_
          have hwrite : m.write? =
              ({ m with control := .done c, stack := f :: rest } : Machine).write? := by
            rw [← hs, ← hc]
          rw [hwrite]
          exact accept_body (m := { m with stack := rest }) hbody.placed.mode hin c
        cases f with
        | boundary name caller => exact absurd rfl (hn name caller)
        | propagate | combs | combOver | driven | settled | round | syncs | commit | changes =>
            cases hf
        | returning caller => exact hbody.accept_returning hlies c
        | calling owner name => exact hbody.accept_calling hlies c
        | syncStep p next body => exact hbody.accept_syncStep hlies c
        | syncPause p next => exact hbody.accept_syncPause p next c
        | clock field low high level => exact hbody.accept_clock hlies c
        | clockEdge field low high level => exact hbody.accept_clockEdge hlies hc hs
        | _ => exact move trivial

theorem Layered.step {waker : Waker} {m' : Machine} (h : Layered m)
    (hstep : m.step waker = .go m') : Layered m' ∧ LayerMove m m' := by
  cases step_goes hstep with
  | eval e hc =>
      have hbody := h.looking (by simp [hc])
      exact hbody.move (eval_body hbody.placed.mode e)
  | exec s hc =>
      have hbody := h.looking (by simp [hc])
      exact hbody.move (exec_body hbody.placed.mode s)
  | store target v hc =>
      have hbody := h.looking (by simp [hc])
      exact hbody.move (store_body hbody.placed.mode target v)
  | matching p subject hc =>
      have hbody := h.looking (by simp [hc])
      exact hbody.move (matchPattern_body hbody.placed.mode p subject)
  | await w hc hwait => exact h.await hc hwait
  | done c f rest hc hs => exact h.accept hs hc

end Steps

end Machine

end Clockwork
