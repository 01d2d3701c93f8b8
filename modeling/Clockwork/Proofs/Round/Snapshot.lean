import Clockwork.Proofs.Round.Shape
import Clockwork.Simulation.Command
/-!
What the processes of a round see. All reads of a round give the values from before the round,
unless the callback of an event that a process sets changes a signal.
-/

namespace Clockwork

namespace Machine

/-- A machine that reads a field next, of an instance that it came to, and has `rest` left. -/
inductive Reads (m : Machine) (rest : List Frame) : FieldRef → Prop
  | position (id index : Nat) (hc : m.control = .done (.value (.obj (.component id))))
      (hs : m.stack = .fieldOf index :: rest) : Reads m rest ⟨id, index⟩
  | name (id index : Nat) (name : String)
      (hc : m.control = .done (.value (.obj (.component id))))
      (hs : m.stack = .memberOf name :: rest)
      (hf : (m.sim.tree.inst id).fieldIndex? name = some index) : Reads m rest ⟨id, index⟩

theorem step_reads {m : Machine} {rest : List Frame} {f : FieldRef} (h : m.Reads rest f)
    (waker : Waker) :
    m.step waker = .go ({ m with stack := rest }.giveResult (m.sim.readField f)) := by
  cases h with
  | position id index hc hs =>
      rw [step_done hc hs]
      rfl
  | name id index name hc hs hf =>
      rw [step_done hc hs]
      simp only [accept, resume, Simulation.member, hf]

theorem RoundState.sameValues {waker : Waker} {m₀ m m' : Machine} (h : RoundState waker m₀ m)
    (hs : m.stack ≠ m₀.roundBase) (hstep : m.step waker = .go m') (hc : ¬ InCallback m₀ m) :
    m.sim.SameValues m'.sim :=
  (h.shape.step hs hstep).2.resolve_right hc

theorem RoundState.values_of_callbacks {waker : Waker} {m₀ m : Machine}
    (hc : ∀ m m', RoundState waker m₀ m → InCallback m₀ m → m.step waker = .go m' →
      m.sim.SameValues m'.sim) (h : RoundState waker m₀ m) : m₀.sim.SameValues m.sim := by
  induction h with
  | start => exact fun _ => rfl
  | @step m m' h hs hstep ih =>
      by_cases hin : InCallback m₀ m
      · exact ih.trans (hc m m' h hin hstep)
      · exact ih.trans (h.sameValues hs hstep hin)

/-- In every state of a round up to its commit all fields have the values from before the round,
and every read gives such a value, exactly if no step within the callback of an event changes a
signal. Steps outside of callbacks never do. -/
theorem round_reads_snapshot_iff (waker : Waker) (m₀ : Machine) :
    (∀ m m', RoundState waker m₀ m → m.stack ≠ m₀.roundBase → ¬ InCallback m₀ m →
      m.step waker = .go m' → m.sim.SameValues m'.sim) ∧
    ((∀ m, RoundState waker m₀ m → m₀.sim.SameValues m.sim ∧
        ∀ rest f, m.Reads rest f → m.step waker =
          .go ({ m with stack := rest }.giveResult (m₀.sim.readField f))) ↔
      ∀ m m', RoundState waker m₀ m → InCallback m₀ m → m.step waker = .go m' →
        m.sim.SameValues m'.sim) := by
  refine ⟨fun m m' h hs hc hstep => h.sameValues hs hstep hc, ?_⟩
  constructor
  · intro hall m m' h hin hstep
    have hs : m.stack ≠ m₀.roundBase := by
      intro heq
      obtain ⟨x, hx, hcount⟩ := hin
      have hnil : x = [] := by simpa [heq] using hx
      simp [hnil] at hcount
    have hbefore := (hall m h).1
    have hafter := (hall m' (.step h hs hstep)).1
    exact fun f => (hafter f).trans (hbefore f).symm
  · intro hc m h
    have hvalues := h.values_of_callbacks hc
    refine ⟨hvalues, ?_⟩
    intro rest f hreads
    rw [step_reads hreads waker, hvalues f]

end Machine

/-- A clocked process sets an event whose callback writes `flag`; a second one copies `flag`. -/
def callbackDesign : TypeTable :=
  ⟨[⟨"Top", .component {
      body := { Body.ofName "Top" with
        fields := [.ofType "clk" (.int 1 false), .ofType "ev" .event,
          .ofType "flag" (.int 8 false), .ofType "seen" (.int 8 false)]
        functions := [{ Function.ofName "hit" with
          body := [.assign [.ownField 2] (.int 1)] }] }
      binds := [⟨.member (.ownField 1) "at", .member .self "hit"⟩]
      syncs := [
        { Function.ofName "a" with
          body := [.expr (.methodCall (.ownField 1) "set" [])]
          process := some ⟨.sync, some (.ownField 0), none, []⟩ },
        { Function.ofName "b" with
          body := [.assign [.ownField 3] (.ownField 2)]
          process := some ⟨.sync, some (.ownField 0), none, []⟩ }]
      combs := []
      processes := [] }⟩], by decide⟩

def TypeTable.simulationWith (types : TypeTable) (top : String) (options : SimOptions) :
    Option Simulation :=
  match (elaborate types .empty top .empty .standard).1 with
  | .ok e => (Simulation.ofElaborated e options).toOption
  | .error _ => none

def TypeTable.simulation (types : TypeTable) (top : String) : Option Simulation :=
  types.simulationWith top .standard

def TypeTable.started (types : TypeTable) (top : String) (fuel : Nat) : Option Simulation :=
  (types.simulation top).bind fun s => (s.start fuel).map (·.1)

def Simulation.number? (s : Simulation) (path : String) : Option Int :=
  match s.readPath path with
  | .ok v => v.asInt.toOption
  | .error _ => none

def Simulation.pulsed (s : Simulation) (path : String) (fuel : Nat) : Option Simulation :=
  (s.clockEdge fuel path).map (·.1)

/-- Before the edge `flag` is 0, yet the process that runs second reads 1 in it. -/
theorem callback_changes_round :
    ((callbackDesign.started "Top" 200).bind fun s => s.number? "flag") = some 0 ∧
      (((callbackDesign.started "Top" 200).bind fun s => s.pulsed "clk" 200).bind fun s =>
        s.number? "seen") = some 1 := by
  decide +kernel

end Clockwork
