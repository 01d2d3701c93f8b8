import Clockwork.Proofs.Kernel
import Clockwork.Proofs.Machine.Stack
import Clockwork.Proofs.Table

namespace Clockwork

def Frame.inBody (mode : WriteMode) : Frame → Prop
  | .returning caller => caller.mode = mode
  | .boundary _ _ | .calling _ _ | .propagate _ _ | .combs _ | .combOver _ _ | .driven | .settled
  | .round | .syncs _ | .syncStep _ _ _ | .syncPause _ _ | .commit | .changes _ | .clock _ _ _ _
  | .clockEdge _ _ _ _ => False
  | _ => True

def Task.calling (owner : Nat) (name : String) : Task :=
  ⟨none, .begin owner name .immediate, [.calling owner name]⟩

def Kernel.AddsCalls (k k' : Kernel Empty EventHook Task) : Prop :=
  ∀ id t, k'.tasks.get? id = some t →
    k.tasks.get? id = some t ∨ ∃ owner name, t = .calling owner name

namespace Kernel

theorem AddsCalls.of_tasks {k k' : Kernel Empty EventHook Task} (h : k'.tasks = k.tasks) :
    k.AddsCalls k' := by
  intro id t ht
  rw [h] at ht
  exact .inl ht

theorem AddsCalls.refl (k : Kernel Empty EventHook Task) : k.AddsCalls k := .of_tasks rfl

theorem AddsCalls.trans {k k₁ k₂ : Kernel Empty EventHook Task} (h : k.AddsCalls k₁)
    (h₁ : k₁.AddsCalls k₂) : k.AddsCalls k₂ := by
  intro id t ht
  rcases h₁ id t ht with ht | hcall
  · exact h id t ht
  · exact .inr hcall

end Kernel

/-- The simulations agree on all but waits and calls, objects, cover points and the log. -/
def Simulation.Mild (s s' : Simulation) : Prop :=
  s.kernel.AddsCalls s'.kernel ∧
    ∃ k o c l, s' = { s with kernel := k, objects := o, covers := c, log := l }

namespace Simulation

theorem Mild.refl (s : Simulation) : s.Mild s := ⟨.refl _, _, _, _, _, rfl⟩

theorem Mild.trans {s s₁ s₂ : Simulation} (h : s.Mild s₁) (h₁ : s₁.Mild s₂) : s.Mild s₂ := by
  obtain ⟨hk, k, o, c, l, rfl⟩ := h
  obtain ⟨hk₁, k₁, o₁, c₁, l₁, rfl⟩ := h₁
  exact ⟨hk.trans hk₁, _, _, _, _, rfl⟩

theorem mild_setKernel (s : Simulation) {k : Kernel Empty EventHook Task}
    (h : k.tasks = s.kernel.tasks) : s.Mild (s.setKernel k) := ⟨.of_tasks h, _, _, _, _, rfl⟩

theorem mild_spawn (s : Simulation) (owner : Nat) (name : String) :
    s.Mild (s.spawn (.begin owner name .immediate) [.calling owner name]).1 := by
  refine ⟨?_, _, _, _, _, rfl⟩
  intro id t ht
  change (s.kernel.tasks.insert s.kernel.scheduler.nextTask (Task.calling owner name)).get? id =
    some t at ht
  by_cases hid : id = s.kernel.scheduler.nextTask
  · subst hid
    rw [Table.get?_insert_self] at ht
    cases ht
    exact .inr ⟨owner, name, rfl⟩
  · rw [Table.get?_insert_of_ne _ hid] at ht
    exact .inl ht

theorem mild_cover (s : Simulation) (key : String) : s.Mild (s.cover key) :=
  ⟨.refl _, _, _, _, _, rfl⟩

theorem mild_builtin (s : Simulation) (b : Builtin) (args : List Value) :
    s.Mild (s.builtin b args).1 := by
  cases b
  case print => exact ⟨.refl _, _, _, _, _, rfl⟩
  all_goals exact .refl s

theorem mild_withBanks (s : Simulation) (r : Except SimError Banks) :
    s.Mild (s.withBanks r).1 := by
  cases r with
  | ok b => exact ⟨.refl _, _, _, _, _, rfl⟩
  | error e => exact .refl s

theorem mild_writeMemory (s : Simulation) (id : Nat) (index value : Int) :
    s.Mild (s.writeMemory id index value).1 := s.mild_withBanks _

theorem mild_writeRegister (s : Simulation) (id offset : Nat) (value : Int) :
    s.Mild (s.writeRegister id offset value).1 := s.mild_withBanks _

theorem mild_writeSpace (s : Simulation) (id addr value size : Nat) :
    s.Mild (s.writeSpace id addr value size).1 := ⟨.refl _, _, _, _, _, rfl⟩

theorem mild_release (s : Simulation) (lock : Nat) : s.Mild (s.release lock).1 := by
  simp only [release]
  cases h : s.kernel.release lock with
  | ok k => exact s.mild_setKernel (s.kernel.tasks_release h)
  | error e => exact .refl s

namespace MethodResult

def Leaves (s : Simulation) : MethodResult → Prop
  | .done s' _ => s.Mild s'
  | _ => True

theorem leaves_effect {s : Simulation} {r : Simulation × Option SimError} (h : s.Mild r.1) :
    (effect r).Leaves s := by
  rcases r with ⟨s', _ | e⟩ <;> exact h

theorem leaves_withArgs {α : Type} (s : Simulation) (args : Except SimError α)
    (f : α → MethodResult) (h : ∀ a, (f a).Leaves s) : (withArgs s args f).Leaves s := by
  cases args with
  | ok a => exact h a
  | error e => exact .refl s

end MethodResult

open MethodResult

theorem leaves_noMethod (s : Simulation) (target : Handle) (name : String) :
    (s.noMethod target name).Leaves s := .refl s

theorem leaves_channelMethod (s : Simulation) (target : Handle) (id : Nat) (name : String)
    (args : List Value) : (s.channelMethod target id name args).Leaves s := by
  unfold channelMethod
  split
  · trivial
  · exact leaves_withArgs s _ _ fun _ => trivial
  · exact s.mild_setKernel (s.kernel.tasks_tryGet id)
  · refine leaves_withArgs s _ _ fun v => ?_
    exact s.mild_setKernel (s.kernel.tasks_tryPut id v)
  · exact .refl s
  · exact .refl s
  · exact .refl s
  · exact s.leaves_noMethod target name

theorem leaves_memoryMethod (s : Simulation) (id : Nat) (name : String) (args : List Value) :
    (s.memoryMethod id name args).Leaves s := by
  unfold memoryMethod
  split
  · exact .refl s
  · exact leaves_withArgs s _ _
      fun (index, value) => leaves_effect (s.mild_writeMemory id index value)
  · exact .refl s
  · exact .refl s

theorem leaves_regFileMethod (s : Simulation) (id : Nat) (name : String) (args : List Value) :
    (s.regFileMethod id name args).Leaves s := by
  unfold regFileMethod
  split
  · exact .refl s
  · exact leaves_withArgs s _ _ fun (offset, value) =>
      leaves_effect (s.mild_writeRegister id offset value)
  · exact .refl s

theorem leaves_spaceMethod (s : Simulation) (id : Nat) (name : String) (args : List Value) :
    (s.spaceMethod id name args).Leaves s := by
  unfold spaceMethod
  split
  · exact .refl s
  · exact leaves_withArgs s _ _ fun (addr, value, size) =>
      leaves_effect (s.mild_writeSpace id addr value size)
  · exact .refl s

theorem leaves_viewMethod (s : Simulation) (id base : Nat) (name : String) (args : List Value) :
    (s.viewMethod id base name args).Leaves s := by
  refine leaves_withArgs s _ _ fun offset => ?_
  dsimp only
  split
  · exact .refl s
  · exact leaves_withArgs s _ _
      fun (value, size) => leaves_effect (s.mild_writeSpace id _ value size)
  · exact .refl s
  · exact .refl s
  · exact leaves_withArgs s _ _ fun value => leaves_effect (s.mild_writeSpace id _ value _)
  · exact .refl s

theorem leaves_method (s : Simulation) (target : Handle) (name : String) (args : List Value) :
    (s.method target name args).Leaves s := by
  unfold method
  split
  · split
    · exact leaves_withArgs s _ _ fun _ => trivial
    · exact .refl s
    · exact .refl s
  · exact s.leaves_channelMethod _ _ name args
  · split
    · exact s.leaves_channelMethod _ _ name args
    · exact .refl s
  · split
    · exact s.leaves_channelMethod _ _ name args
    · exact .refl s
  · split
    · trivial
    · exact leaves_effect (s.mild_release _)
    · exact s.mild_setKernel (s.kernel.tasks_tryAcquire _)
    · exact .refl s
    · exact .refl s
  · split
    · trivial
    · exact s.mild_setKernel (s.kernel.tasks_clearFlag _)
    · exact .refl s
    · trivial
    · exact .refl s
  · exact s.leaves_memoryMethod _ name args
  · exact s.leaves_regFileMethod _ name args
  · exact s.leaves_spaceMethod _ name args
  · exact s.leaves_viewMethod _ _ name args
  all_goals exact .refl s

end Simulation

/-- The field that a frame writes when it gets a value, and what it writes. -/
def Frame.write? (s : Simulation) (f : Frame) (i : Value) : Option (FieldRef × Value) :=
  match f with
  | .storeField index v => i.asComponent.toOption.map fun id => (⟨id, index⟩, v)
  | .storeMember name v => do
    let id ← i.asComponent.toOption
    return (⟨id, ← (s.tree.inst id).fieldIndex? name⟩, v)
  | .clockEdge f _ _ level => some (f, .int (Value.ofTruth level))
  | _ => none

namespace Machine

/-- The field that a machine writes next, and what it writes. -/
def write? (m : Machine) : Option (FieldRef × Value) :=
  match m.control, m.stack with
  | .done (.value v), f :: _ => f.write? m.sim v
  | _, _ => none

/-- How a body whose writes have a mode goes on: quietly, with further frames of its own, with the
write `w` of a field, or with the callback of an event. -/
inductive BodyMove (mode : WriteMode) (w : Option (FieldRef × Value)) (m : Machine) :
    Machine → Prop where
  | quiet (c : Control) (a : Activation) (fs : List Frame) (s : Simulation)
      (ha : a.mode = mode) (hf : ∀ g ∈ fs, g.inBody mode) (hs : m.sim.Mild s) :
      BodyMove mode w m ⟨c, a, fs ++ m.stack, s⟩
  | write (f : FieldRef) (v : Value) (hw : w = some (f, v)) :
      BodyMove mode w m (m.write f v mode)
  | callback (k : Kernel Empty EventHook Task) (hook : EventHook)
      (hk : k.tasks = m.sim.kernel.tasks) :
      BodyMove mode w m
        ({ m with stack := .discard :: m.stack, sim := m.sim.setKernel k }.callNow hook.owner
          hook.method [])

namespace BodyMove

variable {mode : WriteMode} {w : Option (FieldRef × Value)} {m : Machine}

theorem look (ha : m.activation.mode = mode) {c : Control} : BodyMove mode w m (m.look c) :=
  quiet c m.activation [] m.sim ha (by simp) (.refl _)

theorem complete (ha : m.activation.mode = mode) {c : Completion} :
    BodyMove mode w m (m.complete c) := look ha

theorem withSim (ha : m.activation.mode = mode) {s : Simulation} (hs : m.sim.Mild s)
    {c : Completion} : BodyMove mode w m ((m.setSim s).complete c) :=
  quiet (.done c) m.activation [] s ha (by simp) hs

theorem push (ha : m.activation.mode = mode) {f : Frame} {c : Control}
    (hf : f.inBody mode) :
    BodyMove mode w m (m.push f c) :=
  quiet c m.activation [f] m.sim ha (by simpa using hf) (.refl _)

theorem giveResult (ha : m.activation.mode = mode) (r : Except SimError Value) :
    BodyMove mode w m (m.giveResult r) := by
  cases r with
  | ok v => exact complete ha
  | error e => exact complete ha

theorem withResult {α : Type} (ha : m.activation.mode = mode) (r : Except SimError α)
    (f : α → Machine) (h : ∀ a, BodyMove mode w m (f a)) :
    BodyMove mode w m (m.withResult r f) := by
  cases r with
  | ok a => exact h a
  | error e => exact complete ha

theorem block (ha : m.activation.mode = mode) (body : List Stmt) :
    BodyMove mode w m (m.block body) := by
  cases body with
  | nil => exact complete ha
  | cons s rest => exact push ha trivial

theorem blockAbove {g : Frame} {a : Activation} (ha : a.mode = mode) (body : List Stmt)
    (hg : g.inBody mode) :
    BodyMove mode w m ({ m with stack := g :: m.stack, activation := a }.block body) := by
  cases body with
  | nil => exact quiet (.done (.value .none)) a [g] m.sim ha (by simpa using hg) (.refl _)
  | cons s rest =>
      refine quiet (.exec s) a [.block rest, g] m.sim ha ?_ (.refl _)
      rintro g' (_ | ⟨_, _ | ⟨_, ⟨⟩⟩⟩)
      · trivial
      · exact hg

end BodyMove

section Moves

variable {mode : WriteMode} {w : Option (FieldRef × Value)} {m : Machine}
    (ha : m.activation.mode = mode)

include ha

theorem callFunction_body (owner : Nat) (name : String) (args : List Value)
    (keywords : List (String × Value)) :
    BodyMove mode w m (m.callFunction owner name args keywords mode) := by
  simp only [callFunction]
  split
  · exact .complete ha
  · split
    · exact .complete ha
    · refine .blockAbove ?_ _ ?_
      · rfl
      · exact ha

theorem setEvent_body (event : Nat) : BodyMove mode w m (m.setEvent event) := by
  have htasks := m.sim.kernel.tasks_setFlag event
  rcases h : m.sim.kernel.setFlag event with ⟨k, _ | hook | hook⟩
  all_goals
    rw [h] at htasks
    have hk := m.sim.mild_setKernel htasks
    simp only [setEvent, h]
  · exact .withSim ha hk
  · exact .callback k hook htasks
  · split
    · exact .withSim ha hk
    · exact .withSim ha (hk.trans (Simulation.mild_spawn _ hook.owner hook.method))

theorem builtin_body (b : Builtin) (args : List Value) : BodyMove mode w m (m.builtin b args) := by
  have hs := m.sim.mild_builtin b args
  simp only [builtin]
  cases (m.sim.builtin b args).2 with
  | ok v => exact .withSim ha hs
  | error e => exact .withSim ha hs

theorem callMethod_body (target : Handle) (name : String) (args : List Value) :
    BodyMove mode w m (m.callMethod target name args) := by
  have hs := m.sim.leaves_method target name args
  simp only [callMethod]
  cases h : m.sim.method target name args with
  | done s r =>
      rw [h] at hs
      cases r with
      | ok v => exact .withSim ha hs
      | error e => exact .withSim ha hs
  | waits w => exact .look ha
  | sets event => exact setEvent_body ha event

theorem invoke_body (callee : Value) (args : List Value) (keywords : List (String × Value)) :
    BodyMove mode w m (m.invoke callee args keywords) := by
  unfold invoke
  split
  · rw [ha]
    exact callFunction_body ha _ _ args keywords
  · split
    · exact callMethod_body ha _ _ args
    · exact .complete ha
  · exact builtin_body ha _ args
  · exact .complete ha

theorem gathered_body (use : Gathered) (values : List Value) :
    BodyMove mode w m (m.gathered use values) := by
  unfold gathered
  split
  · exact .complete ha
  · exact builtin_body ha _ values
  · exact invoke_body ha _ values []
  · exact .push ha trivial
  · exact invoke_body ha _ _ _

theorem gather_body (use : Gathered) (done : List Value) (rest : List Expr) :
    BodyMove mode w m (m.gather use done rest) := by
  cases rest with
  | nil => exact gathered_body ha use done.reverse
  | cons e rest => exact .push ha trivial

theorem compareOn_body (left : Value) (ops : List CmpOp) (comparators : List Expr) :
    BodyMove mode w m (m.compareOn left ops comparators) := by
  unfold compareOn
  split
  · exact .push ha trivial
  · exact .complete ha

theorem eval_body (e : Expr) : BodyMove mode w m (m.eval e) := by
  cases e with
  | param name index =>
      simp only [eval]
      split <;> exact .complete ha
  | var name =>
      simp only [eval]
      split <;> exact .complete ha
  | logical op values =>
      cases values with
      | nil => exact .complete ha
      | cons e rest => exact .push ha trivial
  | call callee args keywords =>
      cases callee with
      | builtin b => exact gather_body ha (.builtin b) [] args
      | _ => exact .push ha trivial
  | tuple items => exact gather_body ha .tuple [] items
  | constant c => exact .complete ha
  | self => exact .complete ha
  | builtin b => exact .complete ha
  | await value => exact .look ha
  | _ => exact .push ha trivial

theorem storeAll_body (targets : List (Expr × Value)) : BodyMove mode w m (m.storeAll targets) := by
  rcases targets with _ | ⟨⟨target, v⟩, rest⟩
  · exact .complete ha
  · exact .push ha trivial

theorem store_body (target : Expr) (v : Value) : BodyMove mode w m (m.store target v) := by
  cases target with
  | param name index =>
      simp only [store]
      split
      · exact .quiet _ _ [] m.sim ha (by simp) (.refl _)
      · exact .complete ha
  | var name => exact .quiet _ _ [] m.sim ha (by simp) (.refl _)
  | field base index => exact .push ha trivial
  | member base name => exact .push ha trivial
  | subscript container index => exact .push ha trivial
  | tuple targets =>
      simp only [store]
      split
      · exact .complete ha
      · split
        · exact storeAll_body ha _
        · exact .complete ha
  | _ => exact .complete ha

theorem eachNext_body (target : Expr) (items : List Value) (body orelse : List Stmt) :
    BodyMove mode w m (m.eachNext target items body orelse) := by
  cases items with
  | nil => exact .block ha orelse
  | cons v rest => exact .push ha trivial

theorem eachOf_body (target : Expr) (v : Value) (body orelse : List Stmt) :
    BodyMove mode w m (m.eachOf target v body orelse) := by
  cases v with
  | tuple items => exact eachNext_body ha target items body orelse
  | str text => exact eachNext_body ha target _ body orelse
  | _ => exact .complete ha

theorem check_body (kind : AssertionKind) (holds : Bool) (message : Option String) :
    BodyMove mode w m (m.check kind holds message) := by
  cases kind <;> cases holds
  case cover.true => exact .withSim ha (m.sim.mild_cover _)
  all_goals exact .complete ha

theorem selectNext_body (subject : Value) (cases : List Case) :
    BodyMove mode w m (m.selectNext subject cases) := by
  cases cases with
  | nil => exact .complete ha
  | cons c rest => exact .push ha trivial

theorem exec_body (s : Stmt) : BodyMove mode w m (m.exec s) := by
  cases s with
  | result value =>
      cases value with
      | none => exact .complete ha
      | some e => exact .push ha trivial
  | expr e =>
      simp only [exec]
      split
      · exact .complete ha
      · exact .push ha trivial
  | leave => exact .complete ha
  | again => exact .complete ha
  | pass => exact .complete ha
  | _ => exact .push ha trivial

theorem matchAny_body (subject : Value) (patterns : List Pattern) :
    BodyMove mode w m (m.matchAny subject patterns) := by
  cases patterns with
  | nil => exact .complete ha
  | cons p rest => exact .push ha trivial

theorem matchPattern_body (p : Pattern) (subject : Value) :
    BodyMove mode w m (m.matchPattern p subject) := by
  rcases p with (_ | e) | ⟨_ | inner, name⟩ | patterns
  · exact .complete ha
  · exact .push ha trivial
  · exact .quiet _ _ [] m.sim ha (by simp) (.refl _)
  · exact .push ha trivial
  · exact matchAny_body ha subject patterns

theorem storeField_body (i : Value) (index : Nat) (v : Value) :
    BodyMove mode (Frame.write? m.sim (.storeField index v) i) m (m.storeField i index v) := by
  cases hi : i.asComponent with
  | error e =>
      simp only [storeField, hi]
      exact .complete ha
  | ok id =>
      simp only [storeField, ha, hi]
      exact .write _ v (by simp [Frame.write?, hi, Except.toOption])

theorem storeMember_body (i : Value) (name : String) (v : Value) :
    BodyMove mode (Frame.write? m.sim (.storeMember name v) i) m (m.storeMember i name v) := by
  cases hi : i.asComponent with
  | error e =>
      simp only [storeMember, hi]
      exact .complete ha
  | ok id =>
      cases hindex : (m.sim.tree.inst id).fieldIndex? name with
      | none =>
          simp only [storeMember, hi, hindex]
          exact .complete ha
      | some index =>
          simp only [storeMember, ha, hi, hindex]
          exact .write _ v (by simp [Frame.write?, hi, hindex, Except.toOption])

theorem effect_body {r : Simulation × Option SimError} (hs : m.sim.Mild r.1) :
    BodyMove mode w m (m.effect r) := by
  rcases r with ⟨s, _ | e⟩ <;> exact .withSim ha hs

theorem storeItem_body (container : Expr) (held index v : Value) :
    BodyMove mode w m (m.storeItem container held index v) := by
  unfold storeItem
  split
  · exact .withResult ha _ _ fun (i, n) => effect_body ha (m.sim.mild_writeMemory _ i n)
  · exact .withResult ha _ _ fun (i, n) => effect_body ha (m.sim.mild_writeRegister _ i n)
  · refine .withResult ha _ _ fun bit => ?_
    split
    · exact .look ha
    · exact .complete ha
  · exact .withResult ha _ _ fun _ => .look ha
  · exact .complete ha

/-- What a frame of a body makes of a value. -/
theorem resume_body {f : Frame} (hf : f.inBody mode) (v : Value) :
    BodyMove mode (f.write? m.sim v) m (m.resume f v) := by
  cases f with
  | fieldOf index => exact .withResult ha _ _ fun id => .giveResult ha _
  | binary op lhs => exact .giveResult ha _
  | unary op => exact .giveResult ha _
  | logical op rest =>
      cases rest with
      | nil => exact .complete ha
      | cons e rest =>
          simp only [resume]
          split
          · exact .complete ha
          · exact .push ha trivial
  | comparing ops comparators => exact compareOn_body ha v ops comparators
  | compared left op ops comparators =>
      refine .withResult ha _ _ fun holds => ?_
      split
      · exact compareOn_body ha v ops comparators
      · exact .complete ha
  | memberOf name => exact .giveResult ha _
  | subscript container => exact .giveResult ha _
  | calleeOf args keywords => exact gather_body ha _ [] args
  | gather use done rest => exact gather_body ha use _ rest
  | conditional body orelse => exact .look ha
  | storeField index value => exact storeField_body ha v index value
  | storeMember name value => exact storeMember_body ha v name value
  | storeRest rest => exact storeAll_body ha rest
  | storeItem container held value => exact storeItem_body ha container held v value
  | block rest => exact .block ha rest
  | assign targets => exact storeAll_body ha _
  | updateWith target op current => exact .withResult ha _ _ fun _ => .look ha
  | resultOf => exact .complete ha
  | branch body orelse => exact .block ha _
  | eachOf target body orelse => exact eachOf_body ha target v body orelse
  | eachItem target rest body orelse => exact .blockAbove ha body trivial
  | eachRound target rest body orelse => exact eachNext_body ha target rest body orelse
  | loopTest test body orelse =>
      simp only [resume]
      split
      · exact .blockAbove ha body trivial
      · exact .block ha orelse
  | assertionTest kind message =>
      cases message with
      | none => exact check_body ha kind _ none
      | some e => exact .push ha trivial
  | assertionText kind holds => exact check_body ha kind holds _
  | select cases => exact selectNext_body ha v cases
  | caseMatched subject c rest =>
      simp only [resume]
      split
      · split
        · exact .block ha c.body
        · exact .push ha trivial
      · exact selectNext_body ha subject rest
  | caseGuard subject c rest =>
      simp only [resume]
      split
      · exact .block ha c.body
      · exact selectNext_body ha subject rest
  | equals subject => exact .complete ha
  | bindPattern name subject =>
      simp only [resume]
      split
      · exact .quiet _ _ [] m.sim ha (by simp) (.refl _)
      · exact .complete ha
  | alternatives rest subject =>
      simp only [resume]
      split
      · exact .complete ha
      · exact matchAny_body ha subject rest
  | discard => exact .complete ha
  | returning caller => exact .quiet _ caller [] m.sim hf (by simp) (.refl _)
  | rightOf | indexOf | storeIndex | updateBy | loopRound => exact .push ha trivial
  | _ => exact hf.elim

theorem unwind_body {f : Frame} (hf : f.inBody mode) (c : Completion) :
    BodyMove mode w m (m.unwind f c) := by
  cases f with
  | eachRound target rest body orelse =>
      cases c with
      | again => exact eachNext_body ha target rest body orelse
      | _ => exact .complete ha
  | loopRound test body orelse =>
      cases c with
      | again => exact .push ha trivial
      | _ => exact .complete ha
  | returning caller => cases c <;> exact .quiet _ caller [] m.sim hf (by simp) (.refl _)
  | boundary | calling | propagate | combs | combOver | driven | settled | round | syncs
  | syncStep | syncPause | commit | changes | clock | clockEdge => exact hf.elim
  | _ => cases c <;> exact .complete ha

end Moves

end Machine

end Clockwork
