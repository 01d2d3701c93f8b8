import Clockwork.Proofs.Concurrency.Cancellation.Hosts
import Clockwork.Proofs.Machine.Updates

namespace Clockwork

/-- What a design can ask of a kernel, besides a wait. -/
inductive Kernel.Request (k : Kernel Empty EventHook Task) : Kernel Empty EventHook Task → Prop
  | none : Request k k
  | tryGet (id : Nat) : Request k (k.tryGet id).1
  | tryPut (id : Nat) (v : Value) : Request k (k.tryPut id v).1
  | tryAcquire (id : Nat) : Request k (k.tryAcquire id).1
  | release {id : Nat} {k' : Kernel Empty EventHook Task} (h : k.release id = .ok k') : Request k k'
  | setFlag (id : Nat) : Request k (k.setFlag id).1
  | clearFlag (id : Nat) : Request k (k.clearFlag id)
  /-- An event is set whose callback is a task. -/
  | spawn (id owner : Nat) (name : String) :
      Request k
        { (k.setFlag id).1 with
          scheduler := ((k.setFlag id).1.scheduler.spawn (.calling owner name)).1 }

namespace Kernel.Request

variable {k k' : Kernel Empty EventHook Task}

open Executor

theorem acts (h : k.Request k') (loose : Multiset (Waker × Wait)) (batch : List (Entry Empty)) :
    Acts Task.wait ⟨k, loose, batch⟩ ⟨k', loose, batch⟩ := by
  cases h with
  | none => exact .refl
  | tryGet id => exact .single (.call loose batch (.tryGet k id))
  | tryPut id v => exact .single (.call loose batch (.tryPut k id v))
  | tryAcquire id => exact .single (.call loose batch (.tryAcquire k id))
  | release h => exact .single (.call loose batch (.release h))
  | setFlag id => exact .single (.call loose batch (.setFlag k id))
  | clearFlag id => exact .single (.call loose batch (.clearFlag k id))
  | spawn id owner name =>
      exact .head (.call loose batch (.setFlag k id)) (.single (.spawn _ loose batch rfl))

end Kernel.Request

namespace Simulation.MethodResult

def Asks (k : Kernel Empty EventHook Task) : MethodResult → Prop
  | .done s _ => k.Request s.kernel
  | .waits w => w.ticket? = none
  | .sets _ => True

variable {s : Simulation}

theorem asks_withArgs {α : Type} {k : Kernel Empty EventHook Task} (h : s.kernel = k)
    (args : Except SimError α) (f : α → MethodResult) (hf : ∀ a, (f a).Asks k) :
    (withArgs s args f).Asks k := by
  cases args with
  | ok a => exact hf a
  | error e => exact h ▸ .none

theorem asks_effect {k : Kernel Empty EventHook Task} {r : Simulation × Option SimError}
    (h : k.Request r.1.kernel) : (effect r).Asks k := by
  rcases r with ⟨s, _ | e⟩ <;> exact h

end Simulation.MethodResult

namespace Simulation

open MethodResult

variable (s : Simulation)

theorem asks_withBanks (r : Except SimError Banks) : (effect (s.withBanks r)).Asks s.kernel := by
  cases r <;> exact .none

theorem asks_channelMethod (target : Handle) (id : Nat) (name : String) (args : List Value) :
    (s.channelMethod target id name args).Asks s.kernel := by
  unfold channelMethod
  split
  · rfl
  · exact asks_withArgs rfl _ _ fun _ => rfl
  · exact .tryGet id
  · exact asks_withArgs rfl _ _ fun v => .tryPut id v
  all_goals exact .none

theorem asks_memoryMethod (id : Nat) (name : String) (args : List Value) :
    (s.memoryMethod id name args).Asks s.kernel := by
  unfold memoryMethod
  split
  · exact .none
  · exact asks_withArgs rfl _ _ fun _ => s.asks_withBanks _
  all_goals exact .none

theorem asks_regFileMethod (id : Nat) (name : String) (args : List Value) :
    (s.regFileMethod id name args).Asks s.kernel := by
  unfold regFileMethod
  split
  · exact .none
  · exact asks_withArgs rfl _ _ fun _ => s.asks_withBanks _
  · exact .none

theorem asks_spaceMethod (id : Nat) (name : String) (args : List Value) :
    (s.spaceMethod id name args).Asks s.kernel := by
  unfold spaceMethod
  split
  · exact .none
  · exact asks_withArgs rfl _ _ fun _ => asks_effect .none
  · exact .none

theorem asks_viewMethod (id base : Nat) (name : String) (args : List Value) :
    (s.viewMethod id base name args).Asks s.kernel := by
  refine asks_withArgs rfl _ _ fun offset => ?_
  dsimp only
  split
  · exact .none
  · exact asks_withArgs rfl _ _ fun _ => asks_effect .none
  · exact .none
  · exact .none
  · exact asks_withArgs rfl _ _ fun _ => asks_effect .none
  · exact .none

theorem asks_release (lock : Nat) : (effect (s.release lock)).Asks s.kernel := by
  cases h : s.kernel.release lock with
  | ok k =>
      simp only [release, h]
      exact .release h
  | error e =>
      simp only [release, h]
      exact .none

theorem asks_method (target : Handle) (name : String) (args : List Value) :
    (s.method target name args).Asks s.kernel := by
  unfold method
  split
  · split
    · exact asks_withArgs rfl _ _ fun _ => rfl
    · exact .none
    · exact .none
  · exact s.asks_channelMethod _ _ name args
  · split
    · exact s.asks_channelMethod _ _ name args
    · exact .none
  · split
    · exact s.asks_channelMethod _ _ name args
    · exact .none
  · split
    · rfl
    · exact s.asks_release _
    · exact .tryAcquire _
    · exact .none
    · exact .none
  · split
    · trivial
    · exact .clearFlag _
    · exact .none
    · rfl
    · exact .none
  · exact s.asks_memoryMethod _ name args
  · exact s.asks_regFileMethod _ name args
  · exact s.asks_spaceMethod _ name args
  · exact s.asks_viewMethod _ _ name args
  all_goals exact .none

end Simulation

def Control.ticket? : Control → Option (Kernel.Place × Nat)
  | .await w => w.ticket?
  | _ => none

namespace Machine

/-- What leads from one state to the next one: at most one request, and no wait but a new one. -/
structure Asks (m m' : Machine) : Prop where
  request : m.sim.kernel.Request m'.sim.kernel
  fresh : m'.control.ticket? = none

variable {m m' m₁ : Machine}

namespace Asks

theorem quiet (h : m'.sim.kernel = m.sim.kernel) (hc : m'.control.ticket? = none) : Asks m m' :=
  ⟨h ▸ .none, hc⟩

theorem not_queued (h : Asks m m') {w : Wait} (hc : m'.control = .await w) : w.ticket? = none := by
  have hfresh := h.fresh
  rwa [hc] at hfresh

theorem after (h : Asks m₁ m') (hk : m₁.sim.kernel = m.sim.kernel) : Asks m m' :=
  ⟨hk ▸ h.request, h.fresh⟩

theorem done {c : Completion} {a : Activation} {l : List Frame} {s : Simulation}
    (h : m.sim.kernel.Request s.kernel) : Asks m ⟨.done c, a, l, s⟩ := ⟨h, rfl⟩

theorem complete (m : Machine) (c : Completion) : Asks m (m.complete c) := .done .none

theorem giveResult (r : Except SimError Value) : Asks m (m.giveResult r) := by
  cases r <;> exact .complete m _

theorem withResult {α : Type} (r : Except SimError α) (f : α → Machine) (h : ∀ a, Asks m (f a)) :
    Asks m (m.withResult r f) := by
  cases r with
  | ok a => exact h a
  | error e => exact .complete m _

theorem block (body : List Stmt) : Asks m (m.block body) := by
  cases body <;> exact .quiet rfl rfl

end Asks

theorem callFunction_asks (owner : Nat) (name : String) (args : List Value)
    (keywords : List (String × Value)) (mode : WriteMode) :
    Asks m (m.callFunction owner name args keywords mode) := by
  simp only [callFunction]
  split
  · exact .complete m _
  · split
    · exact .complete m _
    · exact (Asks.block _).after rfl

theorem callNow_asks (owner : Nat) (name : String) (args : List Value) :
    Asks m (m.callNow owner name args) :=
  (callFunction_asks owner name args [] .immediate).after rfl

theorem setEvent_asks (event : Nat) : Asks m (m.setEvent event) := by
  have hset := Kernel.Request.setFlag (k := m.sim.kernel) event
  have hspawn := Kernel.Request.spawn (k := m.sim.kernel) event
  rcases h : m.sim.kernel.setFlag event with ⟨k, _ | hook | hook⟩
  all_goals
    rw [h] at hset hspawn
    simp only [setEvent, h]
  · exact .done hset
  · refine ⟨?_, (callNow_asks hook.owner hook.method []).fresh⟩
    rw [callNow_sim]
    exact hset
  · split
    · exact .done hset
    · exact .done (hspawn hook.owner hook.method)

theorem builtin_asks (b : Builtin) (args : List Value) : Asks m (m.builtin b args) := by
  have hkernel : (m.sim.builtin b args).1.kernel = m.sim.kernel := by cases b <;> rfl
  exact (Asks.giveResult (m := m.setSim (m.sim.builtin b args).1) _).after hkernel

theorem callMethod_asks (target : Handle) (name : String) (args : List Value) :
    Asks m (m.callMethod target name args) := by
  have hcall := m.sim.asks_method target name args
  simp only [callMethod]
  cases h : m.sim.method target name args with
  | done s r =>
      rw [h] at hcall
      cases r <;> exact .done hcall
  | waits w =>
      rw [h] at hcall
      exact ⟨.none, hcall⟩
  | sets event => exact setEvent_asks event

theorem invoke_asks (callee : Value) (args : List Value) (keywords : List (String × Value)) :
    Asks m (m.invoke callee args keywords) := by
  unfold invoke
  split
  · exact callFunction_asks _ _ args keywords _
  · split
    · exact callMethod_asks _ _ args
    · exact .complete m _
  · exact builtin_asks _ args
  · exact .complete m _

theorem gathered_asks (use : Gathered) (values : List Value) : Asks m (m.gathered use values) := by
  unfold gathered
  split
  · exact .complete m _
  · exact builtin_asks _ values
  · exact invoke_asks _ values []
  · exact .quiet rfl rfl
  · exact invoke_asks _ _ _

theorem gather_asks (use : Gathered) (done : List Value) (rest : List Expr) :
    Asks m (m.gather use done rest) := by
  cases rest with
  | nil => exact gathered_asks use done.reverse
  | cons e rest => exact .quiet rfl rfl

theorem compareOn_asks (left : Value) (ops : List CmpOp) (comparators : List Expr) :
    Asks m (m.compareOn left ops comparators) := by
  unfold compareOn
  split <;> exact .quiet rfl rfl

theorem eval_asks (e : Expr) : Asks m (m.eval e) := by
  cases e with
  | param name index =>
      simp only [eval]
      split <;> exact .complete m _
  | var name =>
      simp only [eval]
      split <;> exact .complete m _
  | logical op values => cases values <;> exact .quiet rfl rfl
  | call callee args keywords =>
      cases callee with
      | builtin b => exact gather_asks (.builtin b) [] args
      | _ => exact .quiet rfl rfl
  | tuple items => exact gather_asks .tuple [] items
  | _ => exact .quiet rfl rfl

theorem announce_asks (f : FieldRef) (name : String) (old new : Value) (after : List Frame) :
    Asks m (m.announce f name old new after) := by
  obtain ⟨p, c, l, hsim⟩ := m.sim.announce_eq f name old new
  refine .quiet ?_ rfl
  change ((m.sim.trace f name old new).noteEdge f old new).kernel = _
  rw [hsim]

theorem drive_asks (f : FieldRef) (v : Value) : Asks m (m.drive f v) := by
  simp only [drive]
  split
  · exact .complete m _
  · split
    · exact .complete m _
    · exact (announce_asks f _ _ _ _).after rfl

theorem write_asks (f : FieldRef) (v : Value) (mode : WriteMode) : Asks m (m.write f v mode) := by
  simp only [write]
  split
  · exact .complete m _
  · split
    · exact .quiet rfl rfl
    · exact (drive_asks f v).after rfl
    · exact .complete m _
    · exact .complete m _

theorem storeAll_asks (l : List (Expr × Value)) : Asks m (m.storeAll l) := by
  rcases l with _ | ⟨⟨target, v⟩, rest⟩ <;> exact .quiet rfl rfl

theorem store_asks (target : Expr) (v : Value) : Asks m (m.store target v) := by
  cases target with
  | param name index =>
      simp only [store]
      split <;> exact .quiet rfl rfl
  | tuple targets =>
      simp only [store]
      split
      · exact .complete m _
      · split
        · exact storeAll_asks _
        · exact .complete m _
  | _ => exact .quiet rfl rfl

theorem storeField_asks (i : Value) (index : Nat) (v : Value) :
    Asks m (m.storeField i index v) := by
  simp only [storeField]
  split
  · exact .complete m _
  · exact write_asks _ v _

theorem storeMember_asks (i : Value) (name : String) (v : Value) :
    Asks m (m.storeMember i name v) := by
  simp only [storeMember]
  split
  · exact .complete m _
  · split
    · exact write_asks _ v _
    · exact .complete m _

theorem effect_asks {r : Simulation × Option SimError} (h : r.1.kernel = m.sim.kernel) :
    Asks m (m.effect r) := by
  rcases r with ⟨s, _ | e⟩ <;> exact .quiet h rfl

theorem storeItem_asks (container : Expr) (held index v : Value) :
    Asks m (m.storeItem container held index v) := by
  have hbanks : ∀ r, (m.sim.withBanks r).1.kernel = m.sim.kernel := by
    rintro (_ | b) <;> rfl
  unfold storeItem
  split
  · exact .withResult _ _ fun _ => effect_asks (hbanks _)
  · exact .withResult _ _ fun _ => effect_asks (hbanks _)
  · refine .withResult _ _ fun bit => ?_
    split <;> exact .quiet rfl rfl
  · exact .withResult _ _ fun _ => .quiet rfl rfl
  · exact .complete m _

theorem eachNext_asks (target : Expr) (items : List Value) (body orelse : List Stmt) :
    Asks m (m.eachNext target items body orelse) := by
  cases items with
  | nil => exact .block orelse
  | cons v rest => exact .quiet rfl rfl

theorem eachOf_asks (target : Expr) (v : Value) (body orelse : List Stmt) :
    Asks m (m.eachOf target v body orelse) := by
  cases v with
  | tuple items => exact eachNext_asks target items body orelse
  | str text => exact eachNext_asks target _ body orelse
  | _ => exact .complete m _

theorem check_asks (kind : AssertionKind) (holds : Bool) (message : Option String) :
    Asks m (m.check kind holds message) := by
  cases kind <;> cases holds <;> exact .quiet rfl rfl

theorem selectNext_asks (subject : Value) (cases : List Case) :
    Asks m (m.selectNext subject cases) := by
  cases cases <;> exact .quiet rfl rfl

theorem exec_asks (s : Stmt) : Asks m (m.exec s) := by
  cases s with
  | result value => cases value <;> exact .quiet rfl rfl
  | expr e =>
      simp only [exec]
      split <;> exact .quiet rfl rfl
  | _ => exact .quiet rfl rfl

theorem matchAny_asks (subject : Value) (patterns : List Pattern) :
    Asks m (m.matchAny subject patterns) := by
  cases patterns <;> exact .quiet rfl rfl

theorem matchPattern_asks (p : Pattern) (subject : Value) : Asks m (m.matchPattern p subject) := by
  rcases p with (_ | e) | ⟨_ | inner, name⟩ | patterns
  case alternatives => exact matchAny_asks subject patterns
  all_goals exact .quiet rfl rfl

theorem runBody_asks (owner : Nat) (f : Function) : Asks m (m.runBody owner f) :=
  (Asks.block _).after rfl

theorem runComb_asks (p : ProcessRef) : Asks m (m.runComb p) := by
  simp only [runComb]
  split
  · exact .complete m _
  · split
    · exact .complete m _
    · exact (runBody_asks p.owner _).after rfl

theorem runCombs_asks (l : List ProcessRef) : Asks m (m.runCombs l) := by
  cases l with
  | nil => exact .complete m _
  | cons p l => exact (runComb_asks p).after rfl

theorem syncBody_asks (p : ProcessRef) (next : Nat) (body : List Stmt) :
    Asks m (m.syncBody p next body) := by
  cases body with
  | nil => exact .complete m _
  | cons s rest =>
      simp only [syncBody]
      split <;> exact .quiet rfl rfl

theorem runSync_asks (p : ProcessRef) : Asks m (m.runSync p) := by
  simp only [runSync]
  split
  · exact .complete m _
  · refine .withResult _ _ fun reset => ?_
    split
    · exact (syncBody_asks p 0 _).after rfl
    · split
      · exact .quiet rfl rfl
      · exact (syncBody_asks p _ _).after rfl

theorem runSyncs_asks (l : List ProcessRef) : Asks m (m.runSyncs l) := by
  cases l with
  | nil => exact .complete m _
  | cons p l => exact (runSync_asks p).after rfl

theorem workOff_asks (l : List (FieldRef × Value × Value)) : Asks m (m.workOff l) := by
  rcases l with _ | ⟨⟨f, old, new⟩, l⟩
  · exact .complete m _
  · exact announce_asks f _ old new _

theorem round_asks : Asks m m.round := by
  simp only [round]
  split
  · exact .complete m _
  · exact (runSyncs_asks _).after rfl

theorem endDrive_asks (c : Completion) : Asks m (m.endDrive c) := by
  simp only [endDrive]
  split
  · exact .quiet rfl rfl
  · split
    · split <;> exact .quiet rfl rfl
    · simp only [settle]
      split
      · exact .quiet rfl rfl
      · exact round_asks.after rfl

theorem endRounds_asks (c : Completion) : Asks m (m.endRounds c) := by
  cases c <;> exact .quiet rfl rfl

theorem kernel_applyStaged (s : Simulation) : s.applyStaged.1.kernel = s.kernel := by
  obtain ⟨signals, heq⟩ := s.applyStaged_eq
  rw [heq]

theorem resume_asks (f : Frame) (v : Value) : Asks m (m.resume f v) := by
  cases f with
  | fieldOf index => exact .withResult _ _ fun _ => .giveResult _
  | binary op lhs => exact .giveResult _
  | unary op => exact .giveResult _
  | logical op rest =>
      cases rest with
      | nil => exact .complete m _
      | cons e rest =>
          simp only [resume]
          split <;> exact .quiet rfl rfl
  | comparing ops comparators => exact compareOn_asks v ops comparators
  | compared left op ops comparators =>
      refine .withResult _ _ fun holds => ?_
      split
      · exact compareOn_asks v ops comparators
      · exact .complete m _
  | memberOf name => exact .giveResult _
  | subscript container => exact .giveResult _
  | calleeOf args keywords => exact gather_asks _ [] args
  | gather use done rest => exact gather_asks use _ rest
  | storeField index value => exact storeField_asks v index value
  | storeMember name value => exact storeMember_asks v name value
  | storeRest rest => exact storeAll_asks rest
  | storeItem container held value => exact storeItem_asks container held v value
  | block rest => exact .block rest
  | assign targets => exact storeAll_asks _
  | updateWith target op current => exact .withResult _ _ fun _ => .quiet rfl rfl
  | branch body orelse => exact .block _
  | eachOf target body orelse => exact eachOf_asks target v body orelse
  | eachItem target rest body orelse => exact (Asks.block body).after rfl
  | eachRound target rest body orelse => exact eachNext_asks target rest body orelse
  | loopTest test body orelse =>
      simp only [resume]
      split
      · exact (Asks.block body).after rfl
      · exact .block orelse
  | assertionTest kind message =>
      cases message with
      | none => exact check_asks kind _ none
      | some e => exact .quiet rfl rfl
  | assertionText kind holds => exact check_asks kind holds _
  | select cases => exact selectNext_asks v cases
  | caseMatched subject c rest =>
      simp only [resume]
      split
      · split
        · exact .block c.body
        · exact .quiet rfl rfl
      · exact selectNext_asks subject rest
  | caseGuard subject c rest =>
      simp only [resume]
      split
      · exact .block c.body
      · exact selectNext_asks subject rest
  | bindPattern name subject =>
      simp only [resume]
      split <;> exact .quiet rfl rfl
  | alternatives rest subject =>
      simp only [resume]
      split
      · exact .complete m _
      · exact matchAny_asks subject rest
  | calling owner name => exact callFunction_asks owner name [] [] .immediate
  | propagate targets w =>
      cases targets with
      | nil => exact .complete m _
      | cons g rest => exact (drive_asks g w).after rfl
  | combs rest => exact runCombs_asks rest
  | driven => exact endDrive_asks (m := m) (.value v)
  | settled => exact endRounds_asks (m := m) (.value v)
  | round => exact round_asks
  | syncs rest => exact runSyncs_asks rest
  | syncStep p next rest => exact syncBody_asks p next rest
  | syncPause p next => exact .withResult _ _ fun _ => .quiet rfl rfl
  | commit => exact (workOff_asks _).after (kernel_applyStaged m.sim)
  | changes rest => exact workOff_asks rest
  | clock field low high level =>
      exact ⟨.none, rfl⟩
  | clockEdge field low high level => exact (write_asks field _ .immediate).after rfl
  | _ => exact .quiet rfl rfl

theorem unwind_asks (f : Frame) (c : Completion) : Asks m (m.unwind f c) := by
  cases f with
  | eachRound target rest body orelse =>
      cases c with
      | again => exact eachNext_asks target rest body orelse
      | _ => exact .quiet rfl rfl
  | driven =>
      have hend : m.unwind .driven c = m.endDrive c := by cases c <;> rfl
      exact hend ▸ endDrive_asks c
  | settled =>
      have hend : m.unwind .settled c = m.endRounds c := by cases c <;> rfl
      exact hend ▸ endRounds_asks c
  | _ => cases c <;> exact .quiet rfl rfl

theorem step_asks {waker : Waker} (h : m.step waker = .go m')
    (hwait : ∀ w, m.control ≠ .await w) : Asks m m' := by
  cases step_goes h with
  | eval e => exact eval_asks e
  | exec s => exact exec_asks s
  | store target v => exact store_asks target v
  | matching p subject => exact matchPattern_asks p subject
  | await w hc => exact absurd hc (hwait w)
  | done c f rest =>
      cases c with
      | value v => exact (resume_asks f v).after rfl
      | _ => exact (unwind_asks f _).after rfl

end Machine

end Clockwork
