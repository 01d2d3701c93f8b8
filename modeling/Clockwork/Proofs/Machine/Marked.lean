import Clockwork.Proofs.Machine.Marks
import Clockwork.Proofs.Tree.Signals

namespace Clockwork

namespace Simulation

variable (s : Simulation) (k : Mark)

@[simp] theorem member_mark (v : Value) (name : String) :
    (s.mark k).member v name = s.member v name := by
  cases v with
  | obj h =>
      cases h with
      | component id =>
          have hindex : ((s.mark k).tree.inst id).fieldIndex? name =
              (s.tree.inst id).fieldIndex? name := rfl
          rw [member, member, hindex]
          cases (s.tree.inst id).fieldIndex? name with
          | some index => exact s.readField_mark k ⟨id, index⟩
          | none => rfl
      | _ => rfl
  | _ => rfl

@[simp] theorem isReset_mark (p : ProcessRef) :
    Machine.isReset (s.mark k) p = Machine.isReset s p := by
  have hreset : (s.mark k).wiring.resets.get? p = s.wiring.resets.get? p := rfl
  rw [Machine.isReset, Machine.isReset, hreset]
  cases s.wiring.resets.get? p with
  | none => rfl
  | some f => exact congrArg (Except.map Value.truthy) (s.readField_mark k f)

theorem subscript_mark (container index : Value) :
    (s.mark k).subscript container index = s.subscript container index := by
  cases container with
  | obj h => cases h <;> rfl
  | _ => rfl

theorem builtin_mark (b : Builtin) (args : List Value) :
    (s.mark k).builtin b args = ((s.builtin b args).1.mark k, (s.builtin b args).2) := by
  cases b
  case len =>
    cases args with
    | nil => rfl
    | cons v args =>
        cases v with
        | obj h => cases h <;> rfl
        | _ => rfl
  all_goals rfl

namespace MethodResult

def mark (k : Mark) : MethodResult → MethodResult
  | done s r => done (s.mark k) r
  | waits w => waits w
  | sets event => sets event

theorem mark_effect (r : Simulation × Option SimError) :
    effect (r.1.mark k, r.2) = (effect r).mark k := by
  rcases r with ⟨s, _ | e⟩ <;> rfl

theorem mark_withArgs {α : Type} (args : Except SimError α) (f g : α → MethodResult)
    (h : ∀ a, f a = (g a).mark k) :
    withArgs (s.mark k) args f = (withArgs s args g).mark k := by
  cases args with
  | ok a => exact h a
  | error e => rfl

end MethodResult

open MethodResult

theorem mark_withBanks (r : Except SimError Banks) :
    (s.mark k).withBanks r = ((s.withBanks r).1.mark k, (s.withBanks r).2) := by
  cases r <;> rfl

theorem channelMethod_mark (target : Handle) (id : Nat) (name : String) (args : List Value) :
    (s.mark k).channelMethod target id name args =
      (s.channelMethod target id name args).mark k := by
  unfold channelMethod
  split
  · rfl
  · exact mark_withArgs s k _ _ _ fun _ => rfl
  · rfl
  · exact mark_withArgs s k _ _ _ fun _ => rfl
  all_goals rfl

theorem memoryMethod_mark (id : Nat) (name : String) (args : List Value) :
    (s.mark k).memoryMethod id name args = (s.memoryMethod id name args).mark k := by
  unfold memoryMethod
  split
  · rfl
  · refine mark_withArgs s k _ _ _ fun (index, value) => ?_
    refine Eq.trans (congrArg effect ?_) (mark_effect k (s.writeMemory id index value))
    exact mark_withBanks s k _
  all_goals rfl

theorem regFileMethod_mark (id : Nat) (name : String) (args : List Value) :
    (s.mark k).regFileMethod id name args = (s.regFileMethod id name args).mark k := by
  unfold regFileMethod
  split
  · rfl
  · refine mark_withArgs s k _ _ _ fun (offset, value) => ?_
    refine Eq.trans (congrArg effect ?_) (mark_effect k (s.writeRegister id offset value))
    exact mark_withBanks s k _
  all_goals rfl

theorem spaceMethod_mark (id : Nat) (name : String) (args : List Value) :
    (s.mark k).spaceMethod id name args = (s.spaceMethod id name args).mark k := by
  unfold spaceMethod
  split
  · rfl
  · exact mark_withArgs s k _ _ _ fun (addr, value, size) =>
      mark_effect k (s.writeSpace id addr value size)
  · rfl

theorem viewMethod_mark (id base : Nat) (name : String) (args : List Value) :
    (s.mark k).viewMethod id base name args = (s.viewMethod id base name args).mark k := by
  refine mark_withArgs s k _ _ _ fun offset => ?_
  dsimp only
  split
  · rfl
  · exact mark_withArgs s k _ _ _ fun (value, size) => mark_effect k (s.writeSpace id _ value size)
  · rfl
  · rfl
  · exact mark_withArgs s k _ _ _ fun value => mark_effect k (s.writeSpace id _ value _)
  · rfl

theorem method_mark (target : Handle) (name : String) (args : List Value) :
    (s.mark k).method target name args = (s.method target name args).mark k := by
  unfold method
  split
  · split
    · exact mark_withArgs s k _ _ _ fun _ => rfl
    all_goals rfl
  · exact s.channelMethod_mark k _ _ name args
  · split
    · exact s.channelMethod_mark k _ _ name args
    · rfl
  · split
    · exact s.channelMethod_mark k _ _ name args
    · rfl
  · rename_i id
    split
    case h_2 =>
      refine Eq.trans (congrArg effect ?_) (mark_effect k (s.release id))
      have hkernel : (s.mark k).kernel = s.kernel := rfl
      rw [release, release, hkernel]
      cases s.kernel.release id <;> rfl
    all_goals rfl
  · split <;> rfl
  · exact s.memoryMethod_mark k _ name args
  · exact s.regFileMethod_mark k _ name args
  · exact s.spaceMethod_mark k _ name args
  · exact s.viewMethod_mark k _ _ name args
  all_goals rfl

end Simulation

namespace Machine

def mark (m : Machine) (k : Mark) : Machine := { m with sim := m.sim.mark k }

section Moves

variable (m : Machine) (k : Mark)

@[simp] theorem mark_control : (m.mark k).control = m.control := rfl

@[simp] theorem mark_activation : (m.mark k).activation = m.activation := rfl

@[simp] theorem mark_stack : (m.mark k).stack = m.stack := rfl

@[simp] theorem mark_sim : (m.mark k).sim = m.sim.mark k := rfl

theorem giveResult_mark (r : Except SimError Value) :
    (m.mark k).giveResult r = (m.giveResult r).mark k := by
  cases r <;> rfl

theorem withResult_mark {α : Type} (r : Except SimError α) (f g : α → Machine)
    (h : ∀ a, f a = (g a).mark k) : (m.mark k).withResult r f = (m.withResult r g).mark k := by
  cases r with
  | ok a => exact h a
  | error e => rfl

theorem block_mark (body : List Stmt) : (m.mark k).block body = (m.block body).mark k := by
  cases body <;> rfl

theorem callFunction_mark (owner : Nat) (name : String) (args : List Value)
    (keywords : List (String × Value)) (mode : WriteMode) :
    (m.mark k).callFunction owner name args keywords mode =
      (m.callFunction owner name args keywords mode).mark k := by
  have htree : (m.mark k).sim.tree = m.sim.tree := rfl
  rw [callFunction, callFunction, htree]
  cases (m.sim.tree.inst owner).functions.get? name with
  | none => rfl
  | some f =>
      dsimp only
      cases f.arguments args keywords with
      | error e => rfl
      | ok params =>
          exact block_mark
            { m with
              stack := .returning m.activation :: m.stack
              activation :=
                { Activation.begin owner f.name mode with params := params.toArray } } k f.body

theorem callNow_mark (owner : Nat) (name : String) (args : List Value) :
    (m.mark k).callNow owner name args = (m.callNow owner name args).mark k :=
  callFunction_mark { m with stack := .boundary name m.activation :: m.stack } k owner name
    args [] .immediate

theorem setEvent_mark (event : Nat) : (m.mark k).setEvent event = (m.setEvent event).mark k := by
  have hkernel : (m.mark k).sim.kernel = m.sim.kernel := rfl
  rcases h : m.sim.kernel.setFlag event with ⟨k', _ | hook | hook⟩
  · simp only [setEvent, hkernel, h]
    rfl
  · simp only [setEvent, hkernel, h]
    exact callNow_mark
      { m with stack := .discard :: m.stack, sim := m.sim.setKernel k' } k hook.owner
      hook.method []
  · simp only [setEvent, hkernel, h]
    cases (k'.event event).detached <;> rfl

theorem builtin_mark (b : Builtin) (args : List Value) :
    (m.mark k).builtin b args = (m.builtin b args).mark k := by
  simp only [builtin, mark_sim, Simulation.builtin_mark]
  exact giveResult_mark (m.setSim (m.sim.builtin b args).1) k (m.sim.builtin b args).2

theorem callMethod_mark (target : Handle) (name : String) (args : List Value) :
    (m.mark k).callMethod target name args = (m.callMethod target name args).mark k := by
  simp only [callMethod, mark_sim, Simulation.method_mark]
  cases m.sim.method target name args with
  | done s r => exact giveResult_mark (m.setSim s) k r
  | waits w => rfl
  | sets event => exact setEvent_mark m k event

theorem invoke_mark (callee : Value) (args : List Value) (keywords : List (String × Value)) :
    (m.mark k).invoke callee args keywords = (m.invoke callee args keywords).mark k := by
  rcases callee with _ | _ | _ | _ | _ | h
  case obj =>
    cases h with
    | method owner name => exact callFunction_mark m k owner name args keywords _
    | bound target name =>
        simp only [invoke]
        cases keywords.isEmpty with
        | false => rfl
        | true => exact callMethod_mark m k target name args
    | builtin b => exact builtin_mark m k b args
    | _ => rfl
  all_goals rfl

theorem gathered_mark (use : Gathered) (values : List Value) :
    (m.mark k).gathered use values = (m.gathered use values).mark k := by
  rcases use with _ | b | ⟨callee, _ | ⟨⟨name, e⟩, rest⟩⟩ | ⟨callee, args, names⟩
  · rfl
  · exact builtin_mark m k b values
  · exact invoke_mark m k callee values []
  · rfl
  · exact invoke_mark m k callee args (names.zip values)

theorem gather_mark (use : Gathered) (done : List Value) (rest : List Expr) :
    (m.mark k).gather use done rest = (m.gather use done rest).mark k := by
  cases rest with
  | nil => exact gathered_mark m k use done.reverse
  | cons e rest => rfl

theorem compareOn_mark (left : Value) (ops : List CmpOp) (comparators : List Expr) :
    (m.mark k).compareOn left ops comparators = (m.compareOn left ops comparators).mark k := by
  cases ops <;> cases comparators <;> rfl

theorem eval_mark (e : Expr) : (m.mark k).eval e = (m.eval e).mark k := by
  cases e with
  | param name index =>
      simp only [eval, mark_activation]
      cases m.activation.params[index]? <;> rfl
  | var name =>
      simp only [eval, mark_activation]
      cases m.activation.locals.get? name <;> rfl
  | logical op values => cases values <;> rfl
  | call callee args keywords =>
      cases callee with
      | builtin b => exact gather_mark m k (.builtin b) [] args
      | _ => rfl
  | tuple items => exact gather_mark m k .tuple [] items
  | _ => rfl

theorem storeAll_mark (targets : List (Expr × Value)) :
    (m.mark k).storeAll targets = (m.storeAll targets).mark k := by
  rcases targets with _ | ⟨⟨target, v⟩, rest⟩ <;> rfl

theorem store_mark (target : Expr) (v : Value) :
    (m.mark k).store target v = (m.store target v).mark k := by
  cases target with
  | param name index =>
      by_cases h : index < m.activation.params.size
      · simp only [store, mark_activation, h, ↓reduceIte]
        rfl
      · simp only [store, mark_activation, h, ↓reduceIte]
        rfl
  | tuple targets =>
      simp only [store]
      cases v.asTuple with
      | error e => rfl
      | ok items =>
          dsimp only
          split
          · exact storeAll_mark m k _
          · rfl
  | _ => rfl

theorem eachNext_mark (target : Expr) (items : List Value) (body orelse : List Stmt) :
    (m.mark k).eachNext target items body orelse =
      (m.eachNext target items body orelse).mark k := by
  cases items with
  | nil => exact block_mark m k orelse
  | cons v rest => rfl

theorem eachOf_mark (target : Expr) (v : Value) (body orelse : List Stmt) :
    (m.mark k).eachOf target v body orelse = (m.eachOf target v body orelse).mark k := by
  cases v with
  | tuple items => exact eachNext_mark m k target items body orelse
  | str text => exact eachNext_mark m k target (Value.ofChars text) body orelse
  | _ => rfl

theorem check_mark (kind : AssertionKind) (holds : Bool) (message : Option String) :
    (m.mark k).check kind holds message = (m.check kind holds message).mark k := by
  cases kind <;> cases holds <;> rfl

theorem selectNext_mark (subject : Value) (cases : List Case) :
    (m.mark k).selectNext subject cases = (m.selectNext subject cases).mark k := by
  cases cases <;> rfl

theorem exec_mark (s : Stmt) : (m.mark k).exec s = (m.exec s).mark k := by
  cases s with
  | result value => cases value <;> rfl
  | expr e =>
      simp only [exec]
      cases (cyclesArgs? (.expr e)).isSome <;> rfl
  | _ => rfl

theorem matchAny_mark (subject : Value) (patterns : List Pattern) :
    (m.mark k).matchAny subject patterns = (m.matchAny subject patterns).mark k := by
  cases patterns <;> rfl

theorem matchPattern_mark (p : Pattern) (subject : Value) :
    (m.mark k).matchPattern p subject = (m.matchPattern p subject).mark k := by
  cases p with
  | value e => cases e <;> rfl
  | bind inner name => cases inner <;> rfl
  | alternatives patterns => exact matchAny_mark m k subject patterns

theorem effect_mark (r : Simulation × Option SimError) :
    (m.mark k).effect (r.1.mark k, r.2) = (m.effect r).mark k := by
  rcases r with ⟨s, _ | e⟩ <;> rfl

theorem storeItem_mark (container : Expr) (held index v : Value) :
    (m.mark k).storeItem container held index v =
      (m.storeItem container held index v).mark k := by
  cases held with
  | int n =>
      refine withResult_mark m k _ _ _ fun bit => ?_
      split <;> rfl
  | tuple items => exact withResult_mark m k _ _ _ fun _ => rfl
  | obj h =>
      cases h with
      | memory id =>
          refine withResult_mark m k _ _ _ fun (i, n) => ?_
          refine Eq.trans (congrArg (m.mark k).effect ?_)
            (effect_mark m k (m.sim.writeMemory id i n))
          exact m.sim.mark_withBanks k _
      | regFile id =>
          refine withResult_mark m k _ _ _ fun (i, n) => ?_
          refine Eq.trans (congrArg (m.mark k).effect ?_)
            (effect_mark m k (m.sim.writeRegister id i n))
          exact m.sim.mark_withBanks k _
      | _ => rfl
  | _ => rfl

variable {m k}

theorem write_mark {f : FieldRef} {v : Value} (hs : m.sim.Ordered)
    (hf : ∀ slot, m.sim.tree.SignalAt f slot → k.place ≠ (Mark.ofWrite f slot v).place) :
    (m.mark k).write f v .staged = (m.write f v .staged).mark k := by
  have htree : (m.mark k).sim.tree = m.sim.tree := rfl
  rw [write, write, htree]
  cases hslot : m.sim.tree.slot f.owner f.index with
  | error e => rfl
  | ok slot =>
      dsimp only
      cases hst : slot.storage with
      | signal =>
          have hcomm : (m.sim.mark k).stage f slot v = (m.sim.stage f slot v).mark k := by
            rw [← Simulation.mark_ofWrite, ← Simulation.mark_ofWrite]
            exact hs.mark_comm (hf slot ⟨hslot, hst⟩)
          exact congrArg (fun s => (m.setSim s).finish) hcomm
      | _ => rfl

theorem pause_mark (hs : m.sim.Ordered) {p : ProcessRef} (hp : k.place ≠ .inr p) (next : Nat)
    (cycles : Int) : (m.mark k).pause p next cycles = (m.pause p next cycles).mark k := by
  let pause : Pause :=
    ⟨next, (Bounded.toNat64? (max cycles 1)).getD 1 - 1, m.activation.locals⟩
  have hcomm : (m.sim.mark k).mark (.paused p (some pause)) =
      (m.sim.mark (.paused p (some pause))).mark k := hs.mark_comm hp
  exact congrArg (fun s => (m.setSim s).finish) hcomm

theorem syncBody_mark (hs : m.sim.Ordered) {p : ProcessRef} (hp : k.place ≠ .inr p) (next : Nat)
    (body : List Stmt) : (m.mark k).syncBody p next body = (m.syncBody p next body).mark k := by
  cases body with
  | nil => rfl
  | cons stmt rest =>
      simp only [syncBody]
      rcases cyclesArgs? stmt with _ | _ | ⟨e, _⟩
      · rfl
      · exact pause_mark hs hp _ _
      · rfl

theorem resumeSync_mark (hs : m.sim.Ordered) {p : ProcessRef} (hp : k.place ≠ .inr p)
    (f : Function) (next : Nat) (locals : Table String Value) :
    (m.mark k).resumeSync p f next locals = (m.resumeSync p f next locals).mark k :=
  syncBody_mark
    (m := { m with
      stack := .boundary f.name m.activation :: m.stack
      activation := { Activation.begin p.owner f.name .staged with locals := locals } })
    hs hp next (f.body.drop next)

/-- A clocked process begins or goes on in the same way, if the mark is not its own pause. -/
theorem runSync_mark (hs : m.sim.Ordered) {p : ProcessRef} (hp : k.place ≠ .inr p) :
    (m.mark k).runSync p = (m.runSync p).mark k := by
  have hget : (m.sim.mark k).paused.get? p = m.sim.paused.get? p := by
    cases k with
    | staged owner key v => rfl
    | paused q pause =>
        refine (Table.get?_put _ _ _ _).trans (if_neg ?_)
        rintro rfl
        exact hp rfl
  have herase : { m.sim.mark k with paused := (m.sim.mark k).paused.erase p } =
      ({ m.sim with paused := m.sim.paused.erase p } : Simulation).mark k := by
    have hplace : k.place ≠ (Mark.paused p none).place := hp
    exact hs.mark_comm hplace
  have hsorted : ({ m.sim with paused := m.sim.paused.erase p } : Simulation).Ordered :=
    hs.mark (.paused p none)
  have hsyncs : ((m.sim.mark k).tree.inst p.owner).syncs = (m.sim.tree.inst p.owner).syncs := rfl
  simp only [runSync, mark_sim, hsyncs]
  cases (m.sim.tree.inst p.owner).syncs[p.index]? with
  | none => rfl
  | some f =>
      rw [Simulation.isReset_mark]
      refine withResult_mark m k _ _ _ fun reset => ?_
      rw [hget, herase]
      cases (if reset = true then none else m.sim.paused.get? p) with
      | none => exact resumeSync_mark (m := m.setSim _) hsorted hp f 0 .empty
      | some pause =>
          dsimp only
          split
          · have hplace : k.place ≠
                (Mark.paused p (some { pause with skip := pause.skip - 1 })).place := hp
            exact congrArg (fun s => (m.setSim s).finish) (hsorted.mark_comm hplace)
          · exact resumeSync_mark (m := m.setSim _) hsorted hp f pause.next pause.locals

def Elsewhere (k : Mark) (t : Tree) (w : Option (FieldRef × Value)) : Prop :=
  ∀ f v slot, w = some (f, v) → t.SignalAt f slot → k.place ≠ (Mark.ofWrite f slot v).place

theorem storeField_mark (ha : m.activation.mode = .staged) (hs : m.sim.Ordered) (i : Value)
    (index : Nat) (v : Value)
    (hw : Elsewhere k m.sim.tree (Frame.write? m.sim (.storeField index v) i)) :
    (m.mark k).storeField i index v = (m.storeField i index v).mark k := by
  cases hi : i.asComponent with
  | error e =>
      simp only [storeField, hi]
      rfl
  | ok id =>
      simp only [storeField, hi, mark_activation, ha]
      exact write_mark hs fun slot hslot =>
        hw _ v slot (by simp [Frame.write?, hi, Except.toOption]) hslot

theorem storeMember_mark (ha : m.activation.mode = .staged) (hs : m.sim.Ordered) (i : Value)
    (name : String) (v : Value)
    (hw : Elsewhere k m.sim.tree (Frame.write? m.sim (.storeMember name v) i)) :
    (m.mark k).storeMember i name v = (m.storeMember i name v).mark k := by
  have htree : (m.mark k).sim.tree = m.sim.tree := rfl
  cases hi : i.asComponent with
  | error e =>
      simp only [storeMember, hi]
      rfl
  | ok id =>
      cases hindex : (m.sim.tree.inst id).fieldIndex? name with
      | none =>
          simp only [storeMember, hi, htree, hindex]
          rfl
      | some index =>
          simp only [storeMember, hi, htree, hindex, mark_activation, ha]
          exact write_mark hs fun slot hslot =>
            hw _ v slot (by simp [Frame.write?, hi, hindex, Except.toOption]) hslot

theorem resume_mark (ha : m.activation.mode = .staged) (hs : m.sim.Ordered) {f : Frame}
    (hf : f.inBody .staged) (v : Value) (hw : Elsewhere k m.sim.tree (f.write? m.sim v)) :
    (m.mark k).resume f v = (m.resume f v).mark k := by
  cases f with
  | fieldOf index =>
      refine withResult_mark m k _ _ _ fun id => ?_
      rw [mark_sim, Simulation.readField_mark]
      exact giveResult_mark m k _
  | binary op lhs => exact giveResult_mark m k _
  | unary op => exact giveResult_mark m k _
  | logical op rest =>
      cases rest with
      | nil => rfl
      | cons e rest =>
          simp only [resume]
          cases v.decides op <;> rfl
  | comparing ops comparators => exact compareOn_mark m k v ops comparators
  | compared left op ops comparators =>
      refine withResult_mark m k _ _ _ fun holds => ?_
      cases holds with
      | false => rfl
      | true => exact compareOn_mark m k v ops comparators
  | memberOf name =>
      simp only [resume, mark_sim, Simulation.member_mark]
      exact giveResult_mark m k _
  | subscript container =>
      simp only [resume, mark_sim, Simulation.subscript_mark]
      exact giveResult_mark m k _
  | calleeOf args keywords => exact gather_mark m k _ [] args
  | gather use done rest => exact gather_mark m k use (v :: done) rest
  | storeField index value => exact storeField_mark ha hs v index value hw
  | storeMember name value => exact storeMember_mark ha hs v name value hw
  | storeRest rest => exact storeAll_mark m k rest
  | storeItem container held value => exact storeItem_mark m k container held v value
  | block rest => exact block_mark m k rest
  | assign targets => exact storeAll_mark m k _
  | updateWith target op current => exact withResult_mark m k _ _ _ fun _ => rfl
  | branch body orelse => exact block_mark m k _
  | eachOf target body orelse => exact eachOf_mark m k target v body orelse
  | eachItem target rest body orelse =>
      exact block_mark { m with stack := .eachRound target rest body orelse :: m.stack } k body
  | eachRound target rest body orelse => exact eachNext_mark m k target rest body orelse
  | loopTest test body orelse =>
      simp only [resume]
      cases v.truthy with
      | true => exact block_mark { m with stack := .loopRound test body orelse :: m.stack } k body
      | false => exact block_mark m k orelse
  | assertionTest kind message =>
      cases message with
      | none => exact check_mark m k kind _ none
      | some e => rfl
  | assertionText kind holds => exact check_mark m k kind holds _
  | select cases => exact selectNext_mark m k v cases
  | caseMatched subject c rest =>
      simp only [resume]
      cases v.truthy with
      | true =>
          cases c.guard with
          | none => exact block_mark m k c.body
          | some e => rfl
      | false => exact selectNext_mark m k subject rest
  | caseGuard subject c rest =>
      simp only [resume]
      cases v.truthy with
      | true => exact block_mark m k c.body
      | false => exact selectNext_mark m k subject rest
  | bindPattern name subject =>
      simp only [resume]
      cases v.truthy <;> rfl
  | alternatives rest subject =>
      simp only [resume]
      cases v.truthy with
      | true => rfl
      | false => exact matchAny_mark m k subject rest
  | boundary | calling | propagate | combs | combOver | driven | settled | round | syncs
  | syncStep | syncPause | commit | changes | clock | clockEdge => exact hf.elim
  | _ => rfl

theorem unwind_mark {f : Frame} (hf : f.inBody .staged) (c : Completion) :
    (m.mark k).unwind f c = (m.unwind f c).mark k := by
  cases f with
  | eachRound target rest body orelse =>
      cases c with
      | again => exact eachNext_mark m k target rest body orelse
      | _ => rfl
  | boundary | calling | propagate | combs | combOver | driven | settled | round | syncs
  | syncStep | syncPause | commit | changes | clock | clockEdge => exact hf.elim
  | _ => cases c <;> rfl

end Moves

def Next.mark (k : Mark) : Next → Next
  | .go m => .go (m.mark k)
  | .over c s => .over c (s.mark k)
  | .parked t s => .parked t (s.mark k)

theorem await_mark (waker : Waker) (m : Machine) (k : Mark) (w : Wait) :
    (m.mark k).await waker w = (m.await waker w).mark k := by
  have hkernel : (m.mark k).sim.kernel = m.sim.kernel := rfl
  simp only [await, mark_stack, hkernel]
  rcases innermostBody m.stack with _ | ⟨process, stack⟩
  · dsimp only
    rcases m.sim.kernel.poll waker w with ⟨k', v | w'⟩ <;> rfl
  · dsimp only
    rcases m.sim.kernel.poll .nobody w with ⟨k', v | w'⟩ <;> rfl

end Machine

end Clockwork
