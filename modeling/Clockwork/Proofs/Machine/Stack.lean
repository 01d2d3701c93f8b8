import Clockwork.Simulation.Run

namespace Clockwork.Machine

def onto (m : Machine) (base : List Frame) : Machine := { m with stack := m.stack ++ base }

section Cases

variable {m : Machine}

theorem drive_error {f : FieldRef} {e : SimError}
    (h : m.sim.tree.slot f.owner f.index = .error e) (v : Value) : m.drive f v = m.fail e := by
  simp only [drive, h]

theorem drive_same {f : FieldRef} {slot : FieldSlot} {v : Value}
    (h : m.sim.tree.slot f.owner f.index = .ok slot)
    (hv : ((m.sim.signalsOf f.owner).read slot.key).same (v.fit slot.width slot.signed) = true) :
    m.drive f v = m.finish := by
  simp only [drive, h, hv, ↓reduceIte]

theorem drive_changed {f : FieldRef} {slot : FieldSlot} {v : Value}
    (h : m.sim.tree.slot f.owner f.index = .ok slot)
    (hv : ((m.sim.signalsOf f.owner).read slot.key).same (v.fit slot.width slot.signed) = false) :
    m.drive f v =
      (m.setSim (m.sim.withValue f slot (v.fit slot.width slot.signed))).announce f slot.name
        ((m.sim.signalsOf f.owner).read slot.key) (v.fit slot.width slot.signed)
        [.combs (m.sim.watchers f)] := by
  simp only [drive, h, hv, Bool.false_eq_true, ↓reduceIte]
  rfl

theorem round_over (h : (m.sim.pending.isEmpty && !m.sim.hasStaged) = true) :
    m.round = m.finish := by
  simp only [round, h, ↓reduceIte]

theorem round_begin (h : (m.sim.pending.isEmpty && !m.sim.hasStaged) = false) :
    m.round =
      { m with
        sim := { m.sim with pending := [] }
        stack := .commit :: .round :: m.stack }.runSyncs m.sim.pending := by
  simp only [round, h, Bool.false_eq_true, ↓reduceIte]

theorem settle_inRound (h : m.sim.inRound = true) : m.settle = m.finish := by
  simp only [settle, h, ↓reduceIte]

theorem settle_outside (h : m.sim.inRound = false) :
    m.settle =
      { m with sim := { m.sim with inRound := true }, stack := .settled :: m.stack }.round := by
  simp only [settle, h, Bool.false_eq_true, ↓reduceIte]

/-- The machine with one immediate write less under way. -/
def undriven (m : Machine) : Machine :=
  m.setSim { m.sim with driveDepth := m.sim.driveDepth - 1 }

theorem endDrive_inner (c : Completion) (h : 0 < m.undriven.sim.driveDepth) :
    m.endDrive c = m.undriven.complete c := by
  simp only [endDrive, undriven] at h ⊢
  rw [if_pos h]

theorem endDrive_failed_inRound (e : SimError) (h : ¬ 0 < m.undriven.sim.driveDepth)
    (hr : m.sim.inRound = true) : m.endDrive (.failed e) = m.undriven.fail e := by
  simp only [endDrive, undriven] at h ⊢
  rw [if_neg h]
  simp only [setSim, hr, ↓reduceIte]

theorem endDrive_failed_outside (e : SimError) (h : ¬ 0 < m.undriven.sim.driveDepth)
    (hr : m.sim.inRound = false) :
    m.endDrive (.failed e) = (m.undriven.setSim m.undriven.sim.discardPending).fail e := by
  simp only [endDrive, undriven] at h ⊢
  rw [if_neg h]
  simp only [setSim, hr, Bool.false_eq_true, ↓reduceIte]

theorem endDrive_settle {c : Completion} (h : ¬ 0 < m.undriven.sim.driveDepth)
    (hc : ∀ e, c ≠ .failed e) : m.endDrive c = m.undriven.settle := by
  simp only [endDrive, undriven] at h ⊢
  rw [if_neg h]

end Cases

section Moves

variable (m : Machine) (base : List Frame)

@[simp] theorem onto_control : (m.onto base).control = m.control := rfl

@[simp] theorem onto_activation : (m.onto base).activation = m.activation := rfl

@[simp] theorem onto_sim : (m.onto base).sim = m.sim := rfl

@[simp] theorem onto_stack : (m.onto base).stack = m.stack ++ base := rfl

@[simp] theorem onto_nil : m.onto [] = m := by
  simp [onto]

@[simp] theorem complete_onto (c : Completion) :
    (m.onto base).complete c = (m.complete c).onto base := rfl

@[simp] theorem give_onto (v : Value) : (m.onto base).give v = (m.give v).onto base := rfl

@[simp] theorem finish_onto : (m.onto base).finish = m.finish.onto base := rfl

@[simp] theorem fail_onto (e : SimError) : (m.onto base).fail e = (m.fail e).onto base := rfl

@[simp] theorem giveResult_onto (r : Except SimError Value) :
    (m.onto base).giveResult r = (m.giveResult r).onto base := by
  cases r <;> rfl

@[simp] theorem look_onto (c : Control) : (m.onto base).look c = (m.look c).onto base := rfl

@[simp] theorem push_onto (f : Frame) (c : Control) :
    (m.onto base).push f c = (m.push f c).onto base := rfl

@[simp] theorem pushAll_onto (frames : List Frame) :
    (m.onto base).pushAll frames = (m.pushAll frames).onto base := by
  simp [pushAll, onto, finish, give, complete]

@[simp] theorem setSim_onto (s : Simulation) :
    (m.onto base).setSim s = (m.setSim s).onto base := rfl

@[simp] theorem setLocal_onto (name : String) (v : Value) :
    (m.onto base).setLocal name v = (m.setLocal name v).onto base := rfl

@[simp] theorem withResult_onto {α : Type} (r : Except SimError α) (f g : α → Machine)
    (h : ∀ a, f a = (g a).onto base) :
    (m.onto base).withResult r f = (m.withResult r g).onto base := by
  cases r with
  | ok a => exact h a
  | error e => rfl

@[simp] theorem block_onto (body : List Stmt) :
    (m.onto base).block body = (m.block body).onto base := by
  cases body <;> rfl

@[simp] theorem callFunction_onto (owner : Nat) (name : String) (args : List Value)
    (keywords : List (String × Value)) (mode : WriteMode) :
    (m.onto base).callFunction owner name args keywords mode =
      (m.callFunction owner name args keywords mode).onto base := by
  simp only [callFunction, onto_sim]
  cases (m.sim.tree.inst owner).functions.get? name with
  | none => rfl
  | some f =>
      dsimp only
      cases f.arguments args keywords with
      | error e => rfl
      | ok params =>
          exact block_onto
            { m with
              stack := .returning m.activation :: m.stack
              activation :=
                { Activation.begin owner f.name mode with params := params.toArray } } base f.body

@[simp] theorem callNow_onto (owner : Nat) (name : String) (args : List Value) :
    (m.onto base).callNow owner name args = (m.callNow owner name args).onto base :=
  callFunction_onto { m with stack := .boundary name m.activation :: m.stack } base owner name
    args [] .immediate

@[simp] theorem setEvent_onto (event : Nat) :
    (m.onto base).setEvent event = (m.setEvent event).onto base := by
  rcases h : m.sim.kernel.setFlag event with ⟨k, _ | hook | hook⟩
  · simp only [setEvent, onto_sim, h]
    rfl
  · simp only [setEvent, onto_sim, h]
    exact callNow_onto
      { m with stack := .discard :: m.stack, sim := m.sim.setKernel k } base hook.owner
      hook.method []
  · simp only [setEvent, onto_sim, h]
    cases (k.event event).detached <;> rfl

@[simp] theorem builtin_onto (b : Builtin) (args : List Value) :
    (m.onto base).builtin b args = (m.builtin b args).onto base :=
  giveResult_onto (m.setSim (m.sim.builtin b args).1) base (m.sim.builtin b args).2

@[simp] theorem callMethod_onto (target : Handle) (name : String) (args : List Value) :
    (m.onto base).callMethod target name args = (m.callMethod target name args).onto base := by
  simp only [callMethod, onto_sim]
  cases m.sim.method target name args with
  | done s r => exact giveResult_onto (m.setSim s) base r
  | waits w => rfl
  | sets event => exact setEvent_onto m base event

@[simp] theorem invoke_onto (callee : Value) (args : List Value)
    (keywords : List (String × Value)) :
    (m.onto base).invoke callee args keywords = (m.invoke callee args keywords).onto base := by
  rcases callee with _ | _ | _ | _ | _ | h
  case obj =>
    cases h with
    | method owner name => exact callFunction_onto m base owner name args keywords _
    | bound target name =>
        simp only [invoke]
        cases keywords.isEmpty with
        | false => rfl
        | true => exact callMethod_onto m base target name args
    | builtin b => exact builtin_onto m base b args
    | _ => rfl
  all_goals rfl

@[simp] theorem gathered_onto (use : Gathered) (values : List Value) :
    (m.onto base).gathered use values = (m.gathered use values).onto base := by
  rcases use with _ | b | ⟨callee, _ | ⟨⟨name, e⟩, rest⟩⟩ | ⟨callee, args, names⟩
  · rfl
  · exact builtin_onto m base b values
  · exact invoke_onto m base callee values []
  · rfl
  · exact invoke_onto m base callee args (names.zip values)

@[simp] theorem gather_onto (use : Gathered) (done : List Value) (rest : List Expr) :
    (m.onto base).gather use done rest = (m.gather use done rest).onto base := by
  cases rest with
  | nil => exact gathered_onto m base use done.reverse
  | cons e rest => rfl

@[simp] theorem compareOn_onto (left : Value) (ops : List CmpOp) (comparators : List Expr) :
    (m.onto base).compareOn left ops comparators =
      (m.compareOn left ops comparators).onto base := by
  cases ops <;> cases comparators <;> rfl

@[simp] theorem eval_onto (e : Expr) : (m.onto base).eval e = (m.eval e).onto base := by
  cases e with
  | param name index =>
      simp only [eval, onto_activation]
      cases m.activation.params[index]? <;> rfl
  | var name =>
      simp only [eval, onto_activation]
      cases m.activation.locals.get? name <;> rfl
  | logical op values => cases values <;> rfl
  | call callee args keywords =>
      cases callee with
      | builtin b => exact gather_onto m base (.builtin b) [] args
      | _ => rfl
  | tuple items => exact gather_onto m base .tuple [] items
  | _ => rfl

@[simp] theorem storeAll_onto (targets : List (Expr × Value)) :
    (m.onto base).storeAll targets = (m.storeAll targets).onto base := by
  rcases targets with _ | ⟨⟨target, v⟩, rest⟩ <;> rfl

@[simp] theorem store_onto (target : Expr) (v : Value) :
    (m.onto base).store target v = (m.store target v).onto base := by
  cases target with
  | param name index =>
      by_cases h : index < m.activation.params.size
      · simp only [store, onto_activation, h, ↓reduceIte]
        rfl
      · simp only [store, onto_activation, h, ↓reduceIte]
        rfl
  | tuple targets =>
      simp only [store]
      cases v.asTuple with
      | error e => rfl
      | ok items =>
          dsimp only
          by_cases h : items.length = targets.length
          · simp only [h, ↓reduceIte, storeAll_onto]
          · simp only [h, ↓reduceIte]
            rfl
  | _ => rfl

@[simp] theorem eachNext_onto (target : Expr) (items : List Value) (body orelse : List Stmt) :
    (m.onto base).eachNext target items body orelse =
      (m.eachNext target items body orelse).onto base := by
  cases items with
  | nil => exact block_onto m base orelse
  | cons v rest => rfl

@[simp] theorem eachOf_onto (target : Expr) (v : Value) (body orelse : List Stmt) :
    (m.onto base).eachOf target v body orelse = (m.eachOf target v body orelse).onto base := by
  cases v with
  | tuple items => exact eachNext_onto m base target items body orelse
  | str text => exact eachNext_onto m base target (Value.ofChars text) body orelse
  | _ => rfl

@[simp] theorem check_onto (kind : AssertionKind) (holds : Bool) (message : Option String) :
    (m.onto base).check kind holds message = (m.check kind holds message).onto base := by
  cases kind <;> cases holds <;> rfl

@[simp] theorem selectNext_onto (subject : Value) (cases : List Case) :
    (m.onto base).selectNext subject cases = (m.selectNext subject cases).onto base := by
  cases cases <;> rfl

@[simp] theorem exec_onto (s : Stmt) : (m.onto base).exec s = (m.exec s).onto base := by
  cases s with
  | result value => cases value <;> rfl
  | expr e =>
      simp only [exec]
      cases (cyclesArgs? (.expr e)).isSome <;> rfl
  | _ => rfl

@[simp] theorem matchAny_onto (subject : Value) (patterns : List Pattern) :
    (m.onto base).matchAny subject patterns = (m.matchAny subject patterns).onto base := by
  cases patterns <;> rfl

@[simp] theorem matchPattern_onto (p : Pattern) (subject : Value) :
    (m.onto base).matchPattern p subject = (m.matchPattern p subject).onto base := by
  cases p with
  | value e => cases e <;> rfl
  | bind inner name => cases inner <;> rfl
  | alternatives patterns => exact matchAny_onto m base subject patterns

@[simp] theorem announce_onto (f : FieldRef) (name : String) (old new : Value)
    (after : List Frame) :
    (m.onto base).announce f name old new after =
      (m.announce f name old new after).onto base :=
  pushAll_onto (m.setSim ((m.sim.trace f name old new).noteEdge f old new)) base _

@[simp] theorem drive_onto (f : FieldRef) (v : Value) :
    (m.onto base).drive f v = (m.drive f v).onto base := by
  cases h : m.sim.tree.slot f.owner f.index with
  | error e => rw [drive_error h, drive_error (m := m.onto base) h, fail_onto]
  | ok slot =>
      cases hv : ((m.sim.signalsOf f.owner).read slot.key).same
          (v.fit slot.width slot.signed) with
      | true => rw [drive_same h hv, drive_same (m := m.onto base) h hv, finish_onto]
      | false =>
          rw [drive_changed h hv, drive_changed (m := m.onto base) h hv]
          exact announce_onto
            (m.setSim (m.sim.withValue f slot (v.fit slot.width slot.signed))) base
            f slot.name _ _ _

@[simp] theorem driveAndSettle_onto (f : FieldRef) (v : Value) :
    (m.onto base).driveAndSettle f v = (m.driveAndSettle f v).onto base :=
  drive_onto
    { m with
      sim := { m.sim with driveDepth := m.sim.driveDepth + 1 }
      stack := .driven :: m.stack } base f v

@[simp] theorem write_onto (f : FieldRef) (v : Value) (mode : WriteMode) :
    (m.onto base).write f v mode = (m.write f v mode).onto base := by
  simp only [write, onto_sim]
  cases m.sim.tree.slot f.owner f.index with
  | error e => rfl
  | ok slot =>
      dsimp only
      cases slot.storage with
      | signal =>
          cases mode with
          | staged => rfl
          | immediate => exact driveAndSettle_onto m base f v
      | _ => rfl

@[simp] theorem storeField_onto (i : Value) (index : Nat) (v : Value) :
    (m.onto base).storeField i index v = (m.storeField i index v).onto base := by
  simp only [storeField, onto_activation]
  cases i.asComponent with
  | error e => rfl
  | ok id => exact write_onto m base ⟨id, index⟩ v _

@[simp] theorem storeMember_onto (i : Value) (name : String) (v : Value) :
    (m.onto base).storeMember i name v = (m.storeMember i name v).onto base := by
  simp only [storeMember, onto_sim, onto_activation]
  cases i.asComponent with
  | error e => rfl
  | ok id =>
      dsimp only
      cases (m.sim.tree.inst id).fieldIndex? name with
      | none => rfl
      | some index => exact write_onto m base ⟨id, index⟩ v _

@[simp] theorem effect_onto (r : Simulation × Option SimError) :
    (m.onto base).effect r = (m.effect r).onto base := by
  rcases r with ⟨s, _ | e⟩ <;> rfl

@[simp] theorem storeItem_onto (container : Expr) (held index v : Value) :
    (m.onto base).storeItem container held index v =
      (m.storeItem container held index v).onto base := by
  cases held with
  | int n =>
      refine withResult_onto m base _ _ _ fun bit => ?_
      by_cases h : bit < 128
      · simp only [h, ↓reduceIte]
        rfl
      · simp only [h, ↓reduceIte]
        rfl
  | tuple items => exact withResult_onto m base _ _ _ fun _ => rfl
  | obj h =>
      cases h with
      | memory id => exact withResult_onto m base _ _ _ fun _ => effect_onto m base _
      | regFile id => exact withResult_onto m base _ _ _ fun _ => effect_onto m base _
      | _ => rfl
  | _ => rfl

@[simp] theorem runBody_onto (owner : Nat) (f : Function) :
    (m.onto base).runBody owner f = (m.runBody owner f).onto base :=
  block_onto
    { m with
      stack := .boundary f.name m.activation :: m.stack
      activation := .begin owner f.name .immediate } base f.body

@[simp] theorem runComb_onto (p : ProcessRef) :
    (m.onto base).runComb p = (m.runComb p).onto base := by
  simp only [runComb, onto_sim]
  cases (m.sim.tree.inst p.owner).combs[p.index]? with
  | none => rfl
  | some f =>
      dsimp only
      by_cases h : m.sim.maxCombDepth < m.sim.combDepth + 1
      · simp only [h, ↓reduceIte]
        rfl
      · simp only [h, ↓reduceIte]
        exact runBody_onto
          { m with
            sim := { m.sim with combDepth := m.sim.combDepth + 1 }
            stack := .combOver p (m.sim.combDepth + 1) :: m.stack } base p.owner f

@[simp] theorem runCombs_onto (l : List ProcessRef) :
    (m.onto base).runCombs l = (m.runCombs l).onto base := by
  cases l with
  | nil => rfl
  | cons p rest => exact runComb_onto { m with stack := .combs rest :: m.stack } base p

@[simp] theorem pause_onto (p : ProcessRef) (next : Nat) (cycles : Int) :
    (m.onto base).pause p next cycles = (m.pause p next cycles).onto base := rfl

@[simp] theorem syncBody_onto (p : ProcessRef) (next : Nat) (body : List Stmt) :
    (m.onto base).syncBody p next body = (m.syncBody p next body).onto base := by
  cases body with
  | nil => rfl
  | cons s rest =>
      simp only [syncBody]
      rcases cyclesArgs? s with _ | _ | ⟨e, _⟩ <;> rfl

@[simp] theorem resumeSync_onto (p : ProcessRef) (f : Function) (next : Nat)
    (locals : Table String Value) :
    (m.onto base).resumeSync p f next locals = (m.resumeSync p f next locals).onto base :=
  syncBody_onto
    { m with
      stack := .boundary f.name m.activation :: m.stack
      activation := { Activation.begin p.owner f.name .staged with locals := locals } }
    base p next (f.body.drop next)

@[simp] theorem runSync_onto (p : ProcessRef) :
    (m.onto base).runSync p = (m.runSync p).onto base := by
  simp only [runSync, onto_sim]
  cases (m.sim.tree.inst p.owner).syncs[p.index]? with
  | none => rfl
  | some f =>
      refine withResult_onto m base _ _ _ fun reset => ?_
      cases (if reset = true then none else m.sim.paused.get? p) with
      | none =>
          exact resumeSync_onto (m.setSim { m.sim with paused := m.sim.paused.erase p }) base p f
            0 .empty
      | some pause =>
          dsimp only
          by_cases h : 0 < pause.skip
          · simp only [h, ↓reduceIte]
            rfl
          · simp only [h, ↓reduceIte]
            exact resumeSync_onto (m.setSim { m.sim with paused := m.sim.paused.erase p }) base
              p f pause.next pause.locals

@[simp] theorem runSyncs_onto (l : List ProcessRef) :
    (m.onto base).runSyncs l = (m.runSyncs l).onto base := by
  cases l with
  | nil => rfl
  | cons p rest => exact runSync_onto { m with stack := .syncs rest :: m.stack } base p

@[simp] theorem workOff_onto (l : List (FieldRef × Value × Value)) :
    (m.onto base).workOff l = (m.workOff l).onto base := by
  rcases l with _ | ⟨⟨f, old, new⟩, rest⟩
  · rfl
  · exact announce_onto m base f _ old new _

@[simp] theorem commit_onto : (m.onto base).commit = m.commit.onto base :=
  workOff_onto (m.setSim m.sim.applyStaged.1) base m.sim.applyStaged.2

@[simp] theorem round_onto : (m.onto base).round = m.round.onto base := by
  cases h : m.sim.pending.isEmpty && !m.sim.hasStaged with
  | true => rw [round_over h, round_over (m := m.onto base) h, finish_onto]
  | false =>
      rw [round_begin h, round_begin (m := m.onto base) h]
      exact runSyncs_onto
        { m with
          sim := { m.sim with pending := [] }
          stack := .commit :: .round :: m.stack } base m.sim.pending

@[simp] theorem settle_onto : (m.onto base).settle = m.settle.onto base := by
  cases h : m.sim.inRound with
  | true => rw [settle_inRound h, settle_inRound (m := m.onto base) h, finish_onto]
  | false =>
      rw [settle_outside h, settle_outside (m := m.onto base) h]
      exact round_onto
        { m with sim := { m.sim with inRound := true }, stack := .settled :: m.stack } base

@[simp] theorem endDrive_onto (c : Completion) :
    (m.onto base).endDrive c = (m.endDrive c).onto base := by
  by_cases h : 0 < m.undriven.sim.driveDepth
  · rw [endDrive_inner c h, endDrive_inner (m := m.onto base) c h]
    rfl
  · cases c with
    | failed e =>
        cases hr : m.sim.inRound with
        | true =>
            rw [endDrive_failed_inRound e h hr,
              endDrive_failed_inRound (m := m.onto base) e h hr]
            rfl
        | false =>
            rw [endDrive_failed_outside e h hr,
              endDrive_failed_outside (m := m.onto base) e h hr]
            rfl
    | _ =>
        rw [endDrive_settle h (by simp), endDrive_settle (m := m.onto base) h (by simp)]
        exact settle_onto m.undriven base

@[simp] theorem endRounds_onto (c : Completion) :
    (m.onto base).endRounds c = (m.endRounds c).onto base := by
  cases c <;> rfl

@[simp] theorem clockEdge_onto (f : FieldRef) (low high : Nat) (level : Bool) :
    (m.onto base).clockEdge f low high level = (m.clockEdge f low high level).onto base :=
  write_onto { m with stack := .clock f low high (!level) :: m.stack } base f _ .immediate

@[simp] theorem resume_onto (f : Frame) (v : Value) :
    (m.onto base).resume f v = (m.resume f v).onto base := by
  cases f with
  | fieldOf index =>
      exact withResult_onto m base _ _ _ fun id => giveResult_onto m base _
  | binary op lhs => exact giveResult_onto m base _
  | unary op => exact giveResult_onto m base _
  | logical op rest =>
      cases rest with
      | nil => rfl
      | cons e rest =>
          simp only [resume]
          cases v.decides op <;> rfl
  | comparing ops comparators => exact compareOn_onto m base v ops comparators
  | compared left op ops comparators =>
      refine withResult_onto m base _ _ _ fun holds => ?_
      cases holds with
      | false => rfl
      | true => exact compareOn_onto m base v ops comparators
  | memberOf name => exact giveResult_onto m base _
  | subscript container => exact giveResult_onto m base _
  | calleeOf args keywords => exact gather_onto m base _ [] args
  | gather use done rest => exact gather_onto m base use (v :: done) rest
  | storeField index value => exact storeField_onto m base v index value
  | storeMember name value => exact storeMember_onto m base v name value
  | storeRest rest => exact storeAll_onto m base rest
  | storeItem container held value => exact storeItem_onto m base container held v value
  | block rest => exact block_onto m base rest
  | assign targets => exact storeAll_onto m base _
  | updateWith target op current => exact withResult_onto m base _ _ _ fun _ => rfl
  | branch body orelse => exact block_onto m base _
  | eachOf target body orelse => exact eachOf_onto m base target v body orelse
  | eachItem target rest body orelse =>
      exact block_onto { m with stack := .eachRound target rest body orelse :: m.stack } base body
  | eachRound target rest body orelse => exact eachNext_onto m base target rest body orelse
  | loopTest test body orelse =>
      simp only [resume]
      cases v.truthy with
      | true =>
          exact block_onto { m with stack := .loopRound test body orelse :: m.stack } base body
      | false => exact block_onto m base orelse
  | assertionTest kind message =>
      cases message with
      | none => exact check_onto m base kind _ none
      | some e => rfl
  | assertionText kind holds => exact check_onto m base kind holds _
  | select cases => exact selectNext_onto m base v cases
  | caseMatched subject c rest =>
      simp only [resume]
      cases v.truthy with
      | true =>
          cases c.guard with
          | none => exact block_onto m base c.body
          | some e => rfl
      | false => exact selectNext_onto m base subject rest
  | caseGuard subject c rest =>
      simp only [resume]
      cases v.truthy with
      | true => exact block_onto m base c.body
      | false => exact selectNext_onto m base subject rest
  | bindPattern name subject =>
      simp only [resume]
      cases v.truthy <;> rfl
  | alternatives rest subject =>
      simp only [resume]
      cases v.truthy with
      | true => rfl
      | false => exact matchAny_onto m base subject rest
  | calling owner name => exact callFunction_onto m base owner name [] [] .immediate
  | propagate targets value =>
      cases targets with
      | nil => rfl
      | cons f rest =>
          exact drive_onto { m with stack := .propagate rest value :: m.stack } base f value
  | combs rest => exact runCombs_onto m base rest
  | driven => exact endDrive_onto m base (.value v)
  | settled => exact endRounds_onto m base (.value v)
  | round => exact round_onto m base
  | syncs rest => exact runSyncs_onto m base rest
  | syncStep p next rest => exact syncBody_onto m base p next rest
  | syncPause p next => exact withResult_onto m base _ _ _ fun n => pause_onto m base p next n
  | commit => exact commit_onto m base
  | changes rest => exact workOff_onto m base rest
  | clockEdge f low high level => exact clockEdge_onto m base f low high level
  | _ => rfl

@[simp] theorem unwind_onto (f : Frame) (c : Completion) :
    (m.onto base).unwind f c = (m.unwind f c).onto base := by
  cases f with
  | eachRound target rest body orelse =>
      cases c with
      | again => exact eachNext_onto m base target rest body orelse
      | _ => rfl
  | driven => exact endDrive_onto m base c
  | settled => exact endRounds_onto m base c
  | _ => cases c <;> rfl

end Moves

end Clockwork.Machine
