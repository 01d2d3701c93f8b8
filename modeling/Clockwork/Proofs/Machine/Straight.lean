import Clockwork.Proofs.Machine.Underway
import Clockwork.Proofs.Round.Batch

namespace Clockwork

namespace Expr

mutual

/-- Whether an expression calls nothing but builtin functions. -/
def straight : Expr → Bool
  | field base _ => base.straight
  | binary lhs _ rhs => lhs.straight && rhs.straight
  | unary _ operand => operand.straight
  | logical _ values => straightAll values
  | compare left _ comparators => left.straight && straightAll comparators
  | member value _ => value.straight
  | subscript value index => value.straight && index.straight
  | call (builtin _) args _ => straightAll args
  | call _ _ _ => false
  | conditional test body orelse => test.straight && (body.straight && orelse.straight)
  | await value => value.straight
  | tuple items => straightAll items
  | constant _ | self | param _ _ | var _ | builtin _ => true

def straightAll : List Expr → Bool
  | [] => true
  | e :: rest => e.straight && straightAll rest

end

theorem straightAll_iff {l : List Expr} : straightAll l = true ↔ ∀ e ∈ l, e.straight = true := by
  induction l with
  | nil => simp [straightAll]
  | cons e l ih => simp [straightAll, ih]

end Expr

namespace Stmt

mutual

/-- Whether a statement holds no loop and calls nothing but builtin functions. -/
def straight : Stmt → Bool
  | branch test body orelse => test.straight && (straightAll body && straightAll orelse)
  | each _ _ _ _ | loop _ _ _ => false
  | select subject cases =>
    Expr.straightAll (exprs (select subject cases)) && straightCases cases
  | s => Expr.straightAll (exprs s)

def straightAll : List Stmt → Bool
  | [] => true
  | s :: rest => s.straight && straightAll rest

def straightCases : List Case → Bool
  | [] => true
  | ⟨_, _, body⟩ :: rest => straightAll body && straightCases rest

end

theorem straightAll_drop {l : List Stmt} (h : straightAll l = true) (n : Nat) :
    straightAll (l.drop n) = true := by
  induction n generalizing l with
  | zero => exact h
  | succ n ih =>
      cases l with
      | nil => rfl
      | cons s l => exact ih (Bool.and_eq_true_iff.mp h).2

theorem straight_cyclesArgs {s : Stmt} (h : s.straight = true) {args : List Expr}
    (hargs : Machine.cyclesArgs? s = some args) : ∀ e ∈ args, e.straight = true := by
  unfold Machine.cyclesArgs? at hargs
  split at hargs <;> cases hargs
  all_goals
    simp only [straight, exprs, Expr.straightAll, Expr.straight, Bool.and_true] at h
    exact Expr.straightAll_iff.mp h

end Stmt

/-- The simulations have the same design, and equally much is under way. -/
structure Simulation.SameDepth (s s' : Simulation) : Prop extends s.SameDesign s' where
  combDepth : s'.combDepth = s.combDepth
  driveDepth : s'.driveDepth = s.driveDepth
  inRound : s'.inRound = s.inRound

namespace Simulation

theorem SameDepth.refl (s : Simulation) : s.SameDepth s := ⟨.refl s, rfl, rfl, rfl⟩

theorem SameDepth.trans {s s₁ s₂ : Simulation} (h : s.SameDepth s₁) (h₁ : s₁.SameDepth s₂) :
    s.SameDepth s₂ :=
  ⟨h.toSameDesign.trans h₁.toSameDesign, h₁.combDepth.trans h.combDepth,
    h₁.driveDepth.trans h.driveDepth, h₁.inRound.trans h.inRound⟩

theorem SameWork.sameDepth {s s' : Simulation} (h : s.SameWork s') : s.SameDepth s' :=
  ⟨h.toSameDesign, h.combDepth, h.driveDepth, h.inRound⟩

theorem Mild.sameDepth {s s' : Simulation} (h : s.Mild s') : s.SameDepth s' := by
  obtain ⟨-, k, o, c, l, rfl⟩ := h
  exact ⟨⟨rfl, rfl, rfl, rfl⟩, rfl, rfl, rfl⟩

end Simulation

namespace Machine

/-- The machines write in the same way, at the same depth. -/
structure Kin (m m' : Machine) : Prop where
  mode : m'.activation.mode = m.activation.mode
  sim : m.sim.SameDepth m'.sim

/-- The second machine is back at the frames of the first one. -/
structure Back (m m' : Machine) : Prop extends m.Kin m' where
  stack : m'.stack = m.stack

theorem Kin.refl (m : Machine) : m.Kin m := ⟨rfl, .refl _⟩

theorem Kin.trans {m m₁ m₂ : Machine} (h : m.Kin m₁) (h₁ : m₁.Kin m₂) : m.Kin m₂ :=
  ⟨h₁.mode.trans h.mode, h.sim.trans h₁.sim⟩

theorem Back.refl (m : Machine) : m.Back m := ⟨.refl m, rfl⟩

theorem Back.trans {m m₁ m₂ : Machine} (h : m.Back m₁) (h₁ : m₁.Back m₂) : m.Back m₂ :=
  ⟨h.toKin.trans h₁.toKin, h₁.stack.trans h.stack⟩

theorem Back.setSim {m m' : Machine} (h : m.Back m') {s : Simulation} (hs : m'.sim.SameDepth s) :
    m.Back (m'.setSim s) := ⟨⟨h.mode, h.sim.trans hs⟩, h.stack⟩

/-- A run comes to something, back at the frames of a machine. -/
def Ends (waker : Waker) (m₀ m : Machine) : Prop :=
  ∃ c m', m₀.Back m' ∧ Reaches waker m (m'.complete c)

/-- A run comes to something, back at the frames of a machine, in a simulation of some kind. -/
def EndsIn (waker : Waker) (P : Simulation → Prop) (m₀ m : Machine) : Prop :=
  ∃ c m', m₀.Back m' ∧ P m'.sim ∧ Reaches waker m (m'.complete c)

variable {waker : Waker} {m m₀ m₁ : Machine} {P Q : Simulation → Prop}

namespace EndsIn

theorem complete (c : Completion) (h : m₀.Back m) (hP : P m.sim) :
    EndsIn waker P m₀ (m.complete c) :=
  ⟨c, m, h, hP, .here⟩

theorem back (h : EndsIn waker P m₁ m) (h₀ : m₀.Back m₁) (hPQ : ∀ s, P s → Q s) :
    EndsIn waker Q m₀ m := by
  obtain ⟨c, m', hback, hP, hreach⟩ := h
  exact ⟨c, m', h₀.trans hback, hPQ _ hP, hreach⟩

theorem next {m' : Machine} (hstep : m.step waker = .go m') (h : EndsIn waker P m₀ m') :
    EndsIn waker P m₀ m := by
  obtain ⟨c, m₁, hback, hP, hreach⟩ := h
  exact ⟨c, m₁, hback, hP, (Reaches.next hstep).trans hreach⟩

theorem accept {f : Frame} (h : EndsIn waker P m₁ m) (hstack : m₁.stack = f :: m₀.stack)
    (hf : ∀ m' c, m₁.Kin m' → m'.stack = m₀.stack → P m'.sim →
      EndsIn waker Q m₀ (m'.accept f c)) : EndsIn waker Q m₀ m := by
  obtain ⟨c, m', hback, hP, hreach⟩ := h
  let m₁' : Machine := { m'.complete c with stack := m₀.stack }
  have hstep : (m'.complete c).step waker = .go (m₁'.accept f c) :=
    step_done rfl (hback.stack.trans hstack)
  obtain ⟨c', m₂, hback₂, hQ, hreach₂⟩ := hf m₁' c ⟨hback.mode, hback.sim⟩ rfl hP
  exact ⟨c', m₂, hback₂, hQ, (hreach.step trivial hstep).trans hreach₂⟩

theorem resume {f : Frame} (h : EndsIn waker P m₁ m) (hstack : m₁.stack = f :: m₀.stack)
    (hkin : m₀.Kin m₁) (hpass : ∀ m c, unwind m f c = m.complete c) (hPQ : ∀ s, P s → Q s)
    (hf : ∀ m' v, m₀.Back m' → P m'.sim → EndsIn waker Q m₀ (m'.resume f v)) :
    EndsIn waker Q m₀ m := by
  refine h.accept hstack fun m' c hm' hs hP => ?_
  have hback : m₀.Back m' := ⟨hkin.trans hm', hs⟩
  cases c with
  | value v => exact hf m' v hback hP
  | _ =>
      change EndsIn waker Q m₀ (m'.unwind f _)
      rw [hpass]
      exact complete _ hback (hPQ _ hP)

theorem ends (h : EndsIn waker P m₀ m) : Ends waker m₀ m := by
  obtain ⟨c, m', hback, -, hreach⟩ := h
  exact ⟨c, m', hback, hreach⟩

end EndsIn

namespace Ends

theorem complete (c : Completion) (h : m₀.Back m) : Ends waker m₀ (m.complete c) :=
  ⟨c, m, h, .here⟩

theorem endsIn (h : Ends waker m₀ m) : EndsIn waker (fun _ => True) m₀ m := by
  obtain ⟨c, m', hback, hreach⟩ := h
  exact ⟨c, m', hback, trivial, hreach⟩

theorem giveResult (r : Except SimError Value) (h : m₀.Back m) :
    Ends waker m₀ (m.giveResult r) := by
  cases r with
  | ok v => exact complete (.value v) h
  | error e => exact complete (.failed e) h

theorem withResult {α : Type} (r : Except SimError α) {f : α → Machine} (h : m₀.Back m)
    (hf : ∀ a, Ends waker m₀ (f a)) : Ends waker m₀ (m.withResult r f) := by
  cases r with
  | ok a => exact hf a
  | error e => exact complete (.failed e) h

theorem effect {r : Simulation × Option SimError} (h : m₀.Back m) (hr : m.sim.SameDepth r.1) :
    Ends waker m₀ (m.effect r) := by
  rcases r with ⟨s, _ | e⟩ <;> exact complete _ (h.setSim hr)

theorem back (h : Ends waker m₁ m) (h₀ : m₀.Back m₁) : Ends waker m₀ m :=
  (h.endsIn.back h₀ fun _ h => h).ends

theorem next {m' : Machine} (hstep : m.step waker = .go m') (h : Ends waker m₀ m') :
    Ends waker m₀ m :=
  (h.endsIn.next hstep).ends

theorem accept {f : Frame} (h : Ends waker m₁ m) (hstack : m₁.stack = f :: m₀.stack)
    (hf : ∀ m' c, m₁.Kin m' → m'.stack = m₀.stack → Ends waker m₀ (m'.accept f c)) :
    Ends waker m₀ m :=
  (h.endsIn.accept hstack fun m' c hm' hs _ => (hf m' c hm' hs).endsIn).ends

theorem resume {f : Frame} (h : Ends waker m₁ m) (hstack : m₁.stack = f :: m₀.stack)
    (hkin : m₀.Kin m₁) (hpass : ∀ m c, unwind m f c = m.complete c)
    (hf : ∀ m' v, m₀.Back m' → Ends waker m₀ (m'.resume f v)) : Ends waker m₀ m :=
  (h.endsIn.resume hstack hkin hpass (fun _ h => h)
    fun m' v hback _ => (hf m' v hback).endsIn).ends

theorem push {f : Frame} {k : Control} (hk : Ends waker (m.push f k) (m.push f k))
    (hpass : ∀ m c, unwind m f c = m.complete c)
    (hf : ∀ m' v, m.Back m' → Ends waker m (m'.resume f v)) : Ends waker m (m.push f k) :=
  hk.resume rfl ⟨rfl, .refl _⟩ hpass hf

end Ends

def EvalEnds (waker : Waker) (e : Expr) : Prop := ∀ m, Ends waker m (m.eval e)

theorem EvalEnds.push {e : Expr} {f : Frame} (he : EvalEnds waker e)
    (hpass : ∀ m c, unwind m f c = m.complete c)
    (hf : ∀ m' v, m.Back m' → Ends waker m (m'.resume f v)) :
    Ends waker m (m.push f (.eval e)) :=
  Ends.push (.next rfl (he _)) hpass hf

theorem EvalEnds.look {e : Expr} (he : EvalEnds waker e) (h : m₀.Back m) :
    Ends waker m₀ (m.look (.eval e)) :=
  .next rfl ((he (m.look (.eval e))).back ⟨⟨h.mode, h.sim⟩, h.stack⟩)

theorem gather_ends {l : List Expr} (hl : ∀ e ∈ l, EvalEnds waker e) {use : Gathered}
    (huse : ∀ m values, Ends waker m (m.gathered use values)) (m : Machine) (gone : List Value) :
    Ends waker m (m.gather use gone l) := by
  induction l generalizing m gone with
  | nil => exact huse m gone.reverse
  | cons e l ih =>
      refine (hl e (by simp)).push (fun _ _ => rfl) fun m' v hback => ?_
      exact (ih (fun x hx => hl x (by simp [hx])) m' (v :: gone)).back hback

theorem logical_ends {l : List Expr} (hl : ∀ e ∈ l, EvalEnds waker e) (op : BoolOp) (m : Machine)
    (v : Value) : Ends waker m (m.resume (.logical op l) v) := by
  induction l generalizing m v with
  | nil => exact .complete _ (.refl m)
  | cons e l ih =>
      simp only [Machine.resume]
      split
      · exact .complete _ (.refl m)
      · refine (hl e (by simp)).push (fun _ _ => rfl) fun m' v hback => ?_
        exact (ih (fun x hx => hl x (by simp [hx])) m' v).back hback

theorem compareOn_ends {l : List Expr} (hl : ∀ e ∈ l, EvalEnds waker e) (ops : List CmpOp)
    (m : Machine) (left : Value) : Ends waker m (m.compareOn left ops l) := by
  induction l generalizing m left ops with
  | nil => cases ops <;> exact .complete _ (.refl m)
  | cons e l ih =>
      cases ops with
      | nil => exact .complete _ (.refl m)
      | cons op ops =>
          refine (hl e (by simp)).push (fun _ _ => rfl) fun m' v hback => ?_
          refine .withResult _ hback fun holds => ?_
          cases holds with
          | true => exact (ih (fun x hx => hl x (by simp [hx])) ops m' v).back hback
          | false => exact .complete _ hback

mutual

theorem eval_ends : ∀ (e : Expr), e.straight = true → EvalEnds waker e
  | .constant _, _ | .self, _ | .builtin _, _ => fun m => .complete _ (.refl m)
  | .param name index, _ => fun m => by
      simp only [eval]
      split <;> exact .complete _ (.refl m)
  | .var name, _ => fun m => by
      simp only [eval]
      split <;> exact .complete _ (.refl m)
  | .field base index, h => fun m => by
      refine (eval_ends base h).push (fun _ _ => rfl) fun m' v hback => ?_
      exact .withResult _ hback fun id => .giveResult _ hback
  | .binary lhs op rhs, h => fun m => by
      obtain ⟨hl, hr⟩ := Bool.and_eq_true_iff.mp h
      refine (eval_ends lhs hl).push (fun _ _ => rfl) fun m' v hback => ?_
      refine ((eval_ends rhs hr).push (fun _ _ => rfl) fun m'' w hback' => ?_).back hback
      exact .giveResult _ hback'
  | .unary op operand, h => fun m => by
      refine (eval_ends operand h).push (fun _ _ => rfl) fun m' v hback => ?_
      exact .giveResult _ hback
  | .logical op values, h => fun m => by
      -- The first operand comes as if after a neutral one, so that one lemma is about all of them.
      have heval : m.eval (.logical op values) =
          m.resume (.logical op values) (Value.neutral op) := by
        cases op <;> cases values <;> rfl
      rw [heval]
      exact logical_ends (each_ends values h) op m _
  | .compare left ops comparators, h => fun m => by
      obtain ⟨hl, hc⟩ := Bool.and_eq_true_iff.mp h
      refine (eval_ends left hl).push (fun _ _ => rfl) fun m' v hback => ?_
      exact (compareOn_ends (each_ends comparators hc) ops m' v).back hback
  | .member value name, h => fun m => by
      refine (eval_ends value h).push (fun _ _ => rfl) fun m' v hback => ?_
      exact .giveResult _ hback
  | .subscript value index, h => fun m => by
      obtain ⟨hv, hi⟩ := Bool.and_eq_true_iff.mp h
      refine (eval_ends value hv).push (fun _ _ => rfl) fun m' v hback => ?_
      refine ((eval_ends index hi).push (fun _ _ => rfl) fun m'' w hback' => ?_).back hback
      exact .giveResult _ hback'
  | .call callee args keywords, h => fun m => by
      cases callee with
      | builtin b =>
          refine gather_ends (each_ends args h) (fun m values => ?_) m []
          exact .giveResult _ ((Back.refl m).setSim (m.sim.mild_builtin b values).sameDepth)
      | _ => cases h
  | .conditional test body orelse, h => fun m => by
      obtain ⟨ht, h⟩ := Bool.and_eq_true_iff.mp h
      obtain ⟨hb, ho⟩ := Bool.and_eq_true_iff.mp h
      refine (eval_ends test ht).push (fun _ _ => rfl) fun m' v hback => ?_
      simp only [resume]
      split
      · exact (eval_ends body hb).look hback
      · exact (eval_ends orelse ho).look hback
  | .await value, h => fun m => (eval_ends value h).look (.refl m)
  | .tuple items, h => fun m => by
      refine gather_ends (each_ends items h) (fun m values => ?_) m []
      exact .complete _ (.refl m)

theorem each_ends : ∀ (l : List Expr), Expr.straightAll l = true → ∀ e ∈ l, EvalEnds waker e
  | [], _ => by simp
  | e :: rest, h => by
      obtain ⟨he, hrest⟩ := Bool.and_eq_true_iff.mp h
      exact List.forall_mem_cons.mpr ⟨eval_ends e he, each_ends rest hrest⟩

end

def WriteEnds (waker : Waker) (m : Machine) : Prop :=
  ∀ m', m.Kin m' → ∀ f v, Ends waker m' (m'.write f v m'.activation.mode)

theorem WriteEnds.kin (h : WriteEnds waker m) (hm : m.Kin m₁) : WriteEnds waker m₁ :=
  fun m' hm' => h m' (hm.trans hm')

theorem writes_staged (h : m.activation.mode = .staged) : WriteEnds waker m := by
  intro m' hm' f v
  rw [hm'.mode, h, write]
  split
  · exact .complete _ (.refl m')
  · rename_i slot _
    split
    · refine .complete _ ((Back.refl m').setSim ?_)
      exact ⟨⟨rfl, rfl, rfl, Simulation.size_stage _ _ _ _⟩, rfl, rfl, rfl⟩
    · rename_i heq
      cases heq
    all_goals exact .complete _ (.refl m')

/-- A target takes any value wherever fields can be written. -/
def StoreEnds (waker : Waker) (target : Expr) : Prop :=
  ∀ m v, WriteEnds waker m → Ends waker m (m.store target v)

theorem StoreEnds.look {target : Expr} (ht : StoreEnds waker target) (hw : WriteEnds waker m₀)
    (h : m₀.Back m) (v : Value) : Ends waker m₀ (m.look (.store target v)) :=
  .next rfl ((ht (m.look (.store target v)) v (hw.kin ⟨h.mode, h.sim⟩)).back
    ⟨⟨h.mode, h.sim⟩, h.stack⟩)

theorem storeAll_ends {l : List (Expr × Value)} (hl : ∀ x ∈ l, StoreEnds waker x.1)
    (m : Machine) (hw : WriteEnds waker m) : Ends waker m (m.storeAll l) := by
  induction l generalizing m with
  | nil => exact .complete _ (.refl m)
  | cons x l ih =>
      obtain ⟨target, v⟩ := x
      have hk := hl (target, v) (by simp) (m.push (.storeRest l) (.store target v)) v
        (hw.kin ⟨rfl, .refl _⟩)
      refine .push (.next rfl hk) (fun _ _ => rfl) fun m' _ hback => ?_
      exact (ih (fun y hy => hl y (by simp [hy])) m' (hw.kin hback.toKin)).back hback

theorem storeItem_ends {container : Expr} (hc : StoreEnds waker container) (m : Machine)
    (hw : WriteEnds waker m) (held index v : Value) :
    Ends waker m (m.storeItem container held index v) := by
  unfold storeItem
  split
  · refine .withResult _ (.refl m) fun x => ?_
    exact .effect (.refl m) (m.sim.mild_writeMemory _ _ _).sameDepth
  · refine .withResult _ (.refl m) fun x => ?_
    exact .effect (.refl m) (m.sim.mild_writeRegister _ _ _).sameDepth
  · refine .withResult _ (.refl m) fun bit => ?_
    split
    · exact hc.look hw (.refl m) _
    · exact .complete _ (.refl m)
  · exact .withResult _ (.refl m) fun k => hc.look hw (.refl m) _
  · exact .complete _ (.refl m)

mutual

theorem store_ends : ∀ (target : Expr), target.straight = true → StoreEnds waker target
  | .var name, _ => fun m v _ => .complete _ ⟨⟨rfl, .refl _⟩, rfl⟩
  | .param name index, _ => fun m v _ => by
      simp only [store]
      split
      · exact .complete _ ⟨⟨rfl, .refl _⟩, rfl⟩
      · exact .complete _ (.refl m)
  | .field base index, h => fun m v hw => by
      refine (eval_ends base h).push (fun _ _ => rfl) fun m' i hback => ?_
      simp only [resume, storeField]
      split
      · exact .complete _ hback
      · exact (hw m' hback.toKin _ v).back hback
  | .member base name, h => fun m v hw => by
      refine (eval_ends base h).push (fun _ _ => rfl) fun m' i hback => ?_
      simp only [resume, storeMember]
      split
      · exact .complete _ hback
      · split
        · exact (hw m' hback.toKin _ v).back hback
        · exact .complete _ hback
  | .tuple targets, h => fun m v hw => by
      simp only [store]
      split
      · exact .complete _ (.refl m)
      · split
        · exact storeAll_ends (fun x hx => storeEach_ends targets h x.1 (List.of_mem_zip hx).1) m hw
        · exact .complete _ (.refl m)
  | .subscript container index, h => fun m v hw => by
      obtain ⟨hc, hi⟩ := Bool.and_eq_true_iff.mp h
      refine (eval_ends container hc).push (fun _ _ => rfl) fun m' held hback => ?_
      refine ((eval_ends index hi).push (fun _ _ => rfl) fun m'' i hback' => ?_).back hback
      have hw' := hw.kin (hback.trans hback').toKin
      exact (storeItem_ends (store_ends container hc) m'' hw' held i v).back hback'
  | .constant _, _ | .self, _ | .builtin _, _ | .binary _ _ _, _ | .unary _ _, _
  | .logical _ _, _ | .compare _ _ _, _ | .call _ _ _, _ | .conditional _ _ _, _
  | .await _, _ => fun m _ _ => .complete _ (.refl m)

theorem storeEach_ends : ∀ (l : List Expr), Expr.straightAll l = true →
    ∀ e ∈ l, StoreEnds waker e
  | [], _ => by simp
  | e :: rest, h => by
      obtain ⟨he, hrest⟩ := Bool.and_eq_true_iff.mp h
      exact List.forall_mem_cons.mpr ⟨store_ends e he, storeEach_ends rest hrest⟩

end

def MatchEnds (waker : Waker) (p : Pattern) : Prop :=
  ∀ m subject, Ends waker m (m.matchPattern p subject)

theorem MatchEnds.push {p : Pattern} {f : Frame} (hp : MatchEnds waker p) (subject : Value)
    (hpass : ∀ m c, unwind m f c = m.complete c)
    (hf : ∀ m' v, m.Back m' → Ends waker m (m'.resume f v)) :
    Ends waker m (m.push f (.matching p subject)) :=
  Ends.push (.next rfl (hp _ subject)) hpass hf

theorem matchAny_ends {l : List Pattern} (hl : ∀ p ∈ l, MatchEnds waker p) (m : Machine)
    (subject : Value) : Ends waker m (m.matchAny subject l) := by
  induction l generalizing m with
  | nil => exact .complete _ (.refl m)
  | cons p l ih =>
      refine (hl p (by simp)).push subject (fun _ _ => rfl) fun m' v hback => ?_
      simp only [resume]
      split
      · exact .complete _ hback
      · exact (ih (fun q hq => hl q (by simp [hq])) m').back hback

mutual

theorem matchPattern_ends : ∀ (p : Pattern), (∀ e ∈ p.values, e.straight = true) →
    MatchEnds waker p
  | .value none, _ => fun m _ => .complete _ (.refl m)
  | .value (some e), h => fun m subject => by
      refine (eval_ends e (h e (by simp [Pattern.values]))).push (fun _ _ => rfl)
        fun m' v hback => ?_
      exact .complete _ hback
  | .bind none name, _ => fun m _ => .complete _ ⟨⟨rfl, .refl _⟩, rfl⟩
  | .bind (some inner) name, h => fun m subject => by
      refine (matchPattern_ends inner h).push subject (fun _ _ => rfl) fun m' v hback => ?_
      simp only [resume]
      split
      · exact .complete _ ⟨⟨hback.mode, hback.sim⟩, hback.stack⟩
      · exact .complete _ hback
  | .alternatives patterns, h => fun m subject =>
      matchAny_ends (matchEach_ends patterns h) m subject

theorem matchEach_ends : ∀ (l : List Pattern),
    (∀ e ∈ Pattern.valuesAll l, e.straight = true) → ∀ p ∈ l, MatchEnds waker p
  | [], _ => by simp
  | p :: rest, h => by
      obtain ⟨hp, hrest⟩ := List.forall_mem_append.mp h
      exact List.forall_mem_cons.mpr ⟨matchPattern_ends p hp, matchEach_ends rest hrest⟩

end

/-- A statement comes to something wherever fields can be written. -/
def ExecEnds (waker : Waker) (s : Stmt) : Prop := ∀ m, WriteEnds waker m → Ends waker m (m.exec s)

theorem block_ends {l : List Stmt} (hl : ∀ s ∈ l, ExecEnds waker s) (m : Machine)
    (hw : WriteEnds waker m) : Ends waker m (m.block l) := by
  induction l generalizing m with
  | nil => exact .complete _ (.refl m)
  | cons s l ih =>
      have hk := hl s (by simp) (m.push (.block l) (.exec s)) (hw.kin ⟨rfl, .refl _⟩)
      refine .push (.next rfl hk) (fun _ _ => rfl) fun m' _ hback => ?_
      exact (ih (fun x hx => hl x (by simp [hx])) m' (hw.kin hback.toKin)).back hback

structure CaseEnds (waker : Waker) (c : Case) : Prop where
  pattern : MatchEnds waker c.pattern
  guard : ∀ e ∈ c.guard, EvalEnds waker e
  body : ∀ s ∈ c.body, ExecEnds waker s

theorem selectNext_ends {l : List Case} (hl : ∀ c ∈ l, CaseEnds waker c) (subject : Value)
    (m : Machine) (hw : WriteEnds waker m) : Ends waker m (m.selectNext subject l) := by
  induction l generalizing m with
  | nil => exact .complete _ (.refl m)
  | cons c l ih =>
      have hc := hl c (by simp)
      have hrest := ih fun x hx => hl x (by simp [hx])
      refine hc.pattern.push subject (fun _ _ => rfl) fun m' v hback => ?_
      have hw' := hw.kin hback.toKin
      simp only [resume]
      split
      · split
        · exact (block_ends hc.body m' hw').back hback
        · rename_i e hguard
          refine ((hc.guard e hguard).push (fun _ _ => rfl) fun m'' w hback' => ?_).back hback
          have hw'' := hw'.kin hback'.toKin
          simp only [resume]
          split
          · exact (block_ends hc.body m'' hw'').back hback'
          · exact (hrest m'' hw'').back hback'
      · exact (hrest m' hw').back hback

theorem check_ends (kind : AssertionKind) (holds : Bool) (message : Option String)
    (h : m₀.Back m) : Ends waker m₀ (m.check kind holds message) := by
  unfold check
  split
  · exact .complete _ (h.setSim (m.sim.mild_cover _).sameDepth)
  all_goals exact .complete _ h

theorem assertion_ends (kind : AssertionKind) {message : Option Expr}
    (hmessage : ∀ e ∈ message, EvalEnds waker e) (m : Machine) (v : Value) :
    Ends waker m (m.resume (.assertionTest kind message) v) := by
  cases message with
  | none => exact check_ends kind v.truthy none (.refl m)
  | some e =>
      refine (hmessage e rfl).push (fun _ _ => rfl) fun m' text hback => ?_
      exact check_ends kind v.truthy (some text.render) hback

mutual

theorem exec_ends : ∀ (s : Stmt), s.straight = true → ExecEnds waker s
  | .assign targets value, h => fun m hw => by
      obtain ⟨ht, hv⟩ := List.forall_mem_append.mp (Expr.straightAll_iff.mp h)
      refine (eval_ends value (hv value (by simp))).push (fun _ _ => rfl) fun m' v hback => ?_
      refine (storeAll_ends (fun x hx => ?_) m' (hw.kin hback.toKin)).back hback
      obtain ⟨target, htarget, rfl⟩ := List.mem_map.mp hx
      exact store_ends target (ht target htarget)
  | .update target op value, h => fun m hw => by
      have ht : target.straight = true := Expr.straightAll_iff.mp h target (by simp [Stmt.exprs])
      have hv : value.straight = true := Expr.straightAll_iff.mp h value (by simp [Stmt.exprs])
      refine (eval_ends target ht).push (fun _ _ => rfl) fun m' current hback => ?_
      refine ((eval_ends value hv).push (fun _ _ => rfl) fun m'' v hback' => ?_).back hback
      refine .withResult _ hback' fun updated => ?_
      exact (store_ends target ht).look (hw.kin hback.toKin) hback' updated
  | .result none, _ => fun m _ => .complete _ (.refl m)
  | .result (some e), h => fun m _ => by
      have he : e.straight = true := Expr.straightAll_iff.mp h e (by simp [Stmt.exprs])
      refine (eval_ends e he).push (fun _ _ => rfl) fun m' v hback => ?_
      exact .complete _ hback
  | .branch test body orelse, h => fun m hw => by
      obtain ⟨ht, h⟩ := Bool.and_eq_true_iff.mp h
      obtain ⟨hb, ho⟩ := Bool.and_eq_true_iff.mp h
      refine (eval_ends test ht).push (fun _ _ => rfl) fun m' v hback => ?_
      have hw' := hw.kin hback.toKin
      simp only [resume]
      split
      · exact (block_ends (execEach_ends body hb) m' hw').back hback
      · exact (block_ends (execEach_ends orelse ho) m' hw').back hback
  | .leave, _ | .again, _ | .pass, _ => fun m _ => .complete _ (.refl m)
  | .assertion kind test message, h => fun m _ => by
      obtain ⟨ht, hm⟩ := List.forall_mem_cons.mp (Expr.straightAll_iff.mp h)
      refine (eval_ends test ht).push (fun _ _ => rfl) fun m' v hback => ?_
      exact (assertion_ends kind (fun e he => eval_ends e (hm e (by simpa using he))) m' v).back
        hback
  | .select subject cases, h => fun m hw => by
      obtain ⟨he, hc⟩ := Bool.and_eq_true_iff.mp h
      obtain ⟨hs, he⟩ := List.forall_mem_cons.mp (Expr.straightAll_iff.mp he)
      refine (eval_ends subject hs).push (fun _ _ => rfl) fun m' v hback => ?_
      have hcases :=
        caseEach_ends cases (fun c hc e hx => he e (List.mem_flatMap.mpr ⟨c, hc, hx⟩)) hc
      exact (selectNext_ends hcases v m' (hw.kin hback.toKin)).back hback
  | .expr e, h => fun m _ => by
      have he : e.straight = true := Expr.straightAll_iff.mp h e (by simp [Stmt.exprs])
      simp only [exec]
      split
      · exact .complete _ (.refl m)
      · refine (eval_ends e he).push (fun _ _ => rfl) fun m' v hback => ?_
        exact .complete _ hback

theorem execEach_ends : ∀ (l : List Stmt), Stmt.straightAll l = true → ∀ s ∈ l, ExecEnds waker s
  | [], _ => by simp
  | s :: rest, h => by
      obtain ⟨hs, hrest⟩ := Bool.and_eq_true_iff.mp h
      exact List.forall_mem_cons.mpr ⟨exec_ends s hs, execEach_ends rest hrest⟩

theorem caseEach_ends : ∀ (l : List Case),
    (∀ c ∈ l, ∀ e ∈ Stmt.caseExprs c, e.straight = true) → Stmt.straightCases l = true →
    ∀ c ∈ l, CaseEnds waker c
  | [], _, _ => by simp
  | ⟨pattern, guard, body⟩ :: rest, he, h => by
      obtain ⟨hbody, hrest⟩ := Bool.and_eq_true_iff.mp h
      obtain ⟨hhead, he⟩ := List.forall_mem_cons.mp he
      obtain ⟨hp, hg⟩ := List.forall_mem_append.mp hhead
      refine List.forall_mem_cons.mpr ⟨?_, caseEach_ends rest he hrest⟩
      exact ⟨matchPattern_ends pattern hp, fun e hx => eval_ends e (hg e (by simpa using hx)),
        execEach_ends body hbody⟩

end

end Machine

end Clockwork
