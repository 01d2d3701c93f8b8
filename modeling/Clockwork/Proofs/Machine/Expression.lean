import Clockwork.Proofs.Machine.Layers

namespace Clockwork

def Frame.ofExpr : Frame → Prop
  | .fieldOf _ | .rightOf _ _ | .binary _ _ | .unary _ | .logical _ _ | .comparing _ _
  | .compared _ _ _ _ | .memberOf _ | .indexOf _ | .subscript _ | .calleeOf _ _ | .gather _ _ _
  | .conditional _ _ | .discard => True
  | _ => False

def Frame.isReturn : Frame → Prop
  | .returning _ | .boundary _ _ => True
  | _ => False

def Control.ofExpr : Control → Prop
  | .eval _ | .await _ => True
  | .done c => c.isPlain = true
  | _ => False

namespace Machine

inductive Looking (base : List Frame) (m : Machine) : Prop
  | expr (w : List Frame) (hs : m.stack = w ++ base) (hw : ∀ g ∈ w, g.ofExpr)
      (hc : m.control.ofExpr)
  | call (z w : List Frame) (g : Frame) (hs : m.stack = z ++ g :: (w ++ base)) (hg : g.isReturn)
      (hw : ∀ g ∈ w, g.ofExpr)

namespace Looking

variable {base : List Frame} {m m' : Machine}

theorem below {w : List Frame} (h : Looking (w ++ base) m) (hw : ∀ g ∈ w, g.ofExpr) :
    Looking base m := by
  have both : ∀ w', (∀ g ∈ w', g.ofExpr) → ∀ g ∈ w' ++ w, g.ofExpr := by
    intro w' hw' g hg
    rcases List.mem_append.mp hg with hg | hg
    · exact hw' g hg
    · exact hw g hg
  cases h with
  | expr w' hs hw' hc => exact .expr (w' ++ w) (by rw [hs, List.append_assoc]) (both w' hw') hc
  | call z w' g hs hg hw' =>
      exact .call z (w' ++ w) g (by rw [hs, List.append_assoc]) hg (both w' hw')

theorem cons {f : Frame} (h : Looking (f :: base) m) (hf : f.ofExpr) : Looking base m :=
  below (w := [f]) h (by simpa using hf)

theorem here (hs : m.stack = base) (hc : m.control.ofExpr) : Looking base m :=
  .expr [] hs (by simp) hc

end Looking

section Moves

variable (m : Machine)

theorem complete_looking {c : Completion} (hc : c.isPlain = true) :
    Looking m.stack (m.complete c) :=
  .here rfl hc

theorem giveResult_looking (r : Except SimError Value) : Looking m.stack (m.giveResult r) := by
  cases r with
  | ok v => exact m.complete_looking (c := .value v) rfl
  | error e => exact m.complete_looking (c := .failed e) rfl

theorem withResult_looking {α : Type} (r : Except SimError α) {f : α → Machine}
    (h : ∀ a, Looking m.stack (f a)) : Looking m.stack (m.withResult r f) := by
  cases r with
  | ok a => exact h a
  | error e => exact m.complete_looking (c := .failed e) rfl

theorem push_looking {f : Frame} (hf : f.ofExpr) (e : Expr) :
    Looking m.stack (m.push f (.eval e)) :=
  .expr [f] rfl (by simpa using hf) trivial

theorem callFunction_looking (owner : Nat) (name : String) (args : List Value)
    (keywords : List (String × Value)) (mode : WriteMode) :
    Looking m.stack (m.callFunction owner name args keywords mode) := by
  simp only [callFunction]
  split
  · exact m.complete_looking (c := .failed _) rfl
  · split
    · exact m.complete_looking (c := .failed _) rfl
    · rename_i f _ _ _ _
      cases f.body with
      | nil => exact .call [] [] (.returning m.activation) rfl trivial (by simp)
      | cons s rest => exact .call [.block rest] [] (.returning m.activation) rfl trivial (by simp)

theorem callNow_looking (owner : Nat) (name : String) (args : List Value) :
    Looking m.stack (m.callNow owner name args) := by
  have h := callFunction_looking { m with stack := .boundary name m.activation :: m.stack } owner
    name args [] .immediate
  cases h with
  | expr w hs hw hc => exact .call w [] _ hs trivial (by simp)
  | call z w g hs hg hw =>
      exact .call (z ++ g :: w) [] (.boundary name m.activation)
        (hs.trans (by simp)) trivial (by simp)

theorem setEvent_looking (event : Nat) : Looking m.stack (m.setEvent event) := by
  rcases h : m.sim.kernel.setFlag event with ⟨k, _ | hook | hook⟩
  · simp only [setEvent, h]
    exact .here rfl rfl
  · simp only [setEvent, h]
    exact .cons (f := .discard) (callNow_looking
      { m with stack := .discard :: m.stack, sim := m.sim.setKernel k } hook.owner hook.method [])
      trivial
  · simp only [setEvent, h]
    split
    · exact .here rfl rfl
    · exact .here rfl rfl

theorem builtin_looking (b : Builtin) (args : List Value) : Looking m.stack (m.builtin b args) :=
  giveResult_looking (m.setSim (m.sim.builtin b args).1) _

theorem callMethod_looking (target : Handle) (name : String) (args : List Value) :
    Looking m.stack (m.callMethod target name args) := by
  simp only [callMethod]
  cases m.sim.method target name args with
  | done s r => exact giveResult_looking (m.setSim s) r
  | waits w => exact .here rfl trivial
  | sets event => exact m.setEvent_looking event

theorem invoke_looking (callee : Value) (args : List Value) (keywords : List (String × Value)) :
    Looking m.stack (m.invoke callee args keywords) := by
  unfold invoke
  split
  · exact m.callFunction_looking _ _ args keywords _
  · split
    · exact m.callMethod_looking _ _ args
    · exact m.complete_looking (c := .failed _) rfl
  · exact m.builtin_looking _ args
  · exact m.complete_looking (c := .failed _) rfl

theorem gathered_looking (use : Gathered) (values : List Value) :
    Looking m.stack (m.gathered use values) := by
  unfold gathered
  split
  · exact m.complete_looking (c := .value _) rfl
  · exact m.builtin_looking _ values
  · exact m.invoke_looking _ values []
  · exact m.push_looking (f := .gather _ _ _) trivial _
  · exact m.invoke_looking _ _ _

theorem gather_looking (use : Gathered) (done : List Value) (rest : List Expr) :
    Looking m.stack (m.gather use done rest) := by
  cases rest with
  | nil => exact m.gathered_looking use done.reverse
  | cons e rest => exact m.push_looking (f := .gather use done rest) trivial e

theorem compareOn_looking (left : Value) (ops : List CmpOp) (comparators : List Expr) :
    Looking m.stack (m.compareOn left ops comparators) := by
  unfold compareOn
  split
  · exact m.push_looking (f := .compared _ _ _ _) trivial _
  · exact m.complete_looking (c := .value _) rfl

theorem eval_looking (e : Expr) : Looking m.stack (m.eval e) := by
  cases e with
  | param name index =>
      simp only [eval]
      split
      · exact m.complete_looking (c := .value _) rfl
      · exact m.complete_looking (c := .failed _) rfl
  | var name =>
      simp only [eval]
      split
      · exact m.complete_looking (c := .value _) rfl
      · exact m.complete_looking (c := .failed _) rfl
  | logical op values =>
      cases values with
      | nil => exact m.complete_looking (c := .value _) rfl
      | cons e rest => exact m.push_looking (f := .logical op rest) trivial e
  | call callee args keywords =>
      cases callee with
      | builtin b => exact m.gather_looking (.builtin b) [] args
      | _ => exact m.push_looking (f := .calleeOf args keywords) trivial _
  | tuple items => exact m.gather_looking .tuple [] items
  | constant | self | builtin => exact m.complete_looking (c := .value _) rfl
  | await value => exact .here rfl trivial
  | field base index => exact m.push_looking (f := .fieldOf index) trivial base
  | binary lhs op rhs => exact m.push_looking (f := .rightOf op rhs) trivial lhs
  | unary op operand => exact m.push_looking (f := .unary op) trivial operand
  | compare left ops comparators =>
      exact m.push_looking (f := .comparing ops comparators) trivial left
  | member value name => exact m.push_looking (f := .memberOf name) trivial value
  | subscript value index => exact m.push_looking (f := .indexOf index) trivial value
  | conditional test body orelse =>
      exact m.push_looking (f := .conditional body orelse) trivial test

theorem resume_looking {f : Frame} (hf : f.ofExpr) (v : Value) :
    Looking m.stack (m.resume f v) := by
  cases f with
  | fieldOf index => exact m.withResult_looking _ fun id => m.giveResult_looking _
  | rightOf op rhs => exact m.push_looking (f := .binary op v) trivial rhs
  | binary op lhs => exact m.giveResult_looking _
  | unary op => exact m.giveResult_looking _
  | logical op rest =>
      cases rest with
      | nil => exact m.complete_looking (c := .value v) rfl
      | cons e rest =>
          simp only [resume]
          split
          · exact m.complete_looking (c := .value v) rfl
          · exact m.push_looking (f := .logical op rest) trivial e
  | comparing ops comparators => exact m.compareOn_looking v ops comparators
  | compared left op ops comparators =>
      refine m.withResult_looking _ fun holds => ?_
      split
      · exact m.compareOn_looking v ops comparators
      · exact m.complete_looking (c := .value _) rfl
  | memberOf name => exact m.giveResult_looking _
  | indexOf index => exact m.push_looking (f := .subscript v) trivial index
  | subscript container => exact m.giveResult_looking _
  | calleeOf args keywords => exact m.gather_looking _ [] args
  | gather use done rest => exact m.gather_looking use _ rest
  | conditional body orelse => exact .here rfl trivial
  | discard => exact m.complete_looking (c := .value _) rfl
  | _ => exact hf.elim

theorem accept_looking {f : Frame} (hf : f.ofExpr) {c : Completion} (hc : c.isPlain = true) :
    Looking m.stack (m.accept f c) := by
  cases c with
  | value v => exact m.resume_looking hf v
  | failed e => cases f <;> first | exact .here rfl rfl | exact hf.elim
  | _ => cases hc

theorem accept_return_looking {f : Frame} (hf : f.isReturn) (c : Completion) :
    Looking m.stack (m.accept f c) := by
  cases f with
  | returning caller => cases c <;> exact .here rfl rfl
  | boundary process caller => cases c <;> exact .here rfl rfl
  | _ => exact hf.elim

end Moves

theorem innermostBody_ofExpr {w : List Frame} (hw : ∀ g ∈ w, g.ofExpr) :
    innermostBody w = none := by
  induction w with
  | nil => rfl
  | cons f w ih =>
      have hf := hw f (by simp)
      have hrest := ih fun g hg => hw g (by simp [hg])
      cases f <;> first | exact hrest | exact hf.elim

/-- An expression goes on until it comes to a value or a fault, unless a wait cuts the body short
that it belongs to. -/
theorem Looking.step {waker : Waker} {base : List Frame} {m m' : Machine} (h : Looking base m)
    (hgo : m.stack ≠ base ∨ ∀ c, m.control ≠ .done c) (hstep : m.step waker = .go m') :
    Looking base m' ∨ ∃ process rest e, innermostBody base = some (process, rest) ∧
      m'.stack = rest ∧ m'.control = .done (.failed e) := by
  cases h with
  | expr w hs hw hc =>
      have hbody : innermostBody (w ++ base) = innermostBody base :=
        innermostBody_append_none (innermostBody_ofExpr hw) base
      cases step_goes hstep with
      | eval e =>
          have hlook := m.eval_looking e
          rw [hs] at hlook
          exact .inl (hlook.below hw)
      | await w' hcontrol hwait =>
          rcases await_go hwait with ⟨k, v, -, rfl⟩ | ⟨k, process, rest, hin, -, rfl⟩
          · exact .inl (.expr w hs hw rfl)
          · exact .inr ⟨process, rest, _, by rw [← hbody, ← hs, hin], rfl, rfl⟩
      | done c f below hcontrol hs' =>
          rw [hcontrol] at hc
          rw [hs] at hs'
          cases w with
          | nil => exact (hgo.elim (fun hne => hne hs) fun hnot => hnot c hcontrol).elim
          | cons f w =>
              cases hs'
              have hlook := accept_looking { m with stack := w ++ base } (hw f (by simp)) hc
              exact .inl (hlook.below fun g hg => hw g (by simp [hg]))
      | exec _ hcontrol | store _ _ hcontrol | matching _ _ hcontrol =>
          rw [hcontrol] at hc
          exact hc.elim
  | call z w g hs hg hw =>
      by_cases hend : z = [] ∧ ∃ c, m.control = .done c
      · obtain ⟨rfl, c, hcontrol⟩ := hend
        rw [step_done hcontrol hs] at hstep
        cases hstep
        have hlook := accept_return_looking { m with stack := w ++ base } hg c
        exact .inl (hlook.below hw)
      · have hgo' : z ≠ [] ∨ ∀ c, m.control ≠ .done c := by
          by_cases hnil : z = []
          · exact .inr fun c hc => hend ⟨hnil, c, hc⟩
          · exact .inl hnil
        rcases step_above hs hgo' hstep with ⟨z', hz'⟩ | ⟨process, rest, e, hbody, hstack, hfailed⟩
        · exact .inl (.call z' w g hz' hg hw)
        · cases g with
          | returning caller =>
              refine .inr ⟨process, rest, e, ?_, hstack, hfailed⟩
              rw [← hbody]
              exact (innermostBody_append_none (innermostBody_ofExpr hw) base).symm
          | boundary name caller =>
              cases hbody
              exact .inl (.call [] w _ hstack trivial hw)
          | _ => exact hg.elim

end Machine

end Clockwork
