import Clockwork.Proofs.Combs.Plain
/-!
Steps of bodies that take fields at the end of paths only. On its way along a path such a body holds
the instance that the path has led to so far; everywhere else what is left of it fits the accesses
that are spelled out. Each of its steps is the same in all simulations of a tree, but for the value
of the one field that it may read.
-/

namespace Clockwork

namespace Tree

/-- A path of components leads from an instance to another one. -/
inductive Leads (t : Tree) (id : Nat) : FieldPath → Nat → Prop
  | here : Leads t id [] id
  | child {q : FieldPath} {id' index child : Nat} {slot : FieldSlot} (h : Leads t id q id')
      (hslot : t.slot id' index = .ok slot) (hchild : slot.storage = .component child) :
      Leads t id (q ++ [index]) child

theorem Leads.follow {t : Tree} {id id' : Nat} {q p : FieldPath} (h : t.Leads id q id')
    (hp : p ≠ []) : t.follow id (q ++ p) = t.follow id' p := by
  induction h generalizing p with
  | here => rfl
  | @child q id₁ index child slot _ hslot hchild ih =>
      rw [List.append_assoc, List.singleton_append, ih (by simp)]
      obtain ⟨index', rest, rfl⟩ := List.exists_cons_of_ne_nil hp
      rw [Tree.follow, hslot]
      · simp only [hchild]
      · simp

theorem follow_single {t : Tree} {id index : Nat} {g : FieldRef}
    (h : t.follow id [index] = .ok g) : g = ⟨id, index⟩ := by
  rw [Tree.follow] at h
  split at h
  · cases h
    rfl
  · cases h

theorem component_of_follow {t : Tree} {id index : Nat} {rest : FieldPath} {g : FieldRef}
    (hrest : rest ≠ []) (h : t.follow id (index :: rest) = .ok g) :
    ∃ slot child, t.slot id index = .ok slot ∧ slot.storage = .component child := by
  obtain ⟨index', rest, rfl⟩ := List.exists_cons_of_ne_nil hrest
  rw [Tree.follow] at h
  · split at h
    · cases h
    · rename_i slot hslot
      split at h
      · rename_i child hchild
        exact ⟨slot, child, hslot, hchild⟩
      · cases h
  · simp

end Tree

theorem Simulation.readField_component {s : Simulation} {f : FieldRef} {slot : FieldSlot}
    {child : Nat} (hslot : s.tree.slot f.owner f.index = .ok slot)
    (hchild : slot.storage = .component child) :
    s.readField f = .ok (.obj (.component child)) := by
  simp only [readField, hslot, hchild]

namespace Frame

def Fits (A : List Access) : Frame → Prop
  | .rightOf _ e | .indexOf e => e.Fits A
  | .binary _ _ | .unary _ | .subscript _ | .resultOf | .assertionText _ _ | .equals _
  | .bindPattern _ _ | .discard => True
  | .logical _ rest | .comparing _ rest | .compared _ _ _ rest | .gather .tuple _ rest =>
    ∀ e ∈ rest, e.Fits A
  | .conditional body orelse => body.Fits A ∧ orelse.Fits A
  | .storeRest rest => ∀ x ∈ rest, x.1.TargetFits A
  | .storeIndex container index _ => container.TargetFits A ∧ index.Fits A
  | .storeItem container _ _ | .updateWith container _ _ => container.TargetFits A
  | .block rest => Stmt.AllFit A rest
  | .assign targets => ∀ e ∈ targets, e.TargetFits A
  | .updateBy target _ value => target.TargetFits A ∧ value.Fits A
  | .branch body orelse => Stmt.AllFit A body ∧ Stmt.AllFit A orelse
  | .eachOf target body orelse | .eachItem target _ body orelse | .eachRound target _ body orelse =>
    target.TargetFits A ∧ Stmt.AllFit A body ∧ Stmt.AllFit A orelse
  | .loopTest test body orelse | .loopRound test body orelse =>
    test.Fits A ∧ Stmt.AllFit A body ∧ Stmt.AllFit A orelse
  | .assertionTest _ message => ∀ e ∈ message, e.Fits A
  | .select cases => ∀ c ∈ cases, c.Fits A
  | .caseMatched _ c rest | .caseGuard _ c rest => c.Fits A ∧ ∀ c ∈ rest, c.Fits A
  | .alternatives rest _ => ∀ p ∈ rest, p.Fits A
  | _ => False

def takesInstance : Frame → Bool
  | .fieldOf _ | .storeField _ _ => true
  | _ => false

/-- Whether a frame looks up or replaces an item of a storage object when it gets a value. -/
def touchesStorage : Frame → Bool
  | .subscript (.obj (.memory _)) | .subscript (.obj (.regFile _))
  | .storeItem _ (.obj (.memory _)) _ | .storeItem _ (.obj (.regFile _)) _ => true
  | _ => false

end Frame

/-- The frames take the instance at the end of a path further along a path that is spelled out. -/
def Seeks (A : List Access) : FieldPath → List Frame → Prop
  | q, .fieldOf index :: rest => Seeks A (q ++ [index]) rest
  | q, .storeField index _ :: rest => .write (q ++ [index]) ∈ A ∧ ∀ f ∈ rest, f.Fits A
  | q, stack => .read q ∈ A ∧ ∀ f ∈ stack, f.Fits A

theorem seeks_of_fits {A : List Access} {q : FieldPath} {stack : List Frame} (hq : .read q ∈ A)
    (hs : ∀ f ∈ stack, f.Fits A) : Seeks A q stack := by
  cases stack with
  | nil => exact ⟨hq, hs⟩
  | cons f rest =>
      have hf := hs f (by simp)
      cases f
      case fieldOf | storeField => exact hf.elim
      all_goals exact ⟨hq, hs⟩

theorem Seeks.cases {A : List Access} {q : FieldPath} {stack : List Frame} (h : Seeks A q stack) :
    (.read q ∈ A ∧ ∀ f ∈ stack, f.Fits A) ∨
      ∃ f rest, stack = f :: rest ∧ f.takesInstance = true := by
  cases stack with
  | nil => exact .inl h
  | cons f rest =>
      cases f
      case fieldOf | storeField => exact .inr ⟨_, _, rfl, rfl⟩
      all_goals exact .inl h

theorem Seeks.access {A : List Access} {q : FieldPath} {stack : List Frame} (h : Seeks A q stack) :
    ∃ a ∈ A, ∃ p, a.path = q ++ p ∧
      ((∃ f rest, stack = f :: rest ∧ f.takesInstance = true) → p ≠ []) := by
  induction stack generalizing q with
  | nil => exact ⟨_, h.1, [], (List.append_nil q).symm, by simp⟩
  | cons f rest ih =>
      cases f
      case fieldOf index =>
          obtain ⟨a, ha, p, hp, -⟩ := ih (show Seeks A (q ++ [index]) rest from h)
          exact ⟨a, ha, index :: p, by simpa using hp, fun _ => by simp⟩
      case storeField index v => exact ⟨_, h.1, [index], rfl, fun _ => by simp⟩
      all_goals
        refine ⟨_, h.1, [], (List.append_nil q).symm, ?_⟩
        rintro ⟨f, rest, heq, hf⟩
        cases heq
        cases hf

namespace Machine

/-- Where a body is that spells out all its accesses. -/
inductive Spot (t : Tree) (A : List Access) (id : Nat) : Control → List Frame → Prop
  | eval {e : Expr} {stack : List Frame} (he : e.Fits A) (hs : ∀ f ∈ stack, f.Fits A) :
      Spot t A id (.eval e) stack
  | exec {s : Stmt} {stack : List Frame} (h : s.Fits A) (hs : ∀ f ∈ stack, f.Fits A) :
      Spot t A id (.exec s) stack
  | store {e : Expr} {v : Value} {stack : List Frame} (he : e.TargetFits A)
      (hs : ∀ f ∈ stack, f.Fits A) : Spot t A id (.store e v) stack
  | matching {p : Pattern} {v : Value} {stack : List Frame} (hp : p.Fits A)
      (hs : ∀ f ∈ stack, f.Fits A) : Spot t A id (.matching p v) stack
  | done {c : Completion} {stack : List Frame} (hs : ∀ f ∈ stack, f.Fits A) :
      Spot t A id (.done c) stack
  | seek {q : FieldPath} {stack : List Frame} (h : Seeks A q stack) :
      Spot t A id (.eval (.path q)) stack
  | found {q : FieldPath} {id' : Nat} {f : Frame} {rest : List Frame} (hq : t.Leads id q id')
      (hf : f.takesInstance = true) (h : Seeks A q (f :: rest)) :
      Spot t A id (.done (.value (.obj (.component id')))) (f :: rest)

/-- A body of an instance that spells out all its accesses. -/
structure Plain (t : Tree) (A : List Access) (id : Nat) (m : Machine) : Prop where
  spot : Spot t A id m.control m.stack
  owner : m.activation.owner = id
  mode : m.activation.mode = .immediate

/-- Whether the next step looks up or replaces an item of a storage object. -/
def touchesStorage (m : Machine) : Bool :=
  match m.control, m.stack with
  | .done (.value _), f :: _ => f.touchesStorage
  | _, _ => false

/-- What a step of such a body does in all simulations of a tree: it moves on, perhaps with a cover
point counted, or it fails, or it reads a field that is spelled out. -/
inductive PlainMove (t : Tree) (A : List Access) (id : Nat) (op : Simulation → Machine) : Prop
  | move (m' : Machine) (h : m'.Plain t A id)
      (hop : ∀ s, s.tree = t → ∃ covers, op s = m'.setSim { s with covers := covers })
  | fail (hop : ∀ s, ∃ e, (op s).control = .done (.failed e))
  | read (m' : Machine) (p : FieldPath) (g : FieldRef) (hp : .read p ∈ A)
      (hg : t.follow id p = .ok g) (h : ∀ c, (m'.complete c).Plain t A id)
      (hop : ∀ s, op s = (m'.setSim s).giveResult (s.readField g))

section Moves

variable {t : Tree} {A : List Access} {id : Nat} {m : Machine}

/-- A body that neither looks at anything nor is on its way along a path. -/
structure Fitting (A : List Access) (id : Nat) (m : Machine) : Prop where
  stack : ∀ f ∈ m.stack, f.Fits A
  owner : m.activation.owner = id
  mode : m.activation.mode = .immediate

namespace Fitting

theorem cons (h : Fitting A id m) {f : Frame} (hf : f.Fits A) :
    Fitting A id { m with stack := f :: m.stack } := by
  refine ⟨?_, h.owner, h.mode⟩
  rintro g (_ | ⟨_, hg⟩)
  · exact hf
  · exact h.stack g hg

theorem complete (h : Fitting A id m) (c : Completion) : (m.complete c).Plain t A id :=
  ⟨.done h.stack, h.owner, h.mode⟩

theorem setLocal (h : Fitting A id m) (name : String) (v : Value) :
    Fitting A id (m.setLocal name v) := ⟨h.stack, h.owner, h.mode⟩

theorem block (h : Fitting A id m) {body : List Stmt} (hbody : Stmt.AllFit A body) :
    (m.block body).Plain t A id := by
  cases body with
  | nil => exact h.complete (.value .none)
  | cons s rest =>
      obtain ⟨hs, hrest⟩ := Stmt.allFit_cons.mp hbody
      exact ⟨.exec hs (h.cons (f := .block rest) hrest).stack, h.owner, h.mode⟩

end Fitting

namespace PlainMove

theorem look {c : Control} (h : Plain t A id { m with control := c }) :
    PlainMove t A id fun s => (m.setSim s).look c :=
  .move _ h fun s _ => ⟨s.covers, rfl⟩

theorem complete (h : Fitting A id m) (c : Completion) :
    PlainMove t A id fun s => (m.setSim s).complete c :=
  look (h.complete c)

theorem push (h : Fitting A id m) {f : Frame} {c : Control} (hf : f.Fits A)
    (hc : (∀ g ∈ f :: m.stack, g.Fits A) → Spot t A id c (f :: m.stack)) :
    PlainMove t A id fun s => (m.setSim s).push f c := by
  have hcons := h.cons hf
  exact .move (m.push f c) ⟨hc hcons.stack, h.owner, h.mode⟩ fun s _ => ⟨s.covers, rfl⟩

theorem giveResult (h : Fitting A id m) (r : Except SimError Value) :
    PlainMove t A id fun s => (m.setSim s).giveResult r := by
  cases r with
  | ok v => exact .complete h (.value v)
  | error e => exact .complete h (.failed e)

theorem withResult {α : Type} (h : Fitting A id m) (r : Except SimError α)
    (f : Simulation → α → Machine) (hf : ∀ a, PlainMove t A id fun s => f s a) :
    PlainMove t A id fun s => (m.setSim s).withResult r (f s) := by
  cases r with
  | ok a => exact hf a
  | error e => exact .complete h (.failed e)

theorem block (h : Fitting A id m) {body : List Stmt} (hbody : Stmt.AllFit A body) :
    PlainMove t A id fun s => (m.setSim s).block body :=
  .move (m.block body) (h.block hbody) fun s _ => ⟨s.covers, by cases body <;> rfl⟩

end PlainMove

theorem compareOn_plain (h : Fitting A id m) (left : Value) (ops : List CmpOp)
    {comparators : List Expr} (hc : ∀ e ∈ comparators, e.Fits A) :
    PlainMove t A id fun s => (m.setSim s).compareOn left ops comparators := by
  cases ops with
  | nil => exact .complete h (.value (.bool true))
  | cons op ops =>
      cases comparators with
      | nil => exact .complete h (.value (.bool true))
      | cons e rest =>
          exact .push h (f := .compared left op ops rest) (fun e he => hc e (by simp [he]))
            (.eval (hc e (by simp)))

theorem gather_plain (h : Fitting A id m) (done : List Value) {rest : List Expr}
    (hrest : ∀ e ∈ rest, e.Fits A) :
    PlainMove t A id fun s => (m.setSim s).gather .tuple done rest := by
  cases rest with
  | nil => exact .complete h (.value (.tuple done.reverse))
  | cons e rest =>
      exact .push h (f := .gather .tuple done rest) (fun e he => hrest e (by simp [he]))
        (.eval (hrest e (by simp)))

theorem seek_plain (hm : m.activation.owner = id) (hmode : m.activation.mode = .immediate)
    (hA : ∀ a ∈ A, ∃ g, t.follow id a.path = .ok g) {q : FieldPath} (h : Seeks A q m.stack) :
    PlainMove t A id fun s => (m.setSim s).eval (.path q) := by
  rcases q.eq_nil_or_concat with rfl | ⟨q, index, rfl⟩
  · -- An empty path is none of the accesses, so there is more of it to come.
    have hmore : ∃ f rest, m.stack = f :: rest ∧ f.takesInstance = true := by
      rcases h.cases with ⟨hread, -⟩ | hmore
      · obtain ⟨g, hg⟩ := hA _ hread
        cases hg
      · exact hmore
    obtain ⟨f, rest, hstack, hf⟩ := hmore
    refine .move (m.give (.obj (.component id))) ⟨?_, hm, hmode⟩ fun s _ => ⟨s.covers, ?_⟩
    · change Spot t A id (.done (.value (.obj (.component id)))) m.stack
      rw [hstack] at h ⊢
      exact .found .here hf h
    · rw [← hm]
      rfl
  · have hpath : Expr.path (q.concat index) = .field (.path q) index := by
      rw [List.concat_eq_append, Expr.path, List.foldl_append]
      rfl
    rw [hpath]
    refine .move (m.push (.fieldOf index) (.eval (.path q))) ⟨.seek ?_, hm, hmode⟩
      fun s _ => ⟨s.covers, rfl⟩
    change Seeks A (q ++ [index]) m.stack
    rwa [← List.concat_eq_append]

theorem eval_plain (h : Fitting A id m) (hA : ∀ a ∈ A, ∃ g, t.follow id a.path = .ok g) {e : Expr}
    (he : e.Fits A) : PlainMove t A id fun s => (m.setSim s).eval e := by
  cases e with
  | constant c => exact .complete h (.value (.ofLiteral c))
  | self => simp at he
  | field base index =>
      obtain ⟨p, hp, hmem⟩ := he.field
      rw [Expr.eq_path_of_fieldPath? _ hp]
      exact seek_plain h.owner h.mode hA (seeks_of_fits hmem h.stack)
  | param name index =>
      have hsame : ∀ s, (m.setSim s).activation.params[index]? = m.activation.params[index]? :=
        fun _ => rfl
      simp only [eval, hsame]
      cases m.activation.params[index]? with
      | some v => exact .complete h (.value v)
      | none => exact .complete h (.failed _)
  | var name =>
      have hsame : ∀ s, (m.setSim s).activation.locals.get? name = m.activation.locals.get? name :=
        fun _ => rfl
      simp only [eval, hsame]
      cases m.activation.locals.get? name with
      | some v => exact .complete h (.value v)
      | none => exact .complete h (.failed _)
  | builtin b => exact .complete h (.value (.obj (.builtin b)))
  | binary lhs op rhs =>
      rw [Expr.fits_binary] at he
      exact .push h (f := .rightOf op rhs) he.2 (.eval he.1)
  | unary op operand =>
      rw [Expr.fits_unary] at he
      exact .push h (f := .unary op) trivial (.eval he)
  | logical op values =>
      rw [Expr.fits_logical] at he
      cases values with
      | nil => exact .complete h (.value (Value.neutral op))
      | cons e rest =>
          exact .push h (f := .logical op rest) (fun e hmem => he e (by simp [hmem]))
            (.eval (he e (by simp)))
  | compare left ops comparators =>
      rw [Expr.fits_compare] at he
      exact .push h (f := .comparing ops comparators) he.2 (.eval he.1)
  | member value name => simp at he
  | subscript value index =>
      rw [Expr.fits_subscript] at he
      exact .push h (f := .indexOf index) he.2 (.eval he.1)
  | call callee args keywords => simp at he
  | conditional test body orelse =>
      rw [Expr.fits_conditional] at he
      exact .push h (f := .conditional body orelse) he.2 (.eval he.1)
  | await value =>
      rw [Expr.fits_await] at he
      exact .look ⟨.eval he h.stack, h.owner, h.mode⟩
  | tuple items =>
      rw [Expr.fits_tuple] at he
      exact gather_plain h [] he

theorem storeAll_plain (h : Fitting A id m) {targets : List (Expr × Value)}
    (ht : ∀ x ∈ targets, x.1.TargetFits A) :
    PlainMove t A id fun s => (m.setSim s).storeAll targets := by
  rcases targets with _ | ⟨⟨target, v⟩, rest⟩
  · exact .complete h (.value .none)
  · exact .push h (f := .storeRest rest) (fun x hx => ht x (by simp [hx]))
      (.store (ht (target, v) (by simp)))

theorem store_plain (h : Fitting A id m) {e : Expr} (he : e.TargetFits A) (v : Value) :
    PlainMove t A id fun s => (m.setSim s).store e v := by
  cases e with
  | param name index =>
      simp only [store]
      change PlainMove t A id fun s =>
        if index < m.activation.params.size then _ else (m.setSim s).fail _
      by_cases hindex : index < m.activation.params.size
      · simp only [hindex, ↓reduceIte]
        exact .move { m with
          control := .done (.value .none)
          activation := { m.activation with params := m.activation.params.setIfInBounds index v } }
          ⟨.done h.stack, h.owner, h.mode⟩ fun s _ => ⟨s.covers, rfl⟩
      · simp only [hindex, ↓reduceIte]
        exact .complete h (.failed _)
  | var name => exact .complete (h.setLocal name v) (.value .none)
  | field base index =>
      obtain ⟨p, hp, hmem⟩ := he.field
      have hpath := Expr.eq_path_of_fieldPath? _ hp
      rcases p.eq_nil_or_concat with rfl | ⟨q, index', rfl⟩
      · cases hpath
      · rw [List.concat_eq_append] at hpath hmem
        rw [Expr.path, List.foldl_append] at hpath
        cases hpath
        exact .move (m.push (.storeField index v) (.eval (.path q)))
          ⟨.seek ⟨hmem, h.stack⟩, h.owner, h.mode⟩ fun s _ => ⟨s.covers, rfl⟩
  | tuple targets =>
      rw [Expr.targetFits_tuple] at he
      simp only [store]
      cases v.asTuple with
      | error e => exact .complete h (.failed e)
      | ok items =>
          dsimp only
          by_cases hlen : items.length = targets.length
          · simp only [hlen, ↓reduceIte]
            exact storeAll_plain h fun x hx => he x.1 (List.of_mem_zip hx).1
          · simp only [hlen, ↓reduceIte]
            exact .complete h (.failed _)
  | subscript container index =>
      rw [Expr.targetFits_subscript] at he
      obtain ⟨-, hcontainer, htarget, hindex⟩ := he
      exact .push h (f := .storeIndex container index v) ⟨htarget, hindex⟩ (.eval hcontainer)
  | _ => exact absurd he.1 (by simp [Expr.plainTarget])

theorem eachNext_plain (h : Fitting A id m) {target : Expr} (items : List Value)
    {body orelse : List Stmt} (ht : target.TargetFits A) (hbody : Stmt.AllFit A body)
    (horelse : Stmt.AllFit A orelse) :
    PlainMove t A id fun s => (m.setSim s).eachNext target items body orelse := by
  cases items with
  | nil => exact .block h horelse
  | cons v rest =>
      exact .push h (f := .eachItem target rest body orelse) ⟨ht, hbody, horelse⟩ (.store ht)

theorem eachOf_plain (h : Fitting A id m) {target : Expr} (v : Value)
    {body orelse : List Stmt} (ht : target.TargetFits A) (hbody : Stmt.AllFit A body)
    (horelse : Stmt.AllFit A orelse) :
    PlainMove t A id fun s => (m.setSim s).eachOf target v body orelse := by
  cases v with
  | tuple items => exact eachNext_plain h items ht hbody horelse
  | str text => exact eachNext_plain h (Value.ofChars text) ht hbody horelse
  | _ => exact .complete h (.failed _)

theorem check_plain (h : Fitting A id m) (kind : AssertionKind) (holds : Bool)
    (message : Option String) :
    PlainMove t A id fun s => (m.setSim s).check kind holds message := by
  cases kind <;> cases holds
  case cover.true =>
    exact .move (m.complete (.value .none)) (h.complete _) fun s _ => ⟨_, rfl⟩
  case assert.false | assume.false => exact .fail fun s => ⟨_, rfl⟩
  all_goals exact .complete h (.value .none)

theorem selectNext_plain (h : Fitting A id m) (subject : Value) {cases : List Case}
    (hcases : ∀ c ∈ cases, c.Fits A) :
    PlainMove t A id fun s => (m.setSim s).selectNext subject cases := by
  cases cases with
  | nil => exact .complete h (.value .none)
  | cons c rest =>
      have hc := hcases c (by simp)
      exact .push h (f := .caseMatched subject c rest)
        ⟨hc, fun c hmem => hcases c (by simp [hmem])⟩ (.matching hc.pattern)

theorem exec_plain (h : Fitting A id m) {x : Stmt} (hx : x.Fits A) :
    PlainMove t A id fun s => (m.setSim s).exec x := by
  cases x with
  | assign targets value =>
      rw [Stmt.fits_assign] at hx
      exact .push h (f := .assign targets) hx.2 (.eval hx.1)
  | update target op value =>
      rw [Stmt.fits_update] at hx
      exact .push h (f := .updateBy target op value) ⟨hx.2.2, hx.1⟩ (.eval hx.2.1)
  | result value =>
      rw [Stmt.fits_result] at hx
      cases value with
      | none => exact .complete h (.result .none)
      | some e => exact .push h (f := .resultOf) trivial (.eval (hx e rfl))
  | branch test body orelse =>
      rw [Stmt.fits_branch] at hx
      exact .push h (f := .branch body orelse) hx.2 (.eval hx.1)
  | each target items body orelse =>
      rw [Stmt.fits_each] at hx
      exact .push h (f := .eachOf target body orelse) hx.2 (.eval hx.1)
  | loop test body orelse =>
      have hparts := Stmt.fits_loop.mp hx
      exact .push h (f := .loopTest test body orelse) hparts (.eval hparts.1)
  | leave => exact .complete h .leave
  | again => exact .complete h .again
  | pass => exact .complete h (.value .none)
  | assertion kind test message =>
      rw [Stmt.fits_assertion] at hx
      exact .push h (f := .assertionTest kind message) hx.2 (.eval hx.1)
  | select subject cases =>
      rw [Stmt.fits_select] at hx
      exact .push h (f := .select cases) hx.2 (.eval hx.1)
  | expr e =>
      rw [Stmt.fits_expr] at hx
      simp only [exec]
      split
      · exact .complete h (.failed _)
      · exact .push h (f := .discard) trivial (.eval hx)

theorem matchAny_plain (h : Fitting A id m) (subject : Value) {patterns : List Pattern}
    (hp : ∀ p ∈ patterns, p.Fits A) :
    PlainMove t A id fun s => (m.setSim s).matchAny subject patterns := by
  cases patterns with
  | nil => exact .complete h (.value (.bool false))
  | cons p rest =>
      exact .push h (f := .alternatives rest subject) (fun p hmem => hp p (by simp [hmem]))
        (.matching (hp p (by simp)))

theorem matchPattern_plain (h : Fitting A id m) {p : Pattern} (hp : p.Fits A) (subject : Value) :
    PlainMove t A id fun s => (m.setSim s).matchPattern p subject := by
  rcases p with (_ | e) | ⟨_ | inner, name⟩ | patterns
  · exact .complete h (.value (.bool true))
  · rw [Pattern.fits_value] at hp
    exact .push h (f := .equals subject) trivial (.eval (hp e rfl))
  · exact .complete (h.setLocal name subject) (.value (.bool true))
  · rw [Pattern.fits_bind] at hp
    exact .push h (f := .bindPattern name subject) trivial (.matching hp)
  · rw [Pattern.fits_alternatives] at hp
    exact matchAny_plain h subject hp

theorem storeItem_plain (h : Fitting A id m) {container : Expr} (hc : container.TargetFits A)
    (held index v : Value) (hheld : (Frame.storeItem container held v).touchesStorage = false) :
    PlainMove t A id fun s => (m.setSim s).storeItem container held index v := by
  cases held with
  | int n =>
      refine .withResult h _ _ fun bit => ?_
      by_cases hbit : bit < 128
      · simp only [hbit, ↓reduceIte]
        exact .look ⟨.store hc h.stack, h.owner, h.mode⟩
      · simp only [hbit, ↓reduceIte]
        exact .complete h (.failed _)
  | tuple items => exact .withResult h _ _ fun k => .look ⟨.store hc h.stack, h.owner, h.mode⟩
  | obj x =>
      cases x
      case memory | regFile => cases hheld
      all_goals exact .complete h (.failed _)
  | _ => exact .complete h (.failed _)

theorem subscript_plain (h : Fitting A id m) (container index : Value)
    (hc : (Frame.subscript container).touchesStorage = false) :
    PlainMove t A id fun s => (m.setSim s).giveResult (s.subscript container index) := by
  cases container with
  | obj x =>
      cases x
      case memory | regFile => cases hc
      all_goals exact .complete h (.failed _)
  | _ => exact .giveResult h _

/-- What is left of a body gets a value. -/
theorem resume_plain (h : Fitting A id m) {f : Frame} (hf : f.Fits A)
    (hstorage : f.touchesStorage = false) (v : Value) :
    PlainMove t A id fun s => (m.setSim s).resume f v := by
  cases f with
  | rightOf op rhs => exact .push h (f := .binary op v) trivial (.eval hf)
  | binary op lhs => exact .giveResult h _
  | unary op => exact .giveResult h _
  | logical op rest =>
      cases rest with
      | nil => exact .complete h (.value v)
      | cons e rest =>
          simp only [resume]
          split
          · exact .complete h (.value v)
          · exact .push h (f := .logical op rest) (fun e he => hf e (by simp [he]))
              (.eval (hf e (by simp)))
  | comparing ops comparators => exact compareOn_plain h v ops hf
  | compared left op ops comparators =>
      refine .withResult h _ _ fun holds => ?_
      cases holds with
      | true => exact compareOn_plain h v ops hf
      | false => exact .complete h (.value (.bool false))
  | indexOf index => exact .push h (f := .subscript v) trivial (.eval hf)
  | subscript container => exact subscript_plain h container v hstorage
  | gather use done rest =>
      cases use with
      | tuple => exact gather_plain h (v :: done) hf
      | _ => exact hf.elim
  | conditional body orelse =>
      simp only [resume]
      split
      · exact .look ⟨.eval hf.1 h.stack, h.owner, h.mode⟩
      · exact .look ⟨.eval hf.2 h.stack, h.owner, h.mode⟩
  | storeRest rest => exact storeAll_plain h hf
  | storeIndex container index value =>
      exact .push h (f := .storeItem container v value) hf.1 (.eval hf.2)
  | storeItem container held value => exact storeItem_plain h hf held v value hstorage
  | block rest => exact .block h hf
  | assign targets =>
      refine storeAll_plain h ?_
      intro x hx
      obtain ⟨e, he, rfl⟩ := List.mem_map.mp hx
      exact hf e he
  | updateBy target op value => exact .push h (f := .updateWith target op v) hf.1 (.eval hf.2)
  | updateWith target op current =>
      exact .withResult h _ _ fun updated => .look ⟨.store hf h.stack, h.owner, h.mode⟩
  | resultOf => exact .complete h (.result v)
  | branch body orelse =>
      refine .block h ?_
      split
      · exact hf.1
      · exact hf.2
  | eachOf target body orelse => exact eachOf_plain h v hf.1 hf.2.1 hf.2.2
  | eachItem target rest body orelse =>
      exact .block (h.cons (f := .eachRound target rest body orelse) hf) hf.2.1
  | eachRound target rest body orelse => exact eachNext_plain h rest hf.1 hf.2.1 hf.2.2
  | loopTest test body orelse =>
      simp only [resume]
      split
      · exact .block (h.cons (f := .loopRound test body orelse) hf) hf.2.1
      · exact .block h hf.2.2
  | loopRound test body orelse => exact .push h (f := .loopTest test body orelse) hf (.eval hf.1)
  | assertionTest kind message =>
      cases message with
      | none => exact check_plain h kind _ none
      | some e => exact .push h (f := .assertionText kind v.truthy) trivial (.eval (hf e rfl))
  | assertionText kind holds => exact check_plain h kind holds _
  | select cases => exact selectNext_plain h v hf
  | caseMatched subject c rest =>
      obtain ⟨hc, hrest⟩ := hf
      simp only [resume]
      split
      · cases hguard : c.guard with
        | none => exact .block h hc.body
        | some e =>
            exact .push h (f := .caseGuard subject c rest) ⟨hc, hrest⟩ (.eval (hc.guard e hguard))
      · exact selectNext_plain h subject hrest
  | caseGuard subject c rest =>
      obtain ⟨hc, hrest⟩ := hf
      simp only [resume]
      split
      · exact .block h hc.body
      · exact selectNext_plain h subject hrest
  | equals subject => exact .complete h (.value _)
  | bindPattern name subject =>
      simp only [resume]
      split
      · exact .complete (h.setLocal name subject) (.value v)
      · exact .complete h (.value v)
  | alternatives rest subject =>
      simp only [resume]
      split
      · exact .complete h (.value v)
      · exact matchAny_plain h subject hf
  | discard => exact .complete h (.value .none)
  | _ => exact hf.elim

theorem unwind_plain (h : Fitting A id m) {f : Frame} (hf : f.Fits A) (c : Completion) :
    PlainMove t A id fun s => (m.setSim s).unwind f c := by
  cases f with
  | eachRound target rest body orelse =>
      cases c with
      | again => exact eachNext_plain h rest hf.1 hf.2.1 hf.2.2
      | leave => exact .complete h (.value .none)
      | _ => exact .complete h _
  | loopRound test body orelse =>
      cases c with
      | again => exact .push h (f := .loopTest test body orelse) hf (.eval hf.1)
      | leave => exact .complete h (.value .none)
      | _ => exact .complete h _
  | returning | boundary | combOver | driven | settled | syncStep => exact hf.elim
  | _ => cases c <;> exact .complete h _

theorem Plain.write?_setSim (h : m.Plain t A id) (s : Simulation) :
    (m.setSim s).write? = m.write? := by
  obtain ⟨control, activation, stack, sim⟩ := m
  obtain ⟨hspot, -, -⟩ := h
  cases hspot with
  | @done c _ hs =>
      cases stack with
      | nil => cases c <;> rfl
      | cons f rest =>
          have hf := hs f (by simp)
          cases f
          case storeMember => exact hf.elim
          all_goals cases c <;> rfl
  | @found q id' f rest hq hf hseeks => cases f <;> first | rfl | cases hf
  | _ => rfl

theorem write?_of_fits {f : Frame} (hf : f.Fits A) (s : Simulation) (v : Value) :
    f.write? s v = none := by
  cases f
  case storeField | storeMember | clockEdge => exact hf.elim
  all_goals rfl

theorem accept_plain (h : Fitting A id m) {f : Frame} (hf : f.Fits A) {c : Completion}
    (hstorage : (∃ v, c = .value v) → f.touchesStorage = false) :
    PlainMove t A id fun s => (m.setSim s).accept f c := by
  cases c with
  | value v => exact resume_plain h hf (hstorage ⟨v, rfl⟩) v
  | _ => exact unwind_plain h hf _

/-- A field of an instance that a path has led to is read. The value is that of a component if the
path goes on. -/
theorem fieldOf_plain (hm : m.activation.owner = id) (hmode : m.activation.mode = .immediate)
    (hA : ∀ a ∈ A, ∃ g, t.follow id a.path = .ok g) {q : FieldPath} {id' index : Nat}
    (hq : t.Leads id q id') (h : Seeks A (q ++ [index]) m.stack) :
    PlainMove t A id fun s =>
      (m.setSim s).resume (.fieldOf index) (.obj (.component id')) := by
  change PlainMove t A id fun s => (m.setSim s).giveResult (s.readField ⟨id', index⟩)
  rcases h.cases with ⟨hread, hfits⟩ | hmore
  · obtain ⟨g, hg⟩ := hA _ hread
    have hsingle := hg
    rw [Access.path, hq.follow (by simp)] at hsingle
    rw [Access.path, Tree.follow_single hsingle] at hg
    exact .read m _ _ hread hg (fun c => ⟨.done hfits, hm, hmode⟩) fun _ => rfl
  · obtain ⟨a, ha, p, hp, hne⟩ := h.access
    obtain ⟨g, hg⟩ := hA a ha
    rw [hp, List.append_assoc, hq.follow (by simp)] at hg
    obtain ⟨slot, child, hslot, hchild⟩ := Tree.component_of_follow (hne hmore) hg
    refine .move (m.give (.obj (.component child))) ⟨?_, hm, hmode⟩ fun s hs => ⟨s.covers, ?_⟩
    · change Spot t A id (.done (.value (.obj (.component child)))) m.stack
      obtain ⟨f, rest, hstack, hf⟩ := hmore
      rw [hstack] at h ⊢
      exact .found (.child hq hslot hchild) hf h
    · rw [Simulation.readField_component (by rw [hs]; exact hslot) hchild]
      rfl

/-- A step of such a body writes a field that is spelled out, or is the same in all simulations of
the tree but for the value of the field that it reads. -/
theorem Plain.step (h : m.Plain t A id) (hA : ∀ a ∈ A, ∃ g, t.follow id a.path = .ok g)
    (hstorage : m.touchesStorage = false) (hgo : m.stack ≠ [] ∨ ∀ c, m.control ≠ .done c) :
    (m.write? = none ∧ ∃ op, PlainMove t A id op ∧
      ∀ s waker, (m.setSim s).step waker = .go (op s)) ∨
    ∃ p g v f rest, .write p ∈ A ∧ t.follow id p = .ok g ∧ m.write? = some (g, v) ∧
      m.stack = f :: rest ∧ (∀ f ∈ rest, f.Fits A) ∧
      ∀ s waker, (m.setSim s).step waker =
        .go (({ m with stack := rest }.setSim s).write g v .immediate) := by
  obtain ⟨control, activation, stack, sim⟩ := m
  obtain ⟨hspot, howner, hmode⟩ := h
  cases hspot with
  | eval he hs => exact .inl ⟨rfl, _, eval_plain ⟨hs, howner, hmode⟩ hA he, fun _ _ => rfl⟩
  | exec hx hs => exact .inl ⟨rfl, _, exec_plain ⟨hs, howner, hmode⟩ hx, fun _ _ => rfl⟩
  | store he hs => exact .inl ⟨rfl, _, store_plain ⟨hs, howner, hmode⟩ he _, fun _ _ => rfl⟩
  | matching hp hs =>
      exact .inl ⟨rfl, _, matchPattern_plain ⟨hs, howner, hmode⟩ hp _, fun _ _ => rfl⟩
  | seek hq => exact .inl ⟨rfl, _, seek_plain howner hmode hA hq, fun _ _ => rfl⟩
  | @done c _ hs =>
      cases stack with
      | nil => exact absurd rfl (hgo.resolve_left (by simp) c)
      | cons f rest =>
          have hf := hs f (by simp)
          have hfitting : Fitting A id ⟨.done c, activation, rest, sim⟩ :=
            ⟨fun g hg => hs g (by simp [hg]), howner, hmode⟩
          refine .inl ⟨?_, _, accept_plain hfitting hf (c := c) ?_, fun s _ => step_done rfl rfl⟩
          · cases c with
            | value v => exact write?_of_fits hf sim v
            | _ => rfl
          · rintro ⟨v, rfl⟩
            exact hstorage
  | @found q id' f rest hq hf hseeks =>
      cases f with
      | fieldOf index =>
          exact .inl ⟨rfl, _,
            fieldOf_plain (m := ⟨.done (.value (.obj (.component id'))), activation, rest, sim⟩)
              howner hmode hA hq hseeks,
            fun _ _ => rfl⟩
      | storeField index v =>
          obtain ⟨hwrite, hrest⟩ := hseeks
          obtain ⟨g, hg⟩ := hA _ hwrite
          have hsingle := hg
          rw [Access.path, hq.follow (by simp)] at hsingle
          obtain rfl := Tree.follow_single hsingle
          refine .inr ⟨_, _, v, _, rest, hwrite, hg, rfl, rfl, hrest, fun s _ => ?_⟩
          rw [← hmode]
          rfl
      | _ => cases hf

end Moves

end Machine

end Clockwork
