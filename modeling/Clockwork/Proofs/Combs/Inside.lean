import Clockwork.Proofs.Combs.ByPath
import Clockwork.Proofs.Combs.Suspension

namespace Clockwork

def Gathered.Within (A : List Access) : Gathered → Prop
  | .arguments _ named => ∀ e ∈ named.map Prod.snd, e.Within A
  | _ => True

namespace Frame

def Within (A : List Access) : Frame → Prop
  | .rightOf _ e | .indexOf e => e.Within A
  | .binary _ _ | .unary _ | .memberOf _ | .subscript _ | .storeMember _ _ | .resultOf
  | .assertionText _ _ | .equals _ | .bindPattern _ _ | .discard => True
  | .logical _ rest | .comparing _ rest | .compared _ _ _ rest => ∀ e ∈ rest, e.Within A
  | .calleeOf args keywords =>
    (∀ e ∈ args, e.Within A) ∧ ∀ e ∈ keywords.map Prod.snd, e.Within A
  | .gather use _ rest => use.Within A ∧ ∀ e ∈ rest, e.Within A
  | .conditional body orelse => body.Within A ∧ orelse.Within A
  | .storeRest rest => ∀ x ∈ rest, x.1.TargetWithin A
  | .storeIndex container index _ => container.TargetWithin A ∧ index.Within A
  | .storeItem container _ _ | .updateWith container _ _ => container.TargetWithin A
  | .block rest => Stmt.AllWithin A rest
  | .assign targets => ∀ e ∈ targets, e.TargetWithin A
  | .updateBy target _ value => target.TargetWithin A ∧ value.Within A
  | .branch body orelse => Stmt.AllWithin A body ∧ Stmt.AllWithin A orelse
  | .eachOf target body orelse | .eachItem target _ body orelse | .eachRound target _ body orelse =>
    target.TargetWithin A ∧ Stmt.AllWithin A body ∧ Stmt.AllWithin A orelse
  | .loopTest test body orelse | .loopRound test body orelse =>
    test.Within A ∧ Stmt.AllWithin A body ∧ Stmt.AllWithin A orelse
  | .assertionTest _ message => ∀ e ∈ message, e.Within A
  | .select cases => ∀ c ∈ cases, c.Within A
  | .caseMatched _ c rest | .caseGuard _ c rest => c.Within A ∧ ∀ c ∈ rest, c.Within A
  | .alternatives rest _ => ∀ p ∈ rest, p.Within A
  | _ => False

/-- Whether a frame is the end of a function, where the activation of its caller comes back. -/
def givesBack (a : Activation) : Frame → Prop
  | .returning caller | .boundary _ caller => caller = a
  | _ => False

/-- Whether a body below a frame waits: for a write to be worked off, or for the end of a
function. -/
def holdsBody : Frame → Bool
  | .driven | .returning _ | .boundary _ _ => true
  | _ => false

end Frame

/-- The frames take the instance at the end of a path further along a path that is spelled out, or
the path ends here. -/
def Seeking (A : List Access) : FieldPath → List Frame → Prop
  | q, .fieldOf index :: rest => Seeking A (q ++ [index]) rest
  | q, .storeField index _ :: rest => .write (q ++ [index]) ∈ A ∧ ∀ f ∈ rest, f.Within A
  | q, own => (q = [] ∨ Access.Name A q) ∧ ∀ f ∈ own, f.Within A

namespace Seeking

variable {A : List Access} {q : FieldPath} {own : List Frame}

theorem of_within (hq : q = [] ∨ Access.Name A q) (hs : ∀ f ∈ own, f.Within A) :
    Seeking A q own := by
  cases own with
  | nil => exact ⟨hq, hs⟩
  | cons f rest =>
      have hf := hs f (by simp)
      cases f
      case fieldOf | storeField => exact hf.elim
      all_goals exact ⟨hq, hs⟩

theorem cases (h : Seeking A q own) :
    ((q = [] ∨ Access.Name A q) ∧ ∀ f ∈ own, f.Within A) ∨
      ∃ f rest, own = f :: rest ∧ f.takesInstance = true := by
  cases own with
  | nil => exact .inl h
  | cons f rest =>
      cases f
      case fieldOf | storeField => exact .inr ⟨_, _, rfl, rfl⟩
      all_goals exact .inl h

theorem name (h : Seeking A q own) (hq : q ≠ []) :
    ∃ a ∈ A, ∃ p, a.path = q ++ p ∧
      ((∃ f rest, own = f :: rest ∧ f.takesInstance = true) → p ≠ []) := by
  induction own generalizing q with
  | nil =>
      obtain ⟨a, ha, hpath⟩ := h.1.resolve_left hq
      exact ⟨a, ha, [], by rw [hpath, List.append_nil], by simp⟩
  | cons f rest ih =>
      cases f
      case fieldOf index =>
          obtain ⟨a, ha, p, hp, -⟩ := ih (show Seeking A (q ++ [index]) rest from h) (by simp)
          exact ⟨a, ha, index :: p, by simpa using hp, fun _ => by simp⟩
      case storeField index v => exact ⟨_, h.1, [index], rfl, fun _ => by simp⟩
      all_goals
        obtain ⟨a, ha, hpath⟩ := h.1.resolve_left hq
        refine ⟨a, ha, [], by rw [hpath, List.append_nil], ?_⟩
        rintro ⟨f, rest, heq, hf⟩
        cases heq
        cases hf

end Seeking

namespace Machine

inductive Place (t : Tree) (A : List Access) (id : Nat) : Control → List Frame → Prop
  | eval {e : Expr} {own : List Frame} (he : e.Within A) (hs : ∀ f ∈ own, f.Within A) :
      Place t A id (.eval e) own
  | exec {s : Stmt} {own : List Frame} (h : s.Within A) (hs : ∀ f ∈ own, f.Within A) :
      Place t A id (.exec s) own
  | store {e : Expr} {v : Value} {own : List Frame} (he : e.TargetWithin A)
      (hs : ∀ f ∈ own, f.Within A) : Place t A id (.store e v) own
  | matching {p : Pattern} {v : Value} {own : List Frame} (hp : p.Within A)
      (hs : ∀ f ∈ own, f.Within A) : Place t A id (.matching p v) own
  | await {w : Wait} {own : List Frame} (hs : ∀ f ∈ own, f.Within A) : Place t A id (.await w) own
  | done {c : Completion} {own : List Frame} (hs : ∀ f ∈ own, f.Within A) :
      Place t A id (.done c) own
  | seek {q : FieldPath} {own : List Frame} (h : Seeking A q own) :
      Place t A id (.eval (.path q)) own
  | found {q : FieldPath} {id' : Nat} {f : Frame} {rest : List Frame} (hq : t.Leads id q id')
      (hf : f.takesInstance = true) (h : Seeking A q (f :: rest)) :
      Place t A id (.done (.value (.obj (.component id')))) (f :: rest)

/-- A body of an instance is under way above some frames: it goes on by itself, or it waits for a
write to be worked off, or for a function that it calls. -/
inductive Inside (t : Tree) (A : List Access) (id : Nat) (base : List Frame) (m : Machine) : Prop
  | runs (own : List Frame) (hs : m.stack = own ++ base) (hp : Place t A id m.control own)
      (ho : m.activation.owner = id) (hm : m.activation.mode = .immediate)
  | waits (own : List Frame) (a : Activation) (hown : ∀ f ∈ own, f.Within A) (ho : a.owner = id)
      (hm : a.mode = .immediate) (h : Suspended a (own ++ base) m)
  | calls (own top : List Frame) (a : Activation) (g : Frame) (hown : ∀ f ∈ own, f.Within A)
      (ho : a.owner = id) (hm : a.mode = .immediate) (hs : m.stack = top ++ g :: (own ++ base))
      (hg : g.givesBack a)

/-- A body is under way, unless a fault has ended it. -/
def Going (t : Tree) (A : List Access) (id : Nat) (base : List Frame) (m : Machine) : Prop :=
  m.fault? = none → Inside t A id base m

/-- A body that is not on its way along a path, with the frames that are left of it. -/
structure Poised (A : List Access) (id : Nat) (base own : List Frame) (m : Machine) : Prop where
  stack : m.stack = own ++ base
  frames : ∀ f ∈ own, f.Within A
  owner : m.activation.owner = id
  mode : m.activation.mode = .immediate

section Moves

variable {t : Tree} {A : List Access} {id : Nat} {base own : List Frame} {m : Machine}

namespace Poised

theorem setSim (h : Poised A id base own m) (s : Simulation) : Poised A id base own (m.setSim s) :=
  ⟨h.stack, h.frames, h.owner, h.mode⟩

theorem setLocal (h : Poised A id base own m) (name : String) (v : Value) :
    Poised A id base own (m.setLocal name v) := ⟨h.stack, h.frames, h.owner, h.mode⟩

theorem cons (h : Poised A id base own m) {f : Frame} (hf : f.Within A) :
    Poised A id base (f :: own) { m with stack := f :: m.stack } := by
  refine ⟨congrArg (f :: ·) h.stack, ?_, h.owner, h.mode⟩
  rintro g (_ | ⟨_, hg⟩)
  · exact hf
  · exact h.frames g hg

theorem look (h : Poised A id base own m) {c : Control} (hc : Place t A id c own) :
    Going t A id base (m.look c) := fun _ => .runs own h.stack hc h.owner h.mode

theorem complete (h : Poised A id base own m) (c : Completion) :
    Going t A id base (m.complete c) := h.look (.done h.frames)

theorem push (h : Poised A id base own m) {f : Frame} {c : Control} (hf : f.Within A)
    (hc : (∀ g ∈ f :: own, g.Within A) → Place t A id c (f :: own)) :
    Going t A id base (m.push f c) := by
  have hcons := h.cons hf
  exact fun _ => .runs (f :: own) hcons.stack (hc hcons.frames) h.owner h.mode

theorem giveResult (h : Poised A id base own m) (r : Except SimError Value) :
    Going t A id base (m.giveResult r) := by
  cases r with
  | ok v => exact h.complete (.value v)
  | error e => exact h.complete (.failed e)

theorem withResult {α : Type} (h : Poised A id base own m) (r : Except SimError α)
    {f : α → Machine} (hf : ∀ a, Going t A id base (f a)) :
    Going t A id base (m.withResult r f) := by
  cases r with
  | ok a => exact hf a
  | error e => exact h.complete (.failed e)

theorem block (h : Poised A id base own m) {body : List Stmt} (hbody : Stmt.AllWithin A body) :
    Going t A id base (m.block body) := by
  cases body with
  | nil => exact h.complete (.value .none)
  | cons s rest =>
      exact h.push (f := .block rest) (fun s hs => hbody s (by simp [hs]))
        (.exec (hbody s (by simp)))

theorem effect (h : Poised A id base own m) (r : Simulation × Option SimError) :
    Going t A id base (m.effect r) := by
  rcases r with ⟨s, _ | e⟩
  · exact (h.setSim s).complete (.value .none)
  · exact (h.setSim s).complete (.failed e)

theorem write (h : Poised A id base own m) (f : FieldRef) (v : Value) :
    Going t A id base (m.write f v .immediate) := by
  intro hok
  have hwaits := Suspended.of_write hok
  rw [h.stack] at hwaits
  exact .waits own m.activation h.frames h.owner h.mode hwaits

theorem callFunction (h : Poised A id base own m) (owner : Nat) (name : String)
    (args : List Value) (keywords : List (String × Value)) (mode : WriteMode) :
    Going t A id base (m.callFunction owner name args keywords mode) := by
  rcases m.callFunction_cases owner name args keywords mode with ⟨e, heq⟩ | ⟨a, body, -, heq⟩
  · rw [heq]
    exact h.complete (.failed e)
  · rw [heq]
    obtain ⟨top, htop⟩ : ∃ top, ({ m with
        stack := .returning m.activation :: m.stack, activation := a }.block body).stack =
        top ++ .returning m.activation :: (own ++ base) := by
      rw [← h.stack]
      cases body with
      | nil => exact ⟨[], rfl⟩
      | cons s rest => exact ⟨[.block rest], rfl⟩
    exact fun _ => .calls own top m.activation _ h.frames h.owner h.mode htop rfl

theorem callNow (h : Poised A id base own m) (owner : Nat) (name : String) (args : List Value) :
    Going t A id base (m.callNow owner name args) := by
  intro hok
  let m₁ : Machine := { m with stack := .boundary name m.activation :: m.stack }
  obtain ⟨top, htop⟩ : ∃ top, (m₁.callFunction owner name args [] .immediate).stack =
      top ++ .boundary name m.activation :: (own ++ base) := by
    rw [← h.stack]
    rcases m₁.callFunction_cases owner name args [] .immediate with ⟨e, heq⟩ | ⟨a, body, -, heq⟩
    · exact ⟨[], by rw [heq]; rfl⟩
    · rw [heq]
      cases body with
      | nil => exact ⟨[.returning m.activation], rfl⟩
      | cons s rest => exact ⟨[.block rest, .returning m.activation], rfl⟩
  exact .calls own top m.activation _ h.frames h.owner h.mode htop rfl

theorem setEvent (h : Poised A id base own m) (event : Nat) :
    Going t A id base (m.setEvent event) := by
  rcases hk : m.sim.kernel.setFlag event with ⟨k, _ | hook | hook⟩
  · simp only [Machine.setEvent, hk]
    exact (h.setSim _).complete (.value .none)
  · simp only [Machine.setEvent, hk]
    exact ((h.setSim (m.sim.setKernel k)).cons (f := .discard) trivial).callNow _ _ _
  · simp only [Machine.setEvent, hk]
    split
    · exact (h.setSim _).complete (.value .none)
    · exact (h.setSim _).complete (.value .none)

theorem builtin (h : Poised A id base own m) (b : Builtin) (args : List Value) :
    Going t A id base (m.builtin b args) :=
  (h.setSim (m.sim.builtin b args).1).giveResult _

theorem callMethod (h : Poised A id base own m) (target : Handle) (name : String)
    (args : List Value) : Going t A id base (m.callMethod target name args) := by
  simp only [Machine.callMethod]
  cases m.sim.method target name args with
  | done s r => exact (h.setSim s).giveResult r
  | waits w => exact h.look (.await h.frames)
  | sets event => exact h.setEvent event

theorem invoke (h : Poised A id base own m) (callee : Value) (args : List Value)
    (keywords : List (String × Value)) : Going t A id base (m.invoke callee args keywords) := by
  unfold Machine.invoke
  split
  · exact h.callFunction _ _ _ _ _
  · split
    · exact h.callMethod _ _ _
    · exact h.complete (.failed _)
  · exact h.builtin _ _
  · exact h.complete (.failed _)

theorem gathered (h : Poised A id base own m) {u : Gathered} (hu : u.Within A)
    (values : List Value) : Going t A id base (m.gathered u values) := by
  cases u with
  | tuple => exact h.complete (.value (.tuple values))
  | builtin b => exact h.builtin b values
  | keywords callee args names => exact h.invoke _ _ _
  | arguments callee keywords =>
      cases keywords with
      | nil => exact h.invoke _ _ _
      | cons k rest =>
          have hk : ∀ e ∈ k.2 :: rest.map Prod.snd, e.Within A := hu
          exact h.push (f := .gather (.keywords callee values (k.1 :: rest.map (·.1))) []
            (rest.map Prod.snd)) ⟨trivial, fun e he => hk e (by simp [he])⟩
            (.eval (hk k.2 (by simp)))

theorem gather (h : Poised A id base own m) {u : Gathered} (hu : u.Within A)
    (done : List Value) {rest : List Expr} (hrest : ∀ e ∈ rest, e.Within A) :
    Going t A id base (m.gather u done rest) := by
  cases rest with
  | nil => exact h.gathered hu _
  | cons e rest =>
      exact h.push (f := .gather u done rest) ⟨hu, fun e he => hrest e (by simp [he])⟩
        (.eval (hrest e (by simp)))

theorem compareOn (h : Poised A id base own m) (left : Value) (ops : List CmpOp)
    {comparators : List Expr} (hc : ∀ e ∈ comparators, e.Within A) :
    Going t A id base (m.compareOn left ops comparators) := by
  cases ops with
  | nil => exact h.complete (.value (.bool true))
  | cons op ops =>
      cases comparators with
      | nil => exact h.complete (.value (.bool true))
      | cons e rest =>
          exact h.push (f := .compared left op ops rest) (fun e he => hc e (by simp [he]))
            (.eval (hc e (by simp)))

end Poised

theorem seek_going (hs : m.stack = own ++ base) (ho : m.activation.owner = id)
    (hm : m.activation.mode = .immediate) {q : FieldPath} (h : Seeking A q own) :
    Going t A id base (m.eval (.path q)) := by
  intro _
  rcases q.eq_nil_or_concat with rfl | ⟨q, index, rfl⟩
  · refine .runs own hs ?_ ho hm
    change Place t A id (.done (.value (.obj (.component m.activation.owner)))) own
    rcases h.cases with ⟨-, hown⟩ | ⟨f, rest, rfl, hf⟩
    · exact .done hown
    · rw [ho]
      exact .found .here hf h
  · have hpath : Expr.path (q.concat index) = .field (.path q) index := by
      rw [List.concat_eq_append, Expr.path, List.foldl_append]
      rfl
    rw [hpath]
    refine .runs (.fieldOf index :: own) (congrArg _ hs) (.seek (q := q) ?_) ho hm
    change Seeking A (q ++ [index]) own
    rwa [← List.concat_eq_append]

namespace Poised

theorem eval (h : Poised A id base own m) {e : Expr} (he : e.Within A) :
    Going t A id base (m.eval e) := by
  have part : ∀ {x}, x ∈ e.parts → x.Within A := fun hx => he.part hx
  cases e with
  | constant c => exact h.complete (.value (.ofLiteral c))
  | self => exact h.complete (.value _)
  | field base' index =>
      obtain ⟨p, hp, hmem⟩ := he.field
      rw [Expr.eq_path_of_fieldPath? _ hp]
      exact seek_going h.stack h.owner h.mode (.of_within (.inr hmem) h.frames)
  | param name index =>
      simp only [Machine.eval]
      split
      · exact h.complete (.value _)
      · exact h.complete (.failed _)
  | var name =>
      simp only [Machine.eval]
      split
      · exact h.complete (.value _)
      · exact h.complete (.failed _)
  | builtin b => exact h.complete (.value (.obj (.builtin b)))
  | binary lhs op rhs =>
      exact h.push (f := .rightOf op rhs) (part (by simp [Expr.parts]))
        (.eval (part (by simp [Expr.parts])))
  | unary op operand =>
      exact h.push (f := .unary op) trivial (.eval (part (by simp [Expr.parts])))
  | logical op values =>
      cases values with
      | nil => exact h.complete (.value (Value.neutral op))
      | cons e rest =>
          exact h.push (f := .logical op rest) (fun x hx => part (by simp [Expr.parts, hx]))
            (.eval (part (by simp [Expr.parts])))
  | compare left ops comparators =>
      exact h.push (f := .comparing ops comparators) (fun x hx => part (by simp [Expr.parts, hx]))
        (.eval (part (by simp [Expr.parts])))
  | member value name =>
      exact h.push (f := .memberOf name) trivial (.eval (part (by simp [Expr.parts])))
  | subscript value index =>
      exact h.push (f := .indexOf index) (part (by simp [Expr.parts]))
        (.eval (part (by simp [Expr.parts])))
  | call callee args keywords =>
      have hargs : ∀ e ∈ args, e.Within A := fun x hx => part (by simp [Expr.parts, hx])
      have hkeywords : ∀ e ∈ keywords.map Prod.snd, e.Within A := fun x hx =>
        part (List.mem_cons_of_mem _ (List.mem_append_right _ hx))
      have hcallee : callee.Within A := part (by simp [Expr.parts])
      cases callee with
      | builtin b => exact h.gather (u := .builtin b) trivial [] hargs
      | _ => exact h.push (f := .calleeOf args keywords) ⟨hargs, hkeywords⟩ (.eval hcallee)
  | conditional test body orelse =>
      exact h.push (f := .conditional body orelse)
        ⟨part (by simp [Expr.parts]), part (by simp [Expr.parts])⟩
        (.eval (part (by simp [Expr.parts])))
  | await value => exact h.look (.eval (part (by simp [Expr.parts])) h.frames)
  | tuple items => exact h.gather (u := .tuple) trivial [] fun x hx => part hx

theorem storeAll (h : Poised A id base own m) {targets : List (Expr × Value)}
    (ht : ∀ x ∈ targets, x.1.TargetWithin A) : Going t A id base (m.storeAll targets) := by
  cases targets with
  | nil => exact h.complete (.value .none)
  | cons x rest =>
      exact h.push (f := .storeRest rest) (fun y hy => ht y (by simp [hy]))
        (.store (ht x (by simp)))

theorem store (h : Poised A id base own m) {e : Expr} (he : e.TargetWithin A) (v : Value) :
    Going t A id base (m.store e v) := by
  cases e with
  | var name => exact (h.setLocal name v).complete (.value .none)
  | param name index =>
      simp only [Machine.store]
      split
      · exact fun _ => .runs own h.stack (.done h.frames) h.owner h.mode
      · exact h.complete (.failed _)
  | field base' index =>
      obtain ⟨p, hp, hmem⟩ := he.field
      obtain ⟨q, rfl, rfl⟩ : ∃ q, base' = .path q ∧ p = q ++ [index] := by
        have hpath := Expr.eq_path_of_fieldPath? _ hp
        rcases p.eq_nil_or_concat with rfl | ⟨q, i, rfl⟩
        · cases hpath
        · rw [List.concat_eq_append, Expr.path, List.foldl_append] at hpath
          cases hpath
          exact ⟨q, rfl, List.concat_eq_append⟩
      refine fun _ => .runs (.storeField index v :: own) (congrArg _ h.stack) ?_ h.owner h.mode
      have hseeking : Seeking A q (.storeField index v :: own) := ⟨hmem, h.frames⟩
      exact .seek hseeking
  | member base' name =>
      exact h.push (f := .storeMember name v) trivial
        (.eval (he.within.part (by simp [Expr.parts])))
  | tuple targets =>
      simp only [Machine.store]
      split
      · exact h.complete (.failed _)
      · rename_i items _
        split
        · refine h.storeAll fun x hx => he.item ?_
          exact (List.of_mem_zip hx).1
        · exact h.complete (.failed _)
  | subscript container index =>
      exact h.push (f := .storeIndex container index v)
        ⟨he.container, he.within.part (by simp [Expr.parts])⟩ (.eval he.container.within)
  | _ => exact h.complete (.failed _)

theorem storeItem (h : Poised A id base own m) {container : Expr}
    (hc : container.TargetWithin A) (held index v : Value) :
    Going t A id base (m.storeItem container held index v) := by
  unfold Machine.storeItem
  split
  · exact h.withResult _ fun _ => h.effect _
  · exact h.withResult _ fun _ => h.effect _
  · refine h.withResult _ fun bit => ?_
    split
    · exact h.look (.store hc h.frames)
    · exact h.complete (.failed _)
  · exact h.withResult _ fun _ => h.look (.store hc h.frames)
  · exact h.complete (.failed _)

theorem storeMember (h : Poised A id base own m) (i : Value) (name : String) (v : Value) :
    Going t A id base (m.storeMember i name v) := by
  simp only [Machine.storeMember, h.mode]
  split
  · exact h.complete (.failed _)
  · split
    · exact h.write _ v
    · exact h.complete (.failed _)

theorem eachNext (h : Poised A id base own m) {target : Expr} (items : List Value)
    {body orelse : List Stmt} (ht : target.TargetWithin A) (hb : Stmt.AllWithin A body)
    (ho : Stmt.AllWithin A orelse) : Going t A id base (m.eachNext target items body orelse) := by
  cases items with
  | nil => exact h.block ho
  | cons v rest => exact h.push (f := .eachItem target rest body orelse) ⟨ht, hb, ho⟩ (.store ht)

theorem eachOf (h : Poised A id base own m) {target : Expr} (v : Value)
    {body orelse : List Stmt} (ht : target.TargetWithin A) (hb : Stmt.AllWithin A body)
    (ho : Stmt.AllWithin A orelse) : Going t A id base (m.eachOf target v body orelse) := by
  unfold Machine.eachOf
  split
  · exact h.eachNext _ ht hb ho
  · exact h.eachNext _ ht hb ho
  · exact h.complete (.failed _)

theorem check (h : Poised A id base own m) (kind : AssertionKind) (holds : Bool)
    (message : Option String) : Going t A id base (m.check kind holds message) := by
  unfold Machine.check
  split
  · exact (h.setSim _).complete (.value .none)
  all_goals exact h.complete _

theorem selectNext (h : Poised A id base own m) (subject : Value) {cases : List Case}
    (hc : ∀ c ∈ cases, c.Within A) : Going t A id base (m.selectNext subject cases) := by
  cases cases with
  | nil => exact h.complete (.value .none)
  | cons c rest =>
      have hrest : ∀ c ∈ rest, c.Within A := fun x hx => hc x (by simp [hx])
      exact h.push (f := .caseMatched subject c rest) ⟨hc c (by simp), hrest⟩
        (.matching (hc c (by simp)).pattern)

theorem exec (h : Poised A id base own m) {s : Stmt} (hs : s.Within A) :
    Going t A id base (m.exec s) := by
  have value : ∀ {x}, x ∈ s.values → x.Within A := fun hx => hs.value hx
  have target : ∀ {x}, x ∈ s.targets → x.TargetWithin A := fun hx => hs.target hx
  have block : ∀ {b}, b ∈ s.blocks → Stmt.AllWithin A b := fun hb => hs.block hb
  cases s with
  | assign targets e =>
      exact h.push (f := .assign targets) (fun x hx => target hx)
        (.eval (value (by simp [Stmt.values])))
  | update x op e =>
      exact h.push (f := .updateBy x op e)
        ⟨target (by simp [Stmt.targets]), value (by simp [Stmt.values])⟩
        (.eval (value (by simp [Stmt.values])))
  | result e =>
      cases e with
      | none => exact h.complete (.result .none)
      | some e => exact h.push (f := .resultOf) trivial (.eval (value (by simp [Stmt.values])))
  | branch test body orelse =>
      exact h.push (f := .branch body orelse)
        ⟨block (by simp [Stmt.blocks]), block (by simp [Stmt.blocks])⟩
        (.eval (value (by simp [Stmt.values])))
  | each x items body orelse =>
      exact h.push (f := .eachOf x body orelse) ⟨target (by simp [Stmt.targets]),
        block (by simp [Stmt.blocks]), block (by simp [Stmt.blocks])⟩
        (.eval (value (by simp [Stmt.values])))
  | loop test body orelse =>
      exact h.push (f := .loopTest test body orelse) ⟨value (by simp [Stmt.values]),
        block (by simp [Stmt.blocks]), block (by simp [Stmt.blocks])⟩
        (.eval (value (by simp [Stmt.values])))
  | leave | again | pass => exact h.complete _
  | assertion kind test message =>
      exact h.push (f := .assertionTest kind message)
        (fun x hx => value (List.mem_cons_of_mem _ (Option.mem_toList.mpr hx)))
        (.eval (value (by simp [Stmt.values])))
  | select subject cases =>
      exact h.push (f := .select cases) (fun c hc => hs.case hc)
        (.eval (value (by simp [Stmt.values])))
  | expr e =>
      simp only [Machine.exec]
      split
      · exact h.complete (.failed _)
      · exact h.push (f := .discard) trivial (.eval (value (by simp [Stmt.values])))

theorem matchAny (h : Poised A id base own m) (subject : Value) {patterns : List Pattern}
    (hp : ∀ p ∈ patterns, p.Within A) : Going t A id base (m.matchAny subject patterns) := by
  cases patterns with
  | nil => exact h.complete (.value (.bool false))
  | cons p rest =>
      exact h.push (f := .alternatives rest subject) (fun x hx => hp x (by simp [hx]))
        (.matching (hp p (by simp)))

theorem matchPattern (h : Poised A id base own m) {p : Pattern} (hp : p.Within A)
    (subject : Value) : Going t A id base (m.matchPattern p subject) := by
  unfold Machine.matchPattern
  split
  · exact h.complete (.value (.bool true))
  · exact h.push (f := .equals subject) trivial (.eval (hp _ (by simp [Pattern.values])))
  · exact (h.setLocal _ _).complete (.value (.bool true))
  · exact h.push (f := .bindPattern _ subject) trivial
      (.matching fun e he => hp e (by simpa [Pattern.values] using he))
  · exact h.matchAny subject fun x hx => hp.alternative hx

/-- What is left of a body gets a value. -/
theorem resume (h : Poised A id base own m) {f : Frame} (hf : f.Within A) (v : Value) :
    Going t A id base (m.resume f v) := by
  cases f with
  | rightOf op rhs => exact h.push (f := .binary op v) trivial (.eval hf)
  | binary op lhs => exact h.giveResult _
  | unary op => exact h.giveResult _
  | logical op rest =>
      cases rest with
      | nil => exact h.complete (.value v)
      | cons e rest =>
          simp only [Machine.resume]
          split
          · exact h.complete (.value v)
          · exact h.push (f := .logical op rest) (fun e he => hf e (by simp [he]))
              (.eval (hf e (by simp)))
  | comparing ops comparators => exact h.compareOn v ops hf
  | compared left op ops comparators =>
      refine h.withResult _ fun holds => ?_
      cases holds with
      | true => exact h.compareOn v ops hf
      | false => exact h.complete (.value (.bool false))
  | memberOf name => exact h.giveResult _
  | indexOf index => exact h.push (f := .subscript v) trivial (.eval hf)
  | subscript container => exact h.giveResult _
  | calleeOf args keywords => exact h.gather (u := .arguments v keywords) hf.2 [] hf.1
  | gather use done rest => exact h.gather hf.1 (v :: done) hf.2
  | conditional body orelse =>
      simp only [Machine.resume]
      split
      · exact h.look (.eval hf.1 h.frames)
      · exact h.look (.eval hf.2 h.frames)
  | storeMember name value => exact h.storeMember v name value
  | storeRest rest => exact h.storeAll hf
  | storeIndex container index value =>
      exact h.push (f := .storeItem container v value) hf.1 (.eval hf.2)
  | storeItem container held value => exact h.storeItem hf held v value
  | block rest => exact h.block hf
  | assign targets =>
      refine h.storeAll fun x hx => ?_
      obtain ⟨e, he, rfl⟩ := List.mem_map.mp hx
      exact hf e he
  | updateBy target op value => exact h.push (f := .updateWith target op v) hf.1 (.eval hf.2)
  | updateWith target op current =>
      exact h.withResult _ fun updated => h.look (.store hf h.frames)
  | resultOf => exact h.complete (.result v)
  | branch body orelse =>
      refine h.block ?_
      split
      · exact hf.1
      · exact hf.2
  | eachOf target body orelse => exact h.eachOf v hf.1 hf.2.1 hf.2.2
  | eachItem target rest body orelse =>
      exact (h.cons (f := .eachRound target rest body orelse) hf).block hf.2.1
  | eachRound target rest body orelse => exact h.eachNext rest hf.1 hf.2.1 hf.2.2
  | loopTest test body orelse =>
      simp only [Machine.resume]
      split
      · exact (h.cons (f := .loopRound test body orelse) hf).block hf.2.1
      · exact h.block hf.2.2
  | loopRound test body orelse => exact h.push (f := .loopTest test body orelse) hf (.eval hf.1)
  | assertionTest kind message =>
      cases message with
      | none => exact h.check kind _ none
      | some e => exact h.push (f := .assertionText kind v.truthy) trivial (.eval (hf e rfl))
  | assertionText kind holds => exact h.check kind holds _
  | select cases => exact h.selectNext v hf
  | caseMatched subject c rest =>
      obtain ⟨hc, hrest⟩ := hf
      simp only [Machine.resume]
      split
      · cases hguard : c.guard with
        | none => exact h.block hc.body
        | some e =>
            exact h.push (f := .caseGuard subject c rest) ⟨hc, hrest⟩ (.eval (hc.guard e hguard))
      · exact h.selectNext subject hrest
  | caseGuard subject c rest =>
      obtain ⟨hc, hrest⟩ := hf
      simp only [Machine.resume]
      split
      · exact h.block hc.body
      · exact h.selectNext subject hrest
  | equals subject => exact h.complete (.value _)
  | bindPattern name subject =>
      simp only [Machine.resume]
      split
      · exact (h.setLocal name subject).complete (.value v)
      · exact h.complete (.value v)
  | alternatives rest subject =>
      simp only [Machine.resume]
      split
      · exact h.complete (.value v)
      · exact h.matchAny subject hf
  | discard => exact h.complete (.value .none)
  | _ => exact hf.elim

theorem accept (h : Poised A id base own m) {f : Frame} (hf : f.Within A) (c : Completion) :
    Going t A id base (m.accept f c) := by
  cases c with
  | value v => exact h.resume hf v
  | _ =>
      cases f with
      | eachRound target rest body orelse =>
          first
          | exact h.eachNext rest hf.1 hf.2.1 hf.2.2
          | exact h.complete _
      | loopRound test body orelse =>
          first
          | exact h.push (f := .loopTest test body orelse) hf (.eval hf.1)
          | exact h.complete _
      | returning | boundary | combOver | driven | settled | syncStep => exact hf.elim
      | _ => exact h.complete _

end Poised

/-- The instance that a path has led to is taken for one of its fields. It holds another instance if
the path goes on. -/
theorem found_going (hs : m.stack = own ++ base) (ho : m.activation.owner = id)
    (hm : m.activation.mode = .immediate) (ht : m.sim.tree = t)
    (hA : ∀ a ∈ A, ∃ g, t.follow id a.path = .ok g) {q : FieldPath} {id' : Nat} {f : Frame}
    (hq : t.Leads id q id') (hf : f.takesInstance = true) (h : Seeking A q (f :: own)) :
    Going t A id base (m.resume f (.obj (.component id'))) := by
  cases f with
  | storeField index v =>
      have hposed : Poised A id base own m := ⟨hs, h.2, ho, hm⟩
      change Going t A id base (m.write ⟨id', index⟩ v m.activation.mode)
      rw [hm]
      exact hposed.write _ v
  | fieldOf index =>
      have hnext : Seeking A (q ++ [index]) own := h
      change Going t A id base (m.giveResult (m.sim.readField ⟨id', index⟩))
      rcases hnext.cases with ⟨-, hown⟩ | hmore
      · exact Poised.giveResult ⟨hs, hown, ho, hm⟩ _
      · obtain ⟨a, ha, p, hp, hne⟩ := hnext.name (by simp)
        obtain ⟨g, hg⟩ := hA a ha
        rw [hp, List.append_assoc, hq.follow (by simp)] at hg
        obtain ⟨slot, child, hslot, hchild⟩ := Tree.component_of_follow (hne hmore) hg
        have hread : m.sim.readField ⟨id', index⟩ = .ok (.obj (.component child)) :=
          Simulation.readField_component (by rw [ht]; exact hslot) hchild
        rw [hread]
        refine fun _ => .runs own hs ?_ ho hm
        obtain ⟨f, rest, rfl, hf⟩ := hmore
        exact .found (.child hq hslot hchild) hf hnext
  | _ => cases hf

end Moves

end Machine

end Clockwork
