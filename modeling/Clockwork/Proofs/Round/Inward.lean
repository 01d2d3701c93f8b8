import Clockwork.Proofs.Round.Batch

namespace Clockwork

/-- Whether a call of a value acts on more than signals: it calls a method of an object, or
prints. -/
def Value.reachesOut : Value → Bool
  | .obj (.bound _ _) | .obj (.builtin .print) => true
  | _ => false

def Gathered.reachesOut : Gathered → Bool
  | .tuple => false
  | .builtin b => decide (b = .print)
  | .arguments callee _ | .keywords callee _ _ => callee.reachesOut

def Expr.reachesOut : Expr → Bool
  | .call (.builtin b) _ _ => decide (b = .print)
  | _ => false

def Frame.reachesOut (v : Value) : Frame → Bool
  | .calleeOf _ _ => v.reachesOut
  | .gather use _ _ => use.reachesOut
  | .storeItem _ (.obj (.memory _)) _ | .storeItem _ (.obj (.regFile _)) _ => true
  | .assertionTest .cover _ | .assertionText .cover _ => true
  | _ => false

namespace Machine

def reachesOut (m : Machine) : Bool :=
  match m.control, m.stack with
  | .eval e, _ => e.reachesOut
  | .await _, _ => true
  | .done (.value v), f :: _ => f.reachesOut v
  | _, _ => false

/-- A move that leaves the simulation as it is and begins no body that must not wait. -/
structure Inward (m m' : Machine) : Prop where
  sim : m'.sim = m.sim
  frames : ∃ fs, m'.stack = fs ++ m.stack ∧ ∀ g ∈ fs, g.isBoundary = false

namespace Inward

variable {m : Machine}

theorem here (c : Control) (a : Activation) : Inward m ⟨c, a, m.stack, m.sim⟩ :=
  ⟨rfl, [], rfl, by simp⟩

theorem push (c : Control) (a : Activation) {f : Frame} (hf : f.isBoundary = false) :
    Inward m ⟨c, a, f :: m.stack, m.sim⟩ := ⟨rfl, [f], rfl, by simpa using hf⟩

theorem giveResult (r : Except SimError Value) : Inward m (m.giveResult r) := by
  cases r with
  | ok v => exact .here _ _
  | error e => exact .here _ _

theorem withResult {α : Type} (r : Except SimError α) (f : α → Machine)
    (h : ∀ a, Inward m (f a)) : Inward m (m.withResult r f) := by
  cases r with
  | ok a => exact h a
  | error e => exact .here _ _

theorem block (body : List Stmt) : Inward m (m.block body) := by
  cases body with
  | nil => exact .here _ _
  | cons s rest => exact .push _ _ rfl

theorem blockAbove (a : Activation) (body : List Stmt) {g : Frame} (hg : g.isBoundary = false) :
    Inward m ({ m with stack := g :: m.stack, activation := a }.block body) := by
  cases body with
  | nil => exact .push _ a hg
  | cons s rest => exact ⟨rfl, [.block rest, g], rfl, by simpa using ⟨rfl, hg⟩⟩

end Inward

section Moves

variable {m : Machine}

theorem callFunction_inward (owner : Nat) (name : String) (args : List Value)
    (keywords : List (String × Value)) (mode : WriteMode) :
    Inward m (m.callFunction owner name args keywords mode) := by
  simp only [callFunction]
  split
  · exact .here _ _
  · split
    · exact .here _ _
    · exact .blockAbove _ _ rfl

theorem builtin_inward {b : Builtin} (hb : b ≠ .print) (args : List Value) :
    Inward m (m.builtin b args) := by
  have hsim : (m.sim.builtin b args).1 = m.sim := by
    cases b
    case print => exact absurd rfl hb
    all_goals rfl
  simp only [builtin, hsim]
  exact .giveResult _

theorem invoke_inward {callee : Value} (h : callee.reachesOut = false) (args : List Value)
    (keywords : List (String × Value)) : Inward m (m.invoke callee args keywords) := by
  unfold invoke
  split
  · exact callFunction_inward _ _ args keywords _
  · cases h
  · rename_i b
    refine builtin_inward ?_ args
    rintro rfl
    cases h
  · exact .here _ _

theorem gathered_inward {use : Gathered} (h : use.reachesOut = false) (values : List Value) :
    Inward m (m.gathered use values) := by
  unfold gathered
  split
  · exact .here _ _
  · exact builtin_inward (of_decide_eq_false h) values
  · exact invoke_inward h values []
  · exact .push _ _ rfl
  · exact invoke_inward h _ _

theorem gather_inward {use : Gathered} (h : use.reachesOut = false) (done : List Value)
    (rest : List Expr) : Inward m (m.gather use done rest) := by
  cases rest with
  | nil => exact gathered_inward h done.reverse
  | cons e rest => exact .push _ _ rfl

theorem compareOn_inward (left : Value) (ops : List CmpOp) (comparators : List Expr) :
    Inward m (m.compareOn left ops comparators) := by
  unfold compareOn
  split
  · exact .push _ _ rfl
  · exact .here _ _

theorem eval_inward {e : Expr} (h : e.reachesOut = false) : Inward m (m.eval e) := by
  cases e with
  | param name index =>
      simp only [eval]
      split <;> exact .here _ _
  | var name =>
      simp only [eval]
      split <;> exact .here _ _
  | logical op values =>
      cases values with
      | nil => exact .here _ _
      | cons e rest => exact .push _ _ rfl
  | call callee args keywords =>
      cases callee with
      | builtin b =>
          exact gather_inward (show (Gathered.builtin b).reachesOut = false from h) [] args
      | _ => exact .push _ _ rfl
  | tuple items => exact gather_inward rfl [] items
  | constant | self | builtin | await => exact .here _ _
  | _ => exact .push _ _ rfl

theorem storeAll_inward (targets : List (Expr × Value)) : Inward m (m.storeAll targets) := by
  rcases targets with _ | ⟨⟨target, v⟩, rest⟩
  · exact .here _ _
  · exact .push _ _ rfl

theorem store_inward (target : Expr) (v : Value) : Inward m (m.store target v) := by
  cases target with
  | param name index =>
      simp only [store]
      split <;> exact .here _ _
  | var name => exact .here _ _
  | field | member | subscript => exact .push _ _ rfl
  | tuple targets =>
      simp only [store]
      split
      · exact .here _ _
      · split
        · exact storeAll_inward _
        · exact .here _ _
  | _ => exact .here _ _

theorem eachNext_inward (target : Expr) (items : List Value) (body orelse : List Stmt) :
    Inward m (m.eachNext target items body orelse) := by
  cases items with
  | nil => exact .block orelse
  | cons v rest => exact .push _ _ rfl

theorem eachOf_inward (target : Expr) (v : Value) (body orelse : List Stmt) :
    Inward m (m.eachOf target v body orelse) := by
  cases v with
  | tuple items => exact eachNext_inward target items body orelse
  | str text => exact eachNext_inward target _ body orelse
  | _ => exact .here _ _

theorem check_inward {kind : AssertionKind} (h : kind ≠ .cover) (holds : Bool)
    (message : Option String) : Inward m (m.check kind holds message) := by
  cases kind with
  | cover => exact absurd rfl h
  | _ => cases holds <;> exact .here _ _

theorem selectNext_inward (subject : Value) (cases : List Case) :
    Inward m (m.selectNext subject cases) := by
  cases cases with
  | nil => exact .here _ _
  | cons c rest => exact .push _ _ rfl

theorem exec_inward (s : Stmt) : Inward m (m.exec s) := by
  cases s with
  | result value =>
      cases value with
      | none => exact .here _ _
      | some e => exact .push _ _ rfl
  | expr e =>
      simp only [exec]
      split
      · exact .here _ _
      · exact .push _ _ rfl
  | leave | again | pass => exact .here _ _
  | _ => exact .push _ _ rfl

theorem matchAny_inward (subject : Value) (patterns : List Pattern) :
    Inward m (m.matchAny subject patterns) := by
  cases patterns with
  | nil => exact .here _ _
  | cons p rest => exact .push _ _ rfl

theorem matchPattern_inward (p : Pattern) (subject : Value) :
    Inward m (m.matchPattern p subject) := by
  rcases p with (_ | e) | ⟨_ | inner, name⟩ | patterns
  · exact .here _ _
  · exact .push _ _ rfl
  · exact .here _ _
  · exact .push _ _ rfl
  · exact matchAny_inward subject patterns

theorem storeItem_inward {container : Expr} {held w : Value} (index : Value)
    (h : (Frame.storeItem container held w).reachesOut index = false) :
    Inward m (m.storeItem container held index w) := by
  unfold storeItem
  split
  · cases h
  · cases h
  · refine .withResult _ _ fun bit => ?_
    split <;> exact .here _ _
  · exact .withResult _ _ fun _ => .here _ _
  · exact .here _ _

/-- What a frame of a body makes of a value, unless it writes a field. -/
theorem resume_inward {mode : WriteMode} {f : Frame} (hf : f.inBody mode) {v : Value}
    (h : f.reachesOut v = false) (hw : f.write? m.sim v = none) : Inward m (m.resume f v) := by
  cases f with
  | fieldOf index => exact .withResult _ _ fun id => .giveResult _
  | binary op lhs => exact .giveResult _
  | unary op => exact .giveResult _
  | logical op rest =>
      cases rest with
      | nil => exact .here _ _
      | cons e rest =>
          simp only [resume]
          split
          · exact .here _ _
          · exact .push _ _ rfl
  | comparing ops comparators => exact compareOn_inward v ops comparators
  | compared left op ops comparators =>
      refine .withResult _ _ fun holds => ?_
      split
      · exact compareOn_inward v ops comparators
      · exact .here _ _
  | memberOf name => exact .giveResult _
  | subscript container => exact .giveResult _
  | calleeOf args keywords =>
      exact gather_inward (show (Gathered.arguments v keywords).reachesOut = false from h) [] args
  | gather use done rest => exact gather_inward h _ rest
  | conditional body orelse => exact .here _ _
  | storeField index value =>
      cases hi : v.asComponent with
      | error e =>
          simp only [resume, storeField, hi]
          exact .here _ _
      | ok id => simp [Frame.write?, hi, Except.toOption] at hw
  | storeMember name value =>
      cases hi : v.asComponent with
      | error e =>
          simp only [resume, storeMember, hi]
          exact .here _ _
      | ok id =>
          cases hindex : (m.sim.tree.inst id).fieldIndex? name with
          | none =>
              simp only [resume, storeMember, hi, hindex]
              exact .here _ _
          | some index => simp [Frame.write?, hi, hindex, Except.toOption] at hw
  | storeRest rest => exact storeAll_inward rest
  | storeItem container held value => exact storeItem_inward v h
  | block rest => exact .block rest
  | assign targets => exact storeAll_inward _
  | updateWith target op current => exact .withResult _ _ fun _ => .here _ _
  | resultOf => exact .here _ _
  | branch body orelse => exact .block _
  | eachOf target body orelse => exact eachOf_inward target v body orelse
  | eachItem target rest body orelse => exact .blockAbove _ body rfl
  | eachRound target rest body orelse => exact eachNext_inward target rest body orelse
  | loopTest test body orelse =>
      simp only [resume]
      split
      · exact .blockAbove _ body rfl
      · exact .block orelse
  | assertionTest kind message =>
      have hkind : kind ≠ .cover := by
        rintro rfl
        cases h
      cases message with
      | none => exact check_inward hkind _ none
      | some e => exact .push _ _ rfl
  | assertionText kind holds =>
      refine check_inward ?_ holds _
      rintro rfl
      cases h
  | select cases => exact selectNext_inward v cases
  | caseMatched subject c rest =>
      simp only [resume]
      split
      · split
        · exact .block c.body
        · exact .push _ _ rfl
      · exact selectNext_inward subject rest
  | caseGuard subject c rest =>
      simp only [resume]
      split
      · exact .block c.body
      · exact selectNext_inward subject rest
  | equals subject => exact .here _ _
  | bindPattern name subject =>
      simp only [resume]
      split <;> exact .here _ _
  | alternatives rest subject =>
      simp only [resume]
      split
      · exact .here _ _
      · exact matchAny_inward subject rest
  | discard | returning => exact .here _ _
  | rightOf | indexOf | storeIndex | updateBy | loopRound => exact .push _ _ rfl
  | _ => exact hf.elim

theorem unwind_inward {mode : WriteMode} {f : Frame} (hf : f.inBody mode) (c : Completion) :
    Inward m (m.unwind f c) := by
  cases f with
  | eachRound target rest body orelse =>
      cases c with
      | again => exact eachNext_inward target rest body orelse
      | _ => exact .here _ _
  | loopRound test body orelse =>
      cases c with
      | again => exact .push _ _ rfl
      | _ => exact .here _ _
  | returning caller => cases c <;> exact .here _ _
  | boundary | calling | propagate | combs | combOver | driven | settled | round | syncs
  | syncStep | syncPause | commit | changes | clock | clockEdge => exact hf.elim
  | _ => cases c <;> exact .here _ _

end Moves

/-- The simulation after a step of a process, and how many bodies the step leaves. -/
structure Contained (m m' : Machine) : Prop where
  surroundings : m.sim.SameSurroundings m'.sim
  bodies : m'.stack.countP Frame.isBoundary ≤ m.stack.countP Frame.isBoundary

theorem Inward.contained {m m' : Machine} (h : Inward m m') : Contained m m' := by
  obtain ⟨hsim, fs, hfs, hnone⟩ := h
  refine ⟨by rw [hsim]; exact .refl _, ?_⟩
  have hzero : fs.countP Frame.isBoundary = 0 := by
    rw [List.countP_eq_zero]
    intro g hg
    simp [hnone g hg]
  have hcount : m'.stack.countP Frame.isBoundary = m.stack.countP Frame.isBoundary := by
    rw [hfs, List.countP_append, hzero, Nat.zero_add]
  exact Nat.le_of_eq hcount

theorem Contained.here {m : Machine} (c : Control) (a : Activation) :
    Contained m ⟨c, a, m.stack, m.sim⟩ := (Inward.here c a).contained

theorem Contained.below {m m' : Machine} {f : Frame} {rest : List Frame}
    (h : Contained { m with stack := rest } m') (hs : m.stack = f :: rest) : Contained m m' := by
  refine ⟨h.surroundings, Nat.le_trans h.bodies ?_⟩
  rw [hs, List.countP_cons]
  exact Nat.le_add_right _ _

theorem write_contained {m : Machine} (f : FieldRef) (v : Value) :
    Contained m (m.write f v .staged) := by
  simp only [write]
  split
  · exact .here _ _
  · rename_i slot _
    cases slot.storage with
    | signal => exact ⟨⟨rfl, rfl, rfl, rfl⟩, Nat.le_refl _⟩
    | _ => exact .here _ _

theorem pause_contained {m : Machine} (p : ProcessRef) (next : Nat) (cycles : Int) :
    Contained m (m.pause p next cycles) := ⟨⟨rfl, rfl, rfl, rfl⟩, Nat.le_refl _⟩

theorem syncBody_contained {m : Machine} (p : ProcessRef) (next : Nat) (body : List Stmt) :
    Contained m (m.syncBody p next body) := by
  cases body with
  | nil => exact .here _ _
  | cons s rest =>
      simp only [syncBody]
      split
      · exact pause_contained p _ _
      · exact (Inward.push _ _ rfl).contained
      · exact (Inward.push _ _ rfl).contained

theorem ofProcess_contained {m : Machine} {p : ProcessRef} {g : Frame} (hg : g.ofProcess p)
    (c : Completion) : Contained m (m.accept g c) := by
  cases g with
  | syncStep q next body =>
      cases c with
      | value v => exact syncBody_contained q next body
      | _ => exact .here _ _
  | syncPause q next =>
      cases c with
      | value v =>
          simp only [accept, resume]
          cases v.asInt with
          | ok n => exact pause_contained q next n
          | error e => exact .here _ _
      | _ => exact .here _ _
  | _ => exact hg.elim

variable {waker : Waker} {m₀ : Machine}

theorem Within.contained {p : ProcessRef} {a : Activation} {m m' : Machine} (h : Within p a m)
    (hstep : m.step waker = .go m') (hin : m.reachesOut = false) : Contained m m' := by
  cases h with
  | leaving c a' name s =>
      rw [step_done (m := ⟨.done c, a', _, s⟩) rfl rfl] at hstep
      cases hstep
      refine @Contained.below _ _ _ [] ?_ rfl
      cases c <;> exact .here _ _
  | body c a' y g name s ha hy hg =>
      cases c with
      | eval e =>
          cases hstep
          exact (eval_inward hin).contained
      | exec stmt =>
          cases hstep
          exact (exec_inward stmt).contained
      | store target v =>
          cases hstep
          exact (store_inward target v).contained
      | matching pattern subject =>
          cases hstep
          exact (matchPattern_inward pattern subject).contained
      | await w => cases hin
      | done c =>
          cases y with
          | nil =>
              rw [step_done (m := ⟨.done c, a', [] ++ [g, .boundary name a], s⟩) rfl rfl] at hstep
              cases hstep
              exact (ofProcess_contained hg c).below rfl
          | cons f y =>
              have hf := hy f (by simp)
              let m : Machine := ⟨.done c, a', f :: y ++ [g, .boundary name a], s⟩
              rcases hw : m.write? with _ | ⟨field, v⟩
              · rw [step_done (m := m) rfl rfl] at hstep
                cases hstep
                refine Contained.below (Inward.contained ?_) rfl
                cases c with
                | value v => exact resume_inward hf hin hw
                | _ => exact unwind_inward hf _
              · rw [step_write (m := m) rfl hf ha hw] at hstep
                cases hstep
                exact (write_contained field v).below rfl

theorem Within.bodies {p : ProcessRef} {a : Activation} {m : Machine} (h : Within p a m) :
    m.stack.countP Frame.isBoundary = 1 := by
  cases h with
  | leaving c a' name s => rfl
  | body c a' y g name s ha hy hg =>
      have hnone : y.countP Frame.isBoundary = 0 := by
        rw [List.countP_eq_zero]
        intro f hf
        have := hy f hf
        cases f <;> simp_all [Frame.inBody, Frame.isBoundary]
      have hprocess : g.isBoundary = false := by cases g <;> first | rfl | exact hg.elim
      rw [List.countP_append, hnone, List.countP_cons_of_neg (by simp [hprocess])]
      rfl

theorem reachesOut_onto {m : Machine} (h : m.stack ≠ []) (base : List Frame) :
    (m.onto base).reachesOut = m.reachesOut := by
  obtain ⟨c, a, stack, s⟩ := m
  cases stack with
  | nil => exact absurd rfl h
  | cons g rest =>
      cases c with
      | done c => cases c <;> rfl
      | _ => rfl

theorem not_inCallback {m : Machine} {x : List Frame} (hs : m.stack = x ++ m₀.roundBase)
    (hx : x.countP Frame.isBoundary ≤ 1) : ¬ InCallback m₀ m := by
  rintro ⟨x', hx', hcount⟩
  rw [hs] at hx'
  rw [← List.append_cancel_right hx'] at hcount
  omega

theorem surroundings_marks (s : Simulation) (l : List Mark) : s.SameSurroundings (s.marks l) := by
  induction l generalizing s with
  | nil => exact .refl s
  | cons k l ih =>
      have hmark : s.SameSurroundings (s.mark k) := ⟨rfl, rfl, rfl, rfl⟩
      exact hmark.trans (ih (s.mark k))

theorem begun_contained (a : Activation) (p : ProcessRef) (s : Simulation) :
    s.SameSurroundings (begun a p s).sim ∧ (begun a p s).stack.countP Frame.isBoundary ≤ 1 := by
  have hcases := begun_cases a p s
  generalize begun a p s = m at hcases ⊢
  cases hcases with
  | fault e => exact ⟨.refl s, Nat.zero_le _⟩
  | «over» hl => exact ⟨surroundings_marks s _, Nat.zero_le _⟩
  | within hl hsim hin =>
      rw [hsim]
      exact ⟨surroundings_marks s _, Nat.le_of_eq hin.bodies⟩

/-- The processes of a round leave alone what is not a signal and call nothing back, if none of
their steps reaches out. -/
theorem plainRound_of_inward (h : ∀ m, RoundState waker m₀ m → m.reachesOut = false) :
    PlainRound waker m₀ := by
  intro m hm
  induction hm with
  | start => exact ⟨⟨rfl, rfl, rfl, rfl⟩, not_inCallback (x := [.syncs _]) rfl (Nat.zero_le _)⟩
  | @step m m' hm hs hstep ih =>
      obtain ⟨hsame, hnot⟩ := ih
      have within : ∀ p a rest (m₁ : Machine), Within p a m₁ →
          m = m₁.onto (.syncs rest :: m₀.roundBase) →
            m₀.sim.SameSurroundings m'.sim ∧ ¬ InCallback m₀ m' := by
        rintro p a rest m₁ hin rfl
        obtain ⟨m₂, hstep₂, rfl⟩ := hin.step_base hstep
        have hne : m₁.stack ≠ [] := by
          intro hnil
          have := hin.bodies
          simp [hnil] at this
        have hinward : m₁.reachesOut = false := by
          rw [← reachesOut_onto hne (.syncs rest :: m₀.roundBase)]
          exact h _ hm
        have hcontained := hin.contained hstep₂ hinward
        refine ⟨hsame.trans hcontained.surroundings,
          not_inCallback (x := m₂.stack ++ [.syncs rest]) (by simp) ?_⟩
        have hbodies := hcontained.bodies
        rw [hin.bodies] at hbodies
        rw [List.countP_append]
        exact hbodies
      cases hm.shape with
      | ready v a s ran rest hb hk =>
          rw [step_done (m := ⟨_, a, _, s⟩) rfl rfl] at hstep
          cases hstep
          cases rest with
          | nil => exact ⟨hsame, not_inCallback (x := []) rfl (Nat.zero_le _)⟩
          | cons p rest =>
              change m₀.sim.SameSurroundings ((⟨.done (.value v), a, .syncs rest :: m₀.roundBase,
                s⟩ : Machine).runSync p).sim ∧ ¬ InCallback m₀ ((⟨.done (.value v), a,
                  .syncs rest :: m₀.roundBase, s⟩ : Machine).runSync p)
              rw [runSync_begun]
              obtain ⟨hbegun, hbodies⟩ := begun_contained a p s
              refine ⟨hsame.trans hbegun,
                not_inCallback (x := (begun a p s).stack ++ [.syncs rest]) (by simp) ?_⟩
              rw [List.countP_append]
              exact hbodies
      | finished v a s => exact absurd rfl hs
      | failing e a s ran p rest hb hk =>
          rw [step_done (m := ⟨_, a, _, s⟩) rfl rfl] at hstep
          cases hstep
          exact ⟨hsame, not_inCallback (x := []) rfl (Nat.zero_le _)⟩
      | failed e a s ran p rest hb hk => exact absurd rfl hs
      | leaving c a s name caller ran p rest hb hk =>
          exact within p caller rest _ (.leaving c a name s) rfl
      | body c a s y g name caller ran p rest hb hk ha hy hg =>
          exact within p caller rest _ (.body c a y g name s ha hy hg) (by rw [onto]; simp)
      | callback c a s x hook a' y g name caller ran p rest hb hk ha hy hg =>
          refine absurd ⟨x ++ .boundary hook a' :: .discard ::
            (y ++ [g, .boundary name caller, .syncs rest]), by simp, ?_⟩ hnot
          simp only [List.countP_append, List.countP_cons, Frame.isBoundary]
          simp
          omega

end Machine

end Clockwork
