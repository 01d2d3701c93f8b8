import Clockwork.Proofs.Machine.Body
import Clockwork.Simulation.Run

namespace Clockwork.Machine

theorem innermostBody_append (x base : List Frame) :
    innermostBody (x ++ base) =
      match innermostBody x with
      | some (process, rest) => some (process, rest ++ base)
      | none => innermostBody base := by
  induction x with
  | nil => rfl
  | cons f x ih => cases f <;> first | rfl | exact ih

theorem innermostBody_inBody {mode : WriteMode} {y : List Frame}
    (hy : ∀ g ∈ y, g.inBody mode) : innermostBody y = none := by
  induction y with
  | nil => rfl
  | cons f y ih =>
      have hf := hy f (by simp)
      have hrest := ih fun g hg => hy g (by simp [hg])
      cases f <;> first | exact hrest | exact hf.elim

theorem innermostBody_append_none {y : List Frame} (h : innermostBody y = none)
    (base : List Frame) : innermostBody (y ++ base) = innermostBody base := by
  rw [innermostBody_append, h]

theorem await_inside (waker : Waker) {m : Machine} (w : Wait) {process : String}
    {rest : List Frame} (h : innermostBody m.stack = some (process, rest)) :
    (∃ k v, k.tasks = m.sim.kernel.tasks ∧
        m.await waker w = .go ((m.setSim (m.sim.setKernel k)).give v)) ∨
      (∃ k, k.tasks = m.sim.kernel.tasks ∧ m.await waker w =
        .go ({ m with sim := m.sim.setKernel k, stack := rest }.fail
          (.illegalSuspension process))) := by
  have htasks := m.sim.kernel.tasks_poll .nobody w
  simp only [await, h]
  rcases hp : m.sim.kernel.poll .nobody w with ⟨k, v | w⟩
  · rw [hp] at htasks
    exact .inl ⟨k, v, htasks, rfl⟩
  · rw [hp] at htasks
    exact .inr ⟨k.abandon w, (k.tasks_abandon w).trans htasks, rfl⟩

/-- A wait is over, or it is cut short down to the end of the innermost body. -/
theorem await_go {waker : Waker} {m m' : Machine} {w : Wait} (h : m.await waker w = .go m') :
    (∃ k v, k.tasks = m.sim.kernel.tasks ∧ m' = (m.setSim (m.sim.setKernel k)).give v) ∨
      (∃ k process rest, innermostBody m.stack = some (process, rest) ∧
        k.tasks = m.sim.kernel.tasks ∧ m' = { m with
          sim := m.sim.setKernel k, stack := rest }.fail (.illegalSuspension process)) := by
  cases hin : innermostBody m.stack with
  | none =>
      have htasks := m.sim.kernel.tasks_poll waker w
      simp only [await, hin] at h
      rcases hp : m.sim.kernel.poll waker w with ⟨k, v | w'⟩
      · rw [hp] at h htasks
        cases h
        exact .inl ⟨k, v, htasks, rfl⟩
      · rw [hp] at h
        cases h
  | some r =>
      obtain ⟨process, rest⟩ := r
      rcases await_inside waker w hin with ⟨k, v, htasks, hk⟩ | ⟨k, htasks, hk⟩
      · rw [hk] at h
        cases h
        exact .inl ⟨k, v, htasks, rfl⟩
      · rw [hk] at h
        cases h
        exact .inr ⟨k, process, rest, rfl, htasks, rfl⟩

theorem await_onto {waker : Waker} {m m' : Machine} {w : Wait} (base : List Frame)
    (h : (innermostBody m.stack).isSome) (hstep : m.await waker w = .go m') :
    (m.onto base).await waker w = .go (m'.onto base) := by
  obtain ⟨⟨process, rest⟩, hrest⟩ := Option.isSome_iff_exists.mp h
  have hbase : innermostBody (m.onto base).stack = some (process, rest ++ base) := by
    rw [onto_stack, innermostBody_append, hrest]
  rcases hp : m.sim.kernel.poll .nobody w with ⟨k, v | w'⟩
  all_goals
    simp only [await, hrest, hp] at hstep
    cases hstep
    simp only [await, hbase, onto_sim, hp]
    rfl

/-- Whether a machine cannot be gone on with: all frames are gone, and it has come to something. -/
def isOver (m : Machine) : Prop := m.stack = [] ∧ ∃ c, m.control = .done c

def accept (m : Machine) (f : Frame) : Completion → Machine
  | .value v => m.resume f v
  | c => m.unwind f c

theorem accept_onto (m : Machine) (base : List Frame) (f : Frame) (c : Completion) :
    (m.onto base).accept f c = (m.accept f c).onto base := by
  cases c with
  | value v => exact resume_onto m base f v
  | _ => exact unwind_onto m base f _

theorem accept_body {mode : WriteMode} {m : Machine} (ha : m.activation.mode = mode) {f : Frame}
    (hf : f.inBody mode) (c : Completion) :
    BodyMove mode ({ m with control := .done c, stack := f :: m.stack } : Machine).write? m
      (m.accept f c) := by
  cases c with
  | value v => exact resume_body ha hf v
  | _ => exact unwind_body ha hf _

theorem step_done {waker : Waker} {m : Machine} {c : Completion} {f : Frame} {rest : List Frame}
    (hc : m.control = .done c) (hs : m.stack = f :: rest) :
    m.step waker = .go ({ m with stack := rest }.accept f c) := by
  simp only [step, hc, hs]
  cases c <;> rfl

inductive Goes (waker : Waker) (m : Machine) : Machine → Prop
  | eval (e : Expr) (hc : m.control = .eval e) : Goes waker m (m.eval e)
  | exec (s : Stmt) (hc : m.control = .exec s) : Goes waker m (m.exec s)
  | store (target : Expr) (v : Value) (hc : m.control = .store target v) :
      Goes waker m (m.store target v)
  | matching (p : Pattern) (subject : Value) (hc : m.control = .matching p subject) :
      Goes waker m (m.matchPattern p subject)
  | await {m' : Machine} (w : Wait) (hc : m.control = .await w) (h : m.await waker w = .go m') :
      Goes waker m m'
  | done (c : Completion) (f : Frame) (rest : List Frame) (hc : m.control = .done c)
      (hs : m.stack = f :: rest) : Goes waker m ({ m with stack := rest }.accept f c)

theorem step_goes {waker : Waker} {m m' : Machine} (h : m.step waker = .go m') :
    Goes waker m m' := by
  cases hc : m.control with
  | eval e =>
      simp only [step, hc] at h
      cases h
      exact .eval e hc
  | exec s =>
      simp only [step, hc] at h
      cases h
      exact .exec s hc
  | store target v =>
      simp only [step, hc] at h
      cases h
      exact .store target v hc
  | matching p subject =>
      simp only [step, hc] at h
      cases h
      exact .matching p subject hc
  | await w =>
      simp only [step, hc] at h
      exact .await w hc h
  | done c =>
      cases hs : m.stack with
      | nil =>
          simp only [step, hc, hs] at h
          cases h
      | cons f rest =>
          rw [step_done hc hs] at h
          cases h
          exact .done c f rest hc hs

theorem step_onto {waker : Waker} {m m' : Machine} (base : List Frame)
    (hw : ∀ w, m.control = .await w → (innermostBody m.stack).isSome)
    (h : m.step waker = .go m') : (m.onto base).step waker = .go (m'.onto base) := by
  cases step_goes h with
  | eval e hc => simp only [step, onto_control, hc, eval_onto]
  | exec s hc => simp only [step, onto_control, hc, exec_onto]
  | store target v hc => simp only [step, onto_control, hc, store_onto]
  | matching p subject hc => simp only [step, onto_control, hc, matchPattern_onto]
  | await w hc h =>
      simp only [step, onto_control, hc]
      exact await_onto base (hw w hc) h
  | done c f rest hc hs =>
      have hs' : (m.onto base).stack = f :: (rest ++ base) := by rw [onto_stack, hs]; rfl
      rw [step_done (m := m.onto base) hc hs']
      exact congrArg Next.go (accept_onto { m with stack := rest } base f c)

theorem step_go {waker : Waker} {m : Machine} (hover : ¬ m.isOver)
    (hw : ∀ w, m.control = .await w → (innermostBody m.stack).isSome) :
    ∃ m', m.step waker = .go m' := by
  cases hc : m.control with
  | await w =>
      obtain ⟨⟨process, rest⟩, hrest⟩ := Option.isSome_iff_exists.mp (hw w hc)
      simp only [step, hc]
      rcases await_inside waker w hrest with ⟨k, v, -, h⟩ | ⟨k, -, h⟩
      · exact ⟨_, h⟩
      · exact ⟨_, h⟩
  | done c =>
      cases hs : m.stack with
      | nil => exact absurd ⟨hs, c, hc⟩ hover
      | cons f rest => exact ⟨_, step_done hc hs⟩
  | _ => exact ⟨_, by simp only [step, hc]; rfl⟩

/-- What one step inside a body leads to, above the frames `tail` of which `rest` are left when
the body is cut short. -/
inductive BodyStep (mode : WriteMode) (m : Machine) (tail rest : List Frame) : Machine → Prop
  | quiet (c : Control) (a : Activation) (y : List Frame) (s : Simulation) (ha : a.mode = mode)
      (hy : ∀ g ∈ y, g.inBody mode) (hs : m.sim.Mild s) :
      BodyStep mode m tail rest ⟨c, a, y ++ tail, s⟩
  | cut (e : SimError) (s : Simulation) (hs : m.sim.Mild s) :
      BodyStep mode m tail rest ⟨.done (.failed e), m.activation, rest, s⟩
  | write (y : List Frame) (f : FieldRef) (v : Value) (hw : m.write? = some (f, v))
      (hy : ∀ g ∈ y, g.inBody mode) :
      BodyStep mode m tail rest ({ m with stack := y ++ tail }.write f v mode)
  | callback (y : List Frame) (k : Kernel Empty EventHook Task) (hook : EventHook)
      (hk : k.tasks = m.sim.kernel.tasks) (hy : ∀ g ∈ y, g.inBody mode) :
      BodyStep mode m tail rest
        ({ m with stack := .discard :: (y ++ tail), sim := m.sim.setKernel k }.callNow hook.owner
          hook.method [])

theorem BodyMove.toStep {mode : WriteMode} {m m' : Machine} {y tail rest : List Frame}
    (hy : ∀ g ∈ y, g.inBody mode) (h : BodyMove mode m.write? { m with stack := y ++ tail } m') :
    BodyStep mode m tail rest m' := by
  cases h with
  | quiet c a fs s ha hf hs =>
      have hall : ∀ g ∈ fs ++ y, g.inBody mode := by
        intro g hg
        rcases List.mem_append.mp hg with hg | hg
        · exact hf g hg
        · exact hy g hg
      have hstep : BodyStep mode m tail rest ⟨c, a, fs ++ y ++ tail, s⟩ :=
        .quiet c a (fs ++ y) s ha hall hs
      rw [List.append_assoc] at hstep
      exact hstep
  | write f v hw => exact .write y f v hw hy
  | callback k hook hk => exact .callback y k hook hk hy

/-- A body goes on, unless nothing of it is left. -/
theorem step_body {waker : Waker} {mode : WriteMode} {m m' : Machine} {y tail rest : List Frame}
    {process : String} (hs : m.stack = y ++ tail)
    (htail : innermostBody tail = some (process, rest)) (ha : m.activation.mode = mode)
    (hy : ∀ g ∈ y, g.inBody mode) (hgo : y ≠ [] ∨ ∀ c, m.control ≠ .done c)
    (h : m.step waker = .go m') : BodyStep mode m tail rest m' := by
  have hm : m = { m with stack := y ++ tail } := by rw [← hs]
  have look : ∀ m₁, BodyMove mode m.write? m m₁ → BodyStep mode m tail rest m₁ := by
    intro m₁ h₁
    refine BodyMove.toStep hy ?_
    rw [← hm]
    exact h₁
  cases step_goes h with
  | eval e => exact look _ (eval_body ha e)
  | exec s => exact look _ (exec_body ha s)
  | store target v => exact look _ (store_body ha target v)
  | matching p subject => exact look _ (matchPattern_body ha p subject)
  | await w hc h =>
      have hbody : innermostBody m.stack = some (process, rest) := by
        rw [hs, innermostBody_append_none (innermostBody_inBody hy), htail]
      rcases await_go h with ⟨k, v, htasks, rfl⟩ | ⟨k, process', rest', hin, htasks, rfl⟩
      · have hstep : BodyStep mode m tail rest
            ⟨.done (.value v), m.activation, y ++ tail, m.sim.setKernel k⟩ :=
          .quiet _ _ y _ ha hy (m.sim.mild_setKernel htasks)
        rw [← hs] at hstep
        exact hstep
      · rw [hbody] at hin
        cases hin
        exact .cut _ _ (m.sim.mild_setKernel htasks)
  | done c f below hc hs' =>
      cases y with
      | nil => exact absurd hc (hgo.resolve_left (by simp) c)
      | cons f y =>
          rw [hs] at hs'
          cases hs'
          have hf := hy f (by simp)
          have hy' : ∀ g ∈ y, g.inBody mode := fun g hg => hy g (by simp [hg])
          have hmove := accept_body (m := { m with stack := y ++ tail }) ha hf c
          have hwrite :
              ({ m with control := .done c, stack := f :: (y ++ tail) } : Machine).write? =
              m.write? := by
            simp only [write?, hc, hs, List.cons_append]
          exact (hwrite ▸ hmove : BodyMove mode m.write? { m with stack := y ++ tail } _).toStep hy'

theorem step_nobody {waker : Waker} {m m' : Machine} (h : m.step waker = .go m')
    (hwait : ∀ w, m.control = .await w → (innermostBody m.stack).isSome) :
    m.step .nobody = .go m' := by
  cases hc : m.control with
  | await w =>
      obtain ⟨r, hr⟩ := Option.isSome_iff_exists.mp (hwait w hc)
      simp only [step, hc, await, hr] at h ⊢
      exact h
  | _ =>
      simp only [step, hc] at h ⊢
      exact h

/-- What is above some frames stays above them until nothing of it is left, if no body waits but
those that are above them. -/
theorem step_above_inside {waker : Waker} {m m' : Machine} {y tail : List Frame}
    (hs : m.stack = y ++ tail) (hgo : y ≠ [] ∨ ∀ c, m.control ≠ .done c)
    (hwait : ∀ w, m.control = .await w → (innermostBody y).isSome) (h : m.step waker = .go m') :
    ∃ y', m'.stack = y' ++ tail := by
  let m₀ : Machine := { m with stack := y }
  have hm : m = m₀.onto tail := by
    simp only [onto, m₀, ← hs]
  have hover : ¬ m₀.isOver := by
    rintro ⟨hnil, c, hc⟩
    exact hgo.elim (fun hy => hy hnil) fun hnot => hnot c hc
  obtain ⟨m₁, h₁⟩ := step_go hover hwait
  have h₂ := step_onto tail hwait h₁
  rw [← hm, h] at h₂
  cases h₂
  exact ⟨m₁.stack, rfl⟩

/-- What is above some frames stays above them until nothing of it is left, unless a wait cuts the
body short that the frames belong to. -/
theorem step_above {waker : Waker} {m m' : Machine} {y tail : List Frame}
    (hs : m.stack = y ++ tail) (hgo : y ≠ [] ∨ ∀ c, m.control ≠ .done c)
    (h : m.step waker = .go m') :
    (∃ y', m'.stack = y' ++ tail) ∨ ∃ process rest e, innermostBody tail = some (process, rest) ∧
      m'.stack = rest ∧ m'.control = .done (.failed e) := by
  by_cases hw : ∃ w, m.control = .await w ∧ innermostBody y = none
  · obtain ⟨w, hc, hnone⟩ := hw
    have hbody : innermostBody m.stack = innermostBody tail := by
      rw [hs, innermostBody_append_none hnone]
    simp only [step, hc] at h
    rcases await_go h with ⟨k, v, -, rfl⟩ | ⟨k, process, rest, hin, -, rfl⟩
    · exact .inl ⟨y, hs⟩
    · exact .inr ⟨process, rest, _, by rw [← hbody, hin], rfl, rfl⟩
  · refine .inl (step_above_inside hs hgo (fun w hc => ?_) h)
    cases hb : innermostBody y with
    | none => exact absurd ⟨w, hc, hb⟩ hw
    | some r => rfl

/-- What is above the end of a body stays above it until that end is reached. -/
theorem step_above_boundary {waker : Waker} {m m' : Machine} {y tail : List Frame}
    {process : String} {caller : Activation}
    (hs : m.stack = y ++ .boundary process caller :: tail) (h : m.step waker = .go m') :
    (∃ y', m'.stack = y' ++ .boundary process caller :: tail) ∨
      (y = [] ∧ ∃ c, m' = ⟨.done c, caller, tail, m.sim⟩) := by
  by_cases hend : y = [] ∧ ∃ c, m.control = .done c
  · obtain ⟨rfl, c, hc⟩ := hend
    rw [step_done hc hs] at h
    cases h
    right
    refine ⟨rfl, ?_⟩
    cases c with
    | value v => exact ⟨_, rfl⟩
    | _ => exact ⟨_, rfl⟩
  · left
    have hgo : y ≠ [] ∨ ∀ c, m.control ≠ .done c := by
      by_cases hnil : y = []
      · exact .inr fun c hc => hend ⟨hnil, c, hc⟩
      · exact .inl hnil
    rcases step_above hs hgo h with habove | ⟨_, _, _, hbody, hstack, -⟩
    · exact habove
    · cases hbody
      exact ⟨[], hstack⟩

end Clockwork.Machine
