import Clockwork.Proofs.Concurrency.Cancellation.Waits
import Clockwork.Proofs.Table
import Mathlib.Data.Multiset.Bind
/-!
An executor at work. Besides the kernel there are the waits in progress that belong to no task in
the table, because their task is running or because they are polled from outside of all tasks, and
the entries that were taken out of the agenda and have not been run. Whatever tasks, callbacks and
others do is a sequence of acts (`Act`), and the dispatch of tasks and entries is done in steps
around them (`Step`).

In every state that is reached so, each party at a place and each grant belongs to a wait in
progress (`Sound`). A task that was cancelled is never polled again (`Departed.run`), and has no
such wait once it does not run; so nothing is left of it at any place (`Departed.freeOf`).
-/

namespace Clockwork

namespace Roster

variable {τ : Type} {r : Roster τ} {loose : Multiset (Waker × Wait)} {id : Nat}

/-- The number was given to a task, and no task is kept under it now. -/
def Away (r : Roster τ) (id : Nat) : Prop := r.tasks.get? id = none ∧ id < r.next

/-- Somebody has a wait in progress: a task in the table, or one of the others. -/
def Claims (wait : τ → Option Wait) (r : Roster τ) (loose : Multiset (Waker × Wait)) (me : Waker)
    (w : Wait) : Prop :=
  (me, w) ∈ loose ∨
    ∃ id task, me = .task id ∧ r.tasks.get? id = some task ∧ wait task = some w

structure Regular (r : Roster τ) (loose : Multiset (Waker × Wait)) : Prop where
  loose : ∀ {id w}, (.task id, w) ∈ loose → r.Away id
  running : ∀ {id}, r.running = some id → r.Away id
  table : ∀ {e}, e ∈ r.tasks.entries → e.1 < r.next
  quiet : r.running = none → r.cancelled = false

theorem Regular.unchanged {κ : Type} {s s' : Scheduler κ τ} (h : s.roster.Regular loose)
    (heq : s'.roster = s.roster := by rfl) : s'.roster.Regular loose := heq ▸ h

/-- The task was in the table and will not come back to it. -/
structure Departed (r : Roster τ) (loose : Multiset (Waker × Wait)) (id : Nat) : Prop where
  away : r.Away id
  marked : r.running = some id → r.cancelled = true
  waitless : r.running ≠ some id → ∀ w, (.task id, w) ∉ loose

end Roster

structure Executor (κ ε τ : Type) where
  kernel : Kernel κ ε τ
  /-- Waits in progress that belong to no task in the table, with the wakers that poll them. -/
  loose : Multiset (Waker × Wait)
  /-- Entries that were taken out of the agenda and have not been run. -/
  batch : List (Entry κ)

namespace Kernel

variable {κ ε τ : Type}

def giveUp (k : Kernel κ ε τ) : Option Wait → Kernel κ ε τ
  | none => k
  | some w => k.abandon w

def setTasks (k : Kernel κ ε τ) (tasks : Table Nat τ) : Kernel κ ε τ :=
  { k with scheduler := { k.scheduler with tasks := tasks } }

def endTurn (k : Kernel κ ε τ) : Kernel κ ε τ :=
  { k with scheduler := { k.scheduler with running := none, cancelled := false } }

end Kernel

namespace Executor

variable {κ ε τ : Type}

def initial : Executor κ ε τ := ⟨.initial, 0, []⟩

def held (me : Waker) : Option Wait → Multiset (Waker × Wait)
  | none => 0
  | some w => {(me, w)}

def heldBy {α : Type} (me : α → Waker) (wait : α → Option Wait) (l : List α) :
    Multiset (Waker × Wait) := Multiset.bind l fun a => held (me a) (wait a)

variable (wait : τ → Option Wait)

/-- Cancels a task, and gives up its wait unless it is running. -/
def cancel (s : Executor κ ε τ) (id : Nat) : Executor κ ε τ :=
  let (scheduler, task) := s.kernel.scheduler.cancel id
  { s with kernel := Kernel.giveUp { s.kernel with scheduler := scheduler } (task.bind wait) }

/-- Something that a task, a callback or somebody else does. -/
inductive Act : Executor κ ε τ → Executor κ ε τ → Prop
  | call {k k' : Kernel κ ε τ} (loose : Multiset (Waker × Wait)) (batch : List (Entry κ)) :
      k.Call k' → Act ⟨k, loose, batch⟩ ⟨k', loose, batch⟩
  | spawn (k : Kernel κ ε τ) (loose : Multiset (Waker × Wait)) (batch : List (Entry κ)) {task : τ} :
      wait task = none → Act ⟨k, loose, batch⟩
        ⟨{ k with scheduler := (k.scheduler.spawn task).1 }, loose, batch⟩
  | cancel (s : Executor κ ε τ) (id : Nat) : Act s (s.cancel wait id)
  | begin (k : Kernel κ ε τ) (loose : Multiset (Waker × Wait)) (batch : List (Entry κ)) {me : Waker}
      {w : Wait} : w.ticket? = none → (∀ id, me = .task id → k.scheduler.running = some id) →
      Act ⟨k, loose, batch⟩ ⟨k, (me, w) ::ₘ loose, batch⟩
  | ends {k k' : Kernel κ ε τ} (loose : Multiset (Waker × Wait)) (batch : List (Entry κ))
      {me : Waker} {w : Wait} {result : Value} : k.poll me w = (k', .over result) →
      Act ⟨k, (me, w) ::ₘ loose, batch⟩ ⟨k', loose, batch⟩
  | waits {k k' : Kernel κ ε τ} (loose : Multiset (Waker × Wait)) (batch : List (Entry κ))
      {me : Waker} {w w' : Wait} : k.poll me w = (k', .waiting w') →
      Act ⟨k, (me, w) ::ₘ loose, batch⟩ ⟨k', (me, w') ::ₘ loose, batch⟩
  | drop (k : Kernel κ ε τ) (loose : Multiset (Waker × Wait)) (batch : List (Entry κ)) (me : Waker)
      (w : Wait) : Act ⟨k, (me, w) ::ₘ loose, batch⟩ ⟨k.abandon w, loose, batch⟩

/-- What becomes of a task in a step. -/
inductive Mark where
  | polled (id : Nat)
  | gaveUp (id : Nat) (w : Option Wait)
  deriving Repr

/-- A step of an executor, with the marks that it leaves. -/
inductive Step : Executor κ ε τ → List Mark → Executor κ ε τ → Prop
  | act {s s' : Executor κ ε τ} : Act wait s s' → Step s [] s'
  /-- A task that is ready ended meanwhile, and is passed over. -/
  | pass {k : Kernel κ ε τ} (loose : Multiset (Waker × Wait)) (batch : List (Entry κ)) {id : Nat}
      {rest : List Nat} : k.scheduler.ready = id :: rest → k.scheduler.tasks.get? id = none →
      Step ⟨k, loose, batch⟩ []
        ⟨{ k with scheduler := { k.scheduler with ready := rest } }, loose, batch⟩
  | turn {k : Kernel κ ε τ} (loose : Multiset (Waker × Wait)) (batch : List (Entry κ)) {id : Nat}
      {rest : List Nat} {task : τ} : k.scheduler.running = none → k.scheduler.ready = id :: rest →
      k.scheduler.tasks.get? id = some task →
      Step ⟨k, loose, batch⟩ [.polled id]
        ⟨{ k with
            scheduler :=
              { k.scheduler with
                ready := rest, tasks := k.scheduler.tasks.erase id, running := some id } },
          held (.task id) (wait task) + loose, batch⟩
  | finish {k : Kernel κ ε τ} {loose : Multiset (Waker × Wait)} (batch : List (Entry κ))
      {id : Nat} : k.scheduler.running = some id → (∀ w, (.task id, w) ∉ loose) →
      Step ⟨k, loose, batch⟩ [] ⟨k.endTurn, loose, batch⟩
  /-- The turn of a task ends, and the task goes back to the table with its wait. -/
  | park {k : Kernel κ ε τ} {loose : Multiset (Waker × Wait)} (batch : List (Entry κ)) {id : Nat}
      (task : τ) : k.scheduler.running = some id → k.scheduler.cancelled = false →
      (∀ w, (.task id, w) ∉ loose) →
      Step ⟨k, held (.task id) (wait task) + loose, batch⟩ []
        ⟨k.endTurn.setTasks (k.scheduler.tasks.insert id task), loose, batch⟩
  | giveUp {k : Kernel κ ε τ} {loose : Multiset (Waker × Wait)} (batch : List (Entry κ)) {id : Nat}
      (w : Option Wait) : k.scheduler.running = some id → k.scheduler.cancelled = true →
      (∀ w, (.task id, w) ∉ loose) →
      Step ⟨k, held (.task id) w + loose, batch⟩ [.gaveUp id w] ⟨k.endTurn.giveUp w, loose, batch⟩
  | take {k : Kernel κ ε τ} (loose : Multiset (Waker × Wait)) (batch : List (Entry κ))
      {s : Scheduler κ τ} {due : List (Entry κ)} : k.scheduler.takeDue = some (s, due) →
      Step ⟨k, loose, batch⟩ [] ⟨{ k with scheduler := s }, loose, batch ++ due⟩
  /-- The first entry taken out is a sleeper, and is woken. -/
  | fire (k : Kernel κ ε τ) (loose : Multiset (Waker × Wait)) (batch : List (Entry κ)) {e : Entry κ}
      {me : Waker} : e.due = .sleeper me →
      Step ⟨k, loose, e :: batch⟩ []
        ⟨{ k with scheduler := k.scheduler.fire e.seq me }, loose, batch⟩
  | callback (k : Kernel κ ε τ) (loose : Multiset (Waker × Wait)) (batch : List (Entry κ))
      (e : Entry κ) : Step ⟨k, loose, e :: batch⟩ [] ⟨k, loose, batch⟩
  | tick (k : Kernel κ ε τ) (loose : Multiset (Waker × Wait)) (batch : List (Entry κ))
      (now : Instant) (stopped : Bool) : Step ⟨k, loose, batch⟩ []
        ⟨{ k with scheduler := { k.scheduler with now := now, stopped := stopped } }, loose, batch⟩
  /-- All tasks are taken out of the table, to be given up. -/
  | disband {k : Kernel κ ε τ} (loose : Multiset (Waker × Wait)) (batch : List (Entry κ)) :
      k.scheduler.running = none →
      Step ⟨k, loose, batch⟩ []
        ⟨k.setTasks .empty,
          heldBy (.task ·.1) (wait ·.2) k.scheduler.tasks.entries + loose, batch⟩
  | clear {k : Kernel κ ε τ} (loose : Multiset (Waker × Wait)) (batch : List (Entry κ)) :
      k.scheduler.running = none →
      Step ⟨k, loose, batch⟩ []
        ⟨{ k with scheduler := { k.scheduler with agenda := [], cancelled := false } },
          loose, batch⟩

inductive Run : Executor κ ε τ → List Mark → Executor κ ε τ → Prop
  | nil (s : Executor κ ε τ) : Run s [] s
  | cons {s s₁ s' : Executor κ ε τ} {l l' : List Mark} :
      Step wait s l s₁ → Run s₁ l' s' → Run s (l ++ l') s'

/-- An executor that began with nothing to do. -/
def Reachable (s : Executor κ ε τ) : Prop := ∃ l, Run wait initial l s

end Executor

namespace Kernel

variable {κ ε τ : Type} {k k' : Kernel κ ε τ} {claims claims' : Waker → Wait → Prop}

/-- Every party that waits, and everybody to whom a lock is granted, has a wait in progress. -/
structure Backed (k : Kernel κ ε τ) (claims : Waker → Wait → Prop) : Prop where
  waiting : ∀ {p x}, x ∈ k.waiting p → ∃ w, claims x.2 w ∧ w.ticket? = some (p, x.1)
  granted : ∀ {p t}, t ∈ k.granted p → ∃ me w, claims me w ∧ w.ticket? = some (p, t)

theorem Backed.change (h : k.Backed claims) {gone : Option (Place × Nat)}
    {come : Option (Place × Nat × Waker)} (c : k.Change k' gone come)
    (keep : ∀ {me w}, claims me w → w.ticket? ≠ gone → claims' me w)
    (arrived : ∀ {p x}, come = some (p, x) → ∃ w, claims' x.2 w ∧ w.ticket? = some (p, x.1)) :
    k'.Backed claims' := by
  constructor
  · intro p x hx
    rcases c.waiting p x hx with ⟨hold, hne⟩ | hcome
    · obtain ⟨w, hw, hticket⟩ := h.waiting hold
      exact ⟨w, keep hw (hticket ▸ hne.symm), hticket⟩
    · exact arrived hcome
  · intro p t ht
    obtain ⟨hold, hne⟩ := c.granted p t ht
    have hbefore : ∃ me w, claims me w ∧ w.ticket? = some (p, t) := by
      rcases hold with hgranted | hqueued
      · exact h.granted hgranted
      · obtain ⟨x, hx, rfl⟩ := List.mem_map.mp hqueued
        obtain ⟨w, hw, hticket⟩ := h.waiting hx
        exact ⟨x.2, w, hw, hticket⟩
    obtain ⟨me, w, hw, hticket⟩ := hbefore
    exact ⟨me, w, keep hw (hticket ▸ hne.symm), hticket⟩

theorem Backed.of_scheduler (h : k.Backed claims) {s : Scheduler κ τ}
    (agenda : s.agenda ⊆ k.scheduler.agenda) (keep : ∀ {me w}, claims me w → claims' me w) :
    Backed { k with scheduler := s } claims' := by
  have hwaiting (p : Place) : Kernel.waiting { k with scheduler := s } p ⊆ k.waiting p := by
    cases p with
    | agenda => exact List.filterMap_subset Entry.sleeper? agenda
    | _ => exact List.Subset.refl _
  constructor
  · intro p x hx
    obtain ⟨w, hw, hticket⟩ := h.waiting (hwaiting p hx)
    exact ⟨w, keep hw, hticket⟩
  · intro p t ht
    rw [granted_scheduler] at ht
    obtain ⟨me, w, hw, hticket⟩ := h.granted ht
    exact ⟨me, w, keep hw, hticket⟩

end Kernel

namespace Executor

variable {κ ε τ : Type} {wait : τ → Option Wait} {s s' : Executor κ ε τ} {k k' : Kernel κ ε τ}
  {loose loose' : Multiset (Waker × Wait)} {batch batch' : List (Entry κ)} {id : Nat}

theorem mem_held {w? : Option Wait} {me me' : Waker} {w : Wait} :
    (me, w) ∈ held me' w? ↔ me = me' ∧ w? = some w := by
  rcases w? with _ | w'
  · simp [held]
  · rw [held, Multiset.mem_singleton, Prod.mk.injEq, Option.some.injEq]
    exact and_congr_right fun _ => eq_comm

theorem mem_heldBy {α : Type} {me : α → Waker} {wait : α → Option Wait} {l : List α}
    {x : Waker × Wait} : x ∈ heldBy me wait l ↔ ∃ a ∈ l, x ∈ held (me a) (wait a) :=
  Multiset.mem_bind

theorem heldBy_cons {α : Type} (me : α → Waker) (wait : α → Option Wait) (a : α) (l : List α) :
    heldBy me wait (a :: l) = held (me a) (wait a) + heldBy me wait l :=
  Multiset.cons_bind a l _

theorem heldBy_perm {α : Type} {l l' : List α} (h : l.Perm l') (me : α → Waker)
    (wait : α → Option Wait) : heldBy me wait l = heldBy me wait l' := by
  rw [heldBy, Multiset.coe_eq_coe.mpr h]
  rfl

/-- What is known of an executor at any time. -/
structure Sound (wait : τ → Option Wait) (s : Executor κ ε τ) : Prop where
  backed : s.kernel.Backed (s.kernel.scheduler.roster.Claims wait s.loose)
  tidy : s.kernel.Tidy s.batch
  regular : s.kernel.scheduler.roster.Regular s.loose

theorem sound_initial : Sound wait (initial : Executor κ ε τ) where
  backed := by
    constructor
    · intro p x hx
      cases p <;> cases hx
    · intro p t ht
      cases p <;> cases ht
  tidy := Kernel.tidy_initial
  regular := by
    constructor
    · intro id w hw
      exact absurd hw (Multiset.notMem_zero _)
    · nofun
    · nofun
    · exact fun _ => rfl

namespace Sound

theorem change (h : Sound wait ⟨k, loose, batch⟩) {gone : Option (Kernel.Place × Nat)}
    {come : Option (Kernel.Place × Nat × Waker)} (c : k.Change k' gone come)
    (keep : ∀ {x}, x ∈ loose → x.2.ticket? ≠ gone → x ∈ loose')
    (arrived : ∀ {p x}, come = some (p, x) → ∃ w, (x.2, w) ∈ loose' ∧ w.ticket? = some (p, x.1))
    (away : ∀ {id w}, (.task id, w) ∈ loose' → k.scheduler.roster.Away id) :
    Sound wait ⟨k', loose', batch⟩ := by
  obtain ⟨backed, tidy, regular⟩ := h
  refine ⟨backed.change c ?_ ?_, c.tidy tidy, ?_⟩
  · rintro me w (hloose | htable) hne
    · exact .inl (keep hloose hne)
    · right
      rw [c.roster]
      exact htable
  · intro p x hcome
    obtain ⟨w, hw, hticket⟩ := arrived hcome
    exact ⟨w, .inl hw, hticket⟩
  · show Roster.Regular k'.scheduler.roster loose'
    rw [c.roster]
    exact ⟨away, regular.running, regular.table, regular.quiet⟩

theorem of_scheduler (h : Sound wait ⟨k, loose, batch⟩) {s : Scheduler κ τ}
    (agenda : s.agenda ⊆ k.scheduler.agenda) (tidy : k.scheduler.Tidy batch → s.Tidy batch')
    (claims : ∀ {me w}, k.scheduler.roster.Claims wait loose me w →
      s.roster.Claims wait loose' me w)
    (regular : s.roster.Regular loose') :
    Sound wait ⟨{ k with scheduler := s }, loose', batch'⟩ :=
  ⟨h.backed.of_scheduler agenda claims, ⟨h.tidy.locks, tidy h.tidy.scheduler⟩, regular⟩

theorem drop {x : Waker × Wait} (h : Sound wait ⟨k, x ::ₘ loose, batch⟩) :
    Sound wait ⟨k.abandon x.2, loose, batch⟩ := by
  refine h.change (Kernel.change_abandon h.tidy x.2) (fun hy hne => ?_) nofun
    (fun hw => h.regular.loose (Multiset.mem_cons_of_mem hw))
  rcases Multiset.mem_cons.mp hy with rfl | hrest
  · exact absurd rfl hne
  · exact hrest

theorem giveUp {me : Waker} {w? : Option Wait} (h : Sound wait ⟨k, held me w? + loose, batch⟩) :
    Sound wait ⟨k.giveUp w?, loose, batch⟩ := by
  rcases w? with _ | w
  · rw [held, Multiset.zero_add] at h
    exact h
  · rw [held, Multiset.singleton_add] at h
    exact h.drop

theorem evict (h : Sound wait ⟨k, loose, batch⟩) {task : τ}
    (htask : k.scheduler.tasks.get? id = some task) :
    Sound wait
      ⟨k.setTasks (k.scheduler.tasks.erase id), held (.task id) (wait task) + loose, batch⟩ := by
  have regular := h.regular
  have haway {id' : Nat} (ha : k.scheduler.roster.Away id') :
      Roster.Away
        { k.scheduler.roster with tasks := k.scheduler.tasks.erase id } id' :=
    ⟨Table.get?_erase_eq_none ha.1 id, ha.2⟩
  refine h.of_scheduler (List.Subset.refl _) (fun ⟨h₁, h₂, h₃⟩ => ⟨h₁, h₂, h₃⟩) ?_ ?_
  · rintro me w (hloose | ⟨id', task', rfl, htask', hw⟩)
    · exact .inl (Multiset.mem_add.mpr (.inr hloose))
    · by_cases hid : id' = id
      · -- The wait of this task is now one of those of others.
        subst hid
        obtain rfl : task' = task := Option.some.inj (htask'.symm.trans htask)
        exact .inl (Multiset.mem_add.mpr (.inl (mem_held.mpr ⟨rfl, hw⟩)))
      · refine .inr ⟨id', task', rfl, ?_, hw⟩
        exact (Table.get?_erase_of_ne _ hid).trans htask'
  · constructor
    · intro id' w hw
      rcases Multiset.mem_add.mp hw with hheld | hloose
      · obtain ⟨hid, -⟩ := mem_held.mp hheld
        cases hid
        exact ⟨Table.get?_erase_self _ id, regular.table (Table.mem_of_get? htask)⟩
      · exact haway (regular.loose hloose)
    · exact fun hrunning => haway (regular.running hrunning)
    · exact fun he => regular.table (List.mem_filter.mp he).1
    · exact regular.quiet

end Sound

theorem cancel_of_task {task : τ} (h : s.kernel.scheduler.tasks.get? id = some task) :
    s.cancel wait id =
      { s with
        kernel :=
          (s.kernel.setTasks (s.kernel.scheduler.tasks.erase id)).giveUp (wait task) } := by
  simp only [cancel, Scheduler.cancel, h]
  rfl

theorem cancel_of_running (h : s.kernel.scheduler.tasks.get? id = none)
    (hrunning : s.kernel.scheduler.running = some id) :
    s.cancel wait id =
      { s with
        kernel :=
          { s.kernel with scheduler := { s.kernel.scheduler with cancelled := true } } } := by
  simp only [cancel, Scheduler.cancel, h, hrunning, if_true]
  rfl

theorem cancel_of_absent (h : s.kernel.scheduler.tasks.get? id = none)
    (hrunning : s.kernel.scheduler.running ≠ some id) : s.cancel wait id = s := by
  simp only [cancel, Scheduler.cancel, h, hrunning, if_false]
  rfl

namespace Sound

theorem spawn (h : Sound wait ⟨k, loose, batch⟩) (task : τ) :
    Sound wait ⟨{ k with scheduler := (k.scheduler.spawn task).1 }, loose, batch⟩ := by
  have hother {id : Nat} (hid : id < k.scheduler.nextTask) :
      (k.scheduler.tasks.insert k.scheduler.nextTask task).get? id = k.scheduler.tasks.get? id :=
    Table.get?_insert_of_ne _ (Nat.ne_of_lt hid) task
  have haway {id : Nat} (ha : k.scheduler.roster.Away id) :
      (k.scheduler.spawn task).1.roster.Away id :=
    ⟨(hother ha.2).trans ha.1, Nat.lt_succ_of_lt ha.2⟩
  refine h.of_scheduler (List.Subset.refl _) (fun ⟨h₁, h₂, h₃⟩ => ⟨h₁, h₂, h₃⟩) ?_ ?_
  · rintro me w (hloose | ⟨id, task', rfl, htask', hw⟩)
    · exact .inl hloose
    · refine .inr ⟨id, task', rfl, ?_, hw⟩
      exact (hother (h.regular.table (Table.mem_of_get? htask'))).trans htask'
  · constructor
    · exact fun hw => haway (h.regular.loose hw)
    · exact fun hrunning => haway (h.regular.running hrunning)
    · intro e he
      rcases Table.mem_insertSorted he with rfl | hold
      · exact Nat.lt_succ_self _
      · exact Nat.lt_succ_of_lt (h.regular.table hold)
    · exact h.regular.quiet

theorem cancel (h : Sound wait s) (id : Nat) : Sound wait (s.cancel wait id) := by
  cases htask : s.kernel.scheduler.tasks.get? id with
  | some task =>
      rw [cancel_of_task htask]
      exact (h.evict htask).giveUp
  | none =>
      by_cases hrunning : s.kernel.scheduler.running = some id
      · rw [cancel_of_running htask hrunning]
        obtain ⟨loose, running, table, -⟩ := h.regular
        refine h.of_scheduler (List.Subset.refl _) (fun ⟨h₁, h₂, h₃⟩ => ⟨h₁, h₂, h₃⟩)
          (fun hclaims => hclaims) ⟨loose, running, table, fun hidle => ?_⟩
        cases hrunning.symm.trans hidle
      · rw [cancel_of_absent htask hrunning]
        exact h

/-- Whatever is done, nothing is left at any place without a wait that it belongs to. -/
theorem act (h : Sound wait s) (ha : Act wait s s') : Sound wait s' := by
  cases ha with
  | call loose batch hcall =>
      exact h.change hcall.change (fun hx _ => hx) nofun h.regular.loose
  | spawn k loose batch _ => exact h.spawn _
  | cancel _ id => exact h.cancel id
  | begin k loose batch hfresh hmine =>
      refine h.change (Kernel.Change.refl k) (fun hx _ => Multiset.mem_cons_of_mem hx) nofun ?_
      intro id w hw
      rcases Multiset.mem_cons.mp hw with heq | hold
      · cases heq
        exact h.regular.running (hmine id rfl)
      · exact h.regular.loose hold
  | @ends k k' loose batch me w result hpoll =>
      have hchange := Kernel.change_poll h.tidy me w
      rw [hpoll] at hchange
      refine h.change hchange (fun hx hne => ?_) nofun
        (fun hw => h.regular.loose (Multiset.mem_cons_of_mem hw))
      rcases Multiset.mem_cons.mp hx with rfl | hrest
      · exact absurd rfl hne
      · exact hrest
  | @waits k k' loose batch me w w' hpoll =>
      have hchange := Kernel.change_poll h.tidy me w
      rw [hpoll] at hchange
      refine h.change hchange (fun hx hne => ?_) (fun hcome => ?_) (fun hw => ?_)
      · rcases Multiset.mem_cons.mp hx with rfl | hrest
        · exact absurd rfl hne
        · exact Multiset.mem_cons_of_mem hrest
      · obtain ⟨y, hy, heq⟩ := Option.map_eq_some_iff.mp hcome
        cases heq
        exact ⟨w', Multiset.mem_cons_self _ _, hy⟩
      · rcases Multiset.mem_cons.mp hw with heq | hrest
        · cases heq
          exact h.regular.loose (Multiset.mem_cons_self _ _)
        · exact h.regular.loose (Multiset.mem_cons_of_mem hrest)
  | drop k loose batch me w => exact h.drop

theorem endTurn (h : Sound wait ⟨k, loose, batch⟩) : Sound wait ⟨k.endTurn, loose, batch⟩ :=
  h.of_scheduler (List.Subset.refl _) (fun ⟨h₁, h₂, h₃⟩ => ⟨h₁, h₂, h₃⟩) (fun hclaims => hclaims)
    ⟨h.regular.loose, nofun, h.regular.table, fun _ => rfl⟩

theorem park {task : τ} (h : Sound wait ⟨k, held (.task id) (wait task) + loose, batch⟩)
    (hrunning : k.scheduler.running = some id) (hnone : ∀ w, (.task id, w) ∉ loose) :
    Sound wait
      ⟨k.endTurn.setTasks (k.scheduler.tasks.insert id task), loose, batch⟩ := by
  have hout := h.regular.running hrunning
  have hother {id' : Nat} (hid : id' ≠ id) :
      (k.scheduler.tasks.insert id task).get? id' = k.scheduler.tasks.get? id' :=
    Table.get?_insert_of_ne _ hid task
  refine h.of_scheduler (List.Subset.refl _) (fun ⟨h₁, h₂, h₃⟩ => ⟨h₁, h₂, h₃⟩) ?_ ?_
  · rintro me w (hw | ⟨id', task', rfl, htask', hw⟩)
    · rcases Multiset.mem_add.mp hw with hheld | hloose
      · obtain ⟨rfl, hwait⟩ := mem_held.mp hheld
        exact .inr ⟨id, task, rfl, Table.get?_insert_self _ id task, hwait⟩
      · exact .inl hloose
    · refine .inr ⟨id', task', rfl, (hother ?_).trans htask', hw⟩
      rintro rfl
      cases hout.1.symm.trans htask'
  · constructor
    · intro id' w hw
      have hid : id' ≠ id := by
        rintro rfl
        exact hnone w hw
      obtain ⟨htable, hlt⟩ := h.regular.loose (Multiset.mem_add.mpr (.inr hw))
      exact ⟨(hother hid).trans htable, hlt⟩
    · nofun
    · intro e he
      rcases Table.mem_insertSorted he with rfl | hold
      · exact hout.2
      · exact h.regular.table hold
    · exact fun _ => rfl

theorem fire {e : Entry κ} (h : Sound wait ⟨k, loose, e :: batch⟩) (me : Waker) :
    Sound wait ⟨{ k with scheduler := k.scheduler.fire e.seq me }, loose, batch⟩ := by
  obtain ⟨ready, hfire⟩ : ∃ ready, k.scheduler.fire e.seq me =
      { k.scheduler with fired := e.seq :: k.scheduler.fired, ready := ready } := by
    cases me <;> exact ⟨_, rfl⟩
  rw [hfire]
  refine h.of_scheduler (List.Subset.refl _) (fun ht => ?_) (fun hclaims => hclaims)
    h.regular.unchanged
  refine ht.mono (List.Sublist.refl _) (fun seq hseq => ?_) rfl
  -- the number of the entry moves from the batch to the sleeps that may be asked for
  have hmoved : seq ∈ e.seq :: (k.scheduler.fired ++ batch.map Entry.seq) := hseq
  exact List.perm_middle.mem_iff.mpr hmoved

theorem disband (h : Sound wait ⟨k, loose, batch⟩) :
    Sound wait
      ⟨k.setTasks .empty,
        heldBy (.task ·.1) (wait ·.2) k.scheduler.tasks.entries + loose, batch⟩ := by
  refine h.of_scheduler (List.Subset.refl _) (fun ⟨h₁, h₂, h₃⟩ => ⟨h₁, h₂, h₃⟩) ?_ ?_
  · rintro me w (hloose | ⟨id, task, rfl, htask, hw⟩)
    · exact .inl (Multiset.mem_add.mpr (.inr hloose))
    · refine .inl (Multiset.mem_add.mpr (.inl (mem_heldBy.mpr ?_)))
      exact ⟨(id, task), Table.mem_of_get? htask, mem_held.mpr ⟨rfl, hw⟩⟩
  · constructor
    · intro id w hw
      rcases Multiset.mem_add.mp hw with hheld | hloose
      · obtain ⟨e, he, hmem⟩ := mem_heldBy.mp hheld
        obtain ⟨hid, -⟩ := mem_held.mp hmem
        cases hid
        exact ⟨rfl, h.regular.table he⟩
      · exact ⟨rfl, (h.regular.loose hloose).2⟩
    · exact fun hrunning => ⟨rfl, (h.regular.running hrunning).2⟩
    · nofun
    · exact h.regular.quiet

theorem step {l : List Mark} (h : Sound wait s) (hs : Step wait s l s') : Sound wait s' := by
  cases hs with
  | act ha => exact h.act ha
  | pass loose batch hready htask =>
      exact h.of_scheduler (List.Subset.refl _) (fun ⟨h₁, h₂, h₃⟩ => ⟨h₁, h₂, h₃⟩)
        (fun hclaims => hclaims) h.regular.unchanged
  | @turn k loose batch id rest task hidle hready htask =>
      have hevicted := h.evict htask
      refine hevicted.of_scheduler (List.Subset.refl _) (fun ⟨h₁, h₂, h₃⟩ => ⟨h₁, h₂, h₃⟩)
        (fun hclaims => hclaims) ⟨hevicted.regular.loose, ?_, hevicted.regular.table, nofun⟩
      rintro id' heq
      cases heq
      exact ⟨Table.get?_erase_self _ id, h.regular.table (Table.mem_of_get? htask)⟩
  | finish batch hrunning hnone => exact h.endTurn
  | park batch task hrunning hmarked hnone => exact h.park hrunning hnone
  | giveUp batch w hrunning hmarked hnone => exact h.endTurn.giveUp
  | take loose batch hdue =>
      obtain ⟨-, hagenda, -⟩ := Scheduler.takeDue_spec hdue
      obtain ⟨hroster, hfired, -⟩ := Scheduler.roster_takeDue hdue
      refine h.of_scheduler (fun e he => ?_) (·.take hdue hfired) (fun hclaims => ?_) ?_
      · rw [hagenda]
        exact List.mem_append_right _ he
      · rw [hroster]
        exact hclaims
      · exact h.regular.unchanged hroster
  | fire k loose batch hdue => exact h.fire _
  | callback k loose batch e =>
      refine h.of_scheduler (List.Subset.refl _) (fun ht => ?_) (fun hclaims => hclaims) h.regular
      exact ht.mono (List.Sublist.refl _)
        ((List.Sublist.refl _).append (List.sublist_cons_self _ _)).subset rfl
  | tick k loose batch now stopped =>
      exact h.of_scheduler (List.Subset.refl _) (fun ⟨h₁, h₂, h₃⟩ => ⟨h₁, h₂, h₃⟩)
        (fun hclaims => hclaims) h.regular.unchanged
  | disband loose batch hidle => exact h.disband
  | clear loose batch hidle =>
      refine h.of_scheduler (List.nil_subset _) (fun ht => ?_) (fun hclaims => hclaims)
        ⟨h.regular.loose, h.regular.running, h.regular.table, fun _ => rfl⟩
      exact ht.mono (List.nil_sublist _) (List.Subset.refl _) rfl

theorem run {l : List Mark} (h : Sound wait s) (hrun : Run wait s l s') : Sound wait s' := by
  induction hrun with
  | nil => exact h
  | cons hstep _ ih => exact ih (h.step hstep)

end Sound

theorem Reachable.sound (h : Reachable wait s) : Sound wait s := by
  obtain ⟨l, hrun⟩ := h
  exact sound_initial.run hrun

def Departed (s : Executor κ ε τ) (id : Nat) : Prop :=
  s.kernel.scheduler.roster.Departed s.loose id

theorem Departed.change (h : Departed ⟨k, loose, batch⟩ id)
    (hroster : k'.scheduler.roster = k.scheduler.roster)
    (hloose : ∀ {w}, (.task id, w) ∈ loose' →
      k.scheduler.running = some id ∨ ∃ w', (.task id, w') ∈ loose) :
    Departed ⟨k', loose', batch'⟩ id := by
  show Roster.Departed k'.scheduler.roster loose' id
  rw [hroster]
  refine ⟨h.away, h.marked, fun hne w hw => ?_⟩
  rcases hloose hw with hrunning | ⟨w', hw'⟩
  · exact hne hrunning
  · exact h.waitless hne w' hw'

theorem Departed.of_scheduler (h : Departed ⟨k, loose, batch⟩ id) {s : Scheduler κ τ}
    (away : k.scheduler.roster.Away id → s.roster.Away id)
    (running : s.running = k.scheduler.running)
    (cancelled : k.scheduler.cancelled = true → s.cancelled = true) :
    Departed ⟨{ k with scheduler := s }, loose, batch⟩ id := by
  refine ⟨away h.away, fun hrunning => ?_, fun hne => ?_⟩
  · exact cancelled (h.marked (running.symm.trans hrunning))
  · exact h.waitless fun hrunning => hne (running.trans hrunning)

theorem roster_giveUp (ht : k.Tidy batch) (w? : Option Wait) :
    (k.giveUp w?).scheduler.roster = k.scheduler.roster := by
  rcases w? with _ | w
  · rfl
  · exact (Kernel.change_abandon ht w).roster

theorem Departed.cancel (h : Departed s id) (hs : Sound wait s) (id' : Nat) :
    Departed (s.cancel wait id') id := by
  cases htask : s.kernel.scheduler.tasks.get? id' with
  | some task =>
      rw [cancel_of_task htask]
      have hevicted : Departed
          ⟨s.kernel.setTasks (s.kernel.scheduler.tasks.erase id'), s.loose, s.batch⟩ id :=
        h.of_scheduler (fun ha => ⟨Table.get?_erase_eq_none ha.1 id', ha.2⟩) rfl (fun hc => hc)
      exact hevicted.change (roster_giveUp (hs.evict htask).tidy _) fun hw => .inr ⟨_, hw⟩
  | none =>
      by_cases hrunning : s.kernel.scheduler.running = some id'
      · rw [cancel_of_running htask hrunning]
        exact h.of_scheduler (fun ha => ha) rfl (fun _ => rfl)
      · rw [cancel_of_absent htask hrunning]
        exact h

theorem Departed.act (h : Departed s id) (hs : Sound wait s) (ha : Act wait s s') :
    Departed s' id := by
  cases ha with
  | call loose batch hcall => exact h.change hcall.change.roster fun hw => .inr ⟨_, hw⟩
  | @spawn k loose batch task _ =>
      refine h.of_scheduler (fun haway => ⟨?_, Nat.lt_succ_of_lt haway.2⟩) rfl (fun hc => hc)
      exact (Table.get?_insert_of_ne _ (Nat.ne_of_lt haway.2) task).trans haway.1
  | cancel _ id' => exact h.cancel hs id'
  | begin k loose batch _ hmine =>
      refine h.change rfl fun hw => ?_
      rcases Multiset.mem_cons.mp hw with heq | hold
      · cases heq
        exact .inl (hmine id rfl)
      · exact .inr ⟨_, hold⟩
  | @ends k k' loose batch me w result hpoll =>
      have hchange := Kernel.change_poll hs.tidy me w
      rw [hpoll] at hchange
      exact h.change hchange.roster fun hw => .inr ⟨_, Multiset.mem_cons_of_mem hw⟩
  | @waits k k' loose batch me w w' hpoll =>
      have hchange := Kernel.change_poll hs.tidy me w
      rw [hpoll] at hchange
      refine h.change hchange.roster fun hw => ?_
      rcases Multiset.mem_cons.mp hw with heq | hrest
      · cases heq
        exact .inr ⟨w, Multiset.mem_cons_self _ _⟩
      · exact .inr ⟨_, Multiset.mem_cons_of_mem hrest⟩
  | drop k loose batch me w =>
      exact h.change (Kernel.change_abandon hs.tidy w).roster
        fun hw => .inr ⟨_, Multiset.mem_cons_of_mem hw⟩

theorem Departed.endTurn {id' : Nat} (h : Departed ⟨k, loose, batch⟩ id)
    (hrunning : k.scheduler.running = some id') (hnone : ∀ w, (.task id', w) ∉ loose) :
    Departed ⟨k.endTurn, loose, batch⟩ id := by
  refine ⟨h.away, nofun, fun _ w hw => ?_⟩
  by_cases hid : id' = id
  · exact hnone w (hid ▸ hw)
  · refine h.waitless (fun hself => hid ?_) w hw
    exact Option.some.inj (hrunning.symm.trans hself)

/-- A departed task stays departed, and is not polled. -/
theorem Departed.step {l : List Mark} (h : Departed s id) (hs : Sound wait s)
    (hstep : Step wait s l s') : Departed s' id ∧ .polled id ∉ l := by
  cases hstep with
  | act ha => exact ⟨h.act hs ha, nofun⟩
  | pass loose batch hready htask =>
      exact ⟨h.of_scheduler (fun ha => ha) rfl (fun hc => hc), nofun⟩
  | @turn k loose batch id' rest task hidle hready htask =>
      have hid : id' ≠ id := by
        rintro rfl
        cases h.away.1.symm.trans htask
      refine ⟨⟨⟨Table.get?_erase_eq_none h.away.1 id', h.away.2⟩, ?_, ?_⟩, ?_⟩
      · exact fun hself => absurd (Option.some.inj hself) hid
      · intro _ w hw
        rcases Multiset.mem_add.mp hw with hheld | hloose
        · obtain ⟨heq, -⟩ := mem_held.mp hheld
          exact hid (Waker.task.inj heq).symm
        · refine h.waitless (fun hself => ?_) w hloose
          cases hidle.symm.trans hself
      · intro hmem
        cases List.mem_singleton.mp hmem
        exact hid rfl
  | finish batch hrunning hnone => exact ⟨h.endTurn hrunning hnone, nofun⟩
  | @park k loose batch id' task hrunning hmarked hnone =>
      -- Only a task that is not marked goes back to the table.
      have hid : id' ≠ id := by
        rintro rfl
        cases hmarked.symm.trans (h.marked hrunning)
      refine ⟨⟨⟨?_, h.away.2⟩, nofun, fun _ w hw => ?_⟩, nofun⟩
      · exact (Table.get?_insert_of_ne _ hid.symm task).trans h.away.1
      · refine h.waitless (fun hself => hid ?_) w (Multiset.mem_add.mpr (.inr hw))
        exact Option.some.inj (hrunning.symm.trans hself)
  | @giveUp k loose batch id' w? hrunning hmarked hnone =>
      have hrest : Departed ⟨k, loose, batch⟩ id :=
        h.change rfl fun hw => .inr ⟨_, Multiset.mem_add.mpr (.inr hw)⟩
      refine ⟨(hrest.endTurn hrunning hnone).change (roster_giveUp hs.endTurn.tidy w?)
        fun hw => .inr ⟨_, hw⟩, fun hmem => ?_⟩
      cases List.mem_singleton.mp hmem
  | take loose batch hdue =>
      exact ⟨h.change (Scheduler.roster_takeDue hdue).1 fun hw => .inr ⟨_, hw⟩, nofun⟩
  | @fire k loose batch e me hdue =>
      have hroster : (k.scheduler.fire e.seq me).roster = k.scheduler.roster := by
        cases me <;> rfl
      exact ⟨h.change hroster fun hw => .inr ⟨_, hw⟩, nofun⟩
  | callback k loose batch e => exact ⟨h, nofun⟩
  | tick k loose batch now stopped =>
      exact ⟨h.of_scheduler (fun ha => ha) rfl (fun hc => hc), nofun⟩
  | @disband k loose batch hidle =>
      refine ⟨⟨⟨rfl, h.away.2⟩, fun hself => ?_, fun hne w hw => ?_⟩, nofun⟩
      · cases hidle.symm.trans hself
      · rcases Multiset.mem_add.mp hw with hheld | hloose
        · obtain ⟨e, he, hmem⟩ := mem_heldBy.mp hheld
          obtain ⟨heq, -⟩ := mem_held.mp hmem
          cases heq
          exact Table.get?_ne_none_of_mem he h.away.1
        · exact h.waitless hne w hloose
  | @clear k loose batch hidle =>
      refine ⟨⟨h.away, fun hself => ?_, h.waitless⟩, nofun⟩
      cases hidle.symm.trans hself

theorem Departed.run {l : List Mark} (h : Departed s id) (hs : Sound wait s)
    (hrun : Run wait s l s') : Departed s' id ∧ .polled id ∉ l := by
  induction hrun with
  | nil => exact ⟨h, nofun⟩
  | cons hstep _ ih =>
      obtain ⟨hmid, hfirst⟩ := h.step hs hstep
      obtain ⟨hend, hrest⟩ := ih hmid (hs.step hstep)
      exact ⟨hend, fun hmem => (List.mem_append.mp hmem).elim hfirst hrest⟩

/-- Cancelling makes a task depart, whatever it was doing. -/
theorem departed_cancel (hs : Sound wait s) (live : s.kernel.scheduler.isLive id = true) :
    Departed (s.cancel wait id) id := by
  cases htask : s.kernel.scheduler.tasks.get? id with
  | some task =>
      have hidle : s.kernel.scheduler.running ≠ some id := by
        intro hself
        cases htask.symm.trans (hs.regular.running hself).1
      have hwaitless (w : Wait) : (.task id, w) ∉ s.loose := by
        intro hw
        cases htask.symm.trans (hs.regular.loose hw).1
      rw [cancel_of_task htask]
      have hevicted : Departed
          ⟨s.kernel.setTasks (s.kernel.scheduler.tasks.erase id), s.loose, s.batch⟩ id := by
        refine ⟨⟨Table.get?_erase_self _ id, ?_⟩, fun hself => absurd hself hidle,
          fun _ => hwaitless⟩
        exact hs.regular.table (Table.mem_of_get? htask)
      exact hevicted.change (roster_giveUp (hs.evict htask).tidy _) fun hw => .inr ⟨_, hw⟩
  | none =>
      have hrunning : s.kernel.scheduler.running = some id := by
        simpa [Scheduler.isLive, Table.contains, htask] using live
      rw [cancel_of_running htask hrunning]
      exact ⟨hs.regular.running hrunning, fun _ => rfl, fun hne => absurd hrunning hne⟩

/-- No place holds anything of the task: it is not in the table, nobody is to be woken for it, it
has no wait in progress, and whoever waits at a place or is granted a lock has a wait of its own. -/
structure FreeOf (wait : τ → Option Wait) (s : Executor κ ε τ) (id : Nat) : Prop where
  table : s.kernel.scheduler.tasks.get? id = none
  waking : ∀ {p t}, (t, .task id) ∉ s.kernel.waiting p
  waitless : ∀ {w}, ¬ s.kernel.scheduler.roster.Claims wait s.loose (.task id) w
  others : ∀ {p t}, t ∈ (s.kernel.waiting p).map (·.1) ∨ t ∈ s.kernel.granted p →
    ∃ me w, me ≠ .task id ∧ s.kernel.scheduler.roster.Claims wait s.loose me w ∧
      w.ticket? = some (p, t)

theorem Departed.freeOf (h : Departed s id) (hs : Sound wait s)
    (hidle : s.kernel.scheduler.running ≠ some id) : FreeOf wait s id := by
  have hwaitless {w : Wait} : ¬ s.kernel.scheduler.roster.Claims wait s.loose (.task id) w := by
    rintro (hloose | ⟨id', task, heq, htask, -⟩)
    · exact h.waitless hidle w hloose
    · cases heq
      cases h.away.1.symm.trans htask
  refine ⟨h.away.1, fun hx => ?_, hwaitless, fun hknown => ?_⟩
  · obtain ⟨w, hw, -⟩ := hs.backed.waiting hx
    exact hwaitless hw
  · rcases hknown with hqueued | hgranted
    · obtain ⟨x, hx, rfl⟩ := List.mem_map.mp hqueued
      obtain ⟨w, hw, hticket⟩ := hs.backed.waiting hx
      exact ⟨x.2, w, fun heq => hwaitless (heq ▸ hw), hw, hticket⟩
    · obtain ⟨me, w, hw, hticket⟩ := hs.backed.granted hgranted
      exact ⟨me, w, fun heq => hwaitless (heq ▸ hw), hw, hticket⟩

theorem cancel_passesOn (hs : Sound wait s) {task : τ} {w : Wait}
    (htask : s.kernel.scheduler.tasks.get? id = some task) (hwait : wait task = some w) :
    (s.cancel wait id).kernel.Forgets w ∧ s.kernel.PassesOn (s.cancel wait id).kernel w := by
  rw [cancel_of_task htask, hwait]
  exact ⟨Kernel.abandon_forgets (hs.evict htask).tidy w,
    (Kernel.abandon_passesOn _ w).of_scheduler rfl⟩

theorem Step.gaveUp_passesOn {w : Wait} (hstep : Step wait s [.gaveUp id (some w)] s')
    (hs : Sound wait s) : s'.kernel.Forgets w ∧ s.kernel.PassesOn s'.kernel w := by
  cases hstep
  exact ⟨Kernel.abandon_forgets hs.endTurn.tidy w, (Kernel.abandon_passesOn _ w).of_scheduler rfl⟩

end Executor

end Clockwork
