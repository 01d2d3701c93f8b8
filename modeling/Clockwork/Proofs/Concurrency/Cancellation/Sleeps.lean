import Clockwork.Proofs.Concurrency.Cancellation.Hosts
import Clockwork.Proofs.Concurrency.Schedule.Invariant
import Clockwork.Proofs.Kernel

namespace Clockwork

namespace Scheduler

variable {κ τ : Type} {s s₁ s' : Scheduler κ τ}

/-- The dates of the agenda ascend, and new entries have larger numbers. -/
structure InOrder (s : Scheduler κ τ) : Prop where
  ascending : Date.Ascending s.dates
  below : ∀ d ∈ s.dates, d.seq < s.nextSeq

namespace InOrder

theorem sublist (h : s.InOrder) (hdates : s'.dates.Sublist s.dates)
    (hnext : s'.nextSeq = s.nextSeq) : s'.InOrder :=
  ⟨h.ascending.sublist hdates, fun d hd => hnext ▸ h.below d (hdates.subset hd)⟩

theorem alike (h : s.InOrder) (ha : s.Alike s') : s'.InOrder :=
  h.sublist (ha.dates ▸ List.Sublist.refl _) ha.nextSeq

theorem call {j : Journal} (h : s.InOrder) (hcall : Call s j s') : s'.InOrder := by
  cases hcall with
  | schedule delay due =>
      have hperm := (insertEntry_perm ⟨s.target delay, s.nextSeq, due⟩ s.agenda).map Entry.date
      refine ⟨ascending_insertEntry h.ascending fun e he => h.below _ (mem_dates he), ?_⟩
      intro d hd
      rcases List.mem_cons.mp (hperm.mem_iff.mp hd) with rfl | hold
      · exact Nat.lt_succ_self _
      · exact Nat.lt_succ_of_lt (h.below d hold)
  | abandonSleep entry =>
      refine h.sublist ?_ (by cases entry <;> rfl)
      rw [dates_abandonSleep]
      exact List.filter_sublist
  | other ha => exact h.alike ha

theorem callsTo (h : s.InOrder) (hcalls : s.CallsTo s') : s'.InOrder := by
  obtain ⟨j, hcalls⟩ := hcalls
  induction hcalls with
  | nil => exact h
  | cons hcall _ ih => exact ih (h.call hcall)

end InOrder

theorem CallsTo.nextSeq_le (h : s.CallsTo s') : s.nextSeq ≤ s'.nextSeq := by
  obtain ⟨j, hcalls⟩ := h
  induction hcalls with
  | nil => exact Nat.le_refl _
  | cons hcall _ ih =>
      refine Nat.le_trans ?_ ih
      cases hcall with
      | schedule => exact Nat.le_succ _
      | abandonSleep entry => cases entry <;> exact Nat.le_refl _
      | other ha => exact Nat.le_of_eq ha.nextSeq.symm

end Scheduler

namespace Kernel

variable {κ ε τ : Type} {k k' : Kernel κ ε τ}

/-- A wait that goes on keeps the number of its entry, or gets one that nobody had. -/
theorem poll_number {me : Waker} {w w' : Wait} {n : Nat} (h : k.poll me w = (k', .waiting w'))
    (hn : w'.ticket? = some (.agenda, n)) : w.ticket? = some (.agenda, n) ∨
      n = k.scheduler.nextSeq ∧ k'.scheduler.nextSeq = k.scheduler.nextSeq + 1 := by
  cases w with
  | sleep delay entry =>
      simp only [poll] at h
      cases entry with
      | none =>
          cases h
          cases hn
          exact .inr ⟨rfl, rfl⟩
      | some seq =>
          simp only [Scheduler.pollSleep] at h
          split at h
          · rename_i hpoll
            split at hpoll <;> cases hpoll
            cases h
          · rename_i hpoll
            split at hpoll <;> cases hpoll
            cases h
            exact .inl hn
  | get id ticket =>
      simp only [poll] at h
      split at h <;> cases h
      cases hn
  | put id v ticket =>
      simp only [poll] at h
      split at h <;> cases h
      cases hn
  | acquire id ticket =>
      simp only [poll] at h
      split at h <;> cases h
      cases hn
  | event id start ticket =>
      simp only [poll] at h
      split at h <;> cases h
      cases hn

end Kernel

namespace Executor

variable {κ ε τ : Type} {wait : τ → Option Wait} {s s' : Executor κ ε τ} {k k' : Kernel κ ε τ}
  {loose loose' : Multiset (Waker × Wait)} {batch batch' : List (Entry κ)}

def Engaged (wait : τ → Option Wait) (s : Executor κ ε τ) (me : Waker) (w : Wait) : Prop :=
  (me, w) ∈ s.loose ∨ ∃ e ∈ s.kernel.scheduler.tasks.entries, me = .task e.1 ∧ wait e.2 = some w

/-- The agenda is in order, and every sleeper has the number of an entry for itself. -/
structure Punctual (wait : τ → Option Wait) (s : Executor κ ε τ) : Prop where
  order : s.kernel.scheduler.InOrder
  below : ∀ {me w n}, s.Engaged wait me w → w.ticket? = some (.agenda, n) →
    n < s.kernel.scheduler.nextSeq
  apart : ∀ {me me' w w' n}, s.Engaged wait me w → s.Engaged wait me' w' →
    w.ticket? = some (.agenda, n) → w'.ticket? = some (.agenda, n) → me = me'

namespace Punctual

theorem mono (h : Punctual wait s) (order : s'.kernel.scheduler.InOrder)
    (next : s.kernel.scheduler.nextSeq ≤ s'.kernel.scheduler.nextSeq)
    (engaged : ∀ {me w n}, s'.Engaged wait me w → w.ticket? = some (.agenda, n) →
      ∃ w₀, s.Engaged wait me w₀ ∧ w₀.ticket? = some (.agenda, n)) : Punctual wait s' where
  order := order
  below hw hn := by
    obtain ⟨w₀, hw₀, hn₀⟩ := engaged hw hn
    exact Nat.lt_of_lt_of_le (h.below hw₀ hn₀) next
  apart hw hw' hn hn' := by
    obtain ⟨w₀, hw₀, hn₀⟩ := engaged hw hn
    obtain ⟨w₁, hw₁, hn₁⟩ := engaged hw' hn'
    exact h.apart hw₀ hw₁ hn₀ hn₁

theorem calls (h : Punctual wait ⟨k, loose, batch⟩) (hcalls : k.scheduler.CallsTo k'.scheduler)
    (engaged : ∀ {me w}, Engaged wait ⟨k', loose', batch'⟩ me w →
      Engaged wait ⟨k, loose, batch⟩ me w) : Punctual wait ⟨k', loose', batch'⟩ :=
  h.mono (h.order.callsTo hcalls) hcalls.nextSeq_le fun hw hn => ⟨_, engaged hw, hn⟩

theorem of_scheduler (h : Punctual wait ⟨k, loose, batch⟩) {r : Scheduler κ τ}
    (dates : r.dates.Sublist k.scheduler.dates) (next : r.nextSeq = k.scheduler.nextSeq)
    (engaged : ∀ {me w}, Engaged wait ⟨{ k with scheduler := r }, loose', batch'⟩ me w →
      Engaged wait ⟨k, loose, batch⟩ me w) :
    Punctual wait ⟨{ k with scheduler := r }, loose', batch'⟩ :=
  h.mono (h.order.sublist dates next) (Nat.le_of_eq next.symm) fun hw hn => ⟨_, engaged hw, hn⟩

theorem engaged_of_tasks (htasks : k'.scheduler.tasks = k.scheduler.tasks)
    (hloose : ∀ {x}, x ∈ loose' → x ∈ loose) {me : Waker} {w : Wait}
    (h : Engaged wait ⟨k', loose', batch'⟩ me w) : Engaged wait ⟨k, loose, batch⟩ me w := by
  rcases h with hheld | ⟨e, he, hme, hw⟩
  · exact .inl (hloose hheld)
  · exact .inr ⟨e, htasks ▸ he, hme, hw⟩

theorem giveUp {me : Waker} {w? : Option Wait} (h : Punctual wait ⟨k, held me w? + loose, batch⟩) :
    Punctual wait ⟨k.giveUp w?, loose, batch⟩ := by
  refine h.calls (k.callsTo_giveUp w?) (engaged_of_tasks ?_ fun hx => ?_)
  · cases w? with
    | none => rfl
    | some w => exact k.tasks_abandon w
  · exact Multiset.mem_add.mpr (.inr hx)

theorem evict (h : Punctual wait ⟨k, loose, batch⟩) {id : Nat} {task : τ}
    (htask : k.scheduler.tasks.get? id = some task) :
    Punctual wait
      ⟨k.setTasks (k.scheduler.tasks.erase id), held (.task id) (wait task) + loose, batch⟩ := by
  refine h.of_scheduler (List.Sublist.refl _) rfl ?_
  rintro me w (hheld | ⟨e, he, hme, hw⟩)
  · rcases Multiset.mem_add.mp hheld with hmine | hloose
    · obtain ⟨rfl, hw⟩ := mem_held.mp hmine
      exact .inr ⟨(id, task), Table.mem_of_get? htask, rfl, hw⟩
    · exact .inl hloose
  · exact .inr ⟨e, (List.mem_filter.mp he).1, hme, hw⟩

theorem cancel (h : Punctual wait s) (id : Nat) : Punctual wait (s.cancel wait id) := by
  cases htask : s.kernel.scheduler.tasks.get? id with
  | some task =>
      rw [cancel_of_task htask]
      exact (h.evict htask).giveUp
  | none =>
      by_cases hrunning : s.kernel.scheduler.running = some id
      · rw [cancel_of_running htask hrunning]
        exact h.of_scheduler (List.Sublist.refl _) rfl fun he => he
      · rw [cancel_of_absent htask hrunning]
        exact h

/-- A wait that is polled keeps its number or gets a new one. -/
theorem waits {me : Waker} {w w' : Wait} (h : Punctual wait ⟨k, (me, w) ::ₘ loose, batch⟩)
    (hpoll : k.poll me w = (k', .waiting w')) : Punctual wait ⟨k', (me, w') ::ₘ loose, batch⟩ := by
  have hcalls := k.callsTo_poll me w
  have htasks : (k.poll me w).1.scheduler.tasks = k.scheduler.tasks := k.tasks_poll me w
  rw [hpoll] at hcalls htasks
  have hcases {me' : Waker} {w₁ : Wait}
      (he : Engaged wait ⟨k', (me, w') ::ₘ loose, batch⟩ me' w₁) :
      (me', w₁) = (me, w') ∨ Engaged wait ⟨k, (me, w) ::ₘ loose, batch⟩ me' w₁ := by
    rcases he with hheld | ⟨e, he, hme, hw⟩
    · rcases Multiset.mem_cons.mp hheld with heq | hloose
      · exact .inl heq
      · exact .inr (.inl (Multiset.mem_cons_of_mem hloose))
    · exact .inr (.inr ⟨e, htasks ▸ he, hme, hw⟩)
  have hmine : Engaged wait ⟨k, (me, w) ::ₘ loose, batch⟩ me w := .inl (Multiset.mem_cons_self _ _)
  constructor
  · exact h.order.callsTo hcalls
  · intro me' w₁ n he hn
    rcases hcases he with heq | hold
    · cases heq
      rcases Kernel.poll_number hpoll hn with hsame | ⟨rfl, hnext⟩
      · exact Nat.lt_of_lt_of_le (h.below hmine hsame) hcalls.nextSeq_le
      · show k.scheduler.nextSeq < k'.scheduler.nextSeq
        omega
    · exact Nat.lt_of_lt_of_le (h.below hold hn) hcalls.nextSeq_le
  · intro me₁ me₂ w₁ w₂ n h₁ h₂ hn₁ hn₂
    have hold {me' : Waker} {w₁ : Wait} (he : Engaged wait ⟨k, (me, w) ::ₘ loose, batch⟩ me' w₁)
        (hn : w₁.ticket? = some (.agenda, n)) (hn' : w'.ticket? = some (.agenda, n)) :
        me = me' := by
      rcases Kernel.poll_number hpoll hn' with hsame | ⟨rfl, -⟩
      · exact h.apart hmine he hsame hn
      · exact absurd (h.below he hn) (Nat.lt_irrefl _)
    rcases hcases h₁ with heq₁ | h₁ <;> rcases hcases h₂ with heq₂ | h₂
    · cases heq₁
      cases heq₂
      rfl
    · cases heq₁
      exact hold h₂ hn₂ hn₁
    · cases heq₂
      exact (hold h₁ hn₁ hn₂).symm
    · exact h.apart h₁ h₂ hn₁ hn₂

theorem act (h : Punctual wait s) (ha : Act wait s s') : Punctual wait s' := by
  cases ha with
  | call loose batch hcall =>
      have htasks := congrArg Roster.tasks hcall.change.roster
      exact h.calls hcall.callsTo (engaged_of_tasks htasks id)
  | @spawn k loose batch task hnone =>
      refine h.calls (k.scheduler.callsTo_spawn task) ?_
      rintro me w (hheld | ⟨e, he, hme, hw⟩)
      · exact .inl hheld
      · rcases Table.mem_insertSorted he with rfl | hold
        · cases hnone.symm.trans hw
        · exact .inr ⟨e, hold, hme, hw⟩
  | cancel _ id => exact h.cancel id
  | @begin k loose batch me w hfresh =>
      refine h.mono h.order (Nat.le_refl _) fun {me' w' n} he hn => ?_
      rcases he with hheld | hrest
      · rcases Multiset.mem_cons.mp hheld with heq | hloose
        · cases heq
          cases hfresh.symm.trans hn
        · exact ⟨w', .inl hloose, hn⟩
      · exact ⟨w', .inr hrest, hn⟩
  | @ends k k' loose batch me w result hpoll =>
      have hcalls := k.callsTo_poll me w
      have htasks := k.tasks_poll me w
      rw [hpoll] at hcalls htasks
      exact h.calls hcalls (engaged_of_tasks htasks fun hx => Multiset.mem_cons_of_mem hx)
  | waits loose batch hpoll => exact h.waits hpoll
  | drop k loose batch me w =>
      exact h.calls (k.callsTo_abandon w)
        (engaged_of_tasks (k.tasks_abandon w) fun hx => Multiset.mem_cons_of_mem hx)

theorem endTurn (h : Punctual wait ⟨k, loose, batch⟩) : Punctual wait ⟨k.endTurn, loose, batch⟩ :=
  h.of_scheduler (List.Sublist.refl _) rfl id

theorem step {l : List Mark} (h : Punctual wait s) (hs : Step wait s l s') : Punctual wait s' := by
  cases hs with
  | act ha => exact h.act ha
  | pass loose batch hready htask => exact h.of_scheduler (List.Sublist.refl _) rfl id
  | turn loose batch hidle hready htask =>
      exact (h.evict htask).of_scheduler (List.Sublist.refl _) rfl id
  | finish batch hrunning hnone => exact h.endTurn
  | @park k loose batch id task hrunning hmarked hnone =>
      refine h.of_scheduler (List.Sublist.refl _) rfl ?_
      rintro me w (hheld | ⟨e, he, hme, hw⟩)
      · exact .inl (Multiset.mem_add.mpr (.inr hheld))
      · rcases Table.mem_insertSorted he with rfl | hold
        · exact .inl (Multiset.mem_add.mpr (.inl (mem_held.mpr ⟨hme, hw⟩)))
        · exact .inr ⟨e, hold, hme, hw⟩
  | giveUp batch w hrunning hmarked hnone => exact h.endTurn.giveUp
  | take loose batch hdue =>
      obtain ⟨-, hagenda, -, hnext, -⟩ := Scheduler.takeDue_spec hdue
      have htasks := congrArg Roster.tasks (Scheduler.roster_takeDue hdue).1
      refine h.of_scheduler ?_ hnext (engaged_of_tasks htasks id)
      simp only [Scheduler.dates, hagenda, List.map_append]
      exact List.sublist_append_right _ _
  | @fire k loose batch e me hdue =>
      have ha := k.scheduler.alike_fire e.seq me
      refine h.of_scheduler (ha.dates ▸ List.Sublist.refl _) ha.nextSeq (engaged_of_tasks ?_ id)
      cases me <;> rfl
  | callback k loose batch e => exact h.of_scheduler (List.Sublist.refl _) rfl id
  | tick k loose batch now stopped => exact h.of_scheduler (List.Sublist.refl _) rfl id
  | disband loose batch hidle =>
      refine h.of_scheduler (List.Sublist.refl _) rfl ?_
      rintro me w (hheld | ⟨e, he, -⟩)
      · rcases Multiset.mem_add.mp hheld with hmine | hloose
        · obtain ⟨e, he, hmem⟩ := mem_heldBy.mp hmine
          obtain ⟨rfl, hw⟩ := mem_held.mp hmem
          exact .inr ⟨e, he, rfl, hw⟩
        · exact .inl hloose
      · cases he
  | clear loose batch hidle => exact h.of_scheduler (List.nil_sublist _) rfl id

theorem run {l : List Mark} (h : Punctual wait s) (hrun : Run wait s l s') : Punctual wait s' := by
  induction hrun with
  | nil => exact h
  | cons hstep _ ih => exact ih (h.step hstep)

end Punctual

end Executor

def Wait.Other (kept : Nat → Prop) (w : Wait) : Prop :=
  ∀ n, w.ticket? = some (.agenda, n) → ¬ kept n

theorem Wait.Other.of_new {kept : Nat → Prop} {w : Wait} (h : w.ticket? = none) :
    w.Other kept := by
  simp [Other, h]

namespace Scheduler

variable {κ τ : Type} {s s₁ s' : Scheduler κ τ} {kept : Nat → Prop}

/-- The clock and the turn stay, and so do some entries, whether their sleepers were woken, and the
tasks that there are. -/
structure Passes (kept : Nat → Prop) (s s' : Scheduler κ τ) : Prop where
  now : s'.now = s.now
  running : s'.running = s.running
  cancelled : s'.cancelled = s.cancelled
  ready : s.ready <+: s'.ready
  entry : ∀ {e}, e ∈ s.agenda → kept e.seq → e ∈ s'.agenda
  fired : ∀ {n}, kept n → (n ∈ s'.fired ↔ n ∈ s.fired)
  nextSeq : s.nextSeq ≤ s'.nextSeq
  tasks : ∀ {id}, id < s.nextTask → s'.tasks.get? id = s.tasks.get? id
  nextTask : s.nextTask ≤ s'.nextTask

namespace Passes

theorem refl (kept : Nat → Prop) (s : Scheduler κ τ) : s.Passes kept s :=
  ⟨rfl, rfl, rfl, List.prefix_rfl, fun he _ => he, fun _ => Iff.rfl, Nat.le_refl _, fun _ => rfl,
    Nat.le_refl _⟩

theorem trans (h : s.Passes kept s₁) (h₁ : s₁.Passes kept s') : s.Passes kept s' where
  now := h₁.now.trans h.now
  running := h₁.running.trans h.running
  cancelled := h₁.cancelled.trans h.cancelled
  ready := h.ready.trans h₁.ready
  entry he hkept := h₁.entry (h.entry he hkept) hkept
  fired hkept := (h₁.fired hkept).trans (h.fired hkept)
  nextSeq := Nat.le_trans h.nextSeq h₁.nextSeq
  tasks hid := (h₁.tasks (Nat.lt_of_lt_of_le hid h.nextTask)).trans (h.tasks hid)
  nextTask := Nat.le_trans h.nextTask h₁.nextTask

theorem of_ready {ready : List Nat} (h : s.ready <+: ready) :
    s.Passes kept { s with ready := ready } :=
  ⟨rfl, rfl, rfl, h, fun he _ => he, fun _ => Iff.rfl, Nat.le_refl _, fun _ => rfl, Nat.le_refl _⟩

theorem wake (s : Scheduler κ τ) (w : Waker) : s.Passes kept (s.wake w) := by
  cases w with
  | nobody => exact .refl kept s
  | task id => exact .of_ready (List.prefix_append _ _)

theorem wakeAll (s : Scheduler κ τ) (ws : List Waker) : s.Passes kept (s.wakeAll ws) := by
  induction ws generalizing s with
  | nil => exact .refl kept s
  | cons w ws ih => exact (wake s w).trans (ih _)

theorem spawn (s : Scheduler κ τ) (task : τ) : s.Passes kept (s.spawn task).1 where
  now := rfl
  running := rfl
  cancelled := rfl
  ready := List.prefix_append _ _
  entry he _ := he
  fired _ := Iff.rfl
  nextSeq := Nat.le_refl _
  tasks hid := Table.get?_insert_of_ne _ (Nat.ne_of_lt hid) task
  nextTask := Nat.le_succ _

theorem schedule (s : Scheduler κ τ) (delay : Nat) (due : Due κ) :
    s.Passes kept (s.schedule delay due).1 where
  now := rfl
  running := rfl
  cancelled := rfl
  ready := List.prefix_rfl
  entry he _ := (insertEntry_perm _ _).mem_iff.mpr (List.mem_cons_of_mem _ he)
  fired _ := Iff.rfl
  nextSeq := Nat.le_succ _
  tasks _ := rfl
  nextTask := Nat.le_refl _

theorem mem_fired_filter {l : List Nat} {n seq : Nat} (h : ¬ kept seq) (hn : kept n) :
    n ∈ l.filter (· ≠ seq) ↔ n ∈ l := by
  have hne : n ≠ seq := by
    rintro rfl
    exact h hn
  simp [hne]

theorem abandonSleep (s : Scheduler κ τ) {entry : Option Nat} (h : ∀ n, entry = some n → ¬ kept n) :
    s.Passes kept (s.abandonSleep entry) := by
  cases entry with
  | none => exact .refl kept s
  | some seq =>
      refine ⟨rfl, rfl, rfl, List.prefix_rfl, fun {e} he hkept => ?_, mem_fired_filter (h seq rfl),
        Nat.le_refl _, fun _ => rfl, Nat.le_refl _⟩
      have hne : e.seq ≠ seq := fun heq => h seq rfl (heq ▸ hkept)
      exact List.mem_filter.mpr ⟨he, by simp [hne]⟩

theorem pollSleep (s : Scheduler κ τ) (delay : Nat) {entry : Option Nat}
    (h : ∀ n, entry = some n → ¬ kept n) (w : Waker) :
    s.Passes kept (s.pollSleep delay entry w).scheduler := by
  cases entry with
  | none => exact .schedule s delay _
  | some seq =>
      simp only [Scheduler.pollSleep]
      split
      · exact ⟨rfl, rfl, rfl, List.prefix_rfl, fun he _ => he, mem_fired_filter (h seq rfl),
          Nat.le_refl _, fun _ => rfl, Nat.le_refl _⟩
      · refine ⟨rfl, rfl, rfl, List.prefix_rfl, fun {e} he hkept => ?_, fun _ => Iff.rfl,
          Nat.le_refl _, fun _ => rfl, Nat.le_refl _⟩
        have hne : e.seq ≠ seq := fun heq => h seq rfl (heq ▸ hkept)
        exact List.mem_map.mpr ⟨e, he, if_neg hne⟩

end Passes

end Scheduler

namespace Kernel

variable {κ ε τ : Type} (k : Kernel κ ε τ) {kept : Nat → Prop}

theorem passes_wake? (w : Option Waker) : k.scheduler.Passes kept (k.wake? w).scheduler :=
  .wakeAll _ _

theorem passes_poll (me : Waker) {w : Wait} (h : w.Other kept) :
    k.scheduler.Passes kept (k.poll me w).1.scheduler := by
  cases w with
  | sleep delay entry =>
      have hentry (n : Nat) (hn : entry = some n) : ¬ kept n := by
        subst hn
        exact h n rfl
      have hsleep := Scheduler.Passes.pollSleep k.scheduler delay hentry me
      simp only [poll]
      cases hpoll : k.scheduler.pollSleep delay entry me with
      | «over» s =>
          rw [hpoll] at hsleep
          exact hsleep
      | waiting n s =>
          rw [hpoll] at hsleep
          exact hsleep
  | get id ticket =>
      simp only [poll]
      split
      · exact passes_wake? (k.setChannel id _) _
      · exact .refl kept _
  | put id v ticket =>
      simp only [poll]
      split
      · exact passes_wake? (k.setChannel id _) _
      · exact .refl kept _
  | acquire id ticket =>
      simp only [poll]
      split <;> exact .refl kept _
  | event id start ticket =>
      simp only [poll]
      split <;> exact .refl kept _

theorem passes_abandon {w : Wait} (h : w.Other kept) :
    k.scheduler.Passes kept (k.abandon w).scheduler := by
  cases w with
  | sleep delay entry =>
      refine .abandonSleep k.scheduler fun n hn => ?_
      subst hn
      exact h n rfl
  | get id ticket => exact passes_wake? (k.setChannel id _) _
  | put id v ticket => exact passes_wake? (k.setChannel id _) _
  | acquire id ticket => exact passes_wake? (k.setLock id _) _
  | event id start ticket => exact .refl kept _

theorem passes_giveUp {w? : Option Wait} (h : ∀ w, w? = some w → w.Other kept) :
    k.scheduler.Passes kept (k.giveUp w?).scheduler := by
  cases w? with
  | none => exact .refl kept _
  | some w => exact k.passes_abandon (h w rfl)

end Kernel

end Clockwork
