import Clockwork.Concurrency.Kernel
import Clockwork.Proofs.Concurrency.Channel.Line
import Clockwork.Proofs.Concurrency.Lock.Contest
import Clockwork.Proofs.Concurrency.Schedule.Agenda
import Mathlib.Data.List.Perm.Subperm
/-!
The places of a kernel at which somebody can be known: the agenda, the two queues of a channel, the
queue of a lock and its grants, and the queue of an event. A wait is known at one place at most, by
its ticket there; the ticket of a sleep is the number of its entry.

`Kernel.Change` bounds what an operation does to these places: at most one ticket goes, at most one
party comes, and a lock is granted to nobody but those who queued for it.
-/

namespace Clockwork

open scoped List

namespace WaitQueue

variable {q : WaitQueue} {x : Nat × Waker} {t : Nat} {w : Waker}

theorem mem_pop (h : x ∈ q.pop.1.waiting) : x ∈ q.waiting := by
  rcases q with ⟨next, _ | ⟨y, rest⟩⟩
  · exact h
  · exact List.mem_cons_of_mem y h

theorem mem_remove (h : x ∈ (q.remove t).waiting) : x ∈ q.waiting ∧ x.1 ≠ t := by
  obtain ⟨hx, hne⟩ := List.mem_filter.mp h
  exact ⟨hx, of_decide_eq_true hne⟩

theorem mem_leave {own : Option Nat} (h : x ∈ (q.leave own).waiting) :
    x ∈ q.waiting ∧ own ≠ some x.1 := by
  rcases own with _ | t
  · exact ⟨h, nofun⟩
  · obtain ⟨hx, hne⟩ := mem_remove h
    exact ⟨hx, fun heq => hne (Option.some.inj heq).symm⟩

theorem mem_refresh (h : x ∈ (q.refresh t w).waiting) :
    x ∈ q.waiting ∧ x.1 ≠ t ∨ x = (t, w) := by
  obtain ⟨y, hy, rfl⟩ := List.mem_map.mp h
  by_cases ht : y.1 = t
  · right
    exact if_pos ht
  · left
    rw [if_neg ht]
    exact ⟨hy, ht⟩

theorem mem_enter (h : x ∈ (q.enter w).1.waiting) : x ∈ q.waiting ∨ x = (q.next, w) := by
  rcases List.mem_append.mp h with hold | hnew
  · exact .inl hold
  · exact .inr (List.mem_singleton.mp hnew)

theorem ne_of_not_holds (h : ¬ q.holds t = true) (hx : x ∈ q.waiting) : x.1 ≠ t := by
  rintro rfl
  exact h (holds_iff.mpr (List.mem_map_of_mem hx))

theorem mem_park {own : Option Nat} (h : x ∈ (q.park own w).1.waiting) :
    x ∈ q.waiting ∧ own ≠ some x.1 ∨ x = ((q.park own w).2, w) := by
  rcases own with _ | t
  · rcases mem_enter h with hold | rfl
    · exact .inl ⟨hold, nofun⟩
    · exact .inr rfl
  · simp only [park] at h ⊢
    split at h
    · rename_i hheld
      rw [if_pos hheld]
      rcases mem_refresh h with ⟨hx, hne⟩ | rfl
      · exact .inl ⟨hx, fun heq => hne (Option.some.inj heq).symm⟩
      · exact .inr rfl
    · rename_i hout
      rw [if_neg hout]
      rcases List.mem_cons.mp h with rfl | hx
      · exact .inr rfl
      · exact .inl ⟨hx, fun heq => ne_of_not_holds hout hx (Option.some.inj heq).symm⟩

theorem mem_giveUp {ready : Bool} {own : Option Nat} (h : x ∈ (q.giveUp ready own).1.waiting) :
    x ∈ q.waiting ∧ own ≠ some x.1 := by
  rcases own with _ | t
  · exact ⟨h, nofun⟩
  · simp only [giveUp] at h
    split at h
    · obtain ⟨hx, hne⟩ := mem_remove h
      exact ⟨hx, fun heq => hne (Option.some.inj heq).symm⟩
    · rename_i hout
      have hx : x ∈ q.waiting := by
        split at h
        · exact mem_pop h
        · exact h
      exact ⟨hx, fun heq => ne_of_not_holds hout hx (Option.some.inj heq).symm⟩

end WaitQueue

namespace Lock

variable {l : Lock} {t : Nat} {w : Waker}

/-- Every ticket is queued once or granted once, and new ones are larger. -/
structure Numbered (l : Lock) : Prop where
  nodup : (l.queue.tickets ++ l.granted).Nodup
  below : ∀ t ∈ l.queue.tickets ++ l.granted, t < l.queue.next

namespace Numbered

theorem not_queued (h : l.Numbered) (ht : t ∈ l.granted) : t ∉ l.queue.tickets :=
  fun hq => (List.nodup_append.mp h.nodup).2.2 t hq t ht rfl

theorem mono {l' : Lock} (h : l.Numbered)
    (hsub : l'.queue.tickets ++ l'.granted <+~ l.queue.tickets ++ l.granted)
    (hnext : l'.queue.next = l.queue.next) : l'.Numbered := by
  obtain ⟨m, hperm, hm⟩ := hsub
  constructor
  · exact hperm.nodup_iff.mp (h.nodup.sublist hm)
  · intro t ht
    rw [hnext]
    exact h.below t (hm.subset (hperm.mem_iff.mpr ht))

theorem handOff (h : l.Numbered) : l.handOff.1.Numbered := by
  refine h.mono ?_ (by simp)
  rw [handOff_queue, handOff_granted, WaitQueue.tickets_pop, ← List.append_assoc]
  refine List.Perm.subperm (List.Perm.append_right _ ?_)
  exact List.perm_append_comm.trans (.of_eq (head?_append_tail l.queue.tickets))

theorem enter (h : l.Numbered) (w : Waker) :
    Numbered { l with queue := (l.queue.enter w).1 } := by
  have hperm : (l.queue.enter w).1.tickets ++ l.granted ~
      l.queue.next :: (l.queue.tickets ++ l.granted) := by
    rw [WaitQueue.tickets_enter, List.append_assoc]
    exact List.perm_middle
  constructor
  · refine hperm.nodup_iff.mpr (List.nodup_cons.mpr ⟨fun hin => ?_, h.nodup⟩)
    exact Nat.lt_irrefl _ (h.below _ hin)
  · intro t ht
    rcases List.mem_cons.mp (hperm.mem_iff.mp ht) with rfl | hin
    · exact Nat.lt_succ_self _
    · exact Nat.lt_succ_of_lt (h.below t hin)

theorem ungrant (h : l.Numbered) (t : Nat) :
    Numbered { l with granted := without (some t) l.granted } :=
  h.mono ((List.filter_sublist.append_left _).subperm) rfl

theorem refresh (h : l.Numbered) (t : Nat) (w : Waker) :
    Numbered { l with queue := l.queue.refresh t w } := by
  obtain ⟨hnodup, hbelow⟩ := h
  rw [← WaitQueue.tickets_refresh l.queue t w] at hnodup hbelow
  exact ⟨hnodup, hbelow⟩

theorem leave (h : l.Numbered) (t : Nat) : Numbered { l with queue := l.queue.remove t } := by
  refine h.mono ?_ rfl
  rw [WaitQueue.tickets_remove]
  exact (List.filter_sublist.append_right _).subperm

end Numbered

theorem numbered_free : free.Numbered := ⟨List.nodup_nil, nofun⟩

end Lock

namespace Event

variable {ε : Type}

/-- A wait that is over has left the queue; one that goes on is queued once, with the waker of the
poll. -/
theorem queue_poll (e : Event ε) (start ticket : Option Nat) (w : Waker) :
    match e.poll start ticket w with
    | .over e' => e'.queue = e.queue.leave ticket
    | .waiting _ t e' => ∀ x ∈ e'.queue.waiting,
        x ∈ e.queue.waiting ∧ ticket ≠ some x.1 ∨ x = (t, w) := by
  rcases ticket with _ | t
  · simp only [poll]
    split_ifs
    · rfl
    · intro x hx
      rcases WaitQueue.mem_enter hx with hold | rfl
      · exact .inl ⟨hold, nofun⟩
      · exact .inr rfl
  · simp only [poll]
    split_ifs with hover hheld
    · rfl
    · intro x hx
      rcases WaitQueue.mem_refresh hx with ⟨hold, hne⟩ | rfl
      · exact .inl ⟨hold, fun heq => hne (Option.some.inj heq).symm⟩
      · exact .inr rfl
    · intro x hx
      rcases List.mem_append.mp hx with hold | hnew
      · left
        exact ⟨hold, fun heq => WaitQueue.ne_of_not_holds hheld hold (Option.some.inj heq).symm⟩
      · exact .inr (List.mem_singleton.mp hnew)

theorem abandon_eq (e : Event ε) (ticket : Option Nat) :
    e.abandon ticket = { e with queue := e.queue.leave ticket } := by
  cases ticket <;> rfl

end Event

def Entry.sleeper? {κ : Type} (e : Entry κ) : Option (Nat × Waker) :=
  match e.due with
  | .callback _ => none
  | .sleeper w => some (e.seq, w)

structure Roster (τ : Type) where
  tasks : Table Nat τ
  next : Nat
  running : Option Nat
  cancelled : Bool

namespace Scheduler

variable {κ τ : Type} {s s' : Scheduler κ τ} {batch batch' : List (Entry κ)}

def roster (s : Scheduler κ τ) : Roster τ := ⟨s.tasks, s.nextTask, s.running, s.cancelled⟩

/-- The numbers of the sleeps and callbacks that left the agenda and may still be asked for. -/
def past (s : Scheduler κ τ) (batch : List (Entry κ)) : List Nat :=
  s.fired ++ batch.map Entry.seq

/-- Every entry is in the agenda once or has left it, and new ones have larger numbers. -/
structure Tidy (s : Scheduler κ τ) (batch : List (Entry κ)) : Prop where
  nodup : (s.agenda.map Entry.seq).Nodup
  apart : ∀ e ∈ s.agenda, e.seq ∉ s.past batch
  below : ∀ seq ∈ s.agenda.map Entry.seq ++ s.past batch, seq < s.nextSeq

theorem tidy_initial : (initial : Scheduler κ τ).Tidy [] := ⟨List.nodup_nil, nofun, nofun⟩

namespace Tidy

theorem mono (h : s.Tidy batch) (hagenda : s'.agenda.map Entry.seq <+ s.agenda.map Entry.seq)
    (hpast : s'.past batch' ⊆ s.past batch) (hnext : s'.nextSeq = s.nextSeq) :
    s'.Tidy batch' := by
  constructor
  · exact h.nodup.sublist hagenda
  · intro e he hin
    obtain ⟨e₁, he₁, heq⟩ := List.mem_map.mp (hagenda.subset (List.mem_map_of_mem he))
    apply h.apart e₁ he₁
    rw [heq]
    exact hpast hin
  · intro seq hseq
    rw [hnext]
    apply h.below
    rcases List.mem_append.mp hseq with hin | hin
    · exact List.mem_append_left _ (hagenda.subset hin)
    · exact List.mem_append_right _ (hpast hin)

theorem schedule (h : s.Tidy batch) (delay : Nat) (due : Due κ) :
    (s.schedule delay due).1.Tidy batch := by
  have hperm : (s.schedule delay due).1.agenda ~ ⟨s.target delay, s.nextSeq, due⟩ :: s.agenda :=
    insertEntry_perm _ _
  have hseqs := hperm.map Entry.seq
  have hnew : ∀ {l : List Nat}, (∀ seq ∈ l, seq < s.nextSeq) → s.nextSeq ∉ l :=
    fun hl hin => Nat.lt_irrefl _ (hl _ hin)
  constructor
  · refine hseqs.nodup_iff.mpr (List.nodup_cons.mpr ⟨hnew fun seq hin => ?_, h.nodup⟩)
    exact h.below seq (List.mem_append_left _ hin)
  · intro e he
    rcases List.mem_cons.mp (hperm.mem_iff.mp he) with rfl | hold
    · exact hnew fun seq hin => h.below seq (List.mem_append_right _ hin)
    · exact h.apart e hold
  · intro seq hseq
    rcases List.mem_append.mp hseq with hin | hin
    · rcases List.mem_cons.mp (hseqs.mem_iff.mp hin) with rfl | hold
      · exact Nat.lt_succ_self _
      · exact Nat.lt_succ_of_lt (h.below seq (List.mem_append_left _ hold))
    · exact Nat.lt_succ_of_lt (h.below seq (List.mem_append_right _ hin))

theorem take (h : s.Tidy batch) {due : List (Entry κ)} (hdue : s.takeDue = some (s', due))
    (hfired : s'.fired = s.fired) : s'.Tidy (batch ++ due) := by
  obtain ⟨-, hagenda, -, hnext, -⟩ := takeDue_spec hdue
  have hnodup := h.nodup
  rw [hagenda, List.map_append] at hnodup
  have hpast : s'.past (batch ++ due) = s.past batch ++ due.map Entry.seq := by
    rw [past, past, hfired, List.map_append, List.append_assoc]
  constructor
  · exact (List.nodup_append.mp hnodup).2.1
  · intro e he hin
    rw [hpast] at hin
    rcases List.mem_append.mp hin with hin | hin
    · exact h.apart e (hagenda ▸ List.mem_append_right due he) hin
    · exact (List.nodup_append.mp hnodup).2.2 _ hin _ (List.mem_map_of_mem he) rfl
  · intro seq hseq
    rw [hnext]
    apply h.below
    rw [hpast] at hseq
    rw [hagenda, List.map_append]
    simp only [List.mem_append] at hseq ⊢
    tauto

end Tidy

theorem roster_takeDue {due : List (Entry κ)} (h : s.takeDue = some (s', due)) :
    s'.roster = s.roster ∧ s'.fired = s.fired ∧ s'.ready = s.ready := by
  unfold takeDue at h
  split at h
  · cases h
  · cases h
    exact ⟨rfl, rfl, rfl⟩

theorem wakeAll_eq (s : Scheduler κ τ) (ws : List Waker) :
    ∃ ready, s.wakeAll ws = { s with ready := ready } := by
  induction ws generalizing s with
  | nil => exact ⟨s.ready, rfl⟩
  | cons w ws ih =>
      obtain ⟨ready, hrest⟩ := ih (s.wake w)
      refine ⟨ready, hrest.trans ?_⟩
      cases w <;> rfl

end Scheduler

/-- Where somebody can be known by a ticket. -/
inductive Kernel.Place where
  | agenda
  | getters (channel : Nat)
  | putters (channel : Nat)
  | lock (lock : Nat)
  | event (event : Nat)
  deriving DecidableEq, Repr

/-- Where a wait is known, and by which ticket; one that never had to wait is known nowhere. -/
def Wait.ticket? : Wait → Option (Kernel.Place × Nat)
  | .sleep _ entry => entry.map (.agenda, ·)
  | .get channel ticket => ticket.map (.getters channel, ·)
  | .put channel _ ticket => ticket.map (.putters channel, ·)
  | .acquire lock ticket => ticket.map (.lock lock, ·)
  | .event e _ ticket => ticket.map (.event e, ·)

namespace Kernel

variable {κ ε τ : Type} {k k' : Kernel κ ε τ} {batch : List (Entry κ)}

def waiting (k : Kernel κ ε τ) : Place → List (Nat × Waker)
  | .agenda => k.scheduler.agenda.filterMap Entry.sleeper?
  | .getters c => (k.channel c).getters.waiting
  | .putters c => (k.channel c).putters.waiting
  | .lock l => (k.lock l).queue.waiting
  | .event e => (k.event e).queue.waiting

/-- The tickets that a lock is granted to; nothing is granted elsewhere. -/
def granted (k : Kernel κ ε τ) : Place → List Nat
  | .lock l => (k.lock l).granted
  | _ => []

/-- The entries and the tickets of all locks are numbered apart. -/
structure Tidy (k : Kernel κ ε τ) (batch : List (Entry κ)) : Prop where
  locks : ∀ l, (k.lock l).Numbered
  scheduler : k.scheduler.Tidy batch

theorem tidy_initial : (initial : Kernel κ ε τ).Tidy [] :=
  ⟨fun _ => Lock.numbered_free, Scheduler.tidy_initial⟩

/-- The ticket `gone` goes, and the party `come` comes. -/
structure Change (k k' : Kernel κ ε τ) (gone : Option (Place × Nat))
    (come : Option (Place × Nat × Waker)) : Prop where
  waiting : ∀ p, ∀ x ∈ k'.waiting p,
    x ∈ k.waiting p ∧ gone ≠ some (p, x.1) ∨ come = some (p, x)
  granted : ∀ p, ∀ t ∈ k'.granted p,
    (t ∈ k.granted p ∨ t ∈ (k.waiting p).map (·.1)) ∧ gone ≠ some (p, t)
  tidy : ∀ {batch}, k.Tidy batch → k'.Tidy batch
  roster : k'.scheduler.roster = k.scheduler.roster

theorem getD_setIfInBounds_of_ne {α : Type} (a : Array α) {i j : Nat} (h : j ≠ i) (x d : α) :
    (a.setIfInBounds i x)[j]?.getD d = a[j]?.getD d := by
  rw [Array.getElem?_setIfInBounds_ne h.symm]

theorem getD_setIfInBounds_self {α : Type} (a : Array α) (i : Nat) (x d : α) :
    (a.setIfInBounds i x)[i]?.getD d = x ∨
      a[i]?.getD d = d ∧ (a.setIfInBounds i x)[i]?.getD d = d := by
  by_cases h : i < a.size
  · left
    simp [h]
  · right
    simp [h]

theorem getD_setIfInBounds_subset {α β : Type} (f : α → List β) (a : Array α) (i : Nat) (x d : α)
    (h : f d = []) : f ((a.setIfInBounds i x)[i]?.getD d) ⊆ f x := by
  rcases getD_setIfInBounds_self a i x d with heq | ⟨-, heq⟩
  · rw [heq]
    exact List.Subset.refl _
  · rw [heq, h]
    exact List.nil_subset _

theorem getD_push {α : Type} (a : Array α) (i : Nat) (x d : α) :
    (a.push x)[i]?.getD d = a[i]?.getD d ∨ (a.push x)[i]?.getD d = x := by
  rw [Array.getElem?_push]
  split
  · exact .inr rfl
  · exact .inl rfl

theorem getD_push_subset {α β : Type} (f : α → List β) (a : Array α) (i : Nat) (x d : α)
    (h : f x = []) : f ((a.push x)[i]?.getD d) ⊆ f (a[i]?.getD d) := by
  rcases getD_push a i x d with heq | heq
  · rw [heq]
    exact List.Subset.refl _
  · rw [heq, h]
    exact List.nil_subset _

theorem channel_setChannel_of_ne {id id' : Nat} (h : id' ≠ id) (c : Channel Value) :
    (k.setChannel id c).channel id' = k.channel id' :=
  getD_setIfInBounds_of_ne k.channels h c _

/-- A channel that there is none of cannot be stored, but it reads as one without anybody. -/
theorem read_setChannel {α : Type} (k : Kernel κ ε τ) (read : Channel Value → α) {id : Nat}
    {c : Channel Value} (hmissing : k.channel id = .ofCapacity 0 → read c = read (.ofCapacity 0)) :
    read ((k.setChannel id c).channel id) = read c := by
  have hstored : (k.setChannel id c).channel id = c ∨
      k.channel id = .ofCapacity 0 ∧ (k.setChannel id c).channel id = .ofCapacity 0 :=
    getD_setIfInBounds_self k.channels id c _
  rcases hstored with hstored | ⟨hold, hnone⟩
  · exact congrArg read hstored
  · rw [hnone, hmissing hold]

theorem lock_setLock_of_ne {id id' : Nat} (h : id' ≠ id) (l : Lock) :
    (k.setLock id l).lock id' = k.lock id' :=
  getD_setIfInBounds_of_ne k.locks h l _

theorem lock_setLock_self (k : Kernel κ ε τ) (id : Nat) (l : Lock) :
    (k.setLock id l).lock id = l ∨ k.lock id = .free ∧ (k.setLock id l).lock id = .free :=
  getD_setIfInBounds_self k.locks id l _

theorem event_setEvent_of_ne {id id' : Nat} (h : id' ≠ id) (e : Event ε) :
    (k.setEvent id e).event id' = k.event id' :=
  getD_setIfInBounds_of_ne k.events h e _

theorem waiting_scheduler {s : Scheduler κ τ} (h : s.agenda = k.scheduler.agenda) (p : Place) :
    waiting { k with scheduler := s } p = k.waiting p := by
  cases p with
  | agenda => exact congrArg (List.filterMap Entry.sleeper?) h
  | _ => rfl

@[simp] theorem granted_scheduler (s : Scheduler κ τ) (p : Place) :
    granted { k with scheduler := s } p = k.granted p := by
  cases p <;> rfl

namespace Change

variable {gone : Option (Place × Nat)} {come : Option (Place × Nat × Waker)}

theorem of_touched (touched : Place → Prop)
    (waiting : ∀ p, touched p → ∀ x ∈ k'.waiting p,
      x ∈ k.waiting p ∧ gone ≠ some (p, x.1) ∨ come = some (p, x))
    (granted : ∀ p, touched p → ∀ t ∈ k'.granted p,
      (t ∈ k.granted p ∨ t ∈ (k.waiting p).map (·.1)) ∧ gone ≠ some (p, t))
    (same : ∀ p, ¬ touched p → k'.waiting p = k.waiting p ∧ k'.granted p = k.granted p)
    (away : ∀ p t, gone = some (p, t) → touched p)
    (tidy : ∀ {batch}, k.Tidy batch → k'.Tidy batch)
    (roster : k'.scheduler.roster = k.scheduler.roster) : k.Change k' gone come := by
  constructor
  · intro p x hx
    by_cases hp : touched p
    · exact waiting p hp x hx
    · rw [(same p hp).1] at hx
      exact .inl ⟨hx, fun h => hp (away p x.1 h)⟩
  · intro p t ht
    by_cases hp : touched p
    · exact granted p hp t ht
    · rw [(same p hp).2] at ht
      exact ⟨.inl ht, fun h => hp (away p t h)⟩
  · exact tidy
  · exact roster

theorem refl (k : Kernel κ ε τ) : k.Change k none none where
  waiting _ _ hx := .inl ⟨hx, nofun⟩
  granted _ _ ht := ⟨.inl ht, nofun⟩
  tidy ht := ht
  roster := rfl

theorem wakeAll (h : k.Change k' gone come) (ws : List Waker) :
    k.Change (k'.wakeAll ws) gone come := by
  obtain ⟨ready, hs⟩ := k'.scheduler.wakeAll_eq ws
  have hk : k'.wakeAll ws = { k' with scheduler := { k'.scheduler with ready := ready } } := by
    rw [Kernel.wakeAll, hs]
  rw [hk]
  constructor
  · intro p
    rw [waiting_scheduler (by rfl)]
    exact h.waiting p
  · intro p
    rw [granted_scheduler]
    exact h.granted p
  · intro batch ht
    obtain ⟨hlocks, hnodup, hapart, hbelow⟩ := h.tidy ht
    exact ⟨hlocks, hnodup, hapart, hbelow⟩
  · exact h.roster

theorem wake? (h : k.Change k' gone come) (w : Option Waker) : k.Change (k'.wake? w) gone come :=
  h.wakeAll w.toList

theorem ofChannel {id : Nat} {c : Channel Value}
    (getters : ∀ x ∈ c.getters.waiting,
      x ∈ k.waiting (.getters id) ∧ gone ≠ some (.getters id, x.1) ∨ come = some (.getters id, x))
    (putters : ∀ x ∈ c.putters.waiting,
      x ∈ k.waiting (.putters id) ∧ gone ≠ some (.putters id, x.1) ∨ come = some (.putters id, x))
    (away : ∀ p t, gone = some (p, t) → p = .getters id ∨ p = .putters id) :
    k.Change (k.setChannel id c) gone come := by
  refine .of_touched (fun p => p = .getters id ∨ p = .putters id) ?_ ?_ ?_ away
    (fun ht => ⟨ht.locks, ht.scheduler⟩) rfl
  · rintro p (rfl | rfl) x hx
    · exact getters x (getD_setIfInBounds_subset (·.getters.waiting) k.channels id c _ rfl hx)
    · exact putters x (getD_setIfInBounds_subset (·.putters.waiting) k.channels id c _ rfl hx)
  · rintro p (rfl | rfl) t ht
    · cases ht
    · cases ht
  · intro p hp
    push Not at hp
    cases p with
    | getters id' =>
        refine ⟨congrArg (·.getters.waiting) (channel_setChannel_of_ne ?_ c), rfl⟩
        rintro rfl
        exact hp.1 rfl
    | putters id' =>
        refine ⟨congrArg (·.putters.waiting) (channel_setChannel_of_ne ?_ c), rfl⟩
        rintro rfl
        exact hp.2 rfl
    | _ => exact ⟨rfl, rfl⟩

theorem ofLock {id : Nat} {l : Lock} (numbered : (k.lock id).Numbered → l.Numbered)
    (queue : ∀ x ∈ l.queue.waiting,
      x ∈ k.waiting (.lock id) ∧ gone ≠ some (.lock id, x.1) ∨ come = some (.lock id, x))
    (granted : ∀ t ∈ l.granted,
      (t ∈ (k.lock id).granted ∨ t ∈ (k.lock id).queue.tickets) ∧ gone ≠ some (.lock id, t))
    (away : ∀ p t, gone = some (p, t) → p = .lock id) :
    k.Change (k.setLock id l) gone come := by
  refine .of_touched (· = .lock id) ?_ ?_ ?_ away ?_ rfl
  · rintro p rfl x hx
    exact queue x (getD_setIfInBounds_subset (·.queue.waiting) k.locks id l _ rfl hx)
  · rintro p rfl t ht
    exact granted t (getD_setIfInBounds_subset (·.granted) k.locks id l _ rfl ht)
  · intro p hp
    cases p with
    | lock id' =>
        have hne : id' ≠ id := by
          rintro rfl
          exact hp rfl
        rw [Kernel.waiting, Kernel.granted, lock_setLock_of_ne hne]
        exact ⟨rfl, rfl⟩
    | _ => exact ⟨rfl, rfl⟩
  · refine fun ht => ⟨fun id' => ?_, ht.scheduler⟩
    by_cases hid : id' = id
    · subst hid
      rcases k.lock_setLock_self id' l with h | ⟨-, h⟩
      · rw [h]
        exact numbered (ht.locks id')
      · rw [h]
        exact Lock.numbered_free
    · rw [lock_setLock_of_ne hid]
      exact ht.locks id'

theorem ofEvent {id : Nat} {e : Event ε}
    (queue : ∀ x ∈ e.queue.waiting,
      x ∈ k.waiting (.event id) ∧ gone ≠ some (.event id, x.1) ∨ come = some (.event id, x))
    (away : ∀ p t, gone = some (p, t) → p = .event id) :
    k.Change (k.setEvent id e) gone come := by
  refine .of_touched (· = .event id) ?_ ?_ ?_ away (fun ht => ⟨ht.locks, ht.scheduler⟩) rfl
  · rintro p rfl x hx
    exact queue x (getD_setIfInBounds_subset (·.queue.waiting) k.events id e _ rfl hx)
  · rintro p rfl t ht
    cases ht
  · intro p hp
    cases p with
    | event id' =>
        refine ⟨congrArg (·.queue.waiting) (event_setEvent_of_ne ?_ e), rfl⟩
        rintro rfl
        exact hp rfl
    | _ => exact ⟨rfl, rfl⟩

theorem ofScheduler {s : Scheduler κ τ}
    (agenda : ∀ x ∈ s.agenda.filterMap Entry.sleeper?,
      x ∈ k.waiting .agenda ∧ gone ≠ some (.agenda, x.1) ∨ come = some (.agenda, x))
    (tidy : ∀ {batch}, k.scheduler.Tidy batch → s.Tidy batch)
    (roster : s.roster = k.scheduler.roster)
    (away : ∀ p t, gone = some (p, t) → p = .agenda) :
    k.Change { k with scheduler := s } gone come := by
  refine .of_touched (· = .agenda) ?_ ?_ ?_ away (fun ht => ⟨ht.locks, tidy ht.scheduler⟩) roster
  · rintro p rfl x hx
    exact agenda x hx
  · rintro p rfl t ht
    cases ht
  · intro p hp
    cases p with
    | agenda => exact absurd rfl hp
    | _ => exact ⟨rfl, rfl⟩

end Change

end Kernel

end Clockwork
