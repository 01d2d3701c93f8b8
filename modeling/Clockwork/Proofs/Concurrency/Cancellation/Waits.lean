import Clockwork.Proofs.Concurrency.Cancellation.Places
/-!
Calls and waits as changes of the places of a kernel. A call makes nobody wait (`Call.change`); a
poll leaves its wait known by one party at most, the one that polled (`change_poll`). A wait that is
given up is known nowhere (`change_abandon`), and what it got while it waited goes to the next one
(`abandon_passesOn`).
-/

namespace Clockwork.Kernel

variable {κ ε τ : Type} {k k' : Kernel κ ε τ} {batch : List (Entry κ)}

/-- What can be asked of a kernel at any time, besides a wait and what concerns tasks. -/
inductive Call : Kernel κ ε τ → Kernel κ ε τ → Prop
  | tryGet (k : Kernel κ ε τ) (id : Nat) : Call k (k.tryGet id).1
  | tryPut (k : Kernel κ ε τ) (id : Nat) (v : Value) : Call k (k.tryPut id v).1
  | tryAcquire (k : Kernel κ ε τ) (id : Nat) : Call k (k.tryAcquire id).1
  | release {k k' : Kernel κ ε τ} {id : Nat} : k.release id = .ok k' → Call k k'
  | setFlag (k : Kernel κ ε τ) (id : Nat) : Call k (k.setFlag id).1
  | clearFlag (k : Kernel κ ε τ) (id : Nat) : Call k (k.clearFlag id)
  | bindCallback {k : Kernel κ ε τ} {id : Nat} {c : Callback ε} {e : Event ε} :
      (k.event id).bindCallback c = .ok e → Call k (k.setEvent id e)
  | after (k : Kernel κ ε τ) (delay : Nat) (body : κ) :
      Call k { k with scheduler := k.scheduler.after delay body }
  | stop (k : Kernel κ ε τ) : Call k { k with scheduler := k.scheduler.stop }
  | addChannel (k : Kernel κ ε τ) (capacity : Nat) : Call k (k.addChannel capacity).1
  | addLock (k : Kernel κ ε τ) : Call k k.addLock.1
  | addEvent (k : Kernel κ ε τ) (detached : Bool) : Call k (k.addEvent detached).1

theorem change_of_subset
    (waiting : ∀ p, k'.waiting p ⊆ k.waiting p)
    (granted : ∀ p, k'.granted p ⊆ k.granted p)
    (tidy : ∀ {batch}, k.Tidy batch → k'.Tidy batch)
    (roster : k'.scheduler.roster = k.scheduler.roster) : k.Change k' none none where
  waiting p _ hx := .inl ⟨waiting p hx, nofun⟩
  granted p _ ht := ⟨.inl (granted p ht), nofun⟩
  tidy := tidy
  roster := roster

theorem change_channel {id : Nat} {c : Channel Value}
    (getters : c.getters.waiting ⊆ (k.channel id).getters.waiting)
    (putters : c.putters.waiting ⊆ (k.channel id).putters.waiting) :
    k.Change (k.setChannel id c) none none :=
  .ofChannel (fun _ hx => .inl ⟨getters hx, nofun⟩) (fun _ hx => .inl ⟨putters hx, nofun⟩) nofun

theorem change_event {id : Nat} {e : Event ε}
    (queue : e.queue.waiting ⊆ (k.event id).queue.waiting) :
    k.Change (k.setEvent id e) none none :=
  .ofEvent (fun _ hx => .inl ⟨queue hx, nofun⟩) nofun

theorem change_tryGet (k : Kernel κ ε τ) (id : Nat) : k.Change (k.tryGet id).1 none none := by
  cases hitems : (k.channel id).items with
  | nil =>
      simp only [tryGet, Channel.tryGet_nil hitems]
      apply Change.wake?
      exact change_channel (List.Subset.refl _) (List.Subset.refl _)
  | cons a rest =>
      simp only [tryGet, Channel.tryGet_cons hitems]
      apply Change.wake?
      exact change_channel (List.Subset.refl _) fun _ => WaitQueue.mem_pop

theorem change_tryPut (k : Kernel κ ε τ) (id : Nat) (v : Value) :
    k.Change (k.tryPut id v).1 none none := by
  cases hroom : (k.channel id).hasRoom with
  | false =>
      simp only [tryPut, Channel.tryPut_full hroom]
      exact .refl k
  | true =>
      simp only [tryPut, Channel.tryPut_room hroom]
      apply Change.wake?
      exact change_channel (fun _ => WaitQueue.mem_pop) (List.Subset.refl _)

theorem change_tryAcquire (k : Kernel κ ε τ) (id : Nat) :
    k.Change (k.tryAcquire id).1 none none := by
  cases hlocked : (k.lock id).locked with
  | false =>
      simp only [tryAcquire, Lock.tryAcquire_free hlocked]
      exact .ofLock (fun h => ⟨h.nodup, h.below⟩) (fun x hx => .inl ⟨hx, nofun⟩)
        (fun t ht => ⟨.inl ht, nofun⟩) nofun
  | true =>
      simp only [tryAcquire, Lock.tryAcquire_locked hlocked]
      exact .ofLock (fun h => h) (fun x hx => .inl ⟨hx, nofun⟩)
        (fun t ht => ⟨.inl ht, nofun⟩) nofun

theorem change_handOff {id : Nat} {l : Lock} {gone : Option (Place × Nat)}
    (numbered : (k.lock id).Numbered → l.Numbered)
    (queue : ∀ x ∈ l.queue.waiting, x ∈ k.waiting (.lock id) ∧ gone ≠ some (.lock id, x.1))
    (granted : ∀ t ∈ l.granted, t ∈ (k.lock id).granted ∧ gone ≠ some (.lock id, t))
    (away : ∀ p t, gone = some (p, t) → p = .lock id) :
    k.Change (k.setLock id l.handOff.1) gone none := by
  refine .ofLock (fun h => (numbered h).handOff) (fun x hx => .inl ?_) (fun t ht => ?_) away
  · rw [Lock.handOff_queue] at hx
    exact queue x (WaitQueue.mem_pop hx)
  · rw [Lock.handOff_granted] at ht
    rcases List.mem_append.mp ht with hfirst | hold
    · have hin : t ∈ l.queue.tickets := List.mem_of_mem_head? (Option.mem_toList.mp hfirst)
      obtain ⟨x, hx, rfl⟩ := List.mem_map.mp hin
      exact ⟨.inr (List.mem_map_of_mem (queue x hx).1), (queue x hx).2⟩
    · exact ⟨.inl (granted t hold).1, (granted t hold).2⟩

theorem change_release {id : Nat} (h : k.release id = .ok k') : k.Change k' none none := by
  cases hlocked : (k.lock id).locked with
  | false =>
      rw [release, Lock.release, hlocked] at h
      cases h
  | true =>
      rw [release, Lock.release_locked hlocked] at h
      cases h
      apply Change.wake?
      have hnone (q : Place × Nat) : none ≠ some q := (Option.some_ne_none q).symm
      exact change_handOff (fun h => h) (fun x hx => ⟨hx, hnone _⟩) (fun t ht => ⟨ht, hnone _⟩)
        fun p t heq => absurd heq (hnone _)

theorem mem_sleeper_insertEntry {e : Entry κ} {l : List (Entry κ)} {x : Nat × Waker}
    (h : x ∈ (Scheduler.insertEntry e l).filterMap Entry.sleeper?) :
    x ∈ l.filterMap Entry.sleeper? ∨ e.sleeper? = some x := by
  obtain ⟨f, hf, hx⟩ := List.mem_filterMap.mp h
  rcases List.mem_cons.mp ((Scheduler.insertEntry_perm e l).mem_iff.mp hf) with rfl | hold
  · exact .inr hx
  · exact .inl (List.mem_filterMap.mpr ⟨f, hold, hx⟩)

/-- No call makes anybody wait, and none grants a lock to somebody who did not queue for it. -/
theorem Call.change (h : k.Call k') : k.Change k' none none := by
  cases h with
  | tryGet id => exact k.change_tryGet id
  | tryPut id v => exact k.change_tryPut id v
  | tryAcquire id => exact k.change_tryAcquire id
  | release hrelease => exact change_release hrelease
  | setFlag id => exact (change_event (List.nil_subset _)).wakeAll _
  | clearFlag id => exact change_event (List.Subset.refl _)
  | bindCallback hbind =>
      apply change_event
      unfold Event.bindCallback at hbind
      split at hbind
      · cases hbind
      · cases hbind
        exact List.Subset.refl _
  | after delay body =>
      refine .ofScheduler (fun x hx => ?_) (·.schedule delay _) rfl nofun
      rcases mem_sleeper_insertEntry hx with hold | hnew
      · exact .inl ⟨hold, nofun⟩
      · cases hnew
  | stop =>
      exact .ofScheduler (fun x hx => .inl ⟨hx, nofun⟩) (fun ⟨h₁, h₂, h₃⟩ => ⟨h₁, h₂, h₃⟩) rfl nofun
  | addChannel capacity =>
      refine change_of_subset (fun p => ?_) (fun p => ?_) (fun ht => ⟨ht.locks, ht.scheduler⟩) rfl
      · cases p with
        | getters id =>
            exact getD_push_subset (·.getters.waiting) k.channels id (.ofCapacity capacity)
              (.ofCapacity 0) rfl
        | putters id =>
            exact getD_push_subset (·.putters.waiting) k.channels id (.ofCapacity capacity)
              (.ofCapacity 0) rfl
        | _ => exact List.Subset.refl _
      · cases p <;> exact List.Subset.refl _
  | addLock =>
      refine change_of_subset (fun p => ?_) (fun p => ?_) (fun ht => ⟨fun id => ?_, ht.scheduler⟩)
        rfl
      · cases p with
        | lock id => exact getD_push_subset (·.queue.waiting) k.locks id .free .free rfl
        | _ => exact List.Subset.refl _
      · cases p with
        | lock id => exact getD_push_subset (·.granted) k.locks id .free .free rfl
        | _ => exact List.Subset.refl _
      · have hlock : k.addLock.1.lock id = k.lock id ∨ k.addLock.1.lock id = .free :=
          getD_push k.locks id .free .free
        rcases hlock with h | h
        · rw [h]
          exact ht.locks id
        · rw [h]
          exact Lock.numbered_free
  | addEvent detached =>
      refine change_of_subset (fun p => ?_) (fun p => ?_) (fun ht => ⟨ht.locks, ht.scheduler⟩) rfl
      · cases p with
        | event id =>
            exact getD_push_subset (·.queue.waiting) k.events id (.ofScheduler detached)
              (.ofScheduler false) rfl
        | _ => exact List.Subset.refl _
      · cases p <;> exact List.Subset.refl _

theorem map_ticket_ne {own : Option Nat} {p p' : Place} {t : Nat}
    (h : p = p' → own ≠ some t) : own.map (p, ·) ≠ some (p', t) := by
  rintro heq
  obtain ⟨u, rfl, hu⟩ := Option.map_eq_some_iff.mp heq
  cases hu
  exact h rfl rfl

theorem place_of_map_ticket {own : Option Nat} {p p' : Place} {t : Nat}
    (h : own.map (p, ·) = some (p', t)) : p' = p := by
  obtain ⟨u, -, hu⟩ := Option.map_eq_some_iff.mp h
  cases hu
  rfl

theorem known_leave {q : WaitQueue} {own : Option Nat} {p : Place} {x : Nat × Waker}
    (h : x ∈ (q.leave own).waiting) : x ∈ q.waiting ∧ own.map (p, ·) ≠ some (p, x.1) := by
  obtain ⟨hold, hne⟩ := WaitQueue.mem_leave h
  exact ⟨hold, map_ticket_ne fun _ => hne⟩

theorem known_park {q : WaitQueue} {own : Option Nat} {p : Place} {me : Waker} {x : Nat × Waker}
    (h : x ∈ (q.park own me).1.waiting) :
    x ∈ q.waiting ∧ own.map (p, ·) ≠ some (p, x.1) ∨
      some (p, (q.park own me).2, me) = some (p, x) := by
  rcases WaitQueue.mem_park h with ⟨hold, hne⟩ | rfl
  · exact .inl ⟨hold, map_ticket_ne fun _ => hne⟩
  · exact .inr rfl

theorem known_giveUp {q : WaitQueue} {ready : Bool} {own : Option Nat} {p : Place}
    {x : Nat × Waker} (h : x ∈ (q.giveUp ready own).1.waiting) :
    x ∈ q.waiting ∧ own.map (p, ·) ≠ some (p, x.1) := by
  obtain ⟨hold, hne⟩ := WaitQueue.mem_giveUp h
  exact ⟨hold, map_ticket_ne fun _ => hne⟩

def Progress.party (me : Waker) : Progress → Option (Place × Nat × Waker)
  | .over _ => none
  | .waiting w => w.ticket?.map fun x => (x.1, x.2, me)

theorem seq_of_sleeper {e : Entry κ} {x : Nat × Waker} (h : e.sleeper? = some x) : e.seq = x.1 := by
  unfold Entry.sleeper? at h
  split at h
  · cases h
  · cases h
    rfl

theorem change_pollSleep (ht : k.Tidy batch) (me : Waker) (delay : Nat) (entry : Option Nat) :
    k.Change (k.poll me (.sleep delay entry)).1 (entry.map (.agenda, ·))
      ((k.poll me (.sleep delay entry)).2.party me) := by
  rcases entry with _ | seq
  · refine .ofScheduler (fun x hx => ?_) (·.schedule delay _) rfl nofun
    rcases mem_sleeper_insertEntry hx with hold | hnew
    · exact .inl ⟨hold, nofun⟩
    · cases hnew
      exact .inr rfl
  · by_cases hfired : seq ∈ k.scheduler.fired
    · -- The entry has left the agenda, and no other one has its number.
      simp only [poll, Scheduler.pollSleep, if_pos hfired]
      refine .ofScheduler (fun x hx => .inl ⟨hx, ?_⟩) (fun h => ?_) rfl
        (fun p t => place_of_map_ticket)
      · obtain ⟨e, he, hex⟩ := List.mem_filterMap.mp hx
        refine map_ticket_ne fun _ heq => ht.scheduler.apart e he ?_
        rw [seq_of_sleeper hex, ← Option.some.inj heq]
        exact List.mem_append_left _ hfired
      · refine h.mono (List.Sublist.refl _) (fun t hin => ?_) rfl
        rcases List.mem_append.mp hin with hin | hin
        · exact List.mem_append_left _ (List.mem_filter.mp hin).1
        · exact List.mem_append_right _ hin
    · -- The entry keeps its number and gets the waker of this poll.
      simp only [poll, Scheduler.pollSleep, if_neg hfired]
      refine .ofScheduler (fun x hx => ?_) (fun h => ?_) rfl (fun p t => place_of_map_ticket)
      · obtain ⟨e', he', hex⟩ := List.mem_filterMap.mp hx
        obtain ⟨e, he, rfl⟩ := List.mem_map.mp he'
        by_cases hseq : e.seq = seq
        · rw [if_pos hseq] at hex
          cases hex
          right
          rw [hseq]
          rfl
        · rw [if_neg hseq] at hex
          left
          refine ⟨List.mem_filterMap.mpr ⟨e, he, hex⟩, map_ticket_ne fun _ heq => hseq ?_⟩
          rw [seq_of_sleeper hex, ← Option.some.inj heq]
      · refine h.mono ?_ (List.Subset.refl _) rfl
        rw [List.map_map, List.map_congr_left fun e _ => ?_]
        show Entry.seq (if e.seq = seq then _ else e) = e.seq
        split <;> rfl

theorem change_pollGet (me : Waker) (id : Nat) (ticket : Option Nat) :
    k.Change (k.poll me (.get id ticket)).1 (ticket.map (.getters id, ·))
      ((k.poll me (.get id ticket)).2.party me) := by
  cases hitems : (k.channel id).items with
  | nil =>
      simp only [poll, Channel.pollGet_nil hitems]
      exact .ofChannel (fun x hx => known_park hx) (fun x hx => .inl ⟨hx, map_ticket_ne nofun⟩)
        (fun p t h => .inl (place_of_map_ticket h))
  | cons a rest =>
      simp only [poll, Channel.pollGet_cons hitems]
      apply Change.wake?
      exact .ofChannel (fun x hx => .inl (known_leave hx))
        (fun x hx => .inl ⟨WaitQueue.mem_pop hx, map_ticket_ne nofun⟩)
        (fun p t h => .inl (place_of_map_ticket h))

theorem change_pollPut (me : Waker) (id : Nat) (v : Value) (ticket : Option Nat) :
    k.Change (k.poll me (.put id v ticket)).1 (ticket.map (.putters id, ·))
      ((k.poll me (.put id v ticket)).2.party me) := by
  cases hroom : (k.channel id).hasRoom with
  | false =>
      simp only [poll, Channel.pollPut_full hroom]
      exact .ofChannel (fun x hx => .inl ⟨hx, map_ticket_ne nofun⟩) (fun x hx => known_park hx)
        (fun p t h => .inr (place_of_map_ticket h))
  | true =>
      simp only [poll, Channel.pollPut_room hroom]
      apply Change.wake?
      exact .ofChannel (fun x hx => .inl ⟨WaitQueue.mem_pop hx, map_ticket_ne nofun⟩)
        (fun x hx => .inl (known_leave hx)) (fun p t h => .inr (place_of_map_ticket h))

theorem change_pollAcquire (ht : k.Tidy batch) (me : Waker) (id : Nat) (ticket : Option Nat) :
    k.Change (k.poll me (.acquire id ticket)).1 (ticket.map (.lock id, ·))
      ((k.poll me (.acquire id ticket)).2.party me) := by
  rcases ticket with _ | t
  · cases hlocked : (k.lock id).locked with
    | false =>
        simp only [poll, Lock.poll_free hlocked]
        exact .ofLock (fun h => ⟨h.nodup, h.below⟩) (fun x hx => .inl ⟨hx, nofun⟩)
          (fun t ht => ⟨.inl ht, nofun⟩) nofun
    | true =>
        simp only [poll, Lock.poll_locked hlocked]
        refine .ofLock (·.enter me) (fun x hx => ?_) (fun t ht => ⟨.inl ht, nofun⟩) nofun
        rcases WaitQueue.mem_enter hx with hold | rfl
        · exact .inl ⟨hold, nofun⟩
        · exact .inr rfl
  · by_cases hgranted : t ∈ (k.lock id).granted
    · simp only [poll, Lock.poll_granted hgranted]
      refine .ofLock (·.ungrant t) (fun x hx => .inl ⟨hx, ?_⟩) (fun u hu => ?_)
        (fun p t => place_of_map_ticket)
      · refine map_ticket_ne fun _ heq => (ht.locks id).not_queued hgranted ?_
        rw [Option.some.inj heq]
        exact List.mem_map_of_mem hx
      · obtain ⟨hold, hne⟩ := List.mem_filter.mp hu
        refine ⟨.inl hold, map_ticket_ne fun _ heq => ?_⟩
        exact of_decide_eq_true hne (Option.some.inj heq).symm
    · simp only [poll, Lock.poll_not_granted hgranted]
      refine .ofLock (·.refresh t me) (fun x hx => ?_) (fun u hu => ⟨.inl hu, ?_⟩)
        (fun p t => place_of_map_ticket)
      · rcases WaitQueue.mem_refresh hx with ⟨hold, hne⟩ | rfl
        · exact .inl ⟨hold, map_ticket_ne fun _ heq => hne (Option.some.inj heq).symm⟩
        · exact .inr rfl
      · refine map_ticket_ne fun _ heq => hgranted ?_
        rwa [Option.some.inj heq]

theorem change_pollEvent (me : Waker) (id : Nat) (start ticket : Option Nat) :
    k.Change (k.poll me (.event id start ticket)).1 (ticket.map (.event id, ·))
      ((k.poll me (.event id start ticket)).2.party me) := by
  have hqueue := (k.event id).queue_poll start ticket me
  simp only [poll]
  rcases hpoll : (k.event id).poll start ticket me with e | ⟨start, t, e⟩
  · rw [hpoll] at hqueue
    exact .ofEvent (fun x hx => .inl (known_leave (hqueue ▸ hx)))
      (fun p t => place_of_map_ticket)
  · rw [hpoll] at hqueue
    refine .ofEvent (fun x hx => ?_) (fun p t => place_of_map_ticket)
    rcases hqueue x hx with ⟨hold, hne⟩ | rfl
    · exact .inl ⟨hold, map_ticket_ne fun _ => hne⟩
    · exact .inr rfl

theorem change_poll (ht : k.Tidy batch) (me : Waker) (w : Wait) :
    k.Change (k.poll me w).1 w.ticket? ((k.poll me w).2.party me) := by
  cases w with
  | sleep delay entry => exact change_pollSleep ht me delay entry
  | get id ticket => exact change_pollGet me id ticket
  | put id v ticket => exact change_pollPut me id v ticket
  | acquire id ticket => exact change_pollAcquire ht me id ticket
  | event id start ticket => exact change_pollEvent me id start ticket

theorem change_abandonGet (id : Nat) (ticket : Option Nat) :
    k.Change (k.abandon (.get id ticket)) (ticket.map (.getters id, ·)) none := by
  simp only [abandon, Channel.abandonGet_eq]
  apply Change.wake?
  exact .ofChannel (fun x hx => .inl (known_giveUp hx)) (fun x hx => .inl ⟨hx, map_ticket_ne nofun⟩)
    (fun p t h => .inl (place_of_map_ticket h))

theorem change_abandonPut (id : Nat) (v : Value) (ticket : Option Nat) :
    k.Change (k.abandon (.put id v ticket)) (ticket.map (.putters id, ·)) none := by
  simp only [abandon, Channel.abandonPut_eq]
  apply Change.wake?
  exact .ofChannel (fun x hx => .inl ⟨hx, map_ticket_ne nofun⟩) (fun x hx => .inl (known_giveUp hx))
    (fun p t h => .inr (place_of_map_ticket h))

theorem change_abandonAcquire (ht : k.Tidy batch) (id : Nat) (ticket : Option Nat) :
    k.Change (k.abandon (.acquire id ticket)) (ticket.map (.lock id, ·)) none := by
  show k.Change ((k.setLock id ((k.lock id).abandon ticket).1).wake? _) _ _
  apply Change.wake?
  rcases ticket with _ | t
  · exact .ofLock (fun h => h) (fun x hx => .inl ⟨hx, nofun⟩) (fun t ht => ⟨.inl ht, nofun⟩) nofun
  · by_cases hgranted : t ∈ (k.lock id).granted
    · rw [Lock.abandon_granted hgranted]
      refine change_handOff (·.ungrant t) (fun x hx => ⟨hx, ?_⟩) (fun u hu => ?_)
        (fun p t => place_of_map_ticket)
      · refine map_ticket_ne fun _ heq => (ht.locks id).not_queued hgranted ?_
        rw [Option.some.inj heq]
        exact List.mem_map_of_mem hx
      · obtain ⟨hold, hne⟩ := List.mem_filter.mp hu
        exact ⟨hold, map_ticket_ne fun _ heq => of_decide_eq_true hne (Option.some.inj heq).symm⟩
    · rw [Lock.abandon_not_granted hgranted]
      refine .ofLock (·.leave t) (fun x hx => .inl ?_) (fun u hu => ⟨.inl hu, ?_⟩)
        (fun p t => place_of_map_ticket)
      · obtain ⟨hold, hne⟩ := WaitQueue.mem_remove hx
        exact ⟨hold, map_ticket_ne fun _ heq => hne (Option.some.inj heq).symm⟩
      · refine map_ticket_ne fun _ heq => hgranted ?_
        rwa [Option.some.inj heq]

theorem change_abandonEvent (id : Nat) (start ticket : Option Nat) :
    k.Change (k.abandon (.event id start ticket)) (ticket.map (.event id, ·)) none := by
  rw [abandon, Event.abandon_eq]
  exact .ofEvent (fun x hx => .inl (known_leave hx)) (fun p t => place_of_map_ticket)

theorem change_abandonSleep (delay : Nat) (entry : Option Nat) :
    k.Change (k.abandon (.sleep delay entry)) (entry.map (.agenda, ·)) none := by
  rcases entry with _ | seq
  · exact .ofScheduler (fun x hx => .inl ⟨hx, nofun⟩) (fun h => h) rfl nofun
  · refine .ofScheduler (fun x hx => .inl ?_) (fun h => ?_) rfl (fun p t => place_of_map_ticket)
    · obtain ⟨e, he, hex⟩ := List.mem_filterMap.mp hx
      obtain ⟨hold, hne⟩ := List.mem_filter.mp he
      refine ⟨List.mem_filterMap.mpr ⟨e, hold, hex⟩, map_ticket_ne fun _ heq => ?_⟩
      apply of_decide_eq_true hne
      rw [seq_of_sleeper hex, Option.some.inj heq]
    · refine h.mono (List.filter_sublist.map _) (fun t hin => ?_) rfl
      rcases List.mem_append.mp hin with hin | hin
      · exact List.mem_append_left _ (List.mem_filter.mp hin).1
      · exact List.mem_append_right _ hin

theorem change_abandon (ht : k.Tidy batch) (w : Wait) :
    k.Change (k.abandon w) w.ticket? none := by
  cases w with
  | sleep delay entry => exact change_abandonSleep delay entry
  | get id ticket => exact change_abandonGet id ticket
  | put id v ticket => exact change_abandonPut id v ticket
  | acquire id ticket => exact change_abandonAcquire ht id ticket
  | event id start ticket => exact change_abandonEvent id start ticket

/-- The ticket of a wait is neither queued nor granted. -/
def Forgets (k : Kernel κ ε τ) (w : Wait) : Prop :=
  ∀ {p t}, w.ticket? = some (p, t) → t ∉ (k.waiting p).map (·.1) ∧ t ∉ k.granted p

theorem abandon_forgets (ht : k.Tidy batch) (w : Wait) : (k.abandon w).Forgets w := by
  intro p t hticket
  have hchange := change_abandon ht w
  constructor
  · intro hin
    obtain ⟨x, hx, rfl⟩ := List.mem_map.mp hin
    rcases hchange.waiting p x hx with ⟨-, hne⟩ | hcome
    · exact hne hticket
    · cases hcome
  · intro hin
    exact (hchange.granted p t hin).2 hticket

/-- The first of those who wait at a place, if there is one, leaves its queue and is woken. -/
def PassedTo (k k' : Kernel κ ε τ) (p : Place) : Prop :=
  ∀ t me rest, k.waiting p = (t, me) :: rest →
    k'.waiting p = rest ∧ k'.scheduler.ready = (k.scheduler.wake me).ready

/-- What a wait got while it waited goes to the next one: the lock that was granted to its ticket,
the item or the room that its party was woken for. An item or room that somebody else was faster to
take is nothing that could be passed on. -/
def PassesOn (k k' : Kernel κ ε τ) : Wait → Prop
  | .get c (some t) =>
    t ∉ (k.channel c).getters.tickets → (k.channel c).hasItem → k.PassedTo k' (.getters c)
  | .put c _ (some t) =>
    t ∉ (k.channel c).putters.tickets → (k.channel c).hasRoom → k.PassedTo k' (.putters c)
  | .acquire l (some t) => t ∈ (k.lock l).granted →
    k.PassedTo k' (.lock l) ∧ match k.waiting (.lock l) with
      | [] => (k'.lock l).locked = false
      | (next, _) :: _ => (k'.lock l).locked = (k.lock l).locked ∧ next ∈ (k'.lock l).granted
  | _ => True

theorem PassesOn.of_scheduler {s : Scheduler κ τ} {w : Wait}
    (h : PassesOn { k with scheduler := s } k' w) (hready : s.ready = k.scheduler.ready) :
    k.PassesOn k' w := by
  have hwake (me : Waker) : (s.wake me).ready = (k.scheduler.wake me).ready := by
    cases me with
    | nobody => exact hready
    | task id => exact congrArg (· ++ [id]) hready
  have hpassed {p : Place} (hp : PassedTo { k with scheduler := s } k' p)
      (hwaiting : Kernel.waiting { k with scheduler := s } p = k.waiting p) : k.PassedTo k' p := by
    intro t me rest hfirst
    obtain ⟨hrest, hwoken⟩ := hp t me rest (hwaiting.trans hfirst)
    exact ⟨hrest, hwoken.trans (hwake me)⟩
  cases w with
  | get id ticket =>
      cases ticket with
      | none => trivial
      | some t => exact fun hout hitem => hpassed (h hout hitem) rfl
  | put id v ticket =>
      cases ticket with
      | none => trivial
      | some t => exact fun hout hroom => hpassed (h hout hroom) rfl
  | acquire id ticket =>
      cases ticket with
      | none => trivial
      | some t => exact fun hgranted => ⟨hpassed (h hgranted).1 rfl, (h hgranted).2⟩
  | _ => trivial

theorem waiting_wakeAll (k : Kernel κ ε τ) (ws : List Waker) (p : Place) :
    (k.wakeAll ws).waiting p = k.waiting p := by
  obtain ⟨ready, hs⟩ := k.scheduler.wakeAll_eq ws
  rw [wakeAll, hs]
  exact waiting_scheduler (by rfl) p

theorem passedTo_pop {k₁ : Kernel κ ε τ} (q : WaitQueue) {p : Place}
    (hq : k.waiting p = q.waiting) (hscheduler : k₁.scheduler = k.scheduler)
    (hpop : k₁.waiting p = q.pop.1.waiting) :
    k.PassedTo (k₁.wake? (q.pop.2.map (·.2))) p := by
  intro t me rest h
  obtain ⟨next, waiting⟩ := q
  obtain rfl : waiting = (t, me) :: rest := hq.symm.trans h
  constructor
  · exact (waiting_wakeAll _ _ p).trans hpop
  · rw [← hscheduler]
    rfl

theorem abandonGet_passedTo {id t : Nat} (hout : t ∉ (k.channel id).getters.tickets)
    (hitem : (k.channel id).hasItem = true) :
    k.PassedTo (k.abandon (.get id (some t))) (.getters id) := by
  simp only [abandon, Channel.abandonGet_eq, WaitQueue.giveUp_woken hout, hitem, if_true]
  refine passedTo_pop (k.channel id).getters rfl rfl (k.read_setChannel (·.getters.waiting) ?_)
  intro hmissing
  rw [hmissing]
  rfl

theorem abandonPut_passedTo {id t : Nat} (v : Value) (hout : t ∉ (k.channel id).putters.tickets)
    (hroom : (k.channel id).hasRoom = true) :
    k.PassedTo (k.abandon (.put id v (some t))) (.putters id) := by
  simp only [abandon, Channel.abandonPut_eq, WaitQueue.giveUp_woken hout, hroom, if_true]
  refine passedTo_pop (k.channel id).putters rfl rfl (k.read_setChannel (·.putters.waiting) ?_)
  intro hmissing
  rw [hmissing]
  rfl

theorem lock_abandon_granted {id t : Nat} (hgranted : t ∈ (k.lock id).granted) :
    (k.setLock id ((k.lock id).abandon (some t)).1).lock id =
      ((k.lock id).abandon (some t)).1 := by
  rcases k.lock_setLock_self id ((k.lock id).abandon (some t)).1 with h | ⟨h, -⟩
  · exact h
  · rw [h] at hgranted
    cases hgranted

theorem abandonAcquire_passesOn {id t : Nat} :
    k.PassesOn (k.abandon (.acquire id (some t))) (.acquire id (some t)) := by
  intro hgranted
  have hafter : k.abandon (.acquire id (some t)) =
      (k.setLock id ((k.lock id).abandon (some t)).1).wake? ((k.lock id).abandon (some t)).2 := rfl
  have hlock : (k.abandon (.acquire id (some t))).lock id =
      ((k.lock id).abandon (some t)).1 := lock_abandon_granted hgranted
  have htold : ((k.lock id).abandon (some t)).2 = (k.lock id).queue.pop.2.map (·.2) := by
    rw [Lock.abandon_granted hgranted, Lock.handOff_told]
  constructor
  · rw [hafter, htold]
    refine passedTo_pop (k.lock id).queue rfl rfl ?_
    rw [waiting, lock_abandon_granted hgranted, Lock.abandon_granted hgranted, Lock.handOff_queue]
  · rw [hlock, Lock.abandon_granted hgranted, Lock.handOff_locked, Lock.handOff_granted]
    split
    · rename_i hnobody
      have hempty : (k.lock id).queue.tickets = [] := WaitQueue.waiting_eq_nil_iff.mp hnobody
      rw [hempty]
      exact Bool.and_false _
    · rename_i next me rest hsome
      have htickets : (k.lock id).queue.tickets = next :: rest.map Prod.fst :=
        congrArg (List.map Prod.fst) hsome
      rw [htickets]
      exact ⟨Bool.and_true _, List.mem_cons_self⟩

theorem abandon_passesOn (k : Kernel κ ε τ) (w : Wait) : k.PassesOn (k.abandon w) w := by
  cases w with
  | get id ticket =>
      cases ticket with
      | none => trivial
      | some t => exact abandonGet_passedTo
  | put id v ticket =>
      cases ticket with
      | none => trivial
      | some t => exact abandonPut_passedTo v
  | acquire id ticket =>
      cases ticket with
      | none => trivial
      | some t => exact abandonAcquire_passesOn
  | _ => trivial

end Clockwork.Kernel
