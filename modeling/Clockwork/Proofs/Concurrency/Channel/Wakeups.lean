import Clockwork.Proofs.Concurrency.Channel.Traffic
/-!
Channels lose no wakeup: as long as a get is queued, there are not more items than gets that were
woken and did not react yet, and likewise for puts and room (`no_wakeup_lost`). Tries and new
requests may take what a request was woken for, and a request may be dropped after it was woken;
the count holds all the same, since the one finds its queue again and the other passes the wakeup
on.

Those who wait are woken in the order in which they began to wait, but for one thing: one who was
woken and found nothing goes back to the front of the queue, so two of them that go back one after
the other end up in the wrong order (`wake_order`).
-/

namespace Clockwork

open scoped List

namespace Line

/-- As long as somebody is queued, there is not more to have than parties were woken for. -/
def Served (l : Line) : Prop := l.queue ≠ [] → l.supply ≤ l.out.length

theorem queue_ne_nil_of_tail {l : List Nat} (h : l.tail ≠ []) : l ≠ [] := by
  rintro rfl
  exact h rfl

theorem queue_ne_nil_of_without {t : Option Nat} {l : List Nat} (h : without t l ≠ []) :
    l ≠ [] := by
  rintro rfl
  exact h (without_nil t)

theorem Move.served {l l' : Line} (h : l.Move l') (hl : l.Sound) (hs : l.Served) : l'.Served := by
  cases h with
  | others h => exact fun hq => h.trans (hs hq)
  | wake =>
      -- What there is grows by one, and so do those who are told of it.
      intro hq
      obtain ⟨t, rest, hcons⟩ := List.exists_cons_of_ne_nil (queue_ne_nil_of_tail hq)
      have hle := hs (by simp [hcons])
      simpa [hcons] using add_le_add_left hle 1
  | finish t hlive h =>
      intro hq
      have hle := hs (queue_ne_nil_of_without hq)
      rw [h] at hle
      have hlen : (l.out.length : ℕ∞) ≤ (without t l.out).length + 1 := by
        exact_mod_cast length_le_without hl.nodup_out
      exact (ENat.add_le_add_iff_right ENat.one_ne_top).mp (hle.trans hlen)
  | enter hlive h => exact fun _ => h.le.trans zero_le
  | back t ht h => exact fun _ => h.le.trans zero_le
  | quit t hlive h =>
      intro hq
      rcases h with hin | h
      · have hout : without t l.out = l.out := by
          cases t with
          | none => rfl
          | some t => exact without_of_not_mem (hl.not_mem_out (hin t rfl))
        have hle := hs (queue_ne_nil_of_without hq)
        simpa [hout] using hle
      · exact h.le.trans zero_le
  | pass t ht hlive =>
      -- The one who leaves is replaced by the next one in the queue.
      intro hq
      obtain ⟨u, rest, hcons⟩ := List.exists_cons_of_ne_nil (queue_ne_nil_of_tail hq)
      have hlen : (l.out.length : ℕ∞) ≤ (without (some t) l.out).length + 1 := by
        exact_mod_cast length_le_without hl.nodup_out
      have hle := (hs (by simp [hcons])).trans hlen
      simpa [hcons] using hle

end Line

namespace Channel.Traffic

variable {α : Type}

/-- How many of the gets in progress were woken, and neither polled nor dropped since. -/
def wokenGetters (s : Traffic α) : Nat :=
  s.requests.countP fun r => r.getTicket?.any (· ∈ s.getters.out)

/-- How many of the puts in progress were woken, and neither polled nor dropped since. -/
def wokenPutters (s : Traffic α) : Nat :=
  s.requests.countP fun r => r.putTicket?.any (· ∈ s.putters.out)

theorem Sound.wokenGetters_eq {s : Traffic α} (h : s.Sound) :
    s.wokenGetters = s.getters.out.length := by
  rw [wokenGetters, countP_any]
  exact h.get.countP_out

theorem Sound.wokenPutters_eq {s : Traffic α} (h : s.Sound) :
    s.wokenPutters = s.putters.out.length := by
  rw [wokenPutters, countP_any]
  exact h.put.countP_out

theorem run_served (capacity : Nat) (acts : List (Action α)) :
    (run capacity acts).getLine.Served ∧ (run capacity acts).putLine.Served := by
  induction acts using List.reverseRecOn with
  | nil => exact ⟨fun h => absurd rfl h, fun h => absurd rfl h⟩
  | append_singleton acts a ih =>
      have hs := sound_run capacity acts
      have hmoves := run_moves capacity acts a
      exact ⟨hmoves.get.served hs.get ih.1, hmoves.put.served hs.put ih.2⟩

theorem pos_of_le {m : ℕ∞} {n : Nat} (h : m ≤ n) (hm : m ≠ 0) : 0 < n := by
  exact_mod_cast lt_of_lt_of_le (pos_iff_ne_zero.mpr hm) h

/-- As long as a get is queued, every item has a get that was woken for it; as long as a put is
queued, every free place has a put that was woken for it. -/
theorem no_wakeup_lost (capacity : Nat) (acts : List (Action α)) :
    let s := run capacity acts
    (s.channel.getters.waiting ≠ [] → s.channel.stock ≤ s.wokenGetters) ∧
      (s.channel.putters.waiting ≠ [] → s.channel.room ≤ s.wokenPutters) ∧
      (s.channel.getters.waiting ≠ [] → s.channel.hasItem = true → 0 < s.wokenGetters) ∧
      (s.channel.putters.waiting ≠ [] → s.channel.hasRoom = true → 0 < s.wokenPutters) := by
  intro s
  have hs : s.Sound := sound_run capacity acts
  obtain ⟨hget, hput⟩ := run_served capacity acts
  have hgets : s.channel.getters.waiting ≠ [] → s.channel.stock ≤ s.wokenGetters := by
    intro hq
    rw [hs.wokenGetters_eq]
    exact hget (mt WaitQueue.waiting_eq_nil_iff.mpr hq)
  have hputs : s.channel.putters.waiting ≠ [] → s.channel.room ≤ s.wokenPutters := by
    intro hq
    rw [hs.wokenPutters_eq]
    exact hput (mt WaitQueue.waiting_eq_nil_iff.mpr hq)
  refine ⟨hgets, hputs, fun hq hi => ?_, fun hq hr => ?_⟩
  · exact pos_of_le (hgets hq) (hasItem_iff.mp hi)
  · exact pos_of_le (hputs hq) (hasRoom_iff.mp hr)

/-- Two gets wait, an item comes, and one get of the two is on its way to it. -/
example :
    let s := run 1 [.get, .get, .poll 0 .nobody, .poll 1 .nobody, .tryPut 7]
    s.channel.getters.tickets = [1] ∧ s.channel.items = [7] ∧ s.wokenGetters = 1 := by
  decide

end Channel.Traffic

namespace Line

/-- The queue is in the order in which those in it began to wait. -/
def InOrder (l : Line) : Prop := l.queue.Pairwise (· < ·)

/-- Nobody who was never woken is overtaken. Those in the queue who were woken before began to wait
earlier than those who were not, and only the former may be in the wrong order. -/
structure FirstInOrder (l : Line) : Prop where
  called : ∀ t ∈ l.called, ∀ u ∈ l.queue, u ∉ l.called → t < u
  queue : l.queue.Pairwise fun t u => t < u ∨ t ∈ l.called ∧ u ∈ l.called

/-- Whoever was woken and is queued again began to wait earlier than all in the queue who were
woken before, too. -/
def BackInOrder (l l' : Line) : Prop :=
  ∀ t ∈ l.out, t ∈ l'.queue → ∀ u ∈ l.queue, u ∈ l.called → t < u

/-- What an end of a channel keeps of the order of its tickets. -/
structure Ordered (l : Line) : Prop extends FirstInOrder l where
  out : l.out ⊆ l.called
  lt_next : ∀ t ∈ l.called, t < l.next

theorem FirstInOrder.sublist {l : Line} (h : l.FirstInOrder) {queue : List Nat}
    (hq : queue.Sublist l.queue) : FirstInOrder { l with queue } :=
  ⟨fun t ht u hu => h.called t ht u (hq.subset hu), h.queue.sublist hq⟩

theorem without_sublist (t : Option Nat) (l : List Nat) : (without t l).Sublist l := by
  cases t with
  | none => exact .refl l
  | some t => exact List.filter_sublist

theorem FirstInOrder.pop {l : Line} (h : l.FirstInOrder) :
    FirstInOrder
      { l with queue := l.queue.tail, called := l.called ++ l.queue.head?.toList } := by
  rcases hq : l.queue with _ | ⟨t, rest⟩
  · exact ⟨by simp, by simp⟩
  · obtain ⟨hfirst, hrest⟩ := List.pairwise_cons.mp (hq ▸ h.queue)
    have hcalled : ∀ u ∈ rest, u ∉ l.called → ∀ v ∈ l.called, v < u := fun u hu hnew v hv =>
      h.called v hv u (by simp [hq, hu]) hnew
    refine ⟨?_, ?_⟩
    · intro v hv u hu hnew
      have hnew' : u ∉ l.called := fun hin => hnew (List.mem_append_left _ hin)
      rcases List.mem_append.mp hv with hv | hv
      · exact hcalled u hu hnew' v hv
      · obtain rfl : v = t := by simpa using hv
        exact (hfirst u hu).resolve_right fun hin => hnew' hin.2
    · refine hrest.imp fun hpair => hpair.imp id fun hin => ?_
      exact ⟨List.mem_append_left _ hin.1, List.mem_append_left _ hin.2⟩

theorem head?_subset_append {l called out : List Nat} (h : out ⊆ called) :
    out ++ l.head?.toList ⊆ called ++ l.head?.toList :=
  List.append_subset.mpr ⟨fun _ hu => List.mem_append_left _ (h hu), List.subset_append_right _ _⟩

theorem lt_next_of_called {l : Line} (hl : l.Sound) (h : ∀ t ∈ l.called, t < l.next) :
    ∀ t ∈ l.called ++ l.queue.head?.toList, t < l.next := by
  intro t ht
  rcases List.mem_append.mp ht with ht | ht
  · exact h t ht
  · refine hl.lt_of_mem_queue (List.mem_of_mem_head? ?_)
    simpa using ht

theorem Move.ordered {l l' : Line} (h : l.Move l') (hl : l.Sound) (ho : l.Ordered) :
    l'.Ordered := by
  have hout : ∀ t, without t l.out ⊆ l.called := fun t u hu =>
    ho.out ((without_sublist t l.out).subset hu)
  cases h with
  | others => exact ⟨⟨ho.called, ho.queue⟩, ho.out, ho.lt_next⟩
  | wake =>
      exact ⟨⟨ho.pop.called, ho.pop.queue⟩, head?_subset_append ho.out,
        lt_next_of_called hl ho.lt_next⟩
  | finish t hlive | quit t hlive =>
      have hfirst := ho.sublist (without_sublist t l.queue)
      exact ⟨⟨hfirst.called, hfirst.queue⟩, hout t, ho.lt_next⟩
  | enter hlive =>
      refine ⟨⟨?_, ?_⟩, ho.out, fun t ht => Nat.lt_succ_of_lt (ho.lt_next t ht)⟩
      · intro t ht u hu hnew
        rcases List.mem_append.mp hu with hu | hu
        · exact ho.called t ht u hu hnew
        · rw [List.mem_singleton.mp hu]
          exact ho.lt_next t ht
      · refine List.pairwise_append.mpr ⟨ho.queue, List.pairwise_singleton _ _, ?_⟩
        intro t ht u hu
        rw [List.mem_singleton.mp hu]
        exact .inl (hl.lt_of_mem_queue ht)
  | back t ht =>
      have hcalled := ho.out ht
      refine ⟨⟨?_, List.pairwise_cons.mpr ⟨?_, ho.queue⟩⟩, hout (some t), ho.lt_next⟩
      · intro v hv u hu hnew
        rcases List.mem_cons.mp hu with rfl | hu
        · exact absurd hcalled hnew
        · exact ho.called v hv u hu hnew
      · intro u hu
        by_cases hnew : u ∈ l.called
        · exact .inr ⟨hcalled, hnew⟩
        · exact .inl (ho.called t hcalled u hu hnew)
  | pass t ht hlive =>
      exact ⟨⟨ho.pop.called, ho.pop.queue⟩, head?_subset_append (hout (some t)),
        lt_next_of_called hl ho.lt_next⟩

theorem Move.inOrder {l l' : Line} (h : l.Move l') (hl : l.Sound) (ho : l.Ordered)
    (hi : l.InOrder) (hb : l.BackInOrder l') : l'.InOrder := by
  cases h with
  | others => exact hi
  | wake => exact hi.tail
  | finish t | quit t => exact hi.sublist (without_sublist t l.queue)
  | enter hlive =>
      refine List.pairwise_append.mpr ⟨hi, List.pairwise_singleton _ _, ?_⟩
      intro t ht u hu
      rw [List.mem_singleton.mp hu]
      exact hl.lt_of_mem_queue ht
  | back t ht =>
      refine List.pairwise_cons.mpr ⟨fun u hu => ?_, hi⟩
      by_cases hnew : u ∈ l.called
      · exact hb t ht List.mem_cons_self u hu hnew
      · exact ho.called t (ho.out ht) u hu hnew
  | pass t ht hlive => exact hi.tail

theorem Move.backInOrder {l l' : Line} (h : l.Move l') (hl : l.Sound) (hi : l'.InOrder) :
    l.BackInOrder l' := by
  intro t ht hq
  have hold : t ∉ l.queue := fun hin => hl.not_mem_out hin ht
  cases h with
  | others => exact absurd hq hold
  | wake | pass => exact absurd (List.mem_of_mem_tail hq) hold
  | finish u | quit u => exact absurd ((without_sublist u l.queue).subset hq) hold
  | enter hlive =>
      rcases List.mem_append.mp hq with hq | hq
      · exact absurd hq hold
      · rw [List.mem_singleton.mp hq] at ht
        exact absurd (hl.lt_of_mem_out ht) (Nat.lt_irrefl _)
  | back v hv =>
      rcases List.mem_cons.mp hq with rfl | hq
      · exact fun u hu _ => (List.pairwise_cons.mp hi).1 u hu
      · exact absurd hq hold

end Line

namespace Channel.Traffic

variable {α : Type}

theorem run_take_moves (capacity : Nat) (acts : List (Action α)) (n : Nat) :
    (run capacity (acts.take n)).Moves (run capacity (acts.take (n + 1))) := by
  cases h : acts[n]? with
  | none =>
      have hlen : acts.length ≤ n := List.getElem?_eq_none_iff.mp h
      rw [List.take_of_length_le hlen, List.take_of_length_le (Nat.le_succ_of_le hlen)]
      exact .refl (sound_run capacity acts)
  | some a =>
      rw [List.take_add_one, h]
      exact run_moves capacity (acts.take n) a

theorem run_ordered (capacity : Nat) (acts : List (Action α)) :
    (run capacity acts).getLine.Ordered ∧ (run capacity acts).putLine.Ordered := by
  induction acts using List.reverseRecOn with
  | nil =>
      have hget : (ofCapacity capacity : Traffic α).getLine.Ordered :=
        ⟨⟨by simp [getLine, Line.of, ofCapacity], .nil⟩, List.nil_subset _,
          by simp [getLine, Line.of, ofCapacity]⟩
      have hput : (ofCapacity capacity : Traffic α).putLine.Ordered :=
        ⟨⟨by simp [putLine, Line.of, ofCapacity], .nil⟩, List.nil_subset _,
          by simp [putLine, Line.of, ofCapacity]⟩
      exact ⟨hget, hput⟩
  | append_singleton acts a ih =>
      have hs := sound_run capacity acts
      have hmoves := run_moves capacity acts a
      exact ⟨hmoves.get.ordered hs.get ih.1, hmoves.put.ordered hs.put ih.2⟩

/-- For the first time those who wait are woken in the order in which they began to wait. The queues
are in that order at all times if and only if, whenever somebody goes back who was woken, he began
to wait earlier than all in the queue who were woken before. -/
theorem wake_order (capacity : Nat) (acts : List (Action α)) :
    let s := fun n => run capacity (acts.take n)
    (∀ n, (s n).getLine.FirstInOrder ∧ (s n).putLine.FirstInOrder) ∧
      ((∀ n, (s n).getLine.InOrder ∧ (s n).putLine.InOrder) ↔
        ∀ n, (s n).getLine.BackInOrder (s (n + 1)).getLine ∧
          (s n).putLine.BackInOrder (s (n + 1)).putLine) := by
  intro s
  have hmoves : ∀ n, (s n).Moves (s (n + 1)) := run_take_moves capacity acts
  have hsound : ∀ n, (s n).Sound := fun n => sound_run capacity (acts.take n)
  have hordered : ∀ n, (s n).getLine.Ordered ∧ (s n).putLine.Ordered :=
    fun n => run_ordered capacity (acts.take n)
  refine ⟨fun n => ⟨(hordered n).1.toFirstInOrder, (hordered n).2.toFirstInOrder⟩, ?_, ?_⟩
  · intro h n
    exact ⟨(hmoves n).get.backInOrder (hsound n).get (h (n + 1)).1,
      (hmoves n).put.backInOrder (hsound n).put (h (n + 1)).2⟩
  · intro h n
    induction n with
    | zero => exact ⟨.nil, .nil⟩
    | succ n ih =>
        exact ⟨(hmoves n).get.inOrder (hsound n).get (hordered n).1 ih.1 (h n).1,
          (hmoves n).put.inOrder (hsound n).put (hordered n).2 ih.2 (h n).2⟩

/-- Whether an action polls nobody who was woken before one who was woken earlier. -/
def inTurn (s : Traffic α) : Action α → Bool
  | .poll i _ =>
    match s.requests[i]? with
    | some (.get (some t)) => !s.getters.out.contains t || s.getters.out.head? == some t
    | some (.put _ (some t)) => !s.putters.out.contains t || s.putters.out.head? == some t
    | _ => true
  | _ => true

def allInTurn (s : Traffic α) : List (Action α) → Bool
  | [] => true
  | a :: acts => s.inTurn a && (s.step a).allInTurn acts

/-- Two gets wait, are woken by two items, and find nothing, since the items are taken from them. -/
def robbed : List (Action Nat) :=
  [.get, .get, .poll 0 .nobody, .poll 1 .nobody, .tryPut 7, .tryPut 8, .tryGet, .tryGet,
    .poll 0 .nobody, .poll 1 .nobody]

/-- Although those who were woken are polled in the order in which they were woken, the second one
to wait then stands before the first one, and is woken before it. -/
theorem robbed_in_turn_out_of_order :
    (ofCapacity 0).allInTurn robbed = true ∧ ¬ (run 0 robbed).getLine.InOrder ∧
      (run 0 robbed).getLine.queue = [1, 0] ∧
      (run 0 (robbed ++ [.tryPut 9])).getters.called = [0, 1, 1] := by
  refine ⟨by decide, fun h => ?_, by decide, by decide⟩
  have hqueue : (run 0 robbed).getLine.queue = [1, 0] := by decide
  rw [Line.InOrder, hqueue] at h
  exact absurd h (by decide)

end Channel.Traffic

end Clockwork
