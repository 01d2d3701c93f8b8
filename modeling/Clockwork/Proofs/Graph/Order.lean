import Clockwork.Graph.Order

namespace Clockwork.Graph

/-- Whether every edge leads to a node, and no node has more edges than there are nodes. -/
structure Closed (g : Graph) : Prop where
  bound : ∀ v w, w ∈ g.next v → w < g.size
  few : ∀ v, (g.next v).length ≤ g.size

theorem size_ofRelation (n : Nat) (edge : Nat → Nat → Bool) : (ofRelation n edge).size = n := by
  simp [size, ofRelation]

theorem next_ofRelation (n : Nat) (edge : Nat → Nat → Bool) (v : Nat) :
    (ofRelation n edge).next v =
      if v < n then ((List.range n).filter (edge v)).reverse else [] := by
  by_cases h : v < n
  · simp [next, ofRelation, h]
  · simp [next, ofRelation, h]

theorem closed_ofRelation (n : Nat) (edge : Nat → Nat → Bool) : (ofRelation n edge).Closed := by
  constructor
  · intro v w hw
    rw [next_ofRelation] at hw
    rw [size_ofRelation]
    split at hw
    · rw [List.mem_reverse, List.mem_filter, List.mem_range] at hw
      exact hw.1
    · cases hw
  · intro v
    rw [next_ofRelation, size_ofRelation]
    split
    · rw [List.length_reverse]
      exact Nat.le_trans (List.length_filter_le _ _) (Nat.le_of_eq List.length_range)
    · exact Nat.zero_le n

def unseen (g : Graph) (seen : List Nat) : Nat :=
  ((List.range g.size).filter fun v => decide (v ∉ seen)).length

theorem unseen_le (g : Graph) (seen : List Nat) : g.unseen seen ≤ g.size := by
  have h := List.length_filter_le (fun v => decide (v ∉ seen)) (List.range g.size)
  rw [List.length_range] at h
  exact h

theorem unseen_cons {g : Graph} {v : Nat} {seen : List Nat} (hv : v < g.size) (h : v ∉ seen) :
    g.unseen (v :: seen) < g.unseen seen := by
  have hmem : v ∈ (List.range g.size).filter fun w => decide (w ∉ seen) := by
    simp [hv, h]
  have hfilter : ((List.range g.size).filter fun w => decide (w ∉ v :: seen)) =
      ((List.range g.size).filter fun w => decide (w ∉ seen)).filter fun w => decide (w ≠ v) := by
    rw [List.filter_filter]
    apply List.filter_congr
    intro w _
    simp [not_or]
  rw [unseen, unseen, hfilter]
  exact List.length_filter_lt_length_iff_exists.mpr ⟨v, hmem, by simp⟩

/-- What a search that came to its end has put into the order. -/
structure Covers (stack order seen' order' : List Nat) : Prop where
  seen : ∀ v ∈ seen', v ∈ order'
  stack : ∀ v ∈ stack, v ∈ order'
  order : ∀ v ∈ order, v ∈ order'

theorem search_covers {g : Graph} (hg : g.Closed) {room : Nat} {stack seen order : List Nat}
    {seen' order' : List Nat} (h : g.search room stack seen order = .ok (seen', order'))
    (hstack : ∀ v ∈ stack, v < g.size) (hseen : ∀ v ∈ seen, v ∈ order ∨ v ∈ stack)
    (hroom : stack.length + (g.size + 1) * g.unseen seen ≤ room) :
    Covers stack order seen' order' := by
  induction room generalizing stack seen order with
  | zero =>
      have hnil : stack = [] := List.eq_nil_of_length_eq_zero (by omega)
      subst hnil
      cases h
      exact ⟨fun v hv => (hseen v hv).resolve_right (by simp), by simp, fun v hv => hv⟩
  | succ room ih =>
      rcases stack with _ | ⟨v, stack⟩
      · cases h
        exact ⟨fun v hv => (hseen v hv).resolve_right (by simp), by simp, fun v hv => hv⟩
      have hv : v < g.size := hstack v (by simp)
      have hrest : ∀ w ∈ stack, w < g.size := fun w hw => hstack w (by simp [hw])
      rw [List.length_cons] at hroom
      simp only [search] at h
      split at h
      · -- The node is met for the second time and comes to the front of the order.
        have hfront : ∀ w, w ∈ order ∨ w = v → w ∈ if v ∈ order then order else v :: order := by
          intro w hw
          split
          · rename_i hmem
            rcases hw with hw | rfl
            · exact hw
            · exact hmem
          · rcases hw with hw | rfl
            · exact List.mem_cons_of_mem _ hw
            · exact List.mem_cons_self
        have hnext := ih h hrest ?_ (by omega)
        · refine ⟨hnext.seen, ?_, fun w hw => hnext.order w (hfront w (.inl hw))⟩
          intro w hw
          rcases List.mem_cons.mp hw with rfl | hw
          · exact hnext.order w (hfront w (.inr rfl))
          · exact hnext.stack w hw
        · intro w hw
          rcases hseen w hw with hw | hw
          · exact .inl (hfront w (.inl hw))
          · rcases List.mem_cons.mp hw with rfl | hw
            · exact .inl (hfront w (.inr rfl))
            · exact .inr hw
      split at h
      · cases h
      · rename_i hnew _
        have hfewer := unseen_cons hv hnew
        have hlength : (((g.next v).filter fun w => decide (w ∉ v :: seen)).reverse ++
            v :: stack).length ≤ g.size + (stack.length + 1) := by
          have hfew := hg.few v
          have hle := List.length_filter_le (fun w => decide (w ∉ v :: seen)) (g.next v)
          rw [List.length_append, List.length_reverse, List.length_cons]
          omega
        have hmul : (g.size + 1) * g.unseen (v :: seen) + (g.size + 1) ≤
            (g.size + 1) * g.unseen seen := Nat.mul_le_mul_left (g.size + 1) hfewer
        have hnext := ih h ?_ ?_ (by omega)
        · refine ⟨hnext.seen, ?_, hnext.order⟩
          intro w hw
          exact hnext.stack w (List.mem_append_right _ hw)
        · intro w hw
          rcases List.mem_append.mp hw with hw | hw
          · rw [List.mem_reverse, List.mem_filter] at hw
            exact hg.bound v w hw.1
          · exact hstack w hw
        · intro w hw
          rcases List.mem_cons.mp hw with rfl | hw
          · exact .inr (List.mem_append_right _ List.mem_cons_self)
          · rcases hseen w hw with hw | hw
            · exact .inl hw
            · exact .inr (List.mem_append_right _ hw)

theorem foldlM_search_covers {g : Graph} (hg : g.Closed) (l : List Nat) {seen order : List Nat}
    {seen' order' : List Nat} (hl : ∀ v ∈ l, v < g.size) (hseen : ∀ v ∈ seen, v ∈ order)
    (h : l.foldlM (fun (seen, order) v =>
      if v ∈ seen then .ok (seen, order) else g.search g.searchLimit [v] seen order)
      (seen, order) = (.ok (seen', order') : Except Nat (List Nat × List Nat))) :
    Covers l order seen' order' := by
  induction l generalizing seen order with
  | nil =>
      cases h
      exact ⟨hseen, by simp, fun v hv => hv⟩
  | cons v l ih =>
      have hrest : ∀ w ∈ l, w < g.size := fun w hw => hl w (by simp [hw])
      rw [List.foldlM_cons] at h
      dsimp only at h
      by_cases hv : v ∈ seen
      · rw [if_pos hv] at h
        have hnext := ih hrest hseen h
        refine ⟨hnext.seen, ?_, hnext.order⟩
        intro w hw
        rcases List.mem_cons.mp hw with rfl | hw
        · exact hnext.order w (hseen w hv)
        · exact hnext.stack w hw
      · rw [if_neg hv] at h
        cases hsearch : g.search g.searchLimit [v] seen order with
        | error w =>
            rw [hsearch] at h
            cases h
        | ok r =>
            obtain ⟨seen₁, order₁⟩ := r
            rw [hsearch] at h
            have hroom : [v].length + (g.size + 1) * g.unseen seen ≤ g.searchLimit := by
              have hle := Nat.mul_le_mul_left (g.size + 1) (g.unseen_le seen)
              simp only [List.length_singleton, searchLimit]
              grind
            have hfirst := search_covers hg hsearch (by simpa using hl v (by simp))
              (fun w hw => .inl (hseen w hw)) hroom
            have hnext := ih hrest hfirst.seen h
            refine ⟨hnext.seen, ?_, fun w hw => hnext.order w (hfirst.order w hw)⟩
            intro w hw
            rcases List.mem_cons.mp hw with rfl | hw
            · exact hnext.order w (hfirst.stack w (by simp))
            · exact hnext.stack w hw

theorem mem_order {g : Graph} (hg : g.Closed) {order : List Nat} (h : g.order = .ok order)
    {v : Nat} (hv : v < g.size) : v ∈ order := by
  simp only [Graph.order, searchAll] at h
  cases hfold : (List.range g.size).foldlM (fun (seen, order) v =>
      if v ∈ seen then Except.ok (seen, order) else g.search g.searchLimit [v] seen order)
      (([], []) : List Nat × List Nat) with
  | error w =>
      rw [hfold] at h
      cases h
  | ok r =>
      obtain ⟨seen', order'⟩ := r
      rw [hfold] at h
      have hcovers := foldlM_search_covers hg (List.range g.size) (by simp) (by simp) hfold
      have heq : order' = order := by
        revert h
        simp only [bind, Except.bind, pure, Except.pure]
        cases g.circleIn [] order' with
        | some w => exact fun h => nomatch h
        | none => exact fun h => Except.ok.inj h
      rw [← heq]
      exact hcovers.stack v (List.mem_range.mpr hv)

end Clockwork.Graph
