import Clockwork.Table

namespace Clockwork

class StrictOrder (κ : Type) [LT κ] : Prop where
  irrefl : ∀ a : κ, ¬ a < a
  trans : ∀ {a b c : κ}, a < b → b < c → a < c
  total : ∀ {a b : κ}, ¬ a < b → a ≠ b → b < a

instance : StrictOrder Nat where
  irrefl := Nat.lt_irrefl
  trans := Nat.lt_trans
  total hlt hne := by omega

instance : StrictOrder String where
  irrefl := String.lt_irrefl
  trans := String.lt_trans
  total hlt hne := by
    rw [← String.not_le]
    intro hle
    exact hne (String.le_antisymm hle (String.not_lt.mp hlt))

namespace Table

section Lookups

variable {κ α : Type} [DecidableEq κ]

theorem get?_empty (k : κ) : (empty : Table κ α).get? k = none := rfl

@[simp] theorem get?_erase_self (t : Table κ α) (k : κ) : (t.erase k).get? k = none := by
  simp [get?, erase, List.find?_filter]

theorem get?_erase_of_ne (t : Table κ α) {k k₁ : κ} (h : k₁ ≠ k) :
    (t.erase k).get? k₁ = t.get? k₁ := by
  simp only [get?, erase, List.find?_filter]
  congr 2
  funext e
  by_cases he : e.1 = k₁
  · simp [he, h]
  · simp [he]

theorem get?_erase_eq_none {t : Table κ α} {k : κ} (h : t.get? k = none) (k' : κ) :
    (t.erase k').get? k = none := by
  by_cases hk : k = k'
  · rw [hk]
    exact t.get?_erase_self k'
  · rw [get?_erase_of_ne t hk]
    exact h

theorem mem_of_get? {t : Table κ α} {k : κ} {v : α} (h : t.get? k = some v) :
    (k, v) ∈ t.entries := by
  obtain ⟨e, hfind, rfl⟩ := Option.map_eq_some_iff.mp h
  have hkey := List.find?_some (p := fun e : κ × α => decide (e.1 = k)) hfind
  obtain rfl := of_decide_eq_true hkey
  exact List.mem_of_find?_eq_some hfind

theorem get?_ne_none_of_mem {t : Table κ α} {e : κ × α} (h : e ∈ t.entries) :
    t.get? e.1 ≠ none := by
  intro hnone
  have hfind := Option.map_eq_none_iff.mp hnone
  exact List.find?_eq_none.mp hfind e h (decide_eq_true rfl)

variable [LT κ] [DecidableLT κ]

theorem find?_insertSorted_self (k : κ) (v : α) (l : List (κ × α)) :
    (insertSorted k v l).find? (fun e => decide (e.1 = k)) = some (k, v) := by
  induction l with
  | nil => simp [insertSorted]
  | cons e l ih =>
      rcases e with ⟨k', v'⟩
      simp only [insertSorted]
      split
      · simp
      · split
        · simp
        · rename_i hne
          rw [List.find?_cons_of_neg (by simpa using fun h => hne h.symm)]
          exact ih

theorem find?_insertSorted_of_ne {k k₁ : κ} (h : k₁ ≠ k) (v : α) (l : List (κ × α)) :
    (insertSorted k v l).find? (fun e => decide (e.1 = k₁)) =
      l.find? fun e => decide (e.1 = k₁) := by
  have hk : k ≠ k₁ := h.symm
  induction l with
  | nil => simp [insertSorted, hk]
  | cons e l ih =>
      rcases e with ⟨k', v'⟩
      simp only [insertSorted]
      split
      · simp [hk]
      · split
        · rename_i heq
          subst heq
          simp [hk]
        · rw [List.find?_cons, List.find?_cons, ih]

@[simp] theorem get?_insert_self (t : Table κ α) (k : κ) (v : α) :
    (t.insert k v).get? k = some v := by
  simp only [get?, insert, find?_insertSorted_self, Option.map_some]

theorem get?_insert_of_ne (t : Table κ α) {k k₁ : κ} (h : k₁ ≠ k) (v : α) :
    (t.insert k v).get? k₁ = t.get? k₁ := by
  simp only [get?, insert, find?_insertSorted_of_ne h]

def put (t : Table κ α) (k : κ) : Option α → Table κ α
  | some v => t.insert k v
  | none => t.erase k

theorem get?_put (t : Table κ α) (k k₁ : κ) (v : Option α) :
    (t.put k v).get? k₁ = if k₁ = k then v else t.get? k₁ := by
  by_cases h : k₁ = k
  · subst h
    cases v <;> simp [put]
  · cases v with
    | some v => simp [put, get?_insert_of_ne t h, h]
    | none => simp [put, get?_erase_of_ne t h, h]

end Lookups

section Order

variable {κ α : Type} [LT κ]

def Sorted (t : Table κ α) : Prop := t.entries.Pairwise fun a b => a.1 < b.1

theorem sorted_empty : (empty : Table κ α).Sorted := .nil

theorem Sorted.nodup [StrictOrder κ] {t : Table κ α} (h : t.Sorted) :
    (t.entries.map Prod.fst).Nodup := by
  rw [List.Nodup, List.pairwise_map]
  refine h.imp ?_
  intro a b hlt heq
  rw [heq] at hlt
  exact StrictOrder.irrefl _ hlt

theorem Sorted.nodup_entries [StrictOrder κ] {t : Table κ α} (h : t.Sorted) : t.entries.Nodup := by
  refine h.imp ?_
  intro a b hlt heq
  rw [heq] at hlt
  exact StrictOrder.irrefl _ hlt

variable [DecidableEq κ]

theorem Sorted.erase {t : Table κ α} (h : t.Sorted) (k : κ) : (t.erase k).Sorted :=
  h.sublist List.filter_sublist

theorem mem_insertSorted [DecidableLT κ] {k : κ} {v : α} {l : List (κ × α)} {e : κ × α}
    (h : e ∈ insertSorted k v l) : e = (k, v) ∨ e ∈ l := by
  induction l with
  | nil => exact .inl (by simpa [insertSorted] using h)
  | cons e' l ih =>
      obtain ⟨k', v'⟩ := e'
      simp only [insertSorted] at h
      split at h
      · exact List.mem_cons.mp h
      · split at h
        · rcases List.mem_cons.mp h with rfl | h
          · exact .inl rfl
          · exact .inr (List.mem_cons_of_mem _ h)
        · rcases List.mem_cons.mp h with rfl | h
          · exact .inr (by simp)
          · exact (ih h).imp_right (List.mem_cons_of_mem _)

variable [StrictOrder κ]

theorem pairwise_insertSorted [DecidableLT κ] (k : κ) (v : α) {l : List (κ × α)}
    (h : l.Pairwise fun a b => a.1 < b.1) :
    (insertSorted k v l).Pairwise fun a b => a.1 < b.1 := by
  induction l with
  | nil => simp [insertSorted]
  | cons e l ih =>
      obtain ⟨k', v'⟩ := e
      have hall := List.pairwise_cons.mp h
      simp only [insertSorted]
      split
      · rename_i hlt
        refine List.pairwise_cons.mpr ⟨?_, h⟩
        intro e he
        rcases List.mem_cons.mp he with rfl | he
        · exact hlt
        · exact StrictOrder.trans hlt (hall.1 e he)
      · rename_i hlt
        split
        · rename_i heq
          subst heq
          exact List.pairwise_cons.mpr hall
        · rename_i hne
          refine List.pairwise_cons.mpr ⟨?_, ih hall.2⟩
          intro e he
          rcases mem_insertSorted he with rfl | he
          · exact StrictOrder.total hlt hne
          · exact hall.1 e he

theorem Sorted.insert [DecidableLT κ] {t : Table κ α} (h : t.Sorted) (k : κ) (v : α) :
    (t.insert k v).Sorted :=
  pairwise_insertSorted k v h

theorem Sorted.put [DecidableLT κ] {t : Table κ α} (h : t.Sorted) (k : κ) (v : Option α) :
    (t.put k v).Sorted := by
  cases v with
  | some v => exact h.insert k v
  | none => exact h.erase k

theorem Sorted.get?_eq_some_iff {t : Table κ α} (h : t.Sorted) {k : κ} {v : α} :
    t.get? k = some v ↔ (k, v) ∈ t.entries := by
  obtain ⟨l⟩ := t
  change l.Pairwise (fun a b => a.1 < b.1) at h
  simp only [get?]
  induction l with
  | nil => simp
  | cons e l ih =>
      obtain ⟨k', v'⟩ := e
      obtain ⟨hall, hl⟩ := List.pairwise_cons.mp h
      by_cases heq : k' = k
      · subst heq
        have hnot : (k', v) ∉ l := fun hmem => StrictOrder.irrefl k' (hall _ hmem)
        simp [hnot, eq_comm]
      · have hne : (k, v) ≠ (k', v') := fun h => heq (congrArg Prod.fst h).symm
        simp [heq, hne, ih hl]

/-- Tables that answer every look-up alike are equal. -/
theorem Sorted.ext {t t' : Table κ α} (h : t.Sorted) (h' : t'.Sorted)
    (hget : ∀ k, t.get? k = t'.get? k) : t = t' := by
  have hmem : ∀ e, e ∈ t.entries ↔ e ∈ t'.entries := by
    rintro ⟨k, v⟩
    rw [← h.get?_eq_some_iff, ← h'.get?_eq_some_iff, hget]
  obtain ⟨l⟩ := t
  obtain ⟨l'⟩ := t'
  change l.Pairwise (fun a b => a.1 < b.1) at h
  change l'.Pairwise (fun a b => a.1 < b.1) at h'
  dsimp only at hmem
  clear hget
  congr 1
  induction l generalizing l' with
  | nil =>
      cases l' with
      | nil => rfl
      | cons e l' => exact absurd ((hmem e).mpr (by simp)) (by simp)
  | cons e l ih =>
      cases l' with
      | nil => exact absurd ((hmem e).mp (by simp)) (by simp)
      | cons e' l' =>
          obtain ⟨hall, hl⟩ := List.pairwise_cons.mp h
          obtain ⟨hall', hl'⟩ := List.pairwise_cons.mp h'
          -- The least entry of one list is the least one of the other.
          have hhead : e = e' := by
            rcases List.mem_cons.mp ((hmem e).mp (by simp)) with heq | he
            · exact heq
            · rcases List.mem_cons.mp ((hmem e').mpr (by simp)) with heq | he'
              · exact heq.symm
              · exact absurd (StrictOrder.trans (hall _ he') (hall' _ he)) (StrictOrder.irrefl _)
          subst hhead
          refine congrArg (List.cons e) (ih l' ?_ hl hl')
          intro x
          constructor
          · intro hx
            rcases List.mem_cons.mp ((hmem x).mp (List.mem_cons_of_mem _ hx)) with rfl | hx'
            · exact absurd (hall _ hx) (StrictOrder.irrefl _)
            · exact hx'
          · intro hx
            rcases List.mem_cons.mp ((hmem x).mpr (List.mem_cons_of_mem _ hx)) with rfl | hx'
            · exact absurd (hall' _ hx) (StrictOrder.irrefl _)
            · exact hx'

theorem Sorted.put_comm [DecidableLT κ] {t : Table κ α} (h : t.Sorted) {k k' : κ} (hne : k ≠ k')
    (v v' : Option α) : (t.put k v).put k' v' = (t.put k' v').put k v := by
  refine ((h.put k v).put k' v').ext ((h.put k' v').put k v) ?_
  intro k₁
  simp only [get?_put]
  by_cases hk : k₁ = k
  · rw [if_pos hk, if_pos hk, if_neg fun hk' => hne (hk.symm.trans hk')]
  · rw [if_neg hk, if_neg hk]

theorem Sorted.put_self [DecidableLT κ] {t : Table κ α} (h : t.Sorted) (k : κ) :
    t.put k (t.get? k) = t := by
  refine (h.put k _).ext h ?_
  intro k₁
  rw [get?_put]
  by_cases hk : k₁ = k
  · rw [if_pos hk, hk]
  · rw [if_neg hk]

theorem Sorted.insert_perm [DecidableLT κ] {t : Table κ α} (h : t.Sorted) (k : κ) (v : α) :
    (t.insert k v).entries.Perm ((k, v) :: (t.erase k).entries) := by
  have hnew : (k, v) ∉ (t.erase k).entries := by
    intro hmem
    exact get?_ne_none_of_mem hmem (t.get?_erase_self k)
  refine (List.perm_ext_iff_of_nodup (h.insert k v).nodup_entries
    (List.nodup_cons.mpr ⟨hnew, (h.erase k).nodup_entries⟩)).mpr ?_
  rintro ⟨k₁, v₁⟩
  rw [List.mem_cons, ← (h.insert k v).get?_eq_some_iff, ← (h.erase k).get?_eq_some_iff]
  by_cases hk : k₁ = k
  · rw [hk, get?_insert_self, get?_erase_self]
    simp [eq_comm]
  · rw [get?_insert_of_ne t hk, get?_erase_of_ne t hk]
    simp [hk]

theorem Sorted.put_get? [DecidableLT κ] {t : Table κ α} (h : t.Sorted) (k : κ) (v : Option α) :
    (t.put k v).put k (t.get? k) = t := by
  refine ((h.put k v).put k _).ext h ?_
  intro k₁
  simp only [get?_put]
  by_cases hk : k₁ = k
  · rw [if_pos hk, hk]
  · rw [if_neg hk, if_neg hk]

end Order

end Table

end Clockwork
