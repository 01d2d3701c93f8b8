namespace Clockwork

variable {α : Type} [DecidableEq α]

/-- What a list collects of the items that were not seen before. -/
theorem mem_foldl_unseen (seen added l : List α) (x : α) :
    x ∈ added.foldl (fun l x => if x ∈ seen ++ l then l else l ++ [x]) l ↔
      x ∈ l ∨ (x ∈ added ∧ x ∉ seen) := by
  induction added generalizing l with
  | nil => simp
  | cons y added ih =>
      rw [List.foldl_cons, ih, List.mem_cons]
      split
      · rename_i hy
        constructor
        · rintro (hx | ⟨hx, hnew⟩)
          · exact .inl hx
          · exact .inr ⟨.inr hx, hnew⟩
        · rintro (hx | ⟨rfl | hx, hnew⟩)
          · exact .inl hx
          · exact .inl ((List.mem_append.mp hy).resolve_left hnew)
          · exact .inr ⟨hx, hnew⟩
      · rename_i hy
        rw [List.mem_append, List.mem_singleton]
        constructor
        · rintro ((hx | rfl) | ⟨hx, hnew⟩)
          · exact .inl hx
          · exact .inr ⟨.inl rfl, fun hseen => hy (List.mem_append_left _ hseen)⟩
          · exact .inr ⟨.inr hx, hnew⟩
        · rintro (hx | ⟨rfl | hx, hnew⟩)
          · exact .inl (.inl hx)
          · exact .inl (.inr rfl)
          · exact .inr ⟨hx, hnew⟩

theorem nodup_foldl_unseen (seen added : List α) {l : List α} (h : l.Nodup) :
    (added.foldl (fun l x => if x ∈ seen ++ l then l else l ++ [x]) l).Nodup := by
  induction added generalizing l with
  | nil => exact h
  | cons y added ih =>
      rw [List.foldl_cons]
      apply ih
      split
      · exact h
      · rename_i hy
        rw [List.nodup_append]
        refine ⟨h, by simp, ?_⟩
        rintro a ha b hb rfl
        exact hy (List.mem_append_right _ (List.mem_singleton.mp hb ▸ ha))

theorem mem_foldl_note (added l : List α) (x : α) :
    x ∈ added.foldl (fun l x => if x ∈ l then l else l ++ [x]) l ↔ x ∈ l ∨ x ∈ added := by
  simpa using mem_foldl_unseen [] added l x

theorem nodup_foldl_note (added : List α) {l : List α} (h : l.Nodup) :
    (added.foldl (fun l x => if x ∈ l then l else l ++ [x]) l).Nodup := by
  simpa using nodup_foldl_unseen [] added h

variable {ε α β : Type}

theorem isOk_iff {x : Except ε α} : x.isOk = true ↔ ∃ a, x = .ok a := by
  cases x <;> simp [Except.isOk, Except.toBool]

theorem bind_eq_ok {x : Except ε α} {f : α → Except ε β} {b : β}
    (h : x >>= f = .ok b) : ∃ a, x = .ok a ∧ f a = .ok b := by
  cases x with
  | error e => cases h
  | ok a => exact ⟨a, rfl, h⟩

theorem mapM_cons_eq_ok {g : α → Except ε β} {a : α} {l : List α} {l' : List β}
    (h : (a :: l).mapM g = .ok l') : ∃ b l₁, g a = .ok b ∧ l.mapM g = .ok l₁ ∧ l' = b :: l₁ := by
  rw [List.mapM_cons] at h
  obtain ⟨b, hb, h⟩ := bind_eq_ok h
  obtain ⟨l₁, hl₁, h⟩ := bind_eq_ok h
  cases h
  exact ⟨b, l₁, hb, hl₁, rfl⟩

theorem mem_of_mapM_ok {g : α → Except ε β} {l : List α} {l' : List β}
    (h : l.mapM g = .ok l') {b : β} : b ∈ l' ↔ ∃ a ∈ l, g a = .ok b := by
  induction l generalizing l' with
  | nil =>
      cases h
      simp
  | cons a l ih =>
      obtain ⟨b₁, l₁, hb₁, hl₁, rfl⟩ := mapM_cons_eq_ok h
      rw [List.mem_cons, ih hl₁]
      simp [hb₁, eq_comm]

theorem exists_of_mapM_ok {g : α → Except ε β} {l : List α} {l' : List β}
    (h : l.mapM g = .ok l') {a : α} (ha : a ∈ l) : ∃ b, g a = .ok b := by
  induction l generalizing l' with
  | nil => cases ha
  | cons a₁ l ih =>
      obtain ⟨b₁, l₁, hb₁, hl₁, rfl⟩ := mapM_cons_eq_ok h
      rcases List.mem_cons.mp ha with rfl | ha
      · exact ⟨b₁, hb₁⟩
      · exact ih hl₁ ha

theorem mapM_eq_ok {g : α → Except ε β} {f : α → β} {l : List α}
    (h : ∀ a ∈ l, g a = .ok (f a)) : l.mapM g = .ok (l.map f) := by
  induction l with
  | nil => rfl
  | cons a l ih =>
      rw [List.mapM_cons, h a (by simp), ih fun b hb => h b (List.mem_cons_of_mem a hb)]
      rfl

/-- A computation comes to a result or fails, either way with something known of it. -/
def Ends (failed : ε → Prop) (done : α → Prop) : Except ε α → Prop
  | .ok a => done a
  | .error e => failed e

variable {failed : ε → Prop} {done : α → Prop} {done' : β → Prop}

theorem Ends.of_cases {x : Except ε α} (hfailed : ∀ e, x = .error e → failed e)
    (hdone : ∀ a, x = .ok a → done a) : Ends failed done x := by
  cases x with
  | ok a => exact hdone a rfl
  | error e => exact hfailed e rfl

theorem Ends.either (x : Except ε α) : Ends (fun _ => True) (fun _ => True) x := by
  cases x <;> trivial

theorem Ends.bind {x : Except ε α} {f : α → Except ε β} (hx : Ends failed done x)
    (hf : ∀ a, done a → Ends failed done' (f a)) : Ends failed done' (x >>= f) := by
  cases x with
  | ok a => exact hf a hx
  | error e => exact hx

theorem Ends.mono {x : Except ε α} (hx : Ends failed done x) {done' : α → Prop}
    (hdone : ∀ a, done a → done' a) : Ends failed done' x := by
  cases x with
  | ok a => exact hdone a hx
  | error e => exact hx

theorem Ends.mapM {g : α → Except ε β} {l : List α}
    (hg : ∀ a ∈ l, Ends failed (fun _ => True) (g a)) :
    Ends failed (fun _ => True) (l.mapM g) := by
  induction l with
  | nil => exact trivial
  | cons a l ih =>
      rw [List.mapM_cons]
      refine (hg a List.mem_cons_self).bind fun b _ => ?_
      exact (ih fun a ha => hg a (List.mem_cons_of_mem _ ha)).bind fun _ _ => trivial

end Clockwork
