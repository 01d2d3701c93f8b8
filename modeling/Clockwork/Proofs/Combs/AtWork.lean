import Clockwork.Proofs.Combs.Inside
import Clockwork.Proofs.Round.Snapshot

namespace Clockwork.Machine

variable {t : Tree} {A : List Access} {id : Nat} {base own : List Frame} {m : Machine}

theorem accept_givesBack {g : Frame} {a : Activation} (hg : g.givesBack a) (c : Completion) :
    ∃ c', m.accept g c = ⟨.done c', a, m.stack, m.sim⟩ := by
  cases g with
  | returning caller | boundary name caller =>
      cases hg
      cases c <;> exact ⟨_, rfl⟩
  | _ => exact hg.elim

/-- A body goes on until its end is reached, whatever it waits for in between. -/
theorem Inside.step {name : String} {caller : Activation} {p : ProcessRef} {d : Nat}
    {rest : List Frame} {waker : Waker} {m' : Machine}
    (h : Inside t A id (.boundary name caller :: .combOver p d :: rest) m) (hl : m.Layered)
    (ht : m.sim.tree = t) (hA : ∀ a ∈ A, ∃ g, t.follow id a.path = .ok g)
    (hstep : m.step waker = .go m') (hok : m'.fault? = none)
    (hkept : .boundary name caller :: .combOver p d :: rest <:+ m'.stack) :
    Inside t A id (.boundary name caller :: .combOver p d :: rest) m' := by
  cases h with
  | runs own hs hp ho hm =>
      generalize hc : m.control = control at hp
      cases hp with
      | eval he hown =>
          simp only [Machine.step, hc] at hstep
          cases hstep
          exact Poised.eval ⟨hs, hown, ho, hm⟩ he hok
      | exec hx hown =>
          simp only [Machine.step, hc] at hstep
          cases hstep
          exact Poised.exec ⟨hs, hown, ho, hm⟩ hx hok
      | store he hown =>
          simp only [Machine.step, hc] at hstep
          cases hstep
          exact Poised.store ⟨hs, hown, ho, hm⟩ he _ hok
      | matching hp hown =>
          simp only [Machine.step, hc] at hstep
          cases hstep
          exact Poised.matchPattern ⟨hs, hown, ho, hm⟩ hp _ hok
      | seek h =>
          simp only [Machine.step, hc] at hstep
          cases hstep
          exact seek_going hs ho hm h hok
      | await hown =>
          have hposed : Poised A id _ own m := ⟨hs, hown, ho, hm⟩
          simp only [Machine.step, hc] at hstep
          rcases await_go hstep with ⟨k, v, -, rfl⟩ | ⟨k, process, rest', -, -, rfl⟩
          · exact (hposed.setSim _).complete (.value _) hok
          · cases hok
      | @done c own hown =>
          cases own with
          | nil =>
              -- Only the end of the body is left, which takes its frames away.
              rw [step_done hc hs] at hstep
              cases hstep
              have hlength := hkept.length_le
              cases c <;> exact absurd hlength (Nat.not_succ_le_self _)
          | cons f own =>
              rw [step_done hc hs] at hstep
              cases hstep
              have hposed : Poised A id (.boundary name caller :: .combOver p d :: rest) own
                  { m with stack := own ++ .boundary name caller :: .combOver p d :: rest } :=
                ⟨rfl, fun g hg => hown g (by simp [hg]), ho, hm⟩
              exact hposed.accept (hown f (by simp)) c hok
      | @found q id' f own hq hf h =>
          rw [step_done hc hs] at hstep
          cases hstep
          let m₁ : Machine :=
            { m with stack := own ++ .boundary name caller :: .combOver p d :: rest }
          exact found_going (m := m₁) rfl ho hm ht hA hq hf h hok
  | waits own a hown ho hm h =>
      rcases h.step hl ⟨p, d, by simp⟩ hstep hok with h' | ⟨s, rfl⟩
      · exact .waits own a hown ho hm h'
      · exact .runs own rfl (.done hown) ho hm
  | calls own top a g hown ho hm hs hg =>
      by_cases hend : top = [] ∧ ∃ c, m.control = .done c
      · obtain ⟨rfl, c, hc⟩ := hend
        rw [step_done hc hs] at hstep
        cases hstep
        obtain ⟨c', heq⟩ := accept_givesBack (m := { m with
          stack := own ++ .boundary name caller :: .combOver p d :: rest }) hg c
        rw [heq]
        exact .runs own rfl (.done hown) ho hm
      · have hgo : top ≠ [] ∨ ∀ c, m.control ≠ .done c := by
          by_cases hnil : top = []
          · exact .inr fun c hc => hend ⟨hnil, c, hc⟩
          · exact .inl hnil
        rcases step_above hs hgo hstep with ⟨top', hs'⟩ | ⟨_, _, e, -, -, hc⟩
        · exact .calls own top' a g hown ho hm hs' hg
        · exact absurd hc (fault?_eq_none hok e)

theorem Inside.begun {f : Function} {p : ProcessRef} (s : Simulation)
    (hpath : Stmt.byPathAll f.body = true) :
    Inside t (Stmt.accessesAll f.body) p.owner base ((f.begun p s).onto base) := by
  have hbody := Stmt.allWithin_of_accesses hpath fun _ ha => ha
  rw [Function.begun]
  cases hf : f.body with
  | nil => exact .runs [] rfl (.done (by simp)) rfl rfl
  | cons x rest =>
      rw [hf] at hbody
      refine .runs [.block rest] rfl (.exec (hbody x (by simp)) ?_) rfl rfl
      rintro g (_ | ⟨_, ⟨⟩⟩)
      exact fun y hy => hbody y (by simp [hy])

/-- Whether a machine takes a field of an instance by its name. -/
def takesName (m : Machine) : Bool :=
  match m.stack with
  | .memberOf _ :: _ | .storeMember _ _ :: _ => true
  | _ => false

theorem leads_field (hA : ∀ a ∈ A, ∃ g, t.follow id a.path = .ok g) {q : FieldPath}
    {id' index : Nat} (hq : t.Leads id q id') {slot : FieldSlot}
    (hslot : t.SignalAt ⟨id', index⟩ slot) (h : Seeking A (q ++ [index]) own) :
    ∃ a ∈ A, t.follow id a.path = .ok ⟨id', index⟩ := by
  obtain ⟨a, ha, p, hp, -⟩ := h.name (by simp)
  obtain ⟨g, hg⟩ := hA a ha
  refine ⟨a, ha, ?_⟩
  have hg' := hg
  rw [hp, List.append_assoc, hq.follow (by simp)] at hg'
  cases p with
  | nil => rw [hg, Tree.follow_single hg']
  | cons i p =>
      -- A signal is no component, so the path does not go on.
      obtain ⟨slot', child, hslot', hchild⟩ := Tree.component_of_follow (by simp) hg'
      have heq : slot = slot' := Except.ok.inj (hslot.1.symm.trans hslot')
      rw [← heq, hslot.2] at hchild
      cases hchild

/-- A body that waits for nothing takes its next step itself. -/
theorem Inside.at_work (h : Inside t A id base m) (hs : m.stack = own ++ base)
    (hown : ∀ g ∈ own, g.holdsBody = false) : Place t A id m.control own := by
  have cut : ∀ {x y : List Frame} {g : Frame}, g.holdsBody = true →
      m.stack ≠ x ++ g :: (y ++ base) := by
    intro x y g hg heq
    rw [hs, ← List.cons_append, ← List.append_assoc] at heq
    have hmem : g ∈ own := by
      rw [List.append_cancel_right heq]
      simp
    simp [hown g hmem] at hg
  cases h with
  | runs own' hs' hp =>
      rw [hs] at hs'
      rwa [List.append_cancel_right hs']
  | calls own' top a g hown' ho hm hs' hg =>
      refine absurd hs' (cut ?_)
      cases g with
      | returning | boundary => rfl
      | _ => exact hg.elim
  | waits own' a hown' ho hm h =>
      cases h with
      | engine low hs' => exact absurd hs' (cut rfl)
      | body top low name hs' =>
          refine absurd ?_ (cut (x := top) (y := low ++ .driven :: own')
            (g := .boundary name a) rfl)
          rw [hs', List.append_assoc, List.cons_append]

/-- A signal that a body reads by its position is one that its accesses name. -/
theorem Place.reads (h : Place t A id m.control own) (hs : m.stack = own ++ base)
    (hbase : ∃ name caller rest, base = .boundary name caller :: rest)
    (hA : ∀ a ∈ A, ∃ g, t.follow id a.path = .ok g) (hname : m.takesName = false)
    {below : List Frame} {g : FieldRef} {slot : FieldSlot} (hg : m.Reads below g)
    (hslot : t.SignalAt g slot) : ∃ a ∈ A, t.follow id a.path = .ok g := by
  obtain ⟨name, caller, rest, rfl⟩ := hbase
  cases hg with
  | position id' index hc hs' =>
      rw [hc] at h
      rw [hs] at hs'
      cases h with
      | done hown =>
          cases own with
          | nil => cases hs'
          | cons f own =>
              cases hs'
              have hf := hown (.fieldOf index) (by simp)
              exact hf.elim
      | found hq hf h =>
          cases hs'
          exact leads_field hA hq hslot h
  | name id' index field hc hs' => simp [takesName, hs'] at hname

/-- A field that a body writes by its position is one that its accesses name as written. -/
theorem Place.writes (h : Place t A id m.control own) (hs : m.stack = own ++ base)
    (hbase : ∃ name caller rest, base = .boundary name caller :: rest)
    (hA : ∀ a ∈ A, ∃ g, t.follow id a.path = .ok g) (hname : m.takesName = false)
    {g : FieldRef} {v : Value} (hg : m.write? = some (g, v)) :
    ∃ path, .write path ∈ A ∧ t.follow id path = .ok g := by
  obtain ⟨name, caller, rest, rfl⟩ := hbase
  obtain ⟨w, f, below, hc, hs', hw⟩ := m.eq_of_write hg
  rw [hc] at h
  rw [hs] at hs'
  cases own with
  | nil =>
      cases hs'
      cases hw
  | cons f' own =>
      cases hs'
      cases h with
      | done hown =>
          have hf := hown f (by simp)
          cases f with
          | storeField | clockEdge => exact hf.elim
          | storeMember => simp [takesName, hs] at hname
          | _ => cases hw
      | @found q id' _ _ hq hf h =>
          cases f with
          | storeField index v' =>
              obtain ⟨hmem, -⟩ := h
              obtain ⟨g', hg'⟩ := hA _ hmem
              cases hw
              refine ⟨_, hmem, ?_⟩
              have hsingle := hg'
              rw [Access.path, hq.follow (by simp)] at hsingle
              rw [Access.path, Tree.follow_single hsingle] at hg'
              exact hg'
          | fieldOf => cases hw
          | _ => cases hf

end Clockwork.Machine
