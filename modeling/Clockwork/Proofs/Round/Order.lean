import Clockwork.Proofs.Machine.Marked
import Clockwork.Proofs.Round.Shape
/-!
Clocked processes one after the other. All that a process leaves in the simulation are marks at
places of its own, and it runs alike whatever marks there are elsewhere. So two processes that
write different fields may be exchanged, and what holds of two neighbours holds of every
permutation.
-/

namespace Clockwork

/-- The simulations have the same objects, tasks, cover points and log. -/
structure Simulation.SameSurroundings (s s' : Simulation) : Prop where
  kernel : s'.kernel = s.kernel
  objects : s'.objects = s.objects
  covers : s'.covers = s.covers
  log : s'.log = s.log

theorem Simulation.SameSurroundings.refl (s : Simulation) : s.SameSurroundings s :=
  ⟨rfl, rfl, rfl, rfl⟩

theorem Simulation.SameSurroundings.symm {s s' : Simulation} (h : s.SameSurroundings s') :
    s'.SameSurroundings s :=
  ⟨h.kernel.symm, h.objects.symm, h.covers.symm, h.log.symm⟩

theorem Simulation.SameSurroundings.trans {s s₁ s₂ : Simulation} (h : s.SameSurroundings s₁)
    (h₁ : s₁.SameSurroundings s₂) : s.SameSurroundings s₂ :=
  ⟨h₁.kernel.trans h.kernel, h₁.objects.trans h.objects, h₁.covers.trans h.covers,
    h₁.log.trans h.log⟩

theorem Simulation.Mild.eq_of_same {s s' : Simulation} (h : s.Mild s')
    (hs : s.SameSurroundings s') : s' = s := by
  obtain ⟨-, k, o, c, l, rfl⟩ := h
  obtain ⟨hk, ho, hc, hl⟩ := hs
  dsimp only at hk ho hc hl
  rw [hk, ho, hc, hl]

namespace Machine

/-- The states within a clocked process that was begun in the activation `a`: its body, or its
end. -/
inductive Within (p : ProcessRef) (a : Activation) : Machine → Prop
  | body (c : Control) (a' : Activation) (y : List Frame) (g : Frame) (name : String)
      (s : Simulation) (ha : a'.mode = .staged) (hy : ∀ g ∈ y, g.inBody .staged)
      (hg : g.ofProcess p) : Within p a ⟨c, a', y ++ [g, .boundary name a], s⟩
  | leaving (c : Completion) (a' : Activation) (name : String) (s : Simulation) :
      Within p a ⟨.done c, a', [.boundary name a], s⟩

/-- The marks that a step of a clocked process leaves: that of a write, or that of a pause. -/
inductive Leaves (p : ProcessRef) (m : Machine) : List Mark → Prop
  | nothing (hw : ∀ f v slot, m.write? = some (f, v) → ¬ m.sim.tree.SignalAt f slot) :
      Leaves p m []
  | write {f : FieldRef} {v : Value} {slot : FieldSlot} (hw : m.write? = some (f, v))
      (hslot : m.sim.tree.SignalAt f slot) : Leaves p m [.ofWrite f slot v]
  | pause (pause : Pause) (hw : m.write? = none) : Leaves p m [.paused p (some pause)]

/-- How a process goes on: it stays within its body or comes to its end, unless it calls back. -/
inductive Within.Next (p : ProcessRef) (a : Activation) (m : Machine) : Machine → Prop
  | within {m' : Machine} {l : List Mark} (hl : Leaves p m l) (hsim : m'.sim = m.sim.marks l)
      (hin : Within p a m') : Next p a m m'
  | value (v : Value) (hl : Leaves p m []) : Next p a m ⟨.done (.value v), a, [], m.sim⟩
  | fault (e : SimError) (hl : Leaves p m []) : Next p a m ⟨.done (.failed e), a, [], m.sim⟩
  | callback {m' : Machine} (h : 2 ≤ m'.stack.countP Frame.isBoundary) : Next p a m m'

section Steps

variable {waker : Waker} {p : ProcessRef} {a : Activation} {m m' : Machine} {k : Mark}

theorem leaves_of_none (hw : m.write? = none) : Leaves p m [] :=
  .nothing fun f v slot h => by
    rw [hw] at h
    cases h

theorem write?_of_ofProcess {c : Control} {a' : Activation} {g : Frame} {rest : List Frame}
    {s : Simulation} (hg : g.ofProcess p) : (⟨c, a', g :: rest, s⟩ : Machine).write? = none := by
  cases g with
  | syncStep q next body => cases c with
    | done c => cases c <;> rfl
    | _ => rfl
  | syncPause q next => cases c with
    | done c => cases c <;> rfl
    | _ => rfl
  | _ => exact hg.elim

theorem write?_of_boundary {c : Control} {a' : Activation} {name : String} {caller : Activation}
    {rest : List Frame} {s : Simulation} :
    (⟨c, a', .boundary name caller :: rest, s⟩ : Machine).write? = none := by
  cases c with
  | done c => cases c <;> rfl
  | _ => rfl

/-- A body that writes a field next does so in its mode. -/
theorem step_write {mode : WriteMode} {f : FieldRef} {v : Value} {g : Frame} {rest : List Frame}
    (hm : m.stack = g :: rest) (hg : g.inBody mode) (ha : m.activation.mode = mode)
    (hw : m.write? = some (f, v)) :
    m.step waker = .go ({ m with stack := rest }.write f v mode) := by
  obtain ⟨c, a', stack, s⟩ := m
  cases hm
  have hdone : ∃ i, c = .done (.value i) ∧ g.write? s i = some (f, v) := by
    cases c with
    | done c =>
        cases c with
        | value i => exact ⟨i, rfl, hw⟩
        | _ => cases hw
    | _ => cases hw
  obtain ⟨i, rfl, hwrite⟩ := hdone
  rw [step_done (m := ⟨_, a', g :: rest, s⟩) rfl rfl]
  cases g with
  | storeField index w =>
      obtain ⟨id, hid, heq⟩ := Option.map_eq_some_iff.mp hwrite
      cases heq
      cases hi : i.asComponent with
      | error e =>
          rw [hi] at hid
          cases hid
      | ok id' =>
          rw [hi] at hid
          cases hid
          simp only [accept, resume, storeField, hi]
          rw [← ha]
  | storeMember name w =>
      obtain ⟨id, hid, hwrite⟩ := Option.bind_eq_some_iff.mp hwrite
      obtain ⟨index, hindex, heq⟩ := Option.bind_eq_some_iff.mp hwrite
      cases heq
      cases hi : i.asComponent with
      | error e =>
          rw [hi] at hid
          cases hid
      | ok id' =>
          rw [hi] at hid
          cases hid
          simp only [accept, resume, storeMember, hi, hindex]
          rw [← ha]
  | clockEdge f low high level => exact hg.elim
  | _ => cases hwrite

theorem Within.mark (h : Within p a m) (k : Mark) : Within p a (m.mark k) := by
  cases h with
  | body c a' y g name s ha hy hg => exact .body c a' y g name (s.mark k) ha hy hg
  | leaving c a' name s => exact .leaving c a' name (s.mark k)

theorem step_done_mark {c : Completion} {f : Frame} {rest : List Frame}
    (hc : m.control = .done c) (hs : m.stack = f :: rest)
    (h : ({ m with stack := rest }.mark k).accept f c =
      ({ m with stack := rest }.accept f c).mark k) :
    (m.mark k).step waker = (m.step waker).mark k := by
  rw [step_done hc hs, step_done (m := m.mark k) hc hs]
  exact congrArg Machine.Next.go h

/-- A step within a process is the same step with a mark that is neither its own pause nor at the
signal that it stages. -/
theorem Within.step_mark (h : Within p a m) (hs : m.sim.Ordered) (hp : k.place ≠ .inr p)
    (hw : Elsewhere k m.sim.tree m.write?) :
    (m.mark k).step waker = (m.step waker).mark k := by
  cases h with
  | leaving c a' name s =>
      refine step_done_mark rfl rfl ?_
      cases c <;> rfl
  | body c a' y g name s ha hy hg =>
      cases c with
      | eval e => exact congrArg Machine.Next.go (eval_mark _ k e)
      | exec s => exact congrArg Machine.Next.go (exec_mark _ k s)
      | store target v => exact congrArg Machine.Next.go (store_mark _ k target v)
      | matching p subject => exact congrArg Machine.Next.go (matchPattern_mark _ k p subject)
      | await w => exact await_mark waker _ k w
      | done c =>
          cases y with
          | nil =>
              refine step_done_mark rfl rfl ?_
              cases g with
              | syncStep q next body =>
                  obtain rfl : q = p := hg
                  cases c with
                  | value v =>
                      exact syncBody_mark (m := ⟨_, a', [.boundary name a], s⟩) hs hp next body
                  | _ => rfl
              | syncPause q next =>
                  obtain rfl : q = p := hg
                  cases c with
                  | value v =>
                      refine withResult_mark _ k _ _ _ fun n => ?_
                      exact pause_mark (m := ⟨_, a', [.boundary name a], s⟩) hs hp next n
                  | _ => rfl
              | _ => exact hg.elim
          | cons f y =>
              have hf := hy f (by simp)
              refine step_done_mark rfl rfl ?_
              cases c with
              | value v =>
                  exact resume_mark (m := ⟨_, a', y ++ [g, .boundary name a], s⟩) ha hs hf v hw
              | _ => exact unwind_mark hf _

/-- A write of a body is staged, or it fails. -/
theorem write_next {c : Control} {a' : Activation} {y : List Frame} {g : Frame} {name : String}
    {s : Simulation} (ha : a'.mode = .staged) (hy : ∀ g ∈ y, g.inBody .staged)
    (hg : g.ofProcess p) (hsim : m.sim = s) {f : FieldRef} {v : Value}
    (hw : m.write? = some (f, v)) :
    Within.Next p a m
      ((⟨c, a', y ++ [g, .boundary name a], s⟩ : Machine).write f v .staged) := by
  subst hsim
  have fails : (∀ slot, ¬ m.sim.tree.SignalAt f slot) → ∀ e, Within.Next p a m
      ⟨.done (.failed e), a', y ++ [g, .boundary name a], m.sim⟩ := by
    intro hnone e
    refine .within (.nothing ?_) rfl (.body _ a' y g name m.sim ha hy hg)
    intro f' v' slot hw' hslot
    rw [hw] at hw'
    cases hw'
    exact hnone slot hslot
  simp only [write]
  cases hslot : m.sim.tree.slot f.owner f.index with
  | error e =>
      refine fails ?_ e
      intro slot hs
      rw [hs.1] at hslot
      cases hslot
  | ok slot =>
      dsimp only
      cases hst : slot.storage with
      | signal =>
          exact .within (.write hw ⟨hslot, hst⟩) (m.sim.marks_ofWrite f slot v).symm
            (.body _ a' y g name _ ha hy hg)
      | _ =>
          refine fails ?_ _
          rintro slot' ⟨hs, hsignal⟩
          rw [hs] at hslot
          cases hslot
          rw [hst] at hsignal
          cases hsignal

theorem pause_next {k : Control} {a' : Activation} {name : String} (hw : m.write? = none)
    (next : Nat) (cycles : Int) :
    Within.Next p a m
      ((⟨k, a', [.boundary name a], m.sim⟩ : Machine).pause p next cycles) :=
  .within (.pause _ hw) rfl (.leaving _ a' name _)

theorem syncBody_within (k : Control) {a' : Activation} (name : String) (s : Simulation)
    (ha : a'.mode = .staged) (next : Nat) (body : List Stmt) :
    ∃ l, (l = [] ∨ ∃ pause, l = [.paused p (some pause)]) ∧
      ((⟨k, a', [.boundary name a], s⟩ : Machine).syncBody p next body).sim = s.marks l ∧
      Within p a ((⟨k, a', [.boundary name a], s⟩ : Machine).syncBody p next body) := by
  cases body with
  | nil => exact ⟨[], .inl rfl, rfl, .leaving _ a' name s⟩
  | cons stmt body =>
      simp only [syncBody]
      split
      · exact ⟨_, .inr ⟨_, rfl⟩, rfl, .leaving _ a' name _⟩
      · exact ⟨[], .inl rfl, rfl, .body _ a' [] (.syncPause p (next + 1)) name s ha (by simp) rfl⟩
      · exact ⟨[], .inl rfl, rfl,
          .body _ a' [] (.syncStep p (next + 1) body) name s ha (by simp) rfl⟩

theorem syncBody_next {k : Control} {a' : Activation} {name : String} (hw : m.write? = none)
    (ha : a'.mode = .staged) (next : Nat) (body : List Stmt) :
    Within.Next p a m
      ((⟨k, a', [.boundary name a], m.sim⟩ : Machine).syncBody p next body) := by
  obtain ⟨l, rfl | ⟨pause, rfl⟩, hsim, hin⟩ := syncBody_within k name m.sim ha next body
  · exact .within (leaves_of_none hw) hsim hin
  · exact .within (.pause pause hw) hsim hin

theorem ofProcess_next {k : Control} {a' : Activation} {name : String} {g : Frame}
    (hw : m.write? = none) (ha : a'.mode = .staged) (hg : g.ofProcess p) (c : Completion) :
    Within.Next p a m
      ((⟨k, a', [.boundary name a], m.sim⟩ : Machine).accept g c) := by
  have leave : ∀ c, Within.Next p a m ⟨.done c, a', [.boundary name a], m.sim⟩ := fun c =>
    .within (leaves_of_none hw) rfl (.leaving c a' name m.sim)
  cases g with
  | syncStep q next body =>
      obtain rfl : q = p := hg
      cases c with
      | value v => exact syncBody_next hw ha next body
      | _ => exact leave _
  | syncPause q next =>
      obtain rfl : q = p := hg
      cases c with
      | value v =>
          simp only [accept, resume]
          cases v.asInt with
          | ok n => exact pause_next hw next n
          | error e => exact leave _
      | _ => exact leave _
  | _ => exact hg.elim

/-- What one step within a process leads to, if it leaves the surroundings alone. -/
theorem Within.step (h : Within p a m) (hstep : m.step waker = .go m')
    (hplain : m.sim.SameSurroundings m'.sim) : Within.Next p a m m' := by
  cases h with
  | leaving c a' name s =>
      have hw : (⟨.done c, a', [.boundary name a], s⟩ : Machine).write? = none := write?_of_boundary
      rw [step_done (m := ⟨.done c, a', _, s⟩) rfl rfl] at hstep
      cases hstep
      cases c with
      | failed e => exact .fault e (leaves_of_none hw)
      | _ => exact .value _ (leaves_of_none hw)
  | body c a' y g name s ha hy hg =>
      by_cases hend : y = [] ∧ ∃ c', c = .done c'
      · obtain ⟨rfl, c', rfl⟩ := hend
        rw [List.nil_append] at hstep ⊢
        rw [step_done (m := ⟨.done c', a', _, s⟩) rfl rfl] at hstep
        cases hstep
        exact ofProcess_next (write?_of_ofProcess hg) ha hg c'
      · have hgo : y ≠ [] ∨ ∀ c', c ≠ .done c' := by
          by_cases hnil : y = []
          · exact .inr fun c' hc => hend ⟨hnil, c', hc⟩
          · exact .inl hnil
        let m₀ : Machine := ⟨c, a', y ++ [g, .boundary name a], s⟩
        rcases hw : m₀.write? with _ | ⟨f, v⟩
        · have htail : innermostBody [g, .boundary name a] = some (name, [.boundary name a]) :=
            hg.innermostBody _
          have hbody := step_body (m := m₀) rfl htail ha hy hgo hstep
          cases hbody with
          | quiet c₁ a₁ y₁ s₁ ha₁ hy₁ hs =>
              exact .within (leaves_of_none hw) (hs.eq_of_same hplain)
                (.body c₁ a₁ y₁ g name s₁ ha₁ hy₁ hg)
          | cut e s₁ hs =>
              exact .within (leaves_of_none hw) (hs.eq_of_same hplain) (.leaving _ a' name s₁)
          | write y₁ f v hw₁ _ =>
              rw [hw] at hw₁
              cases hw₁
          | callback y₁ k hook _ _ =>
              refine .callback ?_
              obtain ⟨fs, hfs, -⟩ := (callFunction_calm
                (m := ⟨c, a', .boundary hook.method a' :: .discard ::
                  (y₁ ++ [g, .boundary name a]), s.setKernel k⟩)
                hook.owner hook.method [] [] .immediate).frames
              change 2 ≤ List.countP Frame.isBoundary (callFunction _ _ _ _ _ _).stack
              rw [hfs]
              simp only [List.countP_append, List.countP_cons, List.countP_nil, Frame.isBoundary,
                ↓reduceIte]
              omega
        · cases y with
          | nil =>
              rw [show m₀.write? = none from write?_of_ofProcess hg] at hw
              cases hw
          | cons f₁ y =>
              have hf := hy f₁ (by simp)
              have hy' : ∀ g ∈ y, g.inBody .staged := fun g hg => hy g (by simp [hg])
              rw [step_write (m := m₀) rfl hf ha hw] at hstep
              cases hstep
              exact write_next ha hy' hg rfl hw

end Steps

end Machine

/-- The places of the marks of a process that writes the fields `W`: its own pause, and those of
the signals. -/
def Mark.Own (t : Tree) (W : FieldRef → Prop) (p : ProcessRef)
    (place : (Nat × Nat) ⊕ ProcessRef) : Prop :=
  place = .inr p ∨
    ∃ f slot, W f ∧ t.SignalAt f slot ∧ place = .inl (f.owner, slot.key)

theorem Mark.Own.ne {t : Tree} (ht : t.Sound) {W W' : FieldRef → Prop}
    (hW : ∀ f, W f → ¬ W' f) {p q : ProcessRef} (hne : p ≠ q) {x y : (Nat × Nat) ⊕ ProcessRef}
    (hx : Own t W p x) (hy : Own t W' q y) : x ≠ y := by
  rcases hx with rfl | ⟨f, slot, hf, hslot, rfl⟩ <;>
    rcases hy with rfl | ⟨g, slot', hg, hslot', rfl⟩
  · exact fun h => hne (Sum.inr.inj h)
  · exact fun h => nomatch h
  · exact fun h => nomatch h
  · intro h
    obtain ⟨howner, hkey⟩ := Prod.mk.inj (Sum.inl.inj h)
    have hfg : f ≠ g := by
      rintro rfl
      exact hW f hf hg
    exact ht.key_ne hslot.1 hslot'.1 hfg howner hkey

namespace Machine

variable {waker : Waker} {p q : ProcessRef} {a : Activation} {W : FieldRef → Prop}

/-- The steps of a process that writes the fields `W` at most, with the marks that they leave. -/
inductive Proceeds (waker : Waker) (p : ProcessRef) (a : Activation) (W : FieldRef → Prop) :
    List Mark → Machine → Machine → Prop
  | refl (m : Machine) : Proceeds waker p a W [] m m
  | step {l l' : List Mark} {m m₁ m₂ : Machine} (h : Proceeds waker p a W l m m₁)
      (hin : Within p a m₁) (hstep : m₁.step waker = .go m₂) (hl : Leaves p m₁ l')
      (hsim : m₂.sim = m₁.sim.marks l') (hW : ∀ f v, m₁.write? = some (f, v) → W f) :
      Proceeds waker p a W (l ++ l') m m₂

namespace Proceeds

variable {l : List Mark} {m m₁ : Machine}

theorem sim (h : Proceeds waker p a W l m m₁) : m₁.sim = m.sim.marks l := by
  induction h with
  | refl => rfl
  | step _ _ _ _ hsim _ ih => rw [hsim, ih, Simulation.marks_append]

theorem own (h : Proceeds waker p a W l m m₁) :
    ∀ k ∈ l, Mark.Own m.sim.tree W p k.place := by
  induction h with
  | refl => simp
  | @step l l' m m₁ m₂ h _ _ hl _ hW ih =>
      have htree : m₁.sim.tree = m.sim.tree := by rw [h.sim, Simulation.tree_marks]
      intro k hk
      rcases List.mem_append.mp hk with hk | hk
      · exact ih k hk
      · cases hl with
        | nothing => cases hk
        | write hw hslot =>
            rw [List.mem_singleton] at hk
            subst hk
            exact .inr ⟨_, _, hW _ _ hw, htree ▸ hslot, rfl⟩
        | pause =>
            rw [List.mem_singleton] at hk
            subst hk
            exact .inl rfl

end Proceeds

theorem Leaves.mark {m : Machine} {l : List Mark} (h : Leaves p m l) (k : Mark) :
    Leaves p (m.mark k) l := by
  cases h with
  | nothing hw => exact .nothing hw
  | write hw hslot => exact .write hw hslot
  | pause pause hw => exact .pause pause hw

theorem Proceeds.mark {l : List Mark} {m m₁ : Machine} (h : Proceeds waker p a W l m m₁)
    (hs : m.sim.Ordered) {k : Mark} (hk : ∀ x, Mark.Own m.sim.tree W p x → k.place ≠ x) :
    Proceeds waker p a W l (m.mark k) (m₁.mark k) := by
  induction h with
  | refl m => exact .refl _
  | @step l l' m m₁ m₂ h hin hstep hl hsim hW ih =>
      have htree : m₁.sim.tree = m.sim.tree := by rw [h.sim, Simulation.tree_marks]
      have hs₁ : m₁.sim.Ordered := by
        rw [h.sim]
        exact hs.marks l
      have hwrite : Elsewhere k m₁.sim.tree m₁.write? := by
        intro f v slot hw hslot
        exact hk _ (.inr ⟨f, slot, hW f v hw, htree ▸ hslot, rfl⟩)
      refine .step (ih hs hk) (hin.mark k) ?_ (hl.mark k) ?_ hW
      · rw [hin.step_mark hs₁ (hk _ (.inl rfl)) hwrite, hstep]
        rfl
      · have hplaces : ∀ k' ∈ l', k.place ≠ k'.place := by
          have hown := (Proceeds.step h hin hstep hl hsim hW).own
          exact fun k' hk' => hk _ (hown k' (by simp [hk']))
        change m₂.sim.mark k = (m₁.sim.mark k).marks l'
        rw [hsim, hs₁.marks_mark hplaces]

def begun (a : Activation) (p : ProcessRef) (s : Simulation) : Machine :=
  (⟨.done (.value .none), a, [], s⟩ : Machine).runSync p

/-- A clocked process that writes the fields `W` at most runs to its end without a fault. -/
def RunsSync (waker : Waker) (a : Activation) (W : FieldRef → Prop) (p : ProcessRef)
    (s s' : Simulation) : Prop :=
  ∃ l l' v, (begun a p s).sim = s.marks l ∧ (∀ k ∈ l, k.place = .inr p) ∧
    Proceeds waker p a W l' (begun a p s) ⟨.done (.value v), a, [], s'⟩

namespace RunsSync

variable {s s' : Simulation}

theorem marks (h : RunsSync waker a W p s s') :
    ∃ l, s' = s.marks l ∧ ∀ k ∈ l, Mark.Own s.tree W p k.place := by
  obtain ⟨l, l', v, hbegun, hl, h⟩ := h
  refine ⟨l ++ l', ?_, ?_⟩
  · rw [Simulation.marks_append, ← hbegun]
    exact h.sim
  · intro k hk
    rcases List.mem_append.mp hk with hk | hk
    · exact .inl (hl k hk)
    · have hown := h.own k hk
      rwa [hbegun, Simulation.tree_marks] at hown

theorem tree (h : RunsSync waker a W p s s') : s'.tree = s.tree := by
  obtain ⟨l, rfl, -⟩ := h.marks
  exact s.tree_marks l

theorem ordered (h : RunsSync waker a W p s s') (hs : s.Ordered) : s'.Ordered := by
  obtain ⟨l, rfl, -⟩ := h.marks
  exact hs.marks l

theorem mark (h : RunsSync waker a W p s s') (hs : s.Ordered) {k : Mark}
    (hk : ∀ x, Mark.Own s.tree W p x → k.place ≠ x) :
    RunsSync waker a W p (s.mark k) (s'.mark k) := by
  obtain ⟨l, l', v, hbegun, hl, h⟩ := h
  have hmark : begun a p (s.mark k) = (begun a p s).mark k :=
    runSync_mark (m := ⟨.done (.value .none), a, [], s⟩) hs (hk _ (.inl rfl))
  refine ⟨l, l', v, ?_, hl, ?_⟩
  · rw [hmark, mark_sim, hbegun]
    exact hs.marks_mark fun k' hk' => by
      rw [hl k' hk']
      exact hk _ (.inl rfl)
  · rw [hmark]
    refine h.mark ?_ ?_
    · rw [hbegun]
      exact hs.marks l
    · rw [hbegun, Simulation.tree_marks]
      exact hk

theorem after (h : RunsSync waker a W p s s') (hs : s.Ordered) {l : List Mark}
    (hl : ∀ k ∈ l, ∀ x, Mark.Own s.tree W p x → k.place ≠ x) :
    RunsSync waker a W p (s.marks l) (s'.marks l) := by
  induction l generalizing s s' with
  | nil => exact h
  | cons k l ih =>
      refine ih (h.mark hs (hl k (by simp))) (hs.mark k) ?_
      exact fun k' hk' => hl k' (by simp [hk'])

/-- Processes that write different fields may run in the other order. -/
theorem swap {W' : FieldRef → Prop} {s₁ s₂ : Simulation} (hp : RunsSync waker a W p s s₁)
    (hq : RunsSync waker a W' q s₁ s₂) (hs : s.Ordered) (ht : s.tree.Sound) (hne : p ≠ q)
    (hW : ∀ f, W f → ¬ W' f) :
    ∃ s₁', RunsSync waker a W' q s s₁' ∧ RunsSync waker a W p s₁' s₂ := by
  obtain ⟨l, rfl, hl⟩ := hp.marks
  obtain ⟨l', rfl, hl'⟩ := hq.marks
  rw [Simulation.tree_marks] at hl'
  -- The second process runs first: what the first one left is taken back.
  obtain ⟨back, hback, hundone⟩ := hs.marks_back l
  have hback' : ∀ k ∈ back, Mark.Own s.tree W p k.place := by
    intro k hk
    obtain ⟨k', hk', heq⟩ := hback k hk
    rw [heq]
    exact hl k' hk'
  have hfirst := hq.after (hs.marks l) (l := back) fun k hk x hx =>
    (hback' k hk).ne ht hW hne (by rwa [Simulation.tree_marks] at hx)
  have hend : ((s.marks l).marks l').marks back = s.marks l' := by
    rw [(hs.marks l).marks_comm fun k hk k' hk' => (hback' k hk).ne ht hW hne (hl' k' hk'), hundone]
  rw [hundone, hend] at hfirst
  refine ⟨s.marks l', hfirst, ?_⟩
  -- The first process runs after it, with the marks of the second one.
  exact hp.after hs fun k hk x hx heq => hx.ne ht hW hne (hl' k hk) heq.symm

end RunsSync

/-- Clocked processes that write the fields `W` at most run one after the other, without a fault. -/
inductive RunsSyncs (waker : Waker) (a : Activation) (W : ProcessRef → FieldRef → Prop) :
    List ProcessRef → Simulation → Simulation → Prop
  | nil (s : Simulation) : RunsSyncs waker a W [] s s
  | cons {p : ProcessRef} {l : List ProcessRef} {s s₁ s₂ : Simulation}
      (h : RunsSync waker a (W p) p s s₁) (hl : RunsSyncs waker a W l s₁ s₂) :
      RunsSyncs waker a W (p :: l) s s₂

namespace RunsSyncs

variable {W : ProcessRef → FieldRef → Prop} {l l' : List ProcessRef} {s s' : Simulation}

theorem snoc {s₁ s₂ : Simulation} (hl : RunsSyncs waker a W l s s₁)
    (h : RunsSync waker a (W p) p s₁ s₂) : RunsSyncs waker a W (l ++ [p]) s s₂ := by
  induction hl with
  | nil s => exact .cons h (.nil _)
  | cons h₁ _ ih => exact .cons h₁ (ih h)

/-- Processes that write different fields lead to the same simulation in every order. -/
theorem perm (hperm : l.Perm l') (h : RunsSyncs waker a W l s s') (hs : s.Ordered)
    (ht : s.tree.Sound) (hl : l.Nodup) (hW : ∀ p q f, W p f → W q f → p = q) :
    RunsSyncs waker a W l' s s' := by
  induction hperm generalizing s s' with
  | nil => exact h
  | cons p _ ih =>
      cases h with
      | cons hp h =>
          rw [List.nodup_cons] at hl
          exact .cons hp (ih h (hp.ordered hs) (by rwa [hp.tree]) hl.2)
  | swap p q l =>
      cases h with
      | cons hq h =>
          cases h with
          | cons hp h =>
              have hne : q ≠ p := fun heq => (List.nodup_cons.mp hl).1 (by simp [heq])
              obtain ⟨s₁, hp', hq'⟩ := hq.swap hp hs ht hne
                fun f hqf hpf => hne (hW q p f hqf hpf)
              exact .cons hp' (.cons hq' h)
  | trans h₁ _ ih₁ ih₂ =>
      exact ih₂ (ih₁ h hs ht hl) hs ht (h₁.nodup_iff.mp hl)

end RunsSyncs

end Machine

end Clockwork
