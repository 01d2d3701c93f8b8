import Clockwork.Elaboration.Design
import Clockwork.Proofs.Results
import Clockwork.Proofs.Tree.Signals
/-!
Runs of an elaboration, as far as they concern the values that signals start with. A signal gets
such a value from a driver that it is bound to, or directly; of all connections only those between
two signals and those of a signal with a value count.
-/

namespace Clockwork

/-- Something that gives a signal a value to start with. -/
inductive Occurrence where
  | connected (driver target : FieldRef)
  | valued (target : FieldRef) (v : Value)
  /-- The target is a field of the root, and is given a value from outside. -/
  | given (target : FieldRef) (v : Value)
  deriving Inhabited

namespace Occurrence

def target : Occurrence → FieldRef
  | connected _ t => t
  | valued t _ => t
  | given t _ => t

def driver? : Occurrence → Option FieldRef
  | connected d _ => some d
  | valued _ _ => none
  | given _ _ => none

def isGiven : Occurrence → Bool
  | given _ _ => true
  | _ => false

inductive Effect : Occurrence → Tree → Tree → Prop
  | connected {t t' : Tree} {d f : FieldRef} {sd sf : FieldSlot} (hd : t.SignalAt d sd)
      (hf : t.SignalAt f sf) (hb : t'.bindings = (t.bind d f).bindings)
      (hv : t'.initial f sf = (t.initial d sd).fit sf.width sf.signed)
      (ho : ∀ g sg, g ≠ f → t.SignalAt g sg → t'.initial g sg = t.initial g sg) :
      Effect (.connected d f) t t'
  | valued {t t' : Tree} {f : FieldRef} {sf : FieldSlot} {v : Value} (hf : t.SignalAt f sf)
      (hb : t'.bindings = t.bindings) (hv : t'.initial f sf = v.fit sf.width sf.signed)
      (ho : ∀ g sg, g ≠ f → t.SignalAt g sg → t'.initial g sg = t.initial g sg) :
      Effect (.valued f v) t t'
  | given {t t' : Tree} {f : FieldRef} {sf : FieldSlot} {v : Value} (hf : t.SignalAt f sf)
      (hb : t'.bindings = t.bindings) (hv : t'.initial f sf = v.fit sf.width sf.signed)
      (ho : ∀ g sg, g ≠ f → t.SignalAt g sg → t'.initial g sg = t.initial g sg) :
      Effect (.given f v) t t'

theorem Effect.targets {o : Occurrence} {t t' : Tree} (h : o.Effect t t') {d f : FieldRef} :
    f ∈ t'.targets d ↔ f ∈ t.targets d ∨ o = .connected d f := by
  cases h with
  | connected hd hf hb hv ho =>
      rw [Tree.targets_congr hb, Tree.mem_targets_bind, connected.injEq]
      simp only [eq_comm]
  | valued hf hb hv ho => simp [Tree.targets_congr hb]
  | given hf hb hv ho => simp [Tree.targets_congr hb]

theorem Effect.other {o : Occurrence} {t t' : Tree} (h : o.Effect t t') {g : FieldRef}
    {sg : FieldSlot} (hne : g ≠ o.target) (hg : t.SignalAt g sg) :
    t'.initial g sg = t.initial g sg := by
  cases h with
  | connected hd hf hb hv ho => exact ho g sg hne hg
  | valued hf hb hv ho => exact ho g sg hne hg
  | given hf hb hv ho => exact ho g sg hne hg

end Occurrence

/-- Occurrences in order, each with the tree before it. -/
abbrev History := List (Tree × Occurrence)

/-- A value from outside comes before everything else that concerns its target. -/
def History.GivenFirst (h : History) : Prop :=
  h.Pairwise fun x y => y.2.isGiven = true → x.2.isGiven = true ∨ x.2.target ≠ y.2.target

/-- A run between two trees with its occurrences, each with the tree before it. Apart from them
the tree grows, and no signal or binding changes. -/
inductive Tree.Run (t₀ : Tree) : History → Tree → Prop
  | start : Tree.Run t₀ [] t₀
  | grow {h : History} {t t' : Tree} {new : FieldRef → Prop}
      (hrun : Tree.Run t₀ h t) (he : t.Extends new t') (hk : t.Keeps t') : Tree.Run t₀ h t'
  | occur {h : History} {t t' : Tree} {o : Occurrence}
      (hrun : Tree.Run t₀ h t) (he : t.Extends (fun _ => False) t') (ho : o.Effect t t') :
      Tree.Run t₀ (h ++ [(t, o)]) t'

namespace Tree.Run

variable {t₀ t : Tree} {h : History}

theorem grows {t t' : Tree} {new : FieldRef → Prop} (he : t.Extends new t') (hk : t.Keeps t') :
    t.Run [] t' := .grow .start he hk

theorem sound (hrun : t₀.Run h t) (h₀ : t₀.Sound) : t.Sound := by
  induction hrun with
  | start => exact h₀
  | grow _ he _ ih => exact he.sound ih
  | occur _ he _ ih => exact he.sound ih

/-- Only signals follow other fields, and these are signals too. -/
theorem ends (hrun : t₀.Run h t) (h₀ : ∀ d, t₀.targets d = []) :
    ∀ d, ∀ f ∈ t.targets d, (∃ s, t.SignalAt d s) ∧ ∃ s, t.SignalAt f s := by
  -- Signals stay signals, so only a new binding needs a look at its ends.
  have hkeep : ∀ {t t' : Tree} {new : FieldRef → Prop} {d f : FieldRef}, t.Extends new t' →
      ((∃ s, t.SignalAt d s) ∧ ∃ s, t.SignalAt f s) →
      (∃ s, t'.SignalAt d s) ∧ ∃ s, t'.SignalAt f s := by
    rintro t t' new d f he ⟨⟨sd, hd⟩, sf, hf⟩
    exact ⟨⟨sd, he.slots d sd hd⟩, sf, he.slots f sf hf⟩
  induction hrun with
  | start =>
      intro d f hf
      rw [h₀] at hf
      cases hf
  | grow _ he hk ih =>
      intro d f hf
      rw [targets_congr hk.bindings] at hf
      exact hkeep he (ih d f hf)
  | occur _ he ho ih =>
      intro d f hf
      rcases ho.targets.mp hf with hf | rfl
      · exact hkeep he (ih d f hf)
      · cases ho with
        | connected hdriver htarget _ _ _ => exact hkeep he ⟨⟨_, hdriver⟩, _, htarget⟩

theorem bound (hrun : t₀.Run h t) (h₀ : ∀ d, t₀.targets d = []) :
    ∀ d, ∀ f ∈ t.targets d, ∃ s, t.SignalAt f s :=
  fun d f hf => (hrun.ends h₀ d f hf).2

theorem trans {h' : History} {t' : Tree} (hrun : t₀.Run h t)
    (hrun' : t.Run h' t') : t₀.Run (h ++ h') t' := by
  induction hrun' with
  | start => simpa using hrun
  | grow _ he hk ih => exact .grow ih he hk
  | occur _ he ho ih =>
      rw [← List.append_assoc]
      exact .occur ih he ho

theorem initial_kept (hrun : t₀.Run h t) {f : FieldRef} {s : FieldSlot} (hs : t₀.SignalAt f s) :
    t.SignalAt f s ∧ (t.initial f s = t₀.initial f s ∨ ∃ x ∈ h, x.2.target = f) := by
  induction hrun with
  | start => exact ⟨hs, .inl rfl⟩
  | grow _ he hk ih =>
      exact ⟨he.slots f s ih.1, ih.2.imp_left (hk.values f s ih.1).trans⟩
  | @occur h t t' o _ he ho ih =>
      refine ⟨he.slots f s ih.1, ?_⟩
      by_cases htarget : o.target = f
      · exact .inr ⟨(t, o), by simp, htarget⟩
      · rcases ih.2 with hkept | ⟨x, hx, hxf⟩
        · exact .inl ((ho.other (Ne.symm htarget) ih.1).trans hkept)
        · exact .inr ⟨x, List.mem_append_left _ hx, hxf⟩

/-- The binding of a target in the history of a run, and what it means for the value of the
target: the last occurrence that concerns the target. -/
structure LastBinding (h : History) (t : Tree) (driver target : FieldRef)
    (before : History) (made : Tree) (after : History)
    (sd st : FieldSlot) : Prop where
  history : h = before ++ (made, .connected driver target) :: after
  last : ∀ x ∈ after, x.2.target ≠ target
  driverThen : made.SignalAt driver sd
  driverNow : t.SignalAt driver sd
  targetNow : t.SignalAt target st
  value : t.initial target st = (made.initial driver sd).fit st.width st.signed
  driverKept : driver ≠ target → (∀ x ∈ after, x.2.target ≠ driver) →
    t.initial driver sd = made.initial driver sd

theorem exists_connected (hrun : t₀.Run h t) (h₀ : ∀ d, t₀.targets d = []) {d f : FieldRef}
    (hf : f ∈ t.targets d) : ∃ x ∈ h, x.2 = .connected d f := by
  induction hrun with
  | start =>
      rw [h₀] at hf
      cases hf
  | grow _ _ hk ih => exact ih (by rwa [← targets_congr hk.bindings])
  | occur _ _ ho ih =>
      rcases ho.targets.mp hf with hf | rfl
      · obtain ⟨x, hx, hxf⟩ := ih hf
        exact ⟨x, List.mem_append_left _ hx, hxf⟩
      · exact ⟨_, List.mem_append_right _ (List.mem_singleton_self _), rfl⟩

/-- The value of a target that has one driver and is bound to no value is that of the driver at the
last time that the target was bound to it. -/
theorem lastBinding (hrun : t₀.Run h t) (h₀ : ∀ d, t₀.targets d = []) {driver target : FieldRef}
    (hb : target ∈ t.targets driver) (honly : ∀ d, target ∈ t.targets d → d = driver)
    (hv : ∀ x v, (x, .valued target v) ∉ h) (hfirst : h.GivenFirst) :
    ∃ before made after sd st, LastBinding h t driver target before made after sd st := by
  induction hrun with
  | start =>
      rw [h₀] at hb
      cases hb
  | @grow h t t' new _ he hk ih =>
      have htargets := targets_congr hk.bindings
      obtain ⟨before, made, after, sd, st, hlast⟩ := ih (by rwa [htargets] at hb)
        (fun d hd => honly d (by rwa [htargets])) hv hfirst
      refine ⟨before, made, after, sd, st, hlast.history, hlast.last, hlast.driverThen,
        he.slots _ _ hlast.driverNow, he.slots _ _ hlast.targetNow, ?_, ?_⟩
      · rw [hk.values _ _ hlast.targetNow, hlast.value]
      · intro hne hafter
        rw [hk.values _ _ hlast.driverNow, hlast.driverKept hne hafter]
  | @occur h t t' o hrun he ho ih =>
      obtain ⟨hbefore, -, hlate⟩ := List.pairwise_append.mp hfirst
      -- Whether the step concerns the target decides which binding is the last one.
      by_cases htarget : o.target = target
      · cases ho with
        | @connected _ _ d f sd sf hd hf hbind hvalue hother =>
            obtain rfl : f = target := htarget
            have hmem : f ∈ t'.targets d := by
              rw [targets_congr hbind, mem_targets_bind]
              exact .inr ⟨rfl, rfl⟩
            obtain rfl : d = driver := honly d hmem
            refine ⟨h, t, [], sd, sf, rfl, by simp, hd, he.slots _ _ hd, he.slots _ _ hf, hvalue,
              ?_⟩
            intro hne _
            exact hother d sd hne hd
        | @valued _ _ f sf v hf hbind hvalue hother =>
            obtain rfl : f = target := htarget
            exact absurd (by simp) (hv t v)
        | @given _ _ f sf v hf hbind hvalue hother =>
            -- The target was bound before it is given the value, which comes first.
            obtain rfl : f = target := htarget
            rw [targets_congr hbind] at hb
            obtain ⟨x, hx, hxf⟩ := exists_connected hrun h₀ hb
            have hnot := hlate x hx (t, .given f v) (by simp) rfl
            simp [hxf, Occurrence.isGiven, Occurrence.target] at hnot
      · have hsame : ∀ d, target ∈ t'.targets d ↔ target ∈ t.targets d := by
          intro d
          rw [ho.targets, or_iff_left]
          rintro rfl
          exact htarget rfl
        obtain ⟨before, made, after, sd, st, hlast⟩ := ih ((hsame driver).mp hb)
          (fun d hd => honly d ((hsame d).mpr hd)) (fun x v hmem => hv x v (by simp [hmem]))
          hbefore
        refine ⟨before, made, after ++ [(t, o)], sd, st, by simp [hlast.history], ?_,
          hlast.driverThen, he.slots _ _ hlast.driverNow, he.slots _ _ hlast.targetNow, ?_, ?_⟩
        · intro x hx
          rcases List.mem_append.mp hx with hx | hx
          · exact hlast.last x hx
          · rw [List.mem_singleton.mp hx]
            exact htarget
        · rw [ho.other (Ne.symm htarget) hlast.targetNow, hlast.value]
        · intro hne hafter
          have hdriver : o.target ≠ driver := hafter (t, o) (by simp)
          rw [ho.other (Ne.symm hdriver) hlast.driverNow]
          exact hlast.driverKept hne fun x hx => hafter x (by simp [hx])

end Tree.Run

namespace Elaboration

/-- An elaboration that goes on without changing the values that signals start with. -/
structure Quiet (new : FieldRef → Prop) (e e' : Elaboration) : Prop where
  tree : e.tree.Extends new e'.tree
  keeps : e.tree.Keeps e'.tree

namespace Quiet

theorem refl (new : FieldRef → Prop) (e : Elaboration) : Quiet new e e := ⟨.refl _ _, .refl _⟩

theorem mono {new new' : FieldRef → Prop} {e e' : Elaboration} (h : Quiet new e e')
    (hnew : ∀ f, new f → new' f) : Quiet new' e e' := ⟨h.tree.mono hnew, h.keeps⟩

theorem same {e e' : Elaboration} (hi : e'.tree.instances = e.tree.instances)
    (hs : e'.tree.signals = e.tree.signals) (hb : e'.tree.bindings = e.tree.bindings) :
    Quiet (fun _ => False) e e' := by
  refine ⟨Tree.extends_of_instances hi (by rw [hs]) ?_, ⟨?_, hb⟩⟩
  · intro id
    rw [Tree.signalsOf, hs, Tree.signalsOf]
  intro f s _
  rw [Tree.initial, Tree.initial, Tree.signalsOf, Tree.signalsOf, hs]

theorem trans {new : FieldRef → Prop} {e e₁ e₂ : Elaboration} (h : Quiet new e e₁)
    (h₁ : Quiet new e₁ e₂) : Quiet new e e₂ :=
  ⟨h.tree.trans h₁.tree, h.keeps.trans h.tree h₁.keeps⟩

end Quiet

def NoSignals (e : Elaboration) (fields : List FieldRef) : Prop :=
  ∀ f ∈ fields, ∀ s, ¬ e.tree.SignalAt f s

theorem isUnbound_not_signal {e : Elaboration} {f : FieldRef} (h : e.isUnbound f = true)
    (s : FieldSlot) : ¬ e.tree.SignalAt f s := by
  rintro ⟨hslot, hstorage⟩
  simp [isUnbound, hslot, hstorage, Storage.isUnbound] at h

theorem setStorage_quiet (e : Elaboration) (f : FieldRef) {st : Storage} (hst : st ≠ .signal)
    (hf : ∀ s, ¬ e.tree.SignalAt f s) : Quiet (fun _ => False) e (e.setStorage f st) :=
  ⟨e.tree.setStorage_extends f hst hf, e.tree.modifySlot_keeps f _⟩

theorem not_signal_setStorage {e : Elaboration} {f g : FieldRef} {st : Storage}
    (hst : st ≠ .signal) (hf : ∀ s, ¬ e.tree.SignalAt f s) (hg : ∀ s, ¬ e.tree.SignalAt g s)
    (s : FieldSlot) : ¬ (e.setStorage f st).tree.SignalAt g s := by
  intro hs
  rcases (e.setStorage_quiet f hst hf).tree.fresh g s hs with hs | hfalse
  · exact hg s hs
  · exact hfalse

/-- What holds of every port that is bound holds of the whole walk along the links, if the open
ports have what it takes to be bound, and keep it. -/
theorem bindFrom_induction {R : Elaboration → Elaboration → Prop}
    {P : Elaboration → FieldRef → Prop} (refl : ∀ e, R e e)
    (trans : ∀ {e e₁ e₂}, R e e₁ → R e₁ e₂ → R e e₂)
    (unbound : ∀ {e g}, e.isUnbound g = true → P e g)
    (step : ∀ {e f} v, P e f → R e (e.setStorage f (.object v)))
    (kept : ∀ {e f g} v, P e f → P e g → P (e.setStorage f (.object v)) g)
    (v : Value) (room : Nat) {work : List FieldRef} (seen : List FieldRef) {e : Elaboration}
    (hwork : ∀ f ∈ work, P e f) : R e (bindFrom v room work seen e) := by
  induction room generalizing work seen e with
  | zero => exact refl e
  | succ room ih =>
      cases work with
      | nil => exact refl e
      | cons f work =>
          have hf : P e f := hwork f List.mem_cons_self
          refine trans (step _ hf) (ih _ fun g hg => ?_)
          rcases List.mem_append.mp hg with hg | hg
          · exact unbound (List.mem_filter.mp hg).2
          · exact kept _ hf (hwork g (List.mem_cons_of_mem f hg))

theorem bindFrom_quiet (v : Value) (room : Nat) (work seen : List FieldRef) (e : Elaboration)
    (hwork : e.NoSignals work) : Quiet (fun _ => False) e (bindFrom v room work seen e) := by
  refine bindFrom_induction (.refl _) .trans isUnbound_not_signal
    (fun {e f} v hf => e.setStorage_quiet f (by simp) hf)
    (fun {e f g} v hf hg => ?_) v room seen hwork
  exact not_signal_setStorage (by simp) hf hg

theorem bindObject_quiet (e : Elaboration) (f : FieldRef) (v : Value)
    (hf : ∀ s, ¬ e.tree.SignalAt f s) : Quiet (fun _ => False) e (e.bindObject f v) :=
  bindFrom_quiet v _ _ _ e (by simpa [NoSignals] using hf)

theorem record_quiet (e : Elaboration) (target source : String) :
    Quiet (fun _ => False) e (e.record target source) := .same rfl rfl rfl

theorem storage_not_signal {e : Elaboration} {f : FieldRef} {s : FieldSlot}
    (h : e.tree.slot f.owner f.index = .ok s) (hs : s.storage ≠ .signal) (s' : FieldSlot) :
    ¬ e.tree.SignalAt f s' := by
  rintro ⟨hslot, hstorage⟩
  rw [h] at hslot
  cases hslot
  exact hs hstorage

theorem slot_eq_ok {e : Elaboration} {f : FieldRef} {s : FieldSlot} (h : e.slot f = .ok s) :
    e.tree.slot f.owner f.index = .ok s := by
  simp only [slot] at h
  cases hslot : e.tree.slot f.owner f.index with
  | ok s' =>
      rw [hslot] at h
      cases h
      rfl
  | error error =>
      rw [hslot] at h
      cases h

theorem setInitial_effect {e : Elaboration} (he : e.tree.Sound) {f : FieldRef} {s : FieldSlot}
    (hf : e.tree.SignalAt f s) (v : Value) {o : Occurrence}
    (ho : o = .valued f v ∨ o = .given f v) :
    e.tree.Extends (fun _ => False) (e.setInitial f s v).tree ∧
      o.Effect e.tree (e.setInitial f s v).tree := by
  have hself := Tree.initial_setSignal_self he hf (v.fit s.width s.signed)
  have hother : ∀ g sg, g ≠ f → e.tree.SignalAt g sg →
      (e.setInitial f s v).tree.initial g sg = e.tree.initial g sg := fun g sg hne hg =>
    Tree.initial_setSignal_of_ne _ (he.key_ne hg.1 hf.1 hne) _
  refine ⟨e.tree.setSignal_extends _ _ _, ?_⟩
  rcases ho with rfl | rfl
  · exact .valued hf rfl hself hother
  · exact .given hf rfl hself hother

def connection (e : Elaboration) (l r : FieldRef) (ls rs : FieldSlot) : Occurrence :=
  if rightDrives (e.signalEnd l ls) (e.signalEnd r rs) then .connected r l else .connected l r

theorem bindSignals_effect {t : Tree} (ht : t.Sound) {d f : FieldRef} {sd sf : FieldSlot}
    (hd : t.SignalAt d sd) (hf : t.SignalAt f sf) {v : Value} (hv : v = t.initial d sd) :
    t.Extends (fun _ => False)
        ((t.bind d f).setSignal f.owner sf.key (v.fit sf.width sf.signed)) ∧
      (Occurrence.connected d f).Effect t
        ((t.bind d f).setSignal f.owner sf.key (v.fit sf.width sf.signed)) := by
  have hbind := t.bind_extends d f
  have hsound := hbind.sound ht
  have hf' := hbind.slots f sf hf
  refine ⟨hbind.trans (Tree.setSignal_extends _ _ _ _), .connected hd hf rfl ?_ ?_⟩
  · rw [Tree.initial_setSignal_self hsound hf', hv]
  · intro g sg hne hg
    rw [← t.initial_bind d f g sg]
    exact Tree.initial_setSignal_of_ne _ (hsound.key_ne (hbind.slots g sg hg).1 hf'.1 hne) _

theorem connectSignals_effect {e e' : Elaboration} (he : e.tree.Sound) {id : Nat} {l r : FieldRef}
    {ls rs : FieldSlot} (hl : e.tree.SignalAt l ls) (hr : e.tree.SignalAt r rs)
    (h : e.connectSignals id l r ls rs = .ok e') :
    e.tree.Extends (fun _ => False) e'.tree ∧ (e.connection l r ls rs).Effect e.tree e'.tree := by
  simp only [connectSignals, connection] at h ⊢
  cases hright : rightDrives (e.signalEnd l ls) (e.signalEnd r rs) with
  | true =>
      simp only [hright, ↓reduceIte] at h ⊢
      split at h
      · cases h
      · cases h
        exact bindSignals_effect he hr hl (Tree.initial_bind _ _ _ r rs)
  | false =>
      simp only [hright, Bool.false_eq_true, ↓reduceIte] at h ⊢
      split at h
      · cases h
      · cases h
        by_cases hsame : r = l
        · subst hsame
          obtain rfl := hl.unique hr
          simp only [↓reduceIte]
          exact bindSignals_effect he hl hl (Tree.initial_bind _ _ _ r ls)
        · simp only [hsame, ↓reduceIte]
          exact bindSignals_effect he hl hr (Tree.initial_bind _ _ _ l ls)

def occurrences (e : Elaboration) (l : FieldRef) : Endpoint → List Occurrence
  | .field r =>
    match e.tree.slot l.owner l.index, e.tree.slot r.owner r.index with
    | .ok ls, .ok rs =>
      match ls.storage, rs.storage with
      | .signal, .signal => [e.connection l r ls rs]
      | .signal, .const v => [.valued l v]
      | _, _ => []
    | _, _ => []
  | .value v =>
    match e.tree.slot l.owner l.index with
    | .ok s => if s.storage.isSignal then [.valued l v] else []
    | .error _ => []
  | _ => []

/-- A part of an elaboration with its history, in which fields among `new` become signals. -/
structure Steps (new : FieldRef → Prop) (e : Elaboration) (h : History) (e' : Elaboration) :
    Prop where
  tree : e.tree.Extends new e'.tree
  run : e.tree.Run h e'.tree

def connectHistory (e : Elaboration) (l : FieldRef) (p : Endpoint) : History :=
  (e.occurrences l p).map fun o => (e.tree, o)

namespace Steps

variable {new : FieldRef → Prop} {e e₁ e' : Elaboration} {h h₁ : History}

theorem trans (hs : Steps new e h e₁) (hs₁ : Steps new e₁ h₁ e') : Steps new e (h ++ h₁) e' :=
  ⟨hs.tree.trans hs₁.tree, hs.run.trans hs₁.run⟩

theorem quiet (hs : Steps new e h e₁) (hq : Quiet new e₁ e') : Steps new e h e' :=
  ⟨hs.tree.trans hq.tree, .grow hs.run hq.tree hq.keeps⟩

theorem mono {new' : FieldRef → Prop} (hs : Steps new e h e') (hnew : ∀ f, new f → new' f) :
    Steps new' e h e' := ⟨hs.tree.mono hnew, hs.run⟩

theorem one {o : Occurrence}
    (ho : e.tree.Extends (fun _ => False) e'.tree ∧ o.Effect e.tree e'.tree) :
    Steps (fun _ => False) e [(e.tree, o)] e' := ⟨ho.1, .occur .start ho.1 ho.2⟩

end Steps

theorem Quiet.steps {new : FieldRef → Prop} {e e' : Elaboration} (h : Quiet new e e') :
    Steps new e [] e' := ⟨h.tree, .grows h.tree h.keeps⟩

theorem Quiet.before {new : FieldRef → Prop} {e e₁ e' : Elaboration} {h : History}
    (hq : Quiet new e e₁) (hs : Steps new e₁ h e') : Steps new e h e' := by
  rw [← List.nil_append h]
  exact hq.steps.trans hs

theorem attempt_steps {new : FieldRef → Prop} {e : Elaboration} {h : History}
    {r : Except ElabError Elaboration} (hok : ∀ e', r = .ok e' → Steps new e h e')
    (herror : ∀ error, r = .error error → h = []) : Steps new e h (e.attempt r) := by
  cases r with
  | ok e' => exact hok e' rfl
  | error error =>
      rw [herror error rfl]
      have hq : Quiet (fun _ => False) e (e.fault error) := .same rfl rfl rfl
      exact hq.steps.mono fun _ => False.elim

theorem connectFields_steps {e e' : Elaboration} (he : e.tree.Sound) {id : Nat} {l r : FieldRef}
    (h : e.connectFields id l r = .ok e') :
    Steps (fun _ => False) e (e.connectHistory l (.field r)) e' := by
  obtain ⟨ls, hls, h⟩ := bind_eq_ok h
  obtain ⟨rs, hrs, h⟩ := bind_eq_ok h
  have hl := slot_eq_ok hls
  have hr := slot_eq_ok hrs
  simp only [connectHistory, occurrences, hl, hr]
  split at h
  · rename_i hsl hsr
    simp only [hsl, hsr]
    exact .one (connectSignals_effect he ⟨hl, hsl⟩ ⟨hr, hsr⟩ h)
  · rename_i v hsl hsr
    cases h
    simp only [hsl, hsr]
    exact .one (setInitial_effect he ⟨hl, hsl⟩ v (.inl rfl))
  · rename_i hsl hsr
    cases h
    simp only [hsl]
    have hq : Quiet (fun _ => False) e (e.link l r) := .same rfl rfl rfl
    exact hq.steps
  · rename_i v hsl hsr
    cases h
    simp only [hsl]
    exact (bindObject_quiet e l v (storage_not_signal hl (by simp [hsl]))).steps
  · rename_i v hsl hsr
    cases h
    simp only [hsl]
    exact (bindObject_quiet e r v (storage_not_signal hr (by simp [hsr]))).steps
  · rename_i child hsl hsr
    cases h
    simp only [hsl]
    exact (bindObject_quiet e l _ (storage_not_signal hl (by simp [hsl]))).steps
  · cases h

/-- What a connection that succeeds does: it binds the target to a field or to an object, or it
sets the initial value of its signal. -/
theorem connect_eq_ok {e e' : Elaboration} {id : Nat} {target : FieldRef} {source : Endpoint}
    (h : e.connect id target source = .ok e') :
    ∃ s c, e.slot target = .ok s ∧
      e' = c.record (Endpoint.fieldPath e.tree target) (source.render e.tree) ∧
      ((∃ r, source = .field r ∧ e.connectFields id target r = .ok c) ∨
        (∃ owner name, source = .method owner name ∧ s.storage = .unbound ∧
          c = e.bindObject target (.obj (.method owner name))) ∨
        (∃ v, source = .value v ∧ s.storage = .signal ∧ c = e.setInitial target s v) ∨
        ∃ v, source = .value v ∧ s.storage = .unbound ∧ c = e.bindObject target v) := by
  obtain ⟨s, hs, h⟩ := bind_eq_ok h
  cases source with
  | field r =>
      cases hst : s.storage <;> simp only [hst] at h
      case const => cases h
      all_goals
        obtain ⟨c, hc, h⟩ := bind_eq_ok h
        cases h
        exact ⟨s, c, hs, rfl, .inl ⟨r, rfl, hc⟩⟩
  | method owner name =>
      cases hst : s.storage <;> simp only [hst] at h
      case unbound =>
        cases h
        exact ⟨s, _, hs, rfl, .inr (.inl ⟨owner, name, rfl, hst, rfl⟩)⟩
      all_goals cases h
  | value v =>
      cases hst : s.storage <;> simp only [hst] at h
      case signal =>
        cases h
        exact ⟨s, _, hs, rfl, .inr (.inr (.inl ⟨v, rfl, hst, rfl⟩))⟩
      case unbound =>
        cases h
        exact ⟨s, _, hs, rfl, .inr (.inr (.inr ⟨v, rfl, hst, rfl⟩))⟩
      all_goals cases h
  | member f name =>
      cases hst : s.storage <;> simp only [hst] at h
      all_goals cases h

theorem connect_steps {e e' : Elaboration} (he : e.tree.Sound) {id : Nat} {target : FieldRef}
    {source : Endpoint} (h : e.connect id target source = .ok e') :
    Steps (fun _ => False) e (e.connectHistory target source) e' := by
  obtain ⟨s, c, hs, rfl, hcase⟩ := connect_eq_ok h
  have hslot := slot_eq_ok hs
  refine Steps.quiet ?_ (c.record_quiet _ _)
  rcases hcase with ⟨r, rfl, hc⟩ | ⟨owner, name, rfl, hst, rfl⟩ | ⟨v, rfl, hst, rfl⟩ |
    ⟨v, rfl, hst, rfl⟩
  · exact connectFields_steps he hc
  · exact (bindObject_quiet e target _ (storage_not_signal hslot (by simp [hst]))).steps
  · simp only [connectHistory, occurrences, hslot, hst]
    exact .one (setInitial_effect he ⟨hslot, hst⟩ v (.inl rfl))
  · simp only [connectHistory, occurrences, hslot, hst]
    exact (bindObject_quiet e target v (storage_not_signal hslot (by simp [hst]))).steps

theorem attempt_quiet {e : Elaboration} {r : Except ElabError Elaboration}
    (h : ∀ e', r = .ok e' → Quiet (fun _ => False) e e') :
    Quiet (fun _ => False) e (e.attempt r) := by
  cases r with
  | ok e' => exact h e' rfl
  | error error => exact .same rfl rfl rfl

theorem foldl_quiet {α : Type} {P : Elaboration → Prop} {g : Elaboration → α → Elaboration}
    (hP : ∀ e e', P e → Quiet (fun _ => False) e e' → P e')
    (hg : ∀ e x, P e → Quiet (fun _ => False) e (g e x)) (l : List α) (e : Elaboration)
    (he : P e) : Quiet (fun _ => False) e (l.foldl g e) := by
  induction l generalizing e with
  | nil => exact .refl _ e
  | cons x l ih =>
      have hx := hg e x he
      exact hx.trans (ih _ (hP e _ he hx))

theorem mapRegion_quiet {e e' : Elaboration} {id space : Nat} {spacePath : String} {entry : Expr}
    (h : e.mapRegion id space spacePath entry = .ok e') : Quiet (fun _ => False) e e' := by
  obtain ⟨⟨base, backing⟩, -, h⟩ := bind_eq_ok h
  dsimp only at h
  split at h
  · cases h
  · cases h
  · cases h
    exact .same rfl rfl rfl

theorem mapRegions_quiet {e e' : Elaboration} {id : Nat} {f : FieldRef} {entries : Expr}
    (h : e.mapRegions id f entries = .ok e') : Quiet (fun _ => False) e e' := by
  obtain ⟨s, -, h⟩ := bind_eq_ok h
  dsimp only at h
  split at h
  · cases h
    exact foldl_quiet (P := fun _ => True) (fun _ _ _ _ => trivial)
      (fun _ _ _ => attempt_quiet fun _ h => mapRegion_quiet h) _ e trivial
  · cases h

theorem hookEvent_quiet {e e' : Elaboration} {id : Nat} {f : FieldRef} {callback : Expr}
    (h : e.hookEvent id f callback = .ok e') : Quiet (fun _ => False) e e' := by
  obtain ⟨s, -, h⟩ := bind_eq_ok h
  dsimp only at h
  split at h
  · obtain ⟨p, -, h⟩ := bind_eq_ok h
    split at h
    · cases h
      exact .same rfl rfl rfl
    · cases h
  · cases h

theorem addMember_quiet {e e' : Elaboration} {id : Nat} {f : FieldRef} {name : String} {v : Value}
    (h : e.addMember id f name v = .ok e') : Quiet (fun _ => False) e e' := by
  obtain ⟨s, hs, h⟩ := bind_eq_ok h
  have hslot := slot_eq_ok hs
  have hobjects : ∀ objects, Quiet (fun _ => False) e { e with objects := objects } :=
    fun _ => .same rfl rfl rfl
  dsimp only at h
  split at h
  · rename_i hst
    cases h
    exact (hobjects _).trans (bindObject_quiet _ f _ (storage_not_signal hslot (by simp [hst])))
  · rename_i i hst
    cases h
    exact (hobjects _).trans
      (setStorage_quiet _ f (by simp) (storage_not_signal hslot (by simp [hst])))
  · cases h

theorem connectMember_quiet {e e' : Elaboration} {id : Nat} {f : FieldRef} {name : String}
    {source : Expr} (h : e.connectMember id f name source = .ok e') :
    Quiet (fun _ => False) e e' := by
  simp only [connectMember] at h
  split at h
  · cases h
  · obtain ⟨p, -, h⟩ := bind_eq_ok h
    obtain ⟨v, -, h⟩ := bind_eq_ok h
    obtain ⟨e₁, he₁, h⟩ := bind_eq_ok h
    cases h
    exact (addMember_quiet he₁).trans (record_quiet _ _ _)

def bindHistory (e : Elaboration) (id : Nat) (b : Bind) : History :=
  match e.applyBind id b, Endpoint.resolve e.tree id b.lhs, Endpoint.resolve e.tree id b.rhs with
  | .ok _, .ok (.field target), .ok source => e.connectHistory target source
  | _, _, _ => []

def topHistory (e : Elaboration) (root : Nat) (name : String) (v : Value) : History :=
  match e.bindTop root name v, (e.tree.inst root).fieldIndex? name with
  | .ok _, some index =>
    match e.tree.slot root index with
    | .ok s => if s.storage.isSignal then [(e.tree, .given ⟨root, index⟩ v)] else []
    | .error _ => []
  | _, _ => []

def historyAlong {α : Type} (step : Elaboration → α → Elaboration)
    (history : Elaboration → α → History) : Elaboration → List α → History
  | _, [] => []
  | e, x :: l => history e x ++ historyAlong step history (step e x) l

theorem historyAlong_append {α : Type} (step : Elaboration → α → Elaboration)
    (history : Elaboration → α → History) (e : Elaboration) (l l' : List α) :
    historyAlong step history e (l ++ l') =
      historyAlong step history e l ++ historyAlong step history (l.foldl step e) l' := by
  induction l generalizing e with
  | nil => rfl
  | cons x l ih =>
      simp only [List.cons_append, historyAlong, ih, List.foldl_cons, List.append_assoc]

def bindsHistory (e : Elaboration) (id : Nat) (binds : List Bind) : History :=
  historyAlong (fun e b => e.attempt (e.applyBind id b)) (fun e b => e.bindHistory id b) e
    (inBands e.tree id binds)

def topsHistory (e : Elaboration) (root : Nat) (values : Table String Value) : History :=
  historyAlong (fun e (name, v) => e.attempt (e.bindTop root name v))
    (fun e (name, v) => e.topHistory root name v) e values.entries

theorem foldl_steps {α : Type} {step : Elaboration → α → Elaboration}
    {history : Elaboration → α → History} {new : FieldRef → Prop}
    (hstep : ∀ e x, e.tree.Sound → Steps new e (history e x) (step e x)) (l : List α)
    (e : Elaboration) (he : e.tree.Sound) :
    Steps new e (historyAlong step history e l) (l.foldl step e) := by
  induction l generalizing e with
  | nil => exact (Quiet.refl _ e).steps
  | cons x l ih =>
      have hx := hstep e x he
      exact hx.trans (ih _ (hx.tree.sound he))

theorem endpoint_eq_ok {e : Elaboration} {id : Nat} {x : Expr} {p : Endpoint}
    (h : e.endpoint id x = .ok p) : Endpoint.resolve e.tree id x = .ok p := by
  simp only [endpoint] at h
  split at h
  · cases h
    assumption
  · cases h

theorem applyBind_steps {e e' : Elaboration} (he : e.tree.Sound) {id : Nat} {b : Bind}
    (h : e.applyBind id b = .ok e') : Steps (fun _ => False) e (e.bindHistory id b) e' := by
  have hok := h
  simp only [applyBind] at h
  split at h
  · cases h
  obtain ⟨p, hp, h⟩ := bind_eq_ok h
  have hlhs := endpoint_eq_ok hp
  cases p with
  | field target =>
      obtain ⟨source, hsource, h⟩ := bind_eq_ok h
      simp only [bindHistory, hok, hlhs, endpoint_eq_ok hsource]
      exact connect_steps he h
  | member f name =>
      have hquiet : Quiet (fun _ => False) e e' := by
        dsimp only at h
        split at h
        · exact mapRegions_quiet h
        · split at h
          · exact hookEvent_quiet h
          · exact connectMember_quiet h
      simp only [bindHistory, hok, hlhs]
      exact hquiet.steps
  | method owner name => cases h
  | value v => cases h

theorem applyBinds_steps {e : Elaboration} (he : e.tree.Sound) (id : Nat) (binds : List Bind) :
    Steps (fun _ => False) e (e.bindsHistory id binds) (e.applyBinds id binds) :=
  foldl_steps (fun _ _ he => attempt_steps (fun _ h => applyBind_steps he h)
    fun error h => by simp [bindHistory, h]) _ e he

theorem bindTop_steps {e e' : Elaboration} (he : e.tree.Sound) {root : Nat} {name : String}
    {v : Value} (h : e.bindTop root name v = .ok e') :
    Steps (fun _ => False) e (e.topHistory root name v) e' := by
  have hok := h
  simp only [bindTop] at h
  split at h
  · cases h
  · rename_i index hindex
    obtain ⟨s, hs, h⟩ := bind_eq_ok h
    have hslot := slot_eq_ok hs
    simp only [topHistory, hok, hindex, hslot]
    cases hst : s.storage <;> simp only [hst] at h
    case signal =>
      cases h
      exact (Steps.one (setInitial_effect he ⟨hslot, hst⟩ v (.inr rfl))).quiet (record_quiet _ _ _)
    case unbound =>
      cases h
      exact ((bindObject_quiet e _ v (storage_not_signal hslot (by simp [hst]))).trans
        (record_quiet _ _ _)).steps
    all_goals cases h

theorem bindTops_steps {e : Elaboration} (he : e.tree.Sound) (root : Nat)
    (values : Table String Value) :
    Steps (fun _ => False) e (e.topsHistory root values) (e.bindTops root values) :=
  foldl_steps (fun _ _ he => attempt_steps (fun _ h => bindTop_steps he h)
    fun error h => by simp [topHistory, h]) _ e he

end Elaboration

end Clockwork
