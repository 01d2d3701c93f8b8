import Clockwork.Proofs.Combs.Rerun
import Clockwork.Proofs.Results
import Clockwork.Proofs.Round.Snapshot
import Clockwork.Tree.Structural
/-!
Structural expressions at run time. An expression that has a value before anything runs comes to
the same value while a simulation runs, unless it calls `at`, which places storage in an address
space and means nothing at run time. On its way the machine waits for nothing and changes nothing.
-/

namespace Clockwork

namespace Expr

mutual

/-- Whether a builtin function is called somewhere in an expression. -/
def calls (b : Builtin) : Expr → Bool
  | field base _ => base.calls b
  | binary lhs _ rhs => lhs.calls b || rhs.calls b
  | unary _ operand => operand.calls b
  | logical _ values => callsAny b values
  | compare left _ comparators => left.calls b || callsAny b comparators
  | member value _ => value.calls b
  | subscript value index => value.calls b || index.calls b
  | call (builtin c) args keywords => c == b || (callsAny b args || callsAnyKeyword b keywords)
  | call callee args keywords => callee.calls b || (callsAny b args || callsAnyKeyword b keywords)
  | conditional test body orelse => test.calls b || (body.calls b || orelse.calls b)
  | await value => value.calls b
  | tuple items => callsAny b items
  | constant _ | self | param _ _ | var _ | builtin _ => false

def callsAny (b : Builtin) : List Expr → Bool
  | [] => false
  | e :: rest => e.calls b || callsAny b rest

def callsAnyKeyword (b : Builtin) : List (String × Expr) → Bool
  | [] => false
  | (_, e) :: rest => e.calls b || callsAnyKeyword b rest

end

end Expr

namespace Value

theorem extremeItems_of_extreme {pick : Int → Int → Int} {args : List Value} {r : Option Int}
    (h : extreme pick args = .ok r) : Simulation.extremeItems args = args := by
  unfold Simulation.extremeItems
  split
  · cases h
  · rfl

theorem asTuple_eq_ok {v : Value} {items : List Value} (h : v.asTuple = .ok items) :
    v = tuple items := by
  cases v <;> cases h
  rfl

end Value

namespace Simulation

variable (s : Simulation)

theorem readField_of_fixedValue {f : FieldRef} {v : Value}
    (h : s.tree.fixedValue f.owner f.index = .ok v) : s.readField f = .ok v := by
  unfold Tree.fixedValue at h
  unfold readField
  cases hslot : s.tree.slot f.owner f.index with
  | error e =>
      rw [hslot] at h
      cases h
  | ok slot =>
      simp only [hslot] at h ⊢
      split at h <;> rename_i hstorage <;> cases h <;> simp only [hstorage]

theorem builtin_of_structuralBuiltin {b : Builtin} {args : List Value} {v : Value}
    (hb : b ≠ .mapAt) (h : Tree.structuralBuiltin b args = .ok v) :
    s.builtin b args = (s, .ok v) := by
  unfold Tree.structuralBuiltin at h
  split at h
  case h_1 | h_2 =>
    obtain ⟨best, hbest, h⟩ := bind_eq_ok h
    rcases best with _ | n <;> cases h
    unfold builtin
    rw [Value.extremeItems_of_extreme hbest, hbest]
    rfl
  case h_3 =>
    split at h
    · obtain ⟨n, hn, h⟩ := bind_eq_ok h
      cases h
      simp only [builtin, hn]
      rfl
    · cases h
  case h_4 =>
    split at h
    · obtain ⟨items, hitems, h⟩ := bind_eq_ok h
      cases h
      rw [Value.asTuple_eq_ok hitems]
      rfl
    · cases h
  case h_5 => exact absurd rfl hb
  all_goals cases h

end Simulation

namespace Machine

/-- Nothing is waited for, and nothing is changed. -/
structure Still (a : Activation) (s : Simulation) (m : Machine) : Prop where
  activation : m.activation = a
  sim : m.sim = s
  runs : ∀ w, m.control ≠ .await w

variable {waker : Waker} {a : Activation} {s : Simulation} {stack : List Frame}

theorem Leads.resumed {e : Expr} {w : Value} {f : Frame} {m : Machine}
    (he : Leads waker (Still a s) ⟨.eval e, a, f :: stack, s⟩ ⟨.done (.value w), a, f :: stack, s⟩)
    (h : Leads waker (Still a s) ((⟨.done (.value w), a, stack, s⟩ : Machine).resume f w) m) :
    Leads waker (Still a s) ⟨.eval e, a, f :: stack, s⟩ m :=
  (he.step ⟨rfl, rfl, nofun⟩ rfl).trans h

theorem Leads.looked {e : Expr} {m : Machine}
    (h : Leads waker (Still a s) ((⟨.eval e, a, stack, s⟩ : Machine).eval e) m) :
    Leads waker (Still a s) ⟨.eval e, a, stack, s⟩ m :=
  Leads.trans (.step .here ⟨rfl, rfl, nofun⟩ rfl) h

mutual

theorem structural_leads : ∀ (e : Expr) {v : Value} {stack : List Frame},
    s.tree.structural a.owner e = .ok v → e.calls .mapAt = false →
    Leads waker (Still a s) ⟨.eval e, a, stack, s⟩ ⟨.done (.value v), a, stack, s⟩
  | .constant c, v, stack, h, _ => by
      simp only [Tree.structural] at h
      cases h
      exact .looked .here
  | .self, v, stack, h, _ => by
      simp only [Tree.structural] at h
      cases h
      exact .looked .here
  | .builtin b, v, stack, h, _ => by
      simp only [Tree.structural] at h
      cases h
      exact .looked .here
  | .field base index, v, stack, h, hat => by
      simp only [Tree.structural] at h
      obtain ⟨w, hw, h⟩ := bind_eq_ok h
      obtain ⟨id, hid, h⟩ := bind_eq_ok h
      apply Leads.looked
      apply Leads.resumed (structural_leads base hw hat)
      simp only [resume, withResult, hid, s.readField_of_fixedValue (f := ⟨id, index⟩) h]
      exact .here
  | .binary lhs op rhs, v, stack, h, hat => by
      simp only [Tree.structural] at h
      obtain ⟨x, hx, h⟩ := bind_eq_ok h
      obtain ⟨y, hy, h⟩ := bind_eq_ok h
      obtain ⟨hl, hr⟩ := Bool.or_eq_false_iff.mp hat
      apply Leads.looked
      apply Leads.resumed (structural_leads lhs hx hl)
      apply Leads.resumed (structural_leads rhs hy hr)
      simp only [resume, h]
      exact .here
  | .unary op operand, v, stack, h, hat => by
      simp only [Tree.structural] at h
      obtain ⟨x, hx, h⟩ := bind_eq_ok h
      apply Leads.looked
      apply Leads.resumed (structural_leads operand hx hat)
      simp only [resume, h]
      exact .here
  | .logical op values, v, stack, h, hat => by
      simp only [Tree.structural] at h
      apply Leads.looked
      -- The first operand comes as if after a neutral one, so that one lemma is about all of them.
      have heval : (⟨.eval (.logical op values), a, stack, s⟩ : Machine).eval (.logical op values) =
          (⟨.eval (.logical op values), a, stack, s⟩ : Machine).resume (.logical op values)
            (Value.neutral op) := by
        cases op <;> cases values <;> rfl
      rw [heval]
      apply structuralLogical_leads values _ h hat
      cases op <;> rfl
  | .compare left ops comparators, v, stack, h, hat => by
      simp only [Tree.structural] at h
      obtain ⟨x, hx, h⟩ := bind_eq_ok h
      obtain ⟨hl, hr⟩ := Bool.or_eq_false_iff.mp hat
      apply Leads.looked
      apply Leads.resumed (structural_leads left hx hl)
      exact structuralCompare_leads comparators _ h hr
  | .conditional test body orelse, v, stack, h, hat => by
      simp only [Tree.structural] at h
      obtain ⟨x, hx, h⟩ := bind_eq_ok h
      obtain ⟨ht, hat⟩ := Bool.or_eq_false_iff.mp hat
      obtain ⟨hb, ho⟩ := Bool.or_eq_false_iff.mp hat
      apply Leads.looked
      apply Leads.resumed (structural_leads test hx ht)
      simp only [resume]
      split at h
      · rename_i htest
        rw [if_pos htest]
        exact structural_leads body h hb
      · rename_i htest
        rw [if_neg htest]
        exact structural_leads orelse h ho
  | .tuple items, v, stack, h, hat => by
      simp only [Tree.structural] at h
      obtain ⟨values, hvalues, h⟩ := bind_eq_ok h
      cases h
      exact .looked (structuralAll_leads items _ hvalues hat fun _ => rfl)
  | .subscript value index, v, stack, h, hat => by
      simp only [Tree.structural] at h
      obtain ⟨x, hx, h⟩ := bind_eq_ok h
      obtain ⟨items, hitems, h⟩ := bind_eq_ok h
      obtain ⟨y, hy, h⟩ := bind_eq_ok h
      obtain ⟨hl, hr⟩ := Bool.or_eq_false_iff.mp hat
      apply Leads.looked
      apply Leads.resumed (structural_leads value hx hl)
      apply Leads.resumed (structural_leads index hy hr)
      rw [Value.asTuple_eq_ok hitems]
      simp only [resume, Simulation.subscript]
      rw [show (do Value.item items (← y.asInt)) = Except.ok v from h]
      exact .here
  | .call callee args keywords, v, stack, h, hat => by
      cases callee with
      | builtin b =>
          simp only [Tree.structural] at h
          obtain ⟨values, hvalues, h⟩ := bind_eq_ok h
          simp only [Expr.calls, Bool.or_eq_false_iff, beq_eq_false_iff_ne] at hat
          obtain ⟨hb, hargs, -⟩ := hat
          refine .looked (structuralAll_leads args _ hvalues hargs fun c => ?_)
          simp only [gathered, builtin, List.reverse_nil, List.nil_append,
            s.builtin_of_structuralBuiltin hb h]
          rfl
      | _ =>
          simp only [Tree.structural] at h
          cases h
  | .member _ _, _, _, h, _ | .param _ _, _, _, h, _ | .var _, _, _, h, _
  | .await _, _, _, h, _ => by
      simp only [Tree.structural, Tree.notStructural] at h
      cases h

/-- Values that are gathered are used in the order of their expressions. -/
theorem structuralAll_leads : ∀ (l : List Expr) {values : List Value} {use : Gathered} {v : Value}
    {stack : List Frame} {c : Control} (gone : List Value),
    s.tree.structuralAll a.owner l = .ok values → Expr.callsAny .mapAt l = false →
    (∀ c, (⟨c, a, stack, s⟩ : Machine).gathered use (gone.reverse ++ values) =
      ⟨.done (.value v), a, stack, s⟩) →
    Leads waker (Still a s) ((⟨c, a, stack, s⟩ : Machine).gather use gone l)
      ⟨.done (.value v), a, stack, s⟩
  | [], values, use, v, stack, c, gone, h, _, hend => by
      simp only [Tree.structuralAll] at h
      cases h
      rw [gather, ← List.append_nil gone.reverse, hend]
      exact .here
  | e :: rest, values, use, v, stack, c, gone, h, hat, hend => by
      simp only [Tree.structuralAll] at h
      obtain ⟨x, hx, h⟩ := bind_eq_ok h
      obtain ⟨values, hvalues, h⟩ := bind_eq_ok h
      cases h
      obtain ⟨he, hrest⟩ := Bool.or_eq_false_iff.mp hat
      apply Leads.resumed (structural_leads e hx he)
      apply structuralAll_leads rest (x :: gone) hvalues hrest
      simpa using hend

/-- Operands come after one that does not decide. -/
theorem structuralLogical_leads : ∀ (l : List Expr) {op : BoolOp} {last v : Value}
    {stack : List Frame} {c : Control}, last.decides op = false →
    s.tree.structuralLogical a.owner op last l = .ok v → Expr.callsAny .mapAt l = false →
    Leads waker (Still a s) ((⟨c, a, stack, s⟩ : Machine).resume (.logical op l) last)
      ⟨.done (.value v), a, stack, s⟩
  | [], op, last, v, stack, c, _, h, _ => by
      simp only [Tree.structuralLogical] at h
      cases h
      exact .here
  | e :: rest, op, last, v, stack, c, hlast, h, hat => by
      simp only [Tree.structuralLogical] at h
      obtain ⟨x, hx, h⟩ := bind_eq_ok h
      obtain ⟨he, hrest⟩ := Bool.or_eq_false_iff.mp hat
      simp only [resume, hlast]
      apply Leads.resumed (structural_leads e hx he)
      split at h
      · rename_i hdecides
        cases h
        cases rest <;> simp only [resume, hdecides] <;> exact .here
      · rename_i hdecides
        exact structuralLogical_leads rest (by simpa using hdecides) h hrest

theorem structuralCompare_leads : ∀ (l : List Expr) {left v : Value} {ops : List CmpOp}
    {stack : List Frame} (c : Control), s.tree.structuralCompare a.owner left ops l = .ok v →
    Expr.callsAny .mapAt l = false →
    Leads waker (Still a s) ((⟨c, a, stack, s⟩ : Machine).compareOn left ops l)
      ⟨.done (.value v), a, stack, s⟩
  | [], left, v, ops, stack, c, h, _ => by
      simp only [Tree.structuralCompare] at h
      cases h
      cases ops <;> exact .here
  | e :: rest, left, v, [], stack, c, h, _ => by
      simp only [Tree.structuralCompare] at h
      cases h
      exact .here
  | e :: rest, left, v, op :: ops, stack, c, h, hat => by
      simp only [Tree.structuralCompare] at h
      obtain ⟨x, hx, h⟩ := bind_eq_ok h
      obtain ⟨holds, hholds, h⟩ := bind_eq_ok h
      obtain ⟨he, hrest⟩ := Bool.or_eq_false_iff.mp hat
      apply Leads.resumed (structural_leads e hx he)
      simp only [resume, withResult, hholds]
      split at h
      · rename_i hcompare
        rw [if_pos hcompare]
        exact structuralCompare_leads rest _ h hrest
      · rename_i hcompare
        cases h
        rw [if_neg hcompare]
        exact .here

end

/-- A structural expression comes to its value in every frame of its instance, whatever the frame
writes and wherever it stands. The machine neither waits nor changes anything on its way, so a run
goes on as if the value had stood there. -/
theorem structural_value_at_run_time (waker : Waker) (s : Simulation) (a : Activation)
    (stack : List Frame) {e : Expr} {v : Value} (h : s.tree.structural a.owner e = .ok v)
    (hat : e.calls .mapAt = false) :
    Leads waker (Still a s) ⟨.eval e, a, stack, s⟩ ⟨.done (.value v), a, stack, s⟩ ∧
      ∃ n, ∀ fuel, run waker (fuel + n) ⟨.eval e, a, stack, s⟩ =
        run waker fuel ⟨.done (.value v), a, stack, s⟩ := by
  have hleads : Leads waker (Still a s) ⟨.eval e, a, stack, s⟩ ⟨.done (.value v), a, stack, s⟩ :=
    structural_leads e h hat
  exact ⟨hleads, hleads.run⟩

end Machine

def sizedDesign : TypeTable :=
  ⟨[⟨"Leaf", .component { Component.ofName "Leaf" with
      body := { Body.ofName "Leaf" with
        fields := [{ Field.ofType "n" (.int 8 false) with
          initial := some (.int 6), isConst := true }] } }⟩,
    ⟨"Top", .component { Component.ofName "Top" with
      body := { Body.ofName "Top" with fields := [.ofType "leaf" (.ref "Leaf")] } }⟩], by decide⟩

/-- The greater one of the constant of the leaf and the last of three numbers, if the constant lies
between two bounds. -/
def boundedSize : Expr :=
  .logical .and [.compare (.int 2) [.lt, .le] [.childField 0 0, .int 6],
    .builtinCall .max [.subscript (.tuple [.int 1, .int 5, .int 9]) (.int (-1)), .childField 0 0]]

/-- The two evaluators in a frame of a clocked process, in the middle of a sum. -/
theorem structural_value_in_clocked_process : ∃ s v, sizedDesign.simulation "Top" = some s ∧
    s.tree.structural Tree.root boundedSize = .ok v ∧ v.asInt.toOption = some 9 ∧
      boundedSize.calls .mapAt = false ∧
        ∃ n, ∀ fuel,
          Machine.run .nobody (fuel + n)
            ⟨.eval boundedSize, .begin Tree.root "p" .staged, [.binary .add (.int 1)], s⟩ =
          Machine.run .nobody fuel
            ⟨.done (.value v), .begin Tree.root "p" .staged, [.binary .add (.int 1)], s⟩ := by
  have hchecked : ((sizedDesign.simulation "Top").map fun s =>
      ((s.tree.structural Tree.root boundedSize).bind Value.asInt).toOption) = some (some 9) := by
    decide +kernel
  obtain ⟨s, hs, hvalue⟩ := Option.map_eq_some_iff.mp hchecked
  cases hv : s.tree.structural Tree.root boundedSize with
  | error e =>
      rw [hv] at hvalue
      cases hvalue
  | ok v =>
      rw [hv] at hvalue
      have hat : boundedSize.calls .mapAt = false := by decide
      exact ⟨s, v, hs, hv, hvalue, hat,
        (Machine.structural_value_at_run_time .nobody s (.begin Tree.root "p" .staged)
          [.binary .add (.int 1)] hv hat).2⟩

end Clockwork
