import Lemmata.Closure.Proof
import Lemmata.Equivalence.Proof
import Lemmata.Proofs.Worksheet.Growth

/-!
# Worksheets over whole runs

The worksheets that come about by the operations of the library, in any order and with any
arguments: suppositions, single steps, closure proofs, joining, detaching, and the algebra of
equivalences. An operation that stops at a fault is part of the run like any other, and the steps it
made before the fault stay.

Each of them only adds steps that rest on earlier ones (`Operation.grows`), and so does a whole run
(`afterAll_extends`). So on every reachable worksheet looking a formula up and reading the formula of
a step agree (`Reachable.valid`). Over a whole run a formula never gets a second step, no step rests on
itself, directly or through others, and what once was on the worksheet stays there unchanged
(`run_orderly`).
-/

namespace Lemmata

namespace Worksheet

/-- The step rests on steps of the worksheet. -/
def Grounded (w : Worksheet) (_ : Term) (j : Justification) : Prop :=
  ∀ i ∈ j.premises, i < w.size

end Worksheet

open Worksheet

namespace Derivation

variable {α β : Type}

/-- The derivation only adds steps that rest on earlier ones. -/
def Grows (m : Derivation α) : Prop :=
  ∀ w : Worksheet, w.Valid → w.Extends Grounded (m w).2

namespace Grows

theorem pure (a : α) : Grows (Pure.pure a) :=
  fun _ _ => .refl

theorem throw (e : Fault) : Grows (MonadExcept.throw e : Derivation α) :=
  fun _ _ => .refl

theorem throw_bind (e : Fault) (f : α → Derivation β) :
    Grows ((MonadExcept.throw e : Derivation α) >>= f) :=
  fun _ _ => .refl

theorem lift (x : Except Fault α) : Grows (liftM x) :=
  fun _ _ => .refl

theorem get : Grows (MonadState.get : Derivation Worksheet) :=
  fun _ _ => .refl

/-- If both parts only add such steps, then so does the whole. -/
theorem bind {m : Derivation α} {f : α → Derivation β} (hm : m.Grows) (hf : ∀ a, (f a).Grows) :
    (m >>= f).Grows := by
  intro w hw
  have hderives : Derives Grounded w m fun _ _ => True := ⟨hm w hw, fun _ _ => trivial⟩
  refine (hderives.bind (R := fun _ _ => True) fun a w' hext _ => ?_).extend
  exact ⟨hf a w' (hext.valid hw), fun _ _ => trivial⟩

theorem formula (i : StepId) : (Worksheet.formula i).Grows :=
  fun _ _ => (formula_derives i).extend

theorem suppose (f : Term) : (Worksheet.suppose f).Grows :=
  fun _ hw => (suppose_derives hw fun _ => List.forall_mem_nil _).extend

theorem derive (f : Term) (premises : List StepId) (a : Assertion) :
    (Worksheet.derive f premises a).Grows :=
  fun _ hw => (derive_derives hw fun _ hpremises => hpremises).extend

end Grows

end Derivation

open Lemmata.Derivation

/-! ## The operations -/

namespace Conjunctions

mutual

/-- Joining makes one step for each conjunction in the pattern, from the steps for its operands. -/
theorem join_grows (c : Conjunctions) : (p : Term) → (steps : List StepId) →
    (c.join p steps).Grows
  | .app h as, steps => by
    unfold join
    cases c.rootOf? (.app h as) with
    | none =>
      cases steps with
      | nil => exact .throw _
      | cons i rest => exact .pure _
    | some k =>
      exact .bind (joinList_grows c as steps) fun _ => .bind (.derive _ _ _) fun _ => .pure _

theorem joinList_grows (c : Conjunctions) : (ps : List Term) → (steps : List StepId) →
    (c.joinList ps steps).Grows
  | [], steps => by
    rw [joinList]
    exact .pure _
  | p :: ps, steps => by
    rw [joinList]
    exact .bind (join_grows c p steps) fun r => .bind (.formula _) fun _ =>
      .bind (joinList_grows c ps r.2) fun _ => .pure _

end

/-- What is left over after joining is found out when all steps are made, and they stay. -/
theorem concatenate_grows (c : Conjunctions) (steps : List StepId) (p : Term) :
    (c.concatenate steps p).Grows := by
  refine .bind (join_grows c p steps) fun ⟨i, rest⟩ => ?_
  dsimp only
  split
  · exact .pure _
  · exact .throw _

end Conjunctions

/-- Detaching makes its two steps only after everything has been checked. -/
theorem Detachments.detach_grows (d : Detachments) (i : StepId) (consequent : Term)
    (a : Assertion) : (d.detach i consequent a).Grows := by
  rw [detach]
  split
  · exact .throw _
  · refine .bind (.formula i) fun f => ?_
    split
    · exact .throw _
    · split
      · exact .throw _
      · exact .bind (.derive _ _ _) fun j => .derive _ _ _

namespace ClosureCatalog

/-- The last part of a closure proof is a step by a pure rule, or joining and detaching. -/
theorem conclude_grows (c : ClosureCatalog) (s : Schema) (goal : Term) (steps : List StepId) :
    (c.conclude s goal steps).Grows := by
  rw [conclude]
  split
  · split
    · exact .derive _ _ _
    · exact .throw _
  · split
    · exact .throw _
    · refine .bind (.lift _) fun p => .bind (c.conjunctions.concatenate_grows steps p) fun i =>
        .bind (.lift _) fun q => .bind (c.detachments.detach_grows i q _) fun j =>
          .bind (.formula j) fun f => ?_
      split
      · exact .pure _
      · exact .throw _

mutual

/-- A closure proof adds steps for the open arguments, from left to right, and then its own. -/
theorem prove_grows (c : ClosureCatalog) (s : Schema) : (t : Term) → (c.prove s t).Grows
  | .app h as => by
    rw [prove]
    refine .bind .get fun w => ?_
    split
    · exact .pure _
    · split
      · exact .bind (proveOpen_grows c s s.slots as) fun steps => c.conclude_grows s _ steps
      · exact .throw _

theorem proveOpen_grows (c : ClosureCatalog) (s : Schema) : (slots : Slots) → (ts : List Term) →
    (c.proveOpen s slots ts).Grows
  | none :: slots, t :: ts => by
    rw [proveOpen]
    exact .bind (prove_grows c s t) fun i => .bind (proveOpen_grows c s slots ts) fun _ => .pure _
  | some c' :: slots, t :: ts => by
    rw [proveOpen]
    exact proveOpen_grows c s slots ts
  | [], ts => by
    rw [proveOpen]
    · exact .pure _
    all_goals simp
  | slot :: slots, [] => by
    rw [proveOpen]
    · exact .pure _
    all_goals simp

end

end ClosureCatalog

namespace EquivalenceCatalog

/-- Turning a relation around makes a single step. -/
theorem reverse_grows (c : EquivalenceCatalog) (source : StepId) : (c.reverse source).Grows := by
  refine .bind (.formula source) fun f => ?_
  split
  · exact .throw _
  · exact .bind (.lift _) fun b => .bind (.lift _) fun a => .derive _ _ _

/-- Joining two relations makes a single step. -/
theorem join_grows (c : EquivalenceCatalog) (first second : StepId) :
    (c.join first second).Grows := by
  refine .bind (.formula first) fun f => .bind (.formula second) fun g => ?_
  dsimp only
  split
  · exact .throw_bind _ _
  · refine .bind (.lift _) fun b => .bind (.lift _) fun b' => ?_
    split
    · exact .throw_bind _ _
    · split
      · exact .throw _
      · exact .bind (.lift _) fun a => .bind (.lift _) fun d => .derive _ _ _

theorem chain_grows (c : EquivalenceCatalog) (first : Option StepId) (second : StepId) :
    (c.chain first second).Grows := by
  cases first with
  | none => exact .pure _
  | some first => exact c.join_grows first second

end EquivalenceCatalog

/-! ## Runs -/

namespace Worksheet

/-- The operations on worksheets, with all that they are given. -/
inductive Operation where
  | suppose (f : Term)
  | derive (f : Term) (premises : List StepId) (a : Assertion)
  | prove (c : ClosureCatalog) (s : Schema) (t : Term)
  | concatenate (c : Conjunctions) (steps : List StepId) (pattern : Term)
  | detach (d : Detachments) (antecedent : StepId) (consequent : Term) (a : Assertion)
  | reverse (c : EquivalenceCatalog) (source : StepId)
  | chain (c : EquivalenceCatalog) (first : Option StepId) (second : StepId)

namespace Operation

/-- What the operation does. -/
def derivation : Operation → Derivation StepId
  | suppose f => Worksheet.suppose f
  | derive f premises a => Worksheet.derive f premises a
  | prove c s t => c.prove s t
  | concatenate c steps pattern => c.concatenate steps pattern
  | detach d antecedent consequent a => d.detach antecedent consequent a
  | reverse c source => c.reverse source
  | chain c first second => c.chain first second

/-- Every operation only adds steps that rest on earlier ones, also when it stops at a fault. -/
theorem grows (op : Operation) : op.derivation.Grows := by
  cases op with
  | suppose f => exact .suppose f
  | derive f premises a => exact .derive f premises a
  | prove c s t => exact c.prove_grows s t
  | concatenate c steps pattern => exact c.concatenate_grows steps pattern
  | detach d antecedent consequent a => exact d.detach_grows antecedent consequent a
  | reverse c source => exact c.reverse_grows source
  | chain c first second => exact c.chain_grows first second

end Operation

/-- The worksheet after the operations, one after the other, whether they went through or stopped. -/
def afterAll (w : Worksheet) (ops : List Operation) : Worksheet :=
  ops.foldl (fun w op => (op.derivation w).2) w

/-- A run only adds steps that rest on earlier ones. -/
theorem afterAll_extends {w : Worksheet} (hw : w.Valid) (ops : List Operation) :
    w.Extends Grounded (w.afterAll ops) := by
  induction ops generalizing w with
  | nil => exact .refl
  | cons op ops ih =>
    have hstep := op.grows w hw
    exact hstep.trans (ih (hstep.valid hw))

/-- A run can be cut anywhere. -/
theorem afterAll_append (w : Worksheet) (ops more : List Operation) :
    w.afterAll (ops ++ more) = (w.afterAll ops).afterAll more :=
  List.foldl_append

/-- The worksheets that come about by the operations of the library: some run leads to them from the
empty worksheet. -/
def Reachable (w : Worksheet) : Prop :=
  ∃ ops, w = afterAll {} ops

namespace Reachable

variable {w : Worksheet}

theorem empty : Reachable {} :=
  ⟨[], rfl⟩

/-- Any operation may follow, with any arguments. -/
theorem after (hw : w.Reachable) (op : Operation) : Reachable (op.derivation w).2 := by
  obtain ⟨ops, rfl⟩ := hw
  exact ⟨ops ++ [op], (afterAll_append {} ops [op]).symm⟩

theorem suppose (f : Term) (hw : w.Reachable) : Reachable (Worksheet.suppose f w).2 :=
  hw.after (.suppose f)

/-- On a reachable worksheet looking a formula up and reading the formula of a step agree. -/
theorem valid (hw : w.Reachable) : w.Valid := by
  obtain ⟨ops, rfl⟩ := hw
  exact (afterAll_extends valid_empty ops).valid valid_empty

end Reachable

/-! ## Every run -/

/-- Every step rests on steps before it. -/
def Acyclic (w : Worksheet) : Prop :=
  ∀ i f j, w.step? i = some (f, j) → ∀ k ∈ j.premises, k < i

theorem acyclic_empty : Acyclic {} := by
  intro i f j h
  cases h

/-- Steps that rest on the worksheet they are added to keep it free of cycles. -/
theorem Acyclic.extends {w w' : Worksheet} (hw : w.Acyclic) (h : w.Extends Grounded w') :
    w'.Acyclic := by
  induction h with
  | refl => exact hw
  | @step u g j' _ _ hgrounded ih =>
    intro i f j hi k hk
    rw [step?_append] at hi
    split at hi
    next hnew =>
      cases hi
      rw [hnew]
      exact hgrounded k hk
    next => exact ih i f j hi k hk

/-- On the worksheet of any run no two steps have the same formula, a formula is found exactly at the
step that has it, every step rests on steps before it, and whatever operations follow, the steps that
are there stay as they are at the beginning of the worksheet. -/
theorem run_orderly (ops : List Operation) :
    let w := afterAll {} ops
    (∀ i j f, w.formula? i = some f → w.formula? j = some f → i = j) ∧
      (∀ f i, w.find? f = some i ↔ w.formula? i = some f) ∧
      (∀ i f j, w.step? i = some (f, j) → ∀ k ∈ j.premises, k < i) ∧
      ∀ more : List Operation, w.steps.toList <+: (w.afterAll more).steps.toList := by
  intro w
  have hext : Extends Grounded {} w := afterAll_extends valid_empty ops
  have hvalid : w.Valid := hext.valid valid_empty
  exact ⟨fun i j f => hvalid.eq_of_formula?, fun f i => hvalid.find?_eq_some_iff,
    acyclic_empty.extends hext, fun more => (afterAll_extends hvalid more).prefix_steps⟩

end Worksheet

end Lemmata
