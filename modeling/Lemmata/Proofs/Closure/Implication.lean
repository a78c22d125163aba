import Lemmata.Proofs.Closure.Canonical
import Lemmata.Proofs.Connective.Detachment
import Lemmata.Proofs.Connective.Operators

/-!
# The grammar of implication rules

An implication closure rule is recognised by its depth, by its root, and by reading its consequent
under the conjuncts of its antecedent. Nothing in this asks for bare variables, and a pure rule that
is read in the same way need not be about bare variables. Here it is the depth that makes sure of
them: a conclusion of four levels has no room below a variable. The consequent spends its three
levels on the property, the operator and the arguments, and an antecedent that is a conjunction
spends one on the conjunction, so that the property of each conjunct has its subject as a leaf; an
antecedent that is no conjunction is the first condition, which is about a bare variable anyway.

So the assertions that are recognised for a schema are just those of the form `ImplicationForm`
(`ofImplication_iff_form`).
-/

namespace Lemmata

/-! ## Bare variables from the depth -/

/-- Conditions that are the conjuncts of an antecedent with three levels are about bare variables, if
the first one is. -/
theorem Schema.Stated.subjects_eq {s : Schema} {c : Conjunctions} {p q : Term} {v : Serial}
    {vs : List Serial} {xs args : List Term}
    (h : s.Stated (c.conjuncts p) q (v :: vs) (.leaf (.var v) :: xs) args) (hp : p.depth ≤ 3) :
    .leaf (.var v) :: xs = (v :: vs).map fun w => .leaf (.var w) := by
  have hconditions := h.conditions
  rcases c.conjuncts_eq_singleton_or_depth_lt p with hone | hlt
  · have hxs : xs = [] := by simpa [hone] using congrArg List.length hconditions
    have hvs : vs = [] := by simpa [hxs] using congrArg List.length h.heads
    simp [hxs, hvs]
  · refine ClosureRule.eq_map_leaf h.heads fun x hx => ?_
    have hmem : s.goal x ∈ c.conjuncts p := by
      rw [hconditions]
      exact List.mem_map_of_mem hx
    have hgoal : (s.goal x).depth < p.depth := hlt _ hmem
    have hfill : x.depth < (s.goal x).depth := h.proper.depth_lt_fill x
    cases x with
    | app f as =>
      have hleaf : (Term.app f as).depth ≤ 1 := by omega
      rw [Term.args_eq_nil_of_depth hleaf]
      exact Term.firstOrder_leaf f

namespace ClosureRule

/-- The assertion states the schema as an implication of four levels, from the property of bare
variables, joined by conjunctions, to the property of the operator applied to them and to
constants. -/
structure ImplicationForm (d : Detachments) (c : Conjunctions) (s : Schema) (a : Assertion)
    (op : Symbol) (p q : Term) (vs : List Serial) (args : List Term) : Prop where
  hypotheses : a.hypotheses = []
  depth : a.conclusion.depth = 4
  conclusion : a.conclusion = .binary op p q
  implication : d.isImplication op
  conjuncts : c.conjuncts p = vs.map fun v => s.goal (.leaf (.var v))
  nonempty : vs ≠ []
  nodup : vs.Nodup
  holeCount : s.template.body.holeCount = 1
  root : s.template.body.head ≠ .hole
  consequent : q = s.goal (.app s.symbol args)
  symbol : ∃ f, s.symbol = .op f
  fits : s.slots.fits args
  openArgs : s.slots.openArgs args = vs.map fun v => .leaf (.var v)
  fixed : ∀ k, some k ∈ s.slots → k.vars = []

/-- What is recognised has the form. -/
theorem form_of_ofImplication {d : Detachments} {c : Conjunctions} {a : Assertion}
    (ha : a.HoleFree) {r : ClosureRule}
    (h : ofImplication d.isImplication c.conjuncts a = .ok r) :
    ∃ op p q vs args, ImplicationForm d c r.schema a op p q vs args := by
  obtain ⟨hhyps, hdepth, op, p, q, hconcl, hop, s, hs, rfl⟩ := ofImplication_eq_ok_iff.mp h
  have hparts : ∀ t ∈ [p, q], t.HoleFree ∧ t.depth ≤ 3 := by
    intro t ht
    have hlt : t.depth < a.conclusion.depth := hconcl ▸ Term.depth_lt_of_mem ht
    rw [hdepth] at hlt
    exact ⟨(Term.holeFree_app.mp (hconcl ▸ ha.conclusion)).2 t ht, Nat.le_of_lt_succ hlt⟩
  obtain ⟨hpfree, hp⟩ := hparts p (by simp)
  obtain ⟨-, hq⟩ := hparts q (by simp)
  have hfree : ∀ t ∈ c.conjuncts p, t.HoleFree := fun t ht hhole =>
    hpfree (Conjunctions.mem_symbols_of_mem_conjuncts ht hhole)
  obtain ⟨v, vs, xs, args, hstated⟩ := readSchema_stated hfree hs
  refine ⟨op, p, q, v :: vs, args, hhyps, hdepth, hconcl, hop, ?_, hstated.nonempty, hstated.nodup,
    hstated.proper.oneHole.holeCount, hstated.proper.head_ne, hstated.conclusion, hstated.symbol,
    hstated.described.fits_self, ?_, fun k hk => ?_⟩
  · rw [hstated.conditions, hstated.subjects_eq hp, List.map_map]
    rfl
  · exact hstated.described.openArgs_eq_map fun t ht _ _ => hstated.args_eq_nil hq ht
  · exact (Term.isConstant_iff.mp (hstated.described.fixed_isConstant hk)).1

/-- What has the form, about a property without variables, is recognised. -/
theorem ImplicationForm.ofImplication_eq {d : Detachments} {c : Conjunctions} {s : Schema}
    {a : Assertion} {op : Symbol} {p q : Term} {vs : List Serial} {args : List Term}
    (h : ImplicationForm d c s a op p q vs args) (ha : a.HoleFree)
    (hvars : s.template.body.vars = []) :
    ofImplication d.isImplication c.conjuncts a = .ok ⟨.implication, s, a⟩ := by
  have hq : q.HoleFree := (Term.holeFree_app.mp (h.conclusion ▸ ha.conclusion)).2 q (by simp)
  rw [h.consequent] at hq
  have hproper := Template.proper_of_holeFree_fill h.holeCount h.root hq
  have hargs : ∀ t ∈ args, t.HoleFree := by
    intro t ht hhole
    refine hq (hproper.oneHole.mem_symbols_replaceLeaf.mpr (.inr ?_))
    exact Term.mem_symbols_of_mem_args ht hhole
  have hconst : ∀ k, some k ∈ s.slots → k.isConstant := fun k hk =>
    Term.isConstant_iff.mpr ⟨h.fixed k hk, hargs k (Slots.mem_of_fixed h.fits hk)⟩
  have hstated := Schema.stated_of_bare hproper hvars h.symbol h.nodup h.nonempty
    (.of_fits h.fits h.openArgs hconst)
  rw [← h.conjuncts, ← h.consequent] at hstated
  obtain ⟨v, vs, rfl⟩ := List.exists_cons_of_ne_nil h.nonempty
  exact ofImplication_eq_ok_iff.mpr ⟨h.hypotheses, h.depth, op, p, q, h.conclusion, h.implication, s,
    readSchema_of_stated hstated, rfl⟩

/-- An assertion is recognised as an implication rule for a schema, whose property is without
variables, exactly if it has the form of one. -/
theorem ofImplication_iff_form (T : Theory) {a : Assertion} (ha : a.HoleFree) {s : Schema}
    (hvars : s.template.body.vars = []) :
    (∀ r, ofImplication (Detachments.ofTheory T).isImplication (Conjunctions.ofTheory T).conjuncts a =
        .ok r → r.kind = .implication ∧ r.assertion = a) ∧
      ((∃ r, ofImplication (Detachments.ofTheory T).isImplication
          (Conjunctions.ofTheory T).conjuncts a = .ok r ∧ r.schema = s) ↔
        ∃ op p q vs args, ImplicationForm (Detachments.ofTheory T) (Conjunctions.ofTheory T) s a
          op p q vs args) := by
  refine ⟨fun r hr => ?_, ?_, ?_⟩
  · obtain ⟨-, -, -, -, -, -, -, s, -, rfl⟩ := ofImplication_eq_ok_iff.mp hr
    exact ⟨rfl, rfl⟩
  · rintro ⟨r, hr, rfl⟩
    exact form_of_ofImplication ha hr
  · rintro ⟨op, p, q, vs, args, hform⟩
    exact ⟨_, hform.ofImplication_eq ha hvars, rfl⟩

/-- That a sum of two zeros is zero is recognised under a conjunction, and so has the form. -/
theorem pairedTheory_sum_form :
    ∃ a ∈ Conjunctions.pairedTheory.assertions.values, a.label = "sum" ∧ a.HoleFree ∧
      ∃ op p q vs args, ImplicationForm (Detachments.ofTheory Conjunctions.pairedTheory)
        (Conjunctions.ofTheory Conjunctions.pairedTheory)
        ⟨.op 1, [none, none], ⟨.binary (.op 4) (.leaf .hole) (.leaf (.op 0))⟩⟩ a op p q vs args := by
  obtain ⟨a, ha, hlabel, hsum⟩ : ∃ a ∈ Conjunctions.pairedTheory.assertions.values,
      a.label = "sum" ∧ (ofImplication (Detachments.ofTheory Conjunctions.pairedTheory).isImplication
        (Conjunctions.ofTheory Conjunctions.pairedTheory).conjuncts a).toOption.map (·.schema) =
          some ⟨.op 1, [none, none], ⟨.binary (.op 4) (.leaf .hole) (.leaf (.op 0))⟩⟩ := by
    decide +kernel
  have hfree := (Conjunctions.reachable_statedTheory _).holeFree a ha
  refine ⟨a, ha, hlabel, hfree, (ofImplication_iff_form _ hfree rfl).2.mp ?_⟩
  obtain ⟨r, hr, hschema⟩ := Option.map_eq_some_iff.mp hsum
  exact ⟨r, Except.toOption_eq_some_iff.mp hr, hschema⟩

end ClosureRule

end Lemmata
