import Lemmata.Catalogs.Basic
import Lemmata.Proofs.Closure.Recognition
import Lemmata.Proofs.Connective.Detachment

/-!
# Mined catalogs

The closure catalogs of a theory are the one that its assertions fill, in any selection, and those
that come from it by adding more of its assertions. All of them are lawful: every rule that is filed
under a schema states it, in the form of its kind, and the connectives are filed with rules of their
own (`Mined.lawful`). Proofs about the use of a catalog need no more than this.
-/

namespace Lemmata.ClosureCatalog

/-- The assertion states the schema in the form of the kind. -/
def Backs (c : ClosureCatalog) : ClosureKind → Schema → Assertion → Prop
  | .pure, s, a => ∃ vs subjects args, s.Stated a.hypotheses a.conclusion vs subjects args
  | .implication, s, a =>
    a.hypotheses = [] ∧ ∃ f p q, a.conclusion = .binary f p q ∧ c.detachments.isImplication f ∧
      q.depth ≤ 3 ∧ ∃ vs subjects args, s.Stated (c.conjunctions.conjuncts p) q vs subjects args

/-- All that is filed is filed rightly. -/
structure Lawful (c : ClosureCatalog) : Prop where
  detachments : c.detachments.Lawful
  conjunctions : c.conjunctions.Lawful
  valid : ∀ kind, (c.rulesOf kind).Valid
  backs : ∀ kind s a, (s, a) ∈ (c.rulesOf kind).toList → c.Backs kind s a

/-- What is recognised as a rule of a kind states its schema in the form of this kind. -/
theorem recognise_spec {c : ClosureCatalog} {kind : ClosureKind} {a : Assertion} {r : ClosureRule}
    (ha : a.HoleFree) (h : c.recognise kind a = .ok r) :
    r.kind = kind ∧ r.assertion = a ∧ c.Backs kind r.schema a := by
  cases kind with
  | pure => exact ClosureRule.ofPure_spec ha h
  | implication =>
    refine ClosureRule.ofImplication_spec (fun t ht u hu hmem => ?_) ha h
    exact ht (Conjunctions.mem_symbols_of_mem_conjuncts hu hmem)

/-! ## Registration -/

/-- A rule is filed among those of its kind, and the other kind stays as it is. -/
theorem rulesOf_file (c : ClosureCatalog) (r : ClosureRule) (kind : ClosureKind) :
    (c.file r).rulesOf kind =
      if kind = r.kind then (c.rulesOf kind).push r.schema r.assertion else c.rulesOf kind := by
  obtain ⟨k, s, a⟩ := r
  cases k <;> cases kind <;> rfl

/-- What a rule has to be like depends on the connectives only, which filing leaves alone. -/
theorem backs_file (c : ClosureCatalog) (r : ClosureRule) (kind : ClosureKind) :
    (c.file r).Backs kind = c.Backs kind := by
  obtain ⟨k, s, a⟩ := r
  cases k <;> cases kind <;> rfl

/-- A rule that states a new schema may be filed. -/
theorem Lawful.file {c : ClosureCatalog} (hc : c.Lawful) {r : ClosureRule}
    (hnew : (c.rulesOf r.kind).contains r.schema = false)
    (hr : c.Backs r.kind r.schema r.assertion) : (c.file r).Lawful := by
  -- What a rule has to be like depends on the connectives, which filing leaves alone.
  have hconn : (c.file r).detachments = c.detachments ∧
      (c.file r).conjunctions = c.conjunctions := by
    obtain ⟨k, s, a⟩ := r
    cases k <;> exact ⟨rfl, rfl⟩
  refine ⟨hconn.1 ▸ hc.detachments, hconn.2 ▸ hc.conjunctions, fun kind => ?_, fun kind s a h => ?_⟩
  · rw [rulesOf_file]
    split
    next hkind =>
      subst hkind
      refine (hc.valid _).push ?_ _
      rwa [Registry.contains, Option.isSome_eq_false_iff, Option.isNone_iff_eq_none] at hnew
    next => exact hc.valid kind
  · rw [rulesOf_file] at h
    rw [backs_file]
    split at h
    next hkind =>
      subst hkind
      rw [Registry.toList_push, List.mem_append, List.mem_singleton] at h
      rcases h with h | h
      · exact hc.backs _ s a h
      · cases h
        exact hr
    next => exact hc.backs kind s a h

/-- An assertion that is offered keeps a catalog lawful, whether it is filed or not. -/
theorem Lawful.add {c : ClosureCatalog} (hc : c.Lawful) (kind : ClosureKind) {a : Assertion}
    (ha : a.HoleFree) : (c.add kind a).2.Lawful := by
  rw [ClosureCatalog.add]
  cases hr : c.recognise kind a with
  | error e => exact hc
  | ok r =>
    obtain ⟨rfl, rfl, hbacks⟩ := recognise_spec ha hr
    rw [register]
    split
    next => exact hc
    next hnew => exact hc.file (Bool.eq_false_iff.mpr hnew) hbacks

/-- Assertions that are offered one after the other keep a catalog lawful. -/
theorem Lawful.addAll {c : ClosureCatalog} (hc : c.Lawful) (kind : ClosureKind)
    {as : List Assertion} (has : ∀ a ∈ as, a.HoleFree) : (c.addAll kind as).Lawful := by
  rw [ClosureCatalog.addAll]
  induction as generalizing c with
  | nil => exact hc
  | cons a as ih =>
    obtain ⟨ha, has⟩ := List.forall_mem_cons.mp has
    exact ih (hc.add kind ha) has

/-! ## The catalogs of a theory -/

/-- The catalogs that are mined from a theory: a selection of its rules, and then more of its
assertions one at a time. -/
inductive Mined (T : Theory) : ClosureCatalog → Prop
  | ofTheory (selection : Selection) : Mined T (Catalogs.ofTheory T selection).closure
  | add {c : ClosureCatalog} {a : Assertion} (kind : ClosureKind) :
    Mined T c → a ∈ T.assertions.values → Mined T (c.add kind a).2

/-- A catalog without rules is lawful if its connectives are those of a theory. -/
theorem lawful_connectives (T : Theory) :
    Lawful { detachments := .ofTheory T, conjunctions := .ofTheory T } where
  detachments := Detachments.lawful_ofTheory T
  conjunctions := Conjunctions.lawful_ofTheory T
  valid kind := by
    cases kind <;> exact Registry.valid_empty
  backs kind s a h := by
    cases kind <;> cases h

/-- Mined catalogs are lawful. -/
theorem Mined.lawful {T : Theory} (hT : T.Reachable) {c : ClosureCatalog} (hc : c.Mined T) :
    c.Lawful := by
  induction hc with
  | ofTheory selection =>
    have hpure := (lawful_connectives T).addAll .pure hT.holeFree
    change (ClosureCatalog.ofTheory T selection _ _).Lawful
    rw [ClosureCatalog.ofTheory]
    split
    · split
      · exact hpure.addAll .implication hT.holeFree
      · exact (lawful_connectives T).addAll .implication hT.holeFree
    · split
      · exact hpure
      · exact lawful_connectives T
  | add kind _ ha ih => exact ih.add kind (hT.holeFree _ ha)

/-! ## Looking rules up -/

/-- What is filed under a schema states it. -/
theorem Lawful.backs_of_assertion? {c : ClosureCatalog} (hc : c.Lawful) {kind : ClosureKind}
    {s : Schema} {a : Assertion} (h : c.assertion? kind s = some a) : c.Backs kind s a :=
  hc.backs kind s a ((hc.valid kind).get?_eq_some_iff.mp h)

/-- A schema is stated if one of its two forms is filed. -/
theorem states_iff_of_valid {c : ClosureCatalog} (hc : ∀ kind, (c.rulesOf kind).Valid)
    {s : Schema} : c.states s ↔ ∃ kind, (c.assertion? kind s).isSome := by
  have hcontains := fun kind => (hc kind).contains_iff (k := s)
  rw [states, Bool.or_eq_true]
  constructor
  · rintro (h | h)
    · exact ⟨.pure, (hcontains .pure).mp h⟩
    · exact ⟨.implication, (hcontains .implication).mp h⟩
  · rintro ⟨kind, h⟩
    cases kind with
    | pure => exact .inl ((hcontains .pure).mpr h)
    | implication => exact .inr ((hcontains .implication).mpr h)

/-- A schema is stated exactly if an assertion is filed under it in one of the kinds. -/
theorem Lawful.states_iff {c : ClosureCatalog} (hc : c.Lawful) {s : Schema} :
    c.states s ↔ ∃ kind a, c.assertion? kind s = some a := by
  simp only [states_iff_of_valid hc.valid, Option.isSome_iff_exists]

end Lemmata.ClosureCatalog
