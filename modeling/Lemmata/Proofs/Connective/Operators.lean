import Lemmata.Proofs.Connective.Conjunction

/-!
# Which operators are conjunctions

A conjunction of `n` operands is meant to have an introduction from `n` operands and, for each of its
`n` places, an elimination from `n` operands to that place. A theory may use one operator with
different numbers of operands, though, and its rules are collected without looking at these numbers:
of all introductions of the operator the first one counts, and of all eliminations to a place the
first one counts, from however many operands (`get?_ofTheory_eq_some_iff`).

For an operator that a theory uses with one number of operands only, this comes to what is meant
(`isConjunction_iff_firstRules`). Otherwise an operator may be taken for a conjunction of two
operands although only three of them can be eliminated to the first place, or may be passed over
because of an introduction from three operands although it has all the rules for two
(`isConjunction_not_iff_hasRules`).
-/

namespace Lemmata

/-! ## The shape of eliminations -/

/-- From the operator applied to `n` different variables, two or more, follows the variable at the
place. -/
def Assertion.Eliminates (a : Assertion) (s : Symbol) (n i : Nat) : Prop :=
  2 ≤ n ∧ (∃ f, s = .op f) ∧ ∃ vs : List Serial, vs.length = n ∧ vs.Nodup ∧
    a.hypotheses = [.app s (vs.map fun v => .leaf (.var v))] ∧
    ∃ v, vs[i]? = some v ∧ a.conclusion = .leaf (.var v)

/-- The check for elimination rules finds the assertions that eliminate to a place with some arity.
-/
theorem Assertion.eliminates?_eq_some_iff {a : Assertion} {s : Symbol} {i : Nat} :
    a.eliminates? = some (s, i) ↔ ∃ n, a.Eliminates s n i := by
  constructor
  · intro h
    rw [eliminates?] at h
    split at h
    next f args hhyps =>
      obtain ⟨vs, hvs, h⟩ := Option.bind_eq_some_iff.mp h
      obtain ⟨v, hv, h⟩ := Option.bind_eq_some_iff.mp h
      obtain ⟨j, hj, h⟩ := Option.bind_eq_some_iff.mp h
      split at h
      next hlen =>
        cases h
        obtain ⟨hnodup, hargs⟩ := Term.differentVars?_eq_some_iff.mp hvs
        refine ⟨vs.length, hlen, ⟨f, rfl⟩, vs, rfl, hnodup, ?_, v, ?_, ?_⟩
        · rw [hhyps, hargs]
        · exact (List.idxOf?_eq_some_iff_of_nodup hnodup).mp hj
        · exact Term.bareVar?_eq_some_iff.mp hv
      · cases h
    · cases h
  · rintro ⟨n, hn, ⟨f, rfl⟩, vs, rfl, hnodup, hhyps, v, hv, hconcl⟩
    have hvs := Term.differentVars?_eq_some_iff.mpr ⟨hnodup, rfl⟩
    have hbare := Term.bareVar?_eq_some_iff.mpr hconcl
    have hidx := (List.idxOf?_eq_some_iff_of_nodup hnodup).mpr hv
    simp [eliminates?, hhyps, hvs, hbare, hidx, hn]

theorem Assertion.Introduces.length_hypotheses {a : Assertion} {s : Symbol} {n : Nat}
    (h : a.Introduces s n) : a.hypotheses.length = n := by
  obtain ⟨-, -, vs, hlen, -, hhyps, -⟩ := h
  simp [hhyps, hlen]

/-- The arity of an introduction rule is the number of its hypotheses. -/
theorem Assertion.introduces_iff {a : Assertion} {s : Symbol} {n : Nat} :
    a.Introduces s n ↔ a.introduces? = some s ∧ a.hypotheses.length = n := by
  constructor
  · intro h
    exact ⟨introduces?_eq_some_iff.mpr ⟨n, h⟩, h.length_hypotheses⟩
  · rintro ⟨h, hlen⟩
    obtain ⟨m, hm⟩ := introduces?_eq_some_iff.mp h
    rwa [← hlen, hm.length_hypotheses]

theorem Assertion.Eliminates.arity_hypotheses {a : Assertion} {s : Symbol} {n i : Nat}
    (h : a.Eliminates s n i) : a.hypotheses.map Term.arity = [n] := by
  obtain ⟨-, -, vs, hlen, -, hhyps, -⟩ := h
  simp [hhyps, hlen, Term.arity, Term.args]

/-- The arity of an elimination rule is the number of arguments of its hypothesis. -/
theorem Assertion.eliminates_iff {a : Assertion} {s : Symbol} {n i : Nat} :
    a.Eliminates s n i ↔ a.eliminates? = some (s, i) ∧ a.hypotheses.map Term.arity = [n] := by
  constructor
  · intro h
    exact ⟨eliminates?_eq_some_iff.mpr ⟨n, h⟩, h.arity_hypotheses⟩
  · rintro ⟨h, harity⟩
    obtain ⟨m, hm⟩ := eliminates?_eq_some_iff.mp h
    obtain rfl : m = n := by simpa [hm.arity_hypotheses] using harity
    exact hm

instance (a : Assertion) (s : Symbol) (n : Nat) : Decidable (a.Introduces s n) :=
  decidable_of_iff _ Assertion.introduces_iff.symm

instance (a : Assertion) (s : Symbol) (n i : Nat) : Decidable (a.Eliminates s n i) :=
  decidable_of_iff _ Assertion.eliminates_iff.symm

/-! ## What is recorded -/

/-- The rules of the conjunction are the first ones that the theory has for the operator: the first
introduction, and for each of its places the first elimination to that place. -/
structure Conjunction.FirstRules (k : Conjunction) (T : Theory) (s : Symbol) : Prop where
  introduction : T.First (fun a => ∃ n, a.Introduces s n) k.introduction
  length : k.eliminations.length = k.arity
  elimination : ∀ (i : Nat) e, k.eliminations[i]? = some e →
    T.First (fun a => ∃ n, a.Eliminates s n i) e

/-- The rules of the conjunction are those of the operator with `n` operands. -/
structure Conjunction.RulesFor (k : Conjunction) (s : Symbol) (n : Nat) : Prop where
  arity : k.arity = n
  introduction : k.introduction.Introduces s n
  length : k.eliminations.length = n
  elimination : ∀ (i : Nat) e, k.eliminations[i]? = some e → e.Eliminates s n i

namespace Conjunctions

/-- The theory has the rules of a conjunction for the operator with `n` operands. -/
structure HasRules (T : Theory) (s : Symbol) (n : Nat) : Prop where
  introduction : ∃ a ∈ T.assertions.values, a.Introduces s n
  elimination : ∀ i < n, ∃ a ∈ T.assertions.values, a.Eliminates s n i

/-- All introductions and eliminations of the operator have `n` operands. -/
structure UsesArity (T : Theory) (s : Symbol) (n : Nat) : Prop where
  introduction : ∀ a ∈ T.assertions.values, ∀ m, a.Introduces s m → m = n
  elimination : ∀ a ∈ T.assertions.values, ∀ m i, a.Eliminates s m i → m = n

/-- All introductions and eliminations of the operator have the same number of operands. -/
def OneArity (T : Theory) (s : Symbol) : Prop :=
  ∃ n, UsesArity T s n

/-- That a symbol is used with one arity can be checked on what the searches find. -/
theorem usesArity_of_checks {T : Theory} {s : Symbol} {n : Nat}
    (hintro : ∀ a ∈ T.assertions.values, a.introduces? = some s → a.hypotheses.length = n)
    (helim : ∀ a ∈ T.assertions.values,
      a.eliminates?.map (·.1) = some s → a.hypotheses.map Term.arity = [n]) :
    UsesArity T s n := by
  constructor
  · intro a ha m hm
    obtain ⟨hop, hlen⟩ := Assertion.introduces_iff.mp hm
    exact hlen.symm.trans (hintro a ha hop)
  · intro a ha m i hm
    obtain ⟨hop, harity⟩ := Assertion.eliminates_iff.mp hm
    have hn := helim a ha (by simp [hop])
    simpa [harity] using hn

/-- The search finds the first introduction rule. -/
theorem find?_introduces_iff {T : Theory} {s : Symbol} {a : Assertion} :
    T.assertions.values.find? (fun b => b.introduces? == some s) = some a ↔
      T.First (fun b => ∃ n, b.Introduces s n) a :=
  Theory.find?_eq_some_iff_first fun b => by rw [beq_iff_eq, Assertion.introduces?_eq_some_iff]

/-- The search finds the first elimination rule for a place. -/
theorem find?_eliminates_iff {T : Theory} {s : Symbol} {i : Nat} {a : Assertion} :
    T.assertions.values.find? (fun b => b.eliminates? == some (s, i)) = some a ↔
      T.First (fun b => ∃ n, b.Eliminates s n i) a :=
  Theory.find?_eq_some_iff_first fun b => by rw [beq_iff_eq, Assertion.eliminates?_eq_some_iff]

/-- What is recorded for an operator is found by going through the theory for its introduction, and
then for an elimination to each place. -/
theorem get?_ofTheory (T : Theory) (s : Symbol) :
    (ofTheory T).operators.get? s =
      (T.assertions.values.find? fun a => a.introduces? == some s).bind fun a =>
        ((List.range a.hypotheses.length).mapM fun i =>
          T.assertions.values.find? fun b => b.eliminates? == some (s, i)).map fun es => ⟨a, es⟩ := by
  have hget := Registry.get?_ofList_firsts T.assertions.values Assertion.introduces? (fun e =>
    ((List.range e.2.hypotheses.length).mapM fun i =>
      (T.assertions.values.filterMap fun a => a.eliminates?.map fun e => (e, a)).lookup
        (e.1, i)).map fun es => Conjunction.mk e.2 es) s
  simp only [Option.map_map, List.lookup_filterMap_key] at hget
  rw [ofTheory]
  simp only [List.lookup_filterMap_key]
  exact hget

/-- All places are searched, and all searches must succeed. -/
theorem mapM_eliminates_iff {T : Theory} {s : Symbol} {n : Nat} {es : List Assertion} :
    (List.range n).mapM (fun i =>
        T.assertions.values.find? fun b => b.eliminates? == some (s, i)) = some es ↔
      es.length = n ∧ ∀ (i : Nat) e, es[i]? = some e →
        T.First (fun a => ∃ m, a.Eliminates s m i) e := by
  simp only [List.mapM_eq_some_iff, ← find?_eliminates_iff]
  constructor
  · intro h
    have hlen : n = es.length := by simpa using congrArg List.length h
    refine ⟨hlen.symm, fun i e he => ?_⟩
    obtain ⟨hlt, rfl⟩ := List.getElem?_eq_some_iff.mp he
    have hi := congrArg (·[i]?) h
    simpa [hlen, hlt] using hi
  · rintro ⟨rfl, h⟩
    apply List.ext_getElem
    · simp
    · intro i hi _
      have hlt : i < es.length := by simpa using hi
      simp [h i es[i] (by simp [hlt])]

/-- Something is recorded for an operator exactly if it consists of the first rules. -/
theorem get?_ofTheory_eq_some_iff {T : Theory} {s : Symbol} {k : Conjunction} :
    (ofTheory T).operators.get? s = some k ↔ k.FirstRules T s := by
  rw [get?_ofTheory, Option.bind_eq_some_iff]
  constructor
  · rintro ⟨a, ha, hk⟩
    obtain ⟨es, hes, rfl⟩ := Option.map_eq_some_iff.mp hk
    obtain ⟨hlen, helim⟩ := mapM_eliminates_iff.mp hes
    exact ⟨find?_introduces_iff.mp ha, hlen, helim⟩
  · rintro ⟨hintro, hlen, helim⟩
    have hes := mapM_eliminates_iff.mpr ⟨hlen, helim⟩
    rw [Conjunction.arity] at hes
    refine ⟨k.introduction, find?_introduces_iff.mpr hintro, ?_⟩
    rw [hes]
    rfl

/-- A symbol is a conjunction if it is filed as one. -/
theorem isConjunction_iff_exists {T : Theory} {s : Symbol} :
    (ofTheory T).isConjunction s ↔ ∃ k, (ofTheory T).operators.get? s = some k := by
  constructor
  · intro h
    exact (Registry.ofList_spec _).1.exists_of_contains h
  · rintro ⟨k, hk⟩
    exact Registry.contains_of_get? hk

/-- An operator is taken for a conjunction exactly if, for the number of operands of its first
introduction, there is some elimination to each place. -/
theorem isConjunction_iff_places {T : Theory} {s : Symbol} :
    (ofTheory T).isConjunction s ↔
      ∃ a n, T.First (fun b => ∃ m, b.Introduces s m) a ∧ a.Introduces s n ∧
        ∀ i < n, ∃ e ∈ T.assertions.values, ∃ m, e.Eliminates s m i := by
  rw [isConjunction_iff_exists]
  constructor
  · rintro ⟨k, hk⟩
    have hfirst := get?_ofTheory_eq_some_iff.mp hk
    obtain ⟨n, hn⟩ := hfirst.introduction.holds
    refine ⟨k.introduction, n, hfirst.introduction, hn, fun i hi => ?_⟩
    have hlt : i < k.eliminations.length := by
      rw [hfirst.length, Conjunction.arity, hn.length_hypotheses]
      exact hi
    have he := hfirst.elimination i k.eliminations[i] (by simp [hlt])
    exact ⟨k.eliminations[i], he.mem, he.holds⟩
  · rintro ⟨a, n, ha, hn, hplaces⟩
    have hfound : ∀ i ∈ List.range n, ∃ b,
        (T.assertions.values.find? fun b => b.eliminates? == some (s, i)) = pure b ∧ True := by
      intro i hi
      obtain ⟨e, he, helim⟩ := hplaces i (List.mem_range.mp hi)
      obtain ⟨b, hfirst⟩ := Theory.exists_first (fun b => ∃ m, b.Eliminates s m i) he helim
      exact ⟨b, find?_eliminates_iff.mpr hfirst, trivial⟩
    obtain ⟨es, hes, -⟩ := List.exists_mapM_eq_pure hfound
    refine ⟨⟨a, es⟩, ?_⟩
    rw [get?_ofTheory, find?_introduces_iff.mpr ha, Option.bind_some, hn.length_hypotheses, hes]
    rfl

/-! ## One number of operands -/

namespace UsesArity

variable {T : Theory} {s : Symbol} {n : Nat}

/-- The first rules of the operator are those for its number of operands. -/
theorem rulesFor (h : UsesArity T s n) {k : Conjunction} (hk : k.FirstRules T s) :
    k.RulesFor s n := by
  obtain ⟨m, hm⟩ := hk.introduction.holds
  obtain rfl : m = n := h.introduction _ hk.introduction.mem m hm
  have harity : k.arity = m := hm.length_hypotheses
  refine ⟨harity, hm, by rw [hk.length, harity], fun i e he => ?_⟩
  have hfirst := hk.elimination i e he
  obtain ⟨l, hl⟩ := hfirst.holds
  rwa [h.elimination e hfirst.mem l i hl] at hl

/-- A conjunction of the catalog has its rules, with the arity it is used with. -/
theorem hasRules (h : UsesArity T s n) (his : (ofTheory T).isConjunction s) :
    HasRules T s n := by
  obtain ⟨a, m, ha, hm, hplaces⟩ := isConjunction_iff_places.mp his
  obtain rfl : m = n := h.introduction a ha.mem m hm
  refine ⟨⟨a, ha.mem, hm⟩, fun i hi => ?_⟩
  obtain ⟨e, he, l, hl⟩ := hplaces i hi
  obtain rfl : l = m := h.elimination e he l i hl
  exact ⟨e, he, hl⟩

/-- A symbol with all its rules is found to be a conjunction. -/
theorem isConjunction (h : UsesArity T s n) {m : Nat} (hrules : HasRules T s m) :
    (ofTheory T).isConjunction s := by
  obtain ⟨⟨a, ha, hm⟩, hplaces⟩ := hrules
  -- The first introduction need not be the one at hand, but has as many operands.
  obtain ⟨b, hfirst⟩ := Theory.exists_first (fun b => ∃ l, b.Introduces s l) ha ⟨m, hm⟩
  obtain ⟨l, hl⟩ := hfirst.holds
  have hlm : l = m :=
    (h.introduction b hfirst.mem l hl).trans (h.introduction a ha m hm).symm
  refine isConjunction_iff_places.mpr ⟨b, l, hfirst, hl, fun i hi => ?_⟩
  obtain ⟨e, he, helim⟩ := hplaces i (hlm ▸ hi)
  exact ⟨e, he, m, helim⟩

end UsesArity

/-- An operator is taken for a conjunction by the first rules that the theory has for it: with `n`
operands in the first introduction, there is an elimination to each of the `n` places, from any
number of operands. What is recorded are these rules. If the theory uses the operator with one
number of operands only, it is taken for a conjunction exactly if it has the rules of one, and these
are recorded. -/
theorem isConjunction_iff_firstRules (T : Theory) (s : Symbol) :
    ((ofTheory T).isConjunction s ↔
        ∃ a n, T.First (fun b => ∃ m, b.Introduces s m) a ∧ a.Introduces s n ∧
          ∀ i < n, ∃ e ∈ T.assertions.values, ∃ m, e.Eliminates s m i) ∧
      (∀ k, (ofTheory T).operators.get? s = some k ↔ k.FirstRules T s) ∧
      (OneArity T s →
        ((ofTheory T).isConjunction s ↔ ∃ n, HasRules T s n) ∧
          ∀ n, HasRules T s n →
            ∃ k, (ofTheory T).operators.get? s = some k ∧ k.RulesFor s n) := by
  refine ⟨isConjunction_iff_places, fun k => get?_ofTheory_eq_some_iff, ?_⟩
  rintro ⟨n, hone⟩
  refine ⟨⟨fun h => ⟨n, hone.hasRules h⟩, fun ⟨m, hm⟩ => hone.isConjunction hm⟩, fun m hm => ?_⟩
  obtain ⟨k, hk⟩ := isConjunction_iff_exists.mp (hone.isConjunction hm)
  obtain ⟨a, ha, hintro⟩ := hm.introduction
  obtain rfl : m = n := hone.introduction a ha m hintro
  exact ⟨k, hk, hone.rulesFor (get?_ofTheory_eq_some_iff.mp hk)⟩

/-! ## Theories with several arities -/

/-- The theory of some statements over a fixed vocabulary, in which `a` is meant for a conjunction, `i`
for an implication and `e` for an equation. -/
def statedTheory (statements : List Statement) : Theory :=
  (Theory.build {
    vars := [⟨"class", ["x", "y"]⟩, ⟨"wff", ["p", "q", "r"]⟩]
    operators := [⟨"class", ["c", "f"]⟩, ⟨"wff", ["a", "i", "e"]⟩]
    statements } {}).2

theorem reachable_statedTheory (statements : List Statement) :
    (statedTheory statements).Reachable :=
  Theory.reachable_build _

def pairedTheory : Theory :=
  statedTheory [⟨"pair", ["p", "q"], "a(p, q)"⟩, ⟨"left", ["a(p, q)"], "p"⟩,
    ⟨"right", ["a(p, q)"], "q"⟩, ⟨"ponens", ["p", "i(p, q)"], "q"⟩,
    ⟨"sum", [], "i(a(e(x, c), e(y, c)), e(f(x, y), c))"⟩]

/-- With an introduction from two formulas and an elimination to either of them, an operator is taken
for a conjunction. -/
theorem pairedTheory_isConjunction :
    OneArity pairedTheory (.op 2) ∧ (ofTheory pairedTheory).isConjunction (.op 2) ∧
      ∃ k, (ofTheory pairedTheory).operators.get? (.op 2) = some k ∧ k.RulesFor (.op 2) 2 := by
  have hone : OneArity pairedTheory (.op 2) :=
    ⟨2, usesArity_of_checks (by decide +kernel) (by decide +kernel)⟩
  have hrules : HasRules pairedTheory (.op 2) 2 := ⟨by decide +kernel, by decide +kernel⟩
  obtain ⟨-, -, h⟩ := isConjunction_iff_firstRules pairedTheory (.op 2)
  obtain ⟨hiff, hrecorded⟩ := h hone
  exact ⟨hone, hiff.mpr ⟨2, hrules⟩, hrecorded 2 hrules⟩

def mixedTheory : Theory :=
  statedTheory [⟨"pair", ["p", "q"], "a(p, q)"⟩, ⟨"left", ["a(p, q, r)"], "p"⟩,
    ⟨"right", ["a(p, q)"], "q"⟩]

def hiddenTheory : Theory :=
  statedTheory [⟨"triple", ["p", "q", "r"], "a(p, q, r)"⟩, ⟨"pair", ["p", "q"], "a(p, q)"⟩,
    ⟨"left", ["a(p, q)"], "p"⟩, ⟨"right", ["a(p, q)"], "q"⟩]

/-- An operator may be taken for a conjunction without the rules of one, and may be passed over in
spite of them. -/
theorem isConjunction_not_iff_hasRules :
    (mixedTheory.Reachable ∧ (ofTheory mixedTheory).isConjunction (.op 2) ∧
        ¬ ∃ n, HasRules mixedTheory (.op 2) n) ∧
      hiddenTheory.Reachable ∧ ¬ (ofTheory hiddenTheory).isConjunction (.op 2) ∧
        HasRules hiddenTheory (.op 2) 2 := by
  refine ⟨⟨reachable_statedTheory _, by decide +kernel, ?_⟩, reachable_statedTheory _,
    by decide +kernel, by decide +kernel, by decide +kernel⟩
  rintro ⟨n, ⟨a, ha, hintro⟩, helim⟩
  have htwo : ∀ b ∈ mixedTheory.assertions.values,
      b.introduces? = some (.op 2) → b.hypotheses.length = 2 := by decide +kernel
  obtain ⟨hop, rfl⟩ := Assertion.introduces_iff.mp hintro
  rw [htwo a ha hop] at helim
  exact absurd (helim 0 (by decide)) (by decide +kernel)

end Conjunctions

end Lemmata
