import Lemmata.Connective.Conjunction
import Lemmata.Proofs.Theory.Reachable
import Lemmata.Proofs.Worksheet.Soundness

/-!
# Joining steps by conjunction

The introduction of a conjunction leads from different bare variables to the operator applied to
them, so joining steps for as many formulas as the operator joins is always an instance of it
(`Conjoins.correct`).

To join steps in the pattern of a term yields the step for the pattern with its conjuncts replaced
by the formulas of the steps (`join_derives`), and goes through if there are enough steps
(`join_returns`). On the level of terms, a pattern with replaced conjuncts is an instance of the
pattern exactly if the replacements are the instances of the conjuncts
(`withConjuncts_eq_apply_iff`).
-/

namespace Lemmata

/-! ## The shape of introductions -/

namespace Term

/-- Terms that are all found to be variables are the leaves of these variables. -/
theorem eq_map_of_map_bareVar? {ts : List Term} {vs : List Serial}
    (h : ts.map bareVar? = vs.map some) : ts = vs.map fun v => leaf (.var v) := by
  induction ts generalizing vs with
  | nil =>
    cases vs with
    | nil => rfl
    | cons v vs => cases h
  | cons t ts ih =>
    cases vs with
    | nil => cases h
    | cons v vs =>
      obtain ⟨hv, hvs⟩ := List.cons.inj h
      rw [List.map_cons, ← ih hvs, bareVar?_eq_some_iff.mp hv]

/-- Terms pass for different variables exactly if that is what they are. -/
theorem differentVars?_eq_some_iff {ts : List Term} {vs : List Serial} :
    differentVars? ts = some vs ↔ vs.Nodup ∧ ts = vs.map fun v => leaf (.var v) := by
  rw [differentVars?]
  constructor
  · intro h
    obtain ⟨us, hus, h⟩ := Option.bind_eq_some_iff.mp h
    split at h
    next hnodup =>
      cases h
      exact ⟨hnodup, eq_map_of_map_bareVar? (List.mapM_eq_some_iff.mp hus)⟩
    · cases h
  · rintro ⟨hnodup, rfl⟩
    have hbare : (vs.map fun v => leaf (.var v)).mapM bareVar? = some vs := by
      rw [List.mapM_eq_some_iff, List.map_map]
      exact List.map_congr_left fun v _ => bareVar?_eq_some_iff.mpr rfl
    simp [hbare, hnodup]

end Term

/-- From `n` different variables, two or more, follows the operator applied to them in this order. -/
def Assertion.Introduces (a : Assertion) (s : Symbol) (n : Nat) : Prop :=
  2 ≤ n ∧ (∃ f, s = .op f) ∧ ∃ vs : List Serial, vs.length = n ∧ vs.Nodup ∧
    a.hypotheses = vs.map (fun v => .leaf (.var v)) ∧
    a.conclusion = .app s (vs.map fun v => .leaf (.var v))

/-- The check for introduction rules finds the assertions that introduce a symbol with some arity.
-/
theorem Assertion.introduces?_eq_some_iff {a : Assertion} {s : Symbol} :
    a.introduces? = some s ↔ ∃ n, a.Introduces s n := by
  constructor
  · intro h
    rw [introduces?] at h
    split at h
    next f args hconcl =>
      obtain ⟨vs, hvs, h⟩ := Option.bind_eq_some_iff.mp h
      obtain ⟨ws, hws, h⟩ := Option.bind_eq_some_iff.mp h
      split at h
      next hlen =>
        cases h
        obtain ⟨hnodup, hhyps⟩ := Term.differentVars?_eq_some_iff.mp hvs
        obtain ⟨-, hargs⟩ := Term.differentVars?_eq_some_iff.mp hws
        refine ⟨vs.length, hlen.1, ⟨f, rfl⟩, vs, rfl, hnodup, hhyps, ?_⟩
        rw [hconcl, hargs, hlen.2]
      · cases h
    · cases h
  · rintro ⟨n, hn, ⟨f, rfl⟩, vs, rfl, hnodup, hhyps, hconcl⟩
    have hvs := Term.differentVars?_eq_some_iff.mpr ⟨hnodup, rfl⟩
    simp [introduces?, hhyps, hconcl, hvs, hn]

/-- An introduction leads from two or more different variables to the operator applied to them. -/
theorem Assertion.introduces?_spec {a : Assertion} {s : Symbol} (h : a.introduces? = some s) :
    ∃ vs : List Serial, 2 ≤ vs.length ∧ vs.Nodup ∧
      a.hypotheses = vs.map (fun v => .leaf (.var v)) ∧
      a.conclusion = .app s (vs.map fun v => .leaf (.var v)) ∧ s.varId? = none := by
  obtain ⟨n, hn, ⟨f, rfl⟩, vs, rfl, hnodup, hhyps, hconcl⟩ := introduces?_eq_some_iff.mp h
  exact ⟨vs, hn, hnodup, hhyps, hconcl, rfl⟩

namespace Conjunctions

/-- Every operator is filed with an introduction of its own. -/
def Lawful (c : Conjunctions) : Prop :=
  ∀ s k, c.operators.get? s = some k → k.introduction.introduces? = some s

/-- The conjunctions of a theory are filed under their symbols, with rules of the theory for them.
-/
theorem lawful_ofTheory (T : Theory) : (ofTheory T).Lawful := by
  intro s k hk
  obtain ⟨⟨s', a⟩, ha, hsk⟩ := List.mem_filterMap.mp (Registry.mem_of_get?_ofList hk)
  obtain ⟨es, -, hes⟩ := Option.map_eq_some_iff.mp hsk
  cases hes
  obtain ⟨b, -, hb⟩ := List.mem_filterMap.mp ((Registry.ofList_spec _).2 _ ha)
  obtain ⟨s'', hs, hba⟩ := Option.map_eq_some_iff.mp hb
  cases hba
  exact hs

/-- A term is taken for a conjunction if its root is filed with as many operands as it has
arguments. -/
theorem rootOf?_eq_some {c : Conjunctions} {h : Symbol} {as : List Term} {k : Conjunction}
    (hk : c.rootOf? (.app h as) = some k) :
    c.operators.get? h = some k ∧ k.introduction.hypotheses.length = as.length := by
  obtain ⟨hget, harity⟩ := Option.filter_eq_some_iff.mp hk
  exact ⟨hget, of_decide_eq_true harity⟩

/-- Whether a root is a conjunction depends on the symbol and the number of operands alone. -/
theorem rootOf?_congr (c : Conjunctions) (h : Symbol) {as bs : List Term}
    (hlen : as.length = bs.length) : c.rootOf? (.app h as) = c.rootOf? (.app h bs) := by
  have harity : (Term.app h as).arity = (Term.app h bs).arity := hlen
  rw [rootOf?, rootOf?, harity]
  rfl

/-- Conjunctions have at least two operands, and their roots are no variables. -/
theorem Lawful.of_rootOf? {c : Conjunctions} (hc : c.Lawful) {h : Symbol} {as : List Term}
    {k : Conjunction} (hk : c.rootOf? (.app h as) = some k) :
    2 ≤ as.length ∧ h.varId? = none := by
  obtain ⟨hget, harity⟩ := rootOf?_eq_some hk
  obtain ⟨vs, hlen, -, hhyps, -, hh⟩ := Assertion.introduces?_spec (hc h k hget)
  rw [hhyps, List.length_map] at harity
  exact ⟨harity ▸ hlen, hh⟩

/-! ## Conjoined formulas -/

/-- What is built by conjunctions from formulas with a property. -/
inductive Joint (c : Conjunctions) (G : Term → Prop) : Term → Prop
  | base {f : Term} : G f → Joint c G f
  | node {h : Symbol} {fs : List Term} :
    (c.rootOf? (.app h fs)).isSome → (∀ f ∈ fs, Joint c G f) → Joint c G (.app h fs)

/-- Conjunctions are larger than what they are built from. -/
theorem Joint.size_le {c : Conjunctions} (hc : c.Lawful) {G : Term → Prop} {n : Nat}
    (hG : ∀ f, G f → n ≤ f.size) {f : Term} (hf : c.Joint G f) : n ≤ f.size := by
  induction hf with
  | base hf => exact hG _ hf
  | @node h fs hroot _ ih =>
    obtain ⟨k, hk⟩ := Option.isSome_iff_exists.mp hroot
    obtain ⟨hlen, -⟩ := hc.of_rootOf? hk
    obtain ⟨g, hg⟩ := List.exists_mem_of_length_pos (Nat.lt_of_lt_of_le Nat.two_pos hlen)
    exact Nat.le_trans (ih g hg) (Nat.le_of_lt (Term.size_lt_of_mem hg))

/-- The steps that joining makes: a conjunction of formulas that have steps, by its introduction. -/
inductive Conjoins (c : Conjunctions) (G : Term → Prop) (w : Worksheet) :
    Term → Justification → Prop
  | intro {h : Symbol} {fs : List Term} {k : Conjunction} {premises : List StepId} :
    c.rootOf? (.app h fs) = some k → (∀ f ∈ fs, c.Joint G f) →
      premises.map w.formula? = fs.map some →
      Conjoins c G w (.app h fs) (.assertion k.introduction premises)

/-- Joining steps is correct. -/
theorem Conjoins.correct {c : Conjunctions} (hc : c.Lawful) {G : Term → Prop} {w : Worksheet}
    {f : Term} {j : Justification} (h : c.Conjoins G w f j) : w.Correct f j := by
  cases h with
  | @intro h fs k premises hk _ hpremises =>
    obtain ⟨hget, harity⟩ := rootOf?_eq_some hk
    obtain ⟨vs, -, hnodup, hhyps, hconcl, hh⟩ := Assertion.introduces?_spec (hc h k hget)
    rw [hhyps, List.length_map] at harity
    obtain ⟨σ, hσ, hget⟩ := Substitution.exists_of_nodup hnodup harity
    refine ⟨σ, hσ, ?_, ?_⟩
    · rw [hhyps, Substitution.map_apply_leaf_var hget, hpremises]
    · rw [hconcl, Substitution.apply_app hh, Substitution.map_apply_leaf_var hget]

/-! ## Patterns with replaced conjuncts -/

theorem conjunctsList_eq_flatMap (c : Conjunctions) (ts : List Term) :
    c.conjunctsList ts = ts.flatMap c.conjuncts := by
  induction ts with
  | nil => rfl
  | cons t ts ih => rw [conjunctsList, ih, List.flatMap_cons]

/-- The conjuncts of a conjunction are those of its operands, one after the other. -/
theorem conjuncts_of_rootOf?_some {c : Conjunctions} {h : Symbol} {as : List Term}
    {k : Conjunction} (hk : c.rootOf? (.app h as) = some k) :
    c.conjuncts (.app h as) = as.flatMap c.conjuncts := by
  rw [conjuncts, hk, Option.isSome_some, if_pos rfl, conjunctsList_eq_flatMap]

/-- A term that is no conjunction is its own only conjunct. -/
theorem conjuncts_of_rootOf?_none {c : Conjunctions} {t : Term} (hk : c.rootOf? t = none) :
    c.conjuncts t = [t] := by
  cases t with
  | app h as =>
    rw [conjuncts, hk]
    rfl

/-- What occurs in a conjunct occurs in the term. -/
theorem mem_symbols_of_mem_conjuncts {c : Conjunctions} {t u : Term} {s : Symbol}
    (hu : u ∈ c.conjuncts t) (hs : s ∈ u.symbols) : s ∈ t.symbols := by
  induction t with
  | app h as ih =>
    cases hk : c.rootOf? (.app h as) with
    | none =>
      rw [conjuncts_of_rootOf?_none hk, List.mem_singleton] at hu
      exact hu ▸ hs
    | some k =>
      rw [conjuncts_of_rootOf?_some hk, List.mem_flatMap] at hu
      obtain ⟨t, ht, hu⟩ := hu
      exact Term.mem_symbols_of_mem_args ht (ih t ht hu)

/-- Conjuncts are no deeper than the term. -/
theorem depth_le_of_mem_conjuncts {c : Conjunctions} {t u : Term} (hu : u ∈ c.conjuncts t) :
    u.depth ≤ t.depth := by
  induction t with
  | app h as ih =>
    cases hk : c.rootOf? (.app h as) with
    | none =>
      rw [conjuncts_of_rootOf?_none hk, List.mem_singleton] at hu
      exact Nat.le_of_eq (congrArg Term.depth hu)
    | some k =>
      rw [conjuncts_of_rootOf?_some hk, List.mem_flatMap] at hu
      obtain ⟨t, ht, hu⟩ := hu
      exact Nat.le_trans (ih t ht hu) (Nat.le_of_lt (Term.depth_lt_of_mem ht))

/-- A term that is not its own only conjunct has fewer levels in each of its conjuncts. -/
theorem conjuncts_eq_singleton_or_depth_lt (c : Conjunctions) (t : Term) :
    c.conjuncts t = [t] ∨ ∀ u ∈ c.conjuncts t, u.depth < t.depth := by
  cases t with
  | app h as =>
    cases hk : c.rootOf? (.app h as) with
    | none => exact .inl (conjuncts_of_rootOf?_none hk)
    | some k =>
      right
      intro u hu
      rw [conjuncts_of_rootOf?_some hk, List.mem_flatMap] at hu
      obtain ⟨t, ht, hu⟩ := hu
      exact Nat.lt_of_le_of_lt (depth_le_of_mem_conjuncts hu) (Term.depth_lt_of_mem ht)

/-- To bind the outermost variables of a term is to bind those of its conjuncts. -/
theorem Lawful.covers_iff {c : Conjunctions} (hc : c.Lawful) {σ : Substitution} {t : Term} :
    σ.Covers t ↔ ∀ u ∈ c.conjuncts t, σ.Covers u := by
  induction t with
  | app h as ih =>
    cases hk : c.rootOf? (.app h as) with
    | none =>
      rw [conjuncts_of_rootOf?_none hk]
      simp only [List.mem_singleton, forall_eq]
    | some k =>
      rw [conjuncts_of_rootOf?_some hk, Substitution.covers_app (hc.of_rootOf? hk).2]
      simp only [List.mem_flatMap, forall_exists_index, and_imp]
      exact ⟨fun H u t ht => (ih t ht).mp (H t ht) u, fun H t ht => (ih t ht).mpr (H · t ht)⟩

mutual

/-- The pattern with its conjuncts replaced, from left to right, by the first of the terms. -/
def withConjuncts (c : Conjunctions) : Term → List Term → Term
  | .app h as, us =>
    match c.rootOf? (.app h as) with
    | some _ => .app h (c.withConjunctsList as us)
    | none => us.headD (.app h as)

def withConjunctsList (c : Conjunctions) : List Term → List Term → List Term
  | [], _ => []
  | t :: ts, us =>
    c.withConjuncts t us :: c.withConjunctsList ts (us.drop (c.conjuncts t).length)

end

/-- Replacing conjuncts leaves the number of terms alone. -/
theorem length_withConjunctsList (c : Conjunctions) (ts us : List Term) :
    (c.withConjunctsList ts us).length = ts.length := by
  induction ts generalizing us with
  | nil => rfl
  | cons t ts ih => rw [withConjunctsList, List.length_cons, ih, List.length_cons]

/-- Terms that replace the conjuncts of the pattern give its instance exactly if they are the
instances of the conjuncts. -/
def Replaces (c : Conjunctions) (σ : Substitution) (p : Term) : Prop :=
  ∀ us : List Term, (c.conjuncts p).length ≤ us.length →
    (c.withConjuncts p us = σ.apply p ↔
      us.take (c.conjuncts p).length = (c.conjuncts p).map σ.apply)

/-- If replacing the conjuncts of each pattern gives its instance just for the instances of its
conjuncts, then this is so for the patterns together: each takes its part of the replacements. -/
theorem withConjunctsList_eq_map_iff {c : Conjunctions} {σ : Substitution} {ps us : List Term}
    (hps : ∀ p ∈ ps, c.Replaces σ p) (hlen : (ps.flatMap c.conjuncts).length ≤ us.length) :
    c.withConjunctsList ps us = ps.map σ.apply ↔
      us.take (ps.flatMap c.conjuncts).length = (ps.flatMap c.conjuncts).map σ.apply := by
  induction ps generalizing us with
  | nil => simp [withConjunctsList]
  | cons p ps ih =>
    obtain ⟨hp, hps⟩ := List.forall_mem_cons.mp hps
    rw [List.flatMap_cons, List.length_append] at hlen
    have hrest : (ps.flatMap c.conjuncts).length ≤ (us.drop (c.conjuncts p).length).length := by
      rw [List.length_drop]
      omega
    rw [withConjunctsList, List.map_cons, List.cons.injEq, hp us (by omega), ih hps hrest,
      List.flatMap_cons, List.length_append, List.map_append, List.take_add]
    constructor
    · rintro ⟨hhead, htail⟩
      rw [hhead, htail]
    · intro h
      refine List.append_inj h ?_
      rw [List.length_take, List.length_map]
      omega

/-- A pattern with replaced conjuncts is an instance of the pattern exactly if the replacements are
the instances of the conjuncts. -/
theorem withConjuncts_eq_apply_iff {c : Conjunctions} (hc : c.Lawful) (σ : Substitution)
    (p : Term) : c.Replaces σ p := by
  induction p with
  | app h as ih =>
    intro us hlen
    cases hk : c.rootOf? (.app h as) with
    | none =>
      rw [conjuncts_of_rootOf?_none hk] at hlen ⊢
      cases us with
      | nil => cases hlen
      | cons u us => simp [withConjuncts, hk]
    | some k =>
      rw [conjuncts_of_rootOf?_some hk] at hlen ⊢
      rw [← withConjunctsList_eq_map_iff ih hlen, withConjuncts, hk,
        Substitution.apply_app (hc.of_rootOf? hk).2]
      simp only [Term.app.injEq, true_and]

/-! ## Joining -/

/-- Patterns with replaced conjuncts are joint formulas if this is so of each of them by itself. -/
theorem joint_withConjunctsList {c : Conjunctions} {G : Term → Prop} {ps us : List Term}
    (hps : ∀ p ∈ ps, ∀ us : List Term, (∀ u ∈ us, G u) → (c.conjuncts p).length ≤ us.length →
      c.Joint G (c.withConjuncts p us))
    (hus : ∀ u ∈ us, G u) (hlen : (ps.flatMap c.conjuncts).length ≤ us.length) :
    ∀ f ∈ c.withConjunctsList ps us, c.Joint G f := by
  induction ps generalizing us with
  | nil => exact List.forall_mem_nil _
  | cons p ps ih =>
    obtain ⟨hp, hps⟩ := List.forall_mem_cons.mp hps
    rw [List.flatMap_cons, List.length_append] at hlen
    rw [withConjunctsList]
    refine List.forall_mem_cons.mpr ⟨hp us hus (by omega), ih hps ?_ ?_⟩
    · exact fun u hu => hus u (List.mem_of_mem_drop hu)
    · rw [List.length_drop]
      omega

/-- Joined formulas are conjunctions of the formulas that are joined. -/
theorem joint_withConjuncts {c : Conjunctions} {G : Term → Prop} (p : Term) :
    ∀ us : List Term, (∀ u ∈ us, G u) → (c.conjuncts p).length ≤ us.length →
      c.Joint G (c.withConjuncts p us) := by
  induction p with
  | app h as ih =>
    intro us hus hlen
    cases hk : c.rootOf? (.app h as) with
    | none =>
      rw [conjuncts_of_rootOf?_none hk] at hlen
      cases us with
      | nil => cases hlen
      | cons u us =>
        rw [withConjuncts, hk]
        exact .base (hus u List.mem_cons_self)
    | some k =>
      rw [conjuncts_of_rootOf?_some hk] at hlen
      rw [withConjuncts, hk]
      refine .node ?_ (joint_withConjunctsList ih hus hlen)
      rw [c.rootOf?_congr h (length_withConjunctsList c as us), hk]
      rfl

open Lemmata.Derivation Lemmata.Worksheet

mutual

/-- Joining makes conjunctions of the given steps only. It uses up as many of them as the pattern
has conjuncts, and the step it yields is for the pattern with these conjuncts replaced. -/
theorem join_derives (c : Conjunctions) (G : Term → Prop) : (p : Term) → (steps : List StepId) →
    {us : List Term} → {w : Worksheet} → w.Valid → steps.map w.formula? = us.map some →
    (∀ u ∈ us, G u) →
      Derives (c.Conjoins G) w (c.join p steps) fun r w' =>
        (c.conjuncts p).length ≤ steps.length ∧ r.2 = steps.drop (c.conjuncts p).length ∧
          w'.formula? r.1 = some (c.withConjuncts p us)
  | .app h as, steps, us, w, hw, hus, hG => by
    unfold join
    cases hk : c.rootOf? (.app h as) with
    | none =>
      rw [conjuncts_of_rootOf?_none hk]
      cases steps with
      | nil => exact .throw _
      | cons i rest =>
        cases us with
        | nil => cases hus
        | cons u us =>
          refine .pure ⟨by simp, rfl, ?_⟩
          rw [withConjuncts, hk]
          exact (List.cons.inj hus).1
    | some k =>
      rw [conjuncts_of_rootOf?_some hk]
      refine (joinList_derives c G as steps hw hus hG).bind ?_
      rintro ⟨operands, rest⟩ w' hext ⟨hlen, hrest, hformulas, hoperands⟩
      have hlens : steps.length = us.length := by simpa using congrArg List.length hus
      have hjoint := joint_withConjunctsList (fun p _ => joint_withConjuncts p) hG (hlens ▸ hlen)
      -- The operands have changed but not their number, so the root is that of the same conjunction.
      have hroot : c.rootOf? (.app h (operands.map (·.2))) = some k := by
        rw [hoperands, c.rootOf?_congr h (length_withConjunctsList c as us), hk]
      refine (derive_derives (hext.valid hw) fun _ _ => ?_).bind fun i w'' _ hi => .pure ?_
      · exact .intro hroot (hoperands ▸ hjoint) hformulas
      · refine ⟨hlen, hrest, ?_⟩
        rw [hi, hoperands, withConjuncts, hk]

theorem joinList_derives (c : Conjunctions) (G : Term → Prop) :
    (ps : List Term) → (steps : List StepId) →
    {us : List Term} → {w : Worksheet} → w.Valid → steps.map w.formula? = us.map some →
    (∀ u ∈ us, G u) →
      Derives (c.Conjoins G) w (c.joinList ps steps) fun r w' =>
        (ps.flatMap c.conjuncts).length ≤ steps.length ∧
          r.2 = steps.drop (ps.flatMap c.conjuncts).length ∧
          (r.1.map (·.1)).map w'.formula? = (r.1.map (·.2)).map some ∧
          r.1.map (·.2) = c.withConjunctsList ps us
  | [], steps, us, w, _, _, _ => by
    rw [joinList]
    exact .pure ⟨Nat.zero_le _, rfl, rfl, rfl⟩
  | p :: ps, steps, us, w, hw, hus, hG => by
    rw [joinList]
    refine (join_derives c G p steps hw hus hG).bind ?_
    rintro ⟨i, rest⟩ w₁ hext ⟨hlen, rfl, hi⟩
    refine (formula_derives i).bind ?_
    rintro f w₂ - ⟨rfl, hf⟩
    have hw₁ := hext.valid hw
    have hrest : (steps.drop (c.conjuncts p).length).map w₂.formula? =
        (us.drop (c.conjuncts p).length).map some := by
      rw [List.map_drop, List.map_drop, hext.map_formula? hus]
    refine (joinList_derives c G ps _ hw₁ hrest fun u hu => hG u (List.mem_of_mem_drop hu)).bind ?_
    rintro ⟨operands, rest'⟩ w₃ hext' ⟨hlen', rfl, hformulas, hoperands⟩
    refine .pure ⟨?_, ?_, ?_, ?_⟩
    · rw [List.flatMap_cons, List.length_append]
      rw [List.length_drop] at hlen'
      omega
    · rw [List.flatMap_cons, List.length_append, List.drop_drop]
    · simp only [List.map_cons, hformulas, hext'.formula?_eq_some hf]
    · rw [List.map_cons, hoperands, withConjunctsList, Option.some.inj (hf.symm.trans hi)]

end

mutual

/-- Joining goes through if there is a step for each conjunct. -/
theorem join_returns (c : Conjunctions) : (p : Term) → (steps : List StepId) →
    {us : List Term} → {w : Worksheet} → w.Valid → steps.map w.formula? = us.map some →
    (c.conjuncts p).length ≤ steps.length → (c.join p steps).Returns w
  | .app h as, steps, us, w, hw, hus, hlen => by
    unfold join
    cases hk : c.rootOf? (.app h as) with
    | none =>
      rw [conjuncts_of_rootOf?_none hk] at hlen
      cases steps with
      | nil => cases hlen
      | cons i rest => exact ⟨_, rfl⟩
    | some k =>
      rw [conjuncts_of_rootOf?_some hk] at hlen
      have hderives := joinList_derives c (fun _ => True) as steps hw hus fun _ _ => trivial
      refine (joinList_returns c as steps hw hus hlen).bind hderives ?_
      rintro ⟨operands, rest⟩ w' hext ⟨-, -, hformulas, -⟩
      have hreturns := derive_returns (lt_size_of_map_formula? hformulas)
        (.app h (operands.map (·.2))) k.introduction
      have hw' := hext.valid hw
      exact hreturns.bind (derive_derives (P := fun _ _ _ => True) hw' fun _ _ => trivial)
        fun i w'' _ _ => ⟨_, rfl⟩

theorem joinList_returns (c : Conjunctions) : (ps : List Term) → (steps : List StepId) →
    {us : List Term} → {w : Worksheet} → w.Valid → steps.map w.formula? = us.map some →
    (ps.flatMap c.conjuncts).length ≤ steps.length → (c.joinList ps steps).Returns w
  | [], steps, us, w, _, _, _ => by
    rw [joinList]
    exact ⟨_, rfl⟩
  | p :: ps, steps, us, w, hw, hus, hlen => by
    rw [List.flatMap_cons, List.length_append] at hlen
    rw [joinList]
    have hderives := join_derives c (fun _ => True) p steps hw hus fun _ _ => trivial
    refine (join_returns c p steps hw hus (by omega)).bind hderives ?_
    rintro ⟨i, rest⟩ w₁ hext ⟨-, rfl, hi⟩
    have hw₁ := hext.valid hw
    have hrest : (steps.drop (c.conjuncts p).length).map w₁.formula? =
        (us.drop (c.conjuncts p).length).map some := by
      rw [List.map_drop, List.map_drop, hext.map_formula? hus]
    refine (formula_returns hi).bind (formula_derives (P := c.Conjoins fun _ => True) i) ?_
    rintro f w₂ - ⟨rfl, -⟩
    have hderives' := joinList_derives c (fun _ => True) ps _ hw₁ hrest fun _ _ => trivial
    refine (joinList_returns c ps _ hw₁ hrest ?_).bind hderives' fun _ _ _ _ => ⟨_, rfl⟩
    rw [List.length_drop]
    omega

end

/-- Joining all of the given steps yields the step for the pattern with its conjuncts replaced. -/
theorem concatenate_derives (c : Conjunctions) (G : Term → Prop) (p : Term) {steps : List StepId}
    {us : List Term} {w : Worksheet} (hw : w.Valid) (hus : steps.map w.formula? = us.map some)
    (hG : ∀ u ∈ us, G u) :
    Derives (c.Conjoins G) w (c.concatenate steps p) fun i w' =>
      (c.conjuncts p).length = steps.length ∧ w'.formula? i = some (c.withConjuncts p us) := by
  refine (join_derives c G p steps hw hus hG).bind ?_
  rintro ⟨i, rest⟩ w' - ⟨hlen, rfl, hi⟩
  dsimp only
  split
  next hempty =>
    have hge : steps.length ≤ (c.conjuncts p).length :=
      List.drop_eq_nil_iff.mp (List.isEmpty_iff.mp hempty)
    exact .pure ⟨Nat.le_antisymm hlen hge, hi⟩
  next => exact .throw _

/-- Joining goes through if there is exactly one step for each conjunct. -/
theorem concatenate_returns (c : Conjunctions) (p : Term) {steps : List StepId} {us : List Term}
    {w : Worksheet} (hw : w.Valid) (hus : steps.map w.formula? = us.map some)
    (hlen : (c.conjuncts p).length = steps.length) : (c.concatenate steps p).Returns w := by
  have hderives := join_derives c (fun _ => True) p steps hw hus fun _ _ => trivial
  refine (join_returns c p steps hw hus (Nat.le_of_eq hlen)).bind hderives ?_
  rintro ⟨i, rest⟩ w' - ⟨-, rfl, -⟩
  have hempty : (steps.drop (c.conjuncts p).length).isEmpty := by
    rw [hlen, List.drop_length]
    rfl
  dsimp only
  rw [if_pos hempty]
  exact ⟨i, rfl⟩

end Conjunctions

end Lemmata
