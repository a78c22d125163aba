import Lemmata.Equivalence.Rule
import Lemmata.Proofs.Closure.Recognition
import Lemmata.Proofs.Connective.Conjunction
import Lemmata.Proofs.Connective.Detachment
import Lemmata.Proofs.Term.Renaming

/-!
# Recognition does not depend on the choice of variables

An assertion says the same after its variables are renamed, and it is recognised as the same rule
or skipped for the same reason, with the same numbers (`recognition_rename`). Renaming reorders the
variables of an assertion, which are sorted by their numbers. But the recognisers only use how many
variables there are, which of them are equal, and in which order they occur. So each part of a
recogniser has an equation that moves the renaming from its input to its answer, and the answer of
the whole is put together from these.

An implication rule is recognised with the help of the theory's connectives. These go by operators
only, so that the conjuncts of a renamed term are the renamed conjuncts (`indifferent_ofTheory`).
-/

namespace Lemmata

open Function (Injective)

variable {r : Serial → Serial}

/-! ## Assertions and rules -/

/-- The assertion with its variables renamed. It keeps its label. -/
def Assertion.rename (r : Serial → Serial) (a : Assertion) : Assertion where
  label := a.label
  hypotheses := a.hypotheses.map (Term.rename r)
  conclusion := a.conclusion.rename r

/-- The slots with the variables of the fixed terms renamed. -/
def Slots.rename (r : Serial → Serial) (slots : Slots) : Slots :=
  slots.map (Option.map (Term.rename r))

/-- The schema with the variables of its slots and its template renamed, about the same symbol. -/
def Schema.rename (r : Serial → Serial) (s : Schema) : Schema where
  symbol := s.symbol
  slots := s.slots.rename r
  template := s.template.rename r

/-- The rule of the renamed assertion. -/
def ClosureRule.rename (r : Serial → Serial) (rule : ClosureRule) : ClosureRule where
  kind := rule.kind
  schema := rule.schema.rename r
  assertion := rule.assertion.rename r

/-- The sorted variables of a renamed assertion are the renamed variables, in another order. -/
theorem Assertion.perm_mandatoryVars_rename (hr : Injective r) (a : Assertion) :
    (a.rename r).mandatoryVars.Perm (a.mandatoryVars.map r) := by
  have hvars : ((a.rename r).conclusion :: (a.rename r).hypotheses).flatMap Term.vars =
      ((a.conclusion :: a.hypotheses).flatMap Term.vars).map r := by
    simp only [rename, List.flatMap_cons, List.flatMap_map, List.map_append, List.map_flatMap,
      Term.vars_rename hr]
  rw [mandatoryVars, mandatoryVars, hvars, List.eraseDups_map hr]
  exact (List.mergeSort_perm _ _).trans ((List.mergeSort_perm _ _).symm.map r)

/-! ## Closure rules -/

namespace ClosureRule

/-- Whether the conditions are consistent does not depend on the numbers of variables. -/
theorem checkConditions_rename (hr : Injective r) (p : Template) (i : Nat) (ts : List Term)
    (vs : List Serial) :
    checkConditions (p.rename r) i (ts.map (Term.rename r)) (vs.map r) =
      checkConditions p i ts vs := by
  induction ts generalizing i vs with
  | nil => rfl
  | cons t ts ih =>
    cases vs with
    | nil => rfl
    | cons v vs =>
      have hhead : ((p.rename r).capture? (t.rename r)).map Term.head = some (.var (r v)) ↔
          (p.capture? t).map Term.head = some (.var v) := by
        rw [Template.capture?_rename hr, Option.map_map]
        cases p.capture? t with
        | none => simp
        | some c =>
          simp only [Option.map_some, Function.comp_apply, Term.head_rename, Option.some.injEq]
          exact (Symbol.rename_injective hr).eq_iff (b := .var v)
      rw [List.map_cons, List.map_cons, checkConditions, checkConditions, ih]
      simp only [hhead]

/-- The arguments of the renamed application use the same conditions, and their slots are the
renamed slots. -/
theorem readArguments_rename (hr : Injective r) (vars : List Serial) (i : Nat) (used : List Nat)
    (ts : List Term) :
    readArguments (vars.map r) i used (ts.map (Term.rename r)) =
      (readArguments vars i used ts).map fun x => (x.1, Slots.rename r x.2) := by
  induction ts generalizing i used with
  | nil => rfl
  | cons t ts ih =>
    rw [List.map_cons, readArguments, readArguments, Term.head_rename, Symbol.varId?_rename,
      Term.isConstant_rename]
    cases t.head.varId? with
    | some v =>
      simp only [Option.map_some, List.idxOf?_map hr, ih]
      cases vars.idxOf? v with
      | none => rfl
      | some k =>
        by_cases hused : k ∈ used
        · simp only [if_pos hused]
          rfl
        · simp only [if_neg hused]
          cases readArguments vars (i + 1) (used ++ [k]) ts <;> rfl
    | none =>
      simp only [Option.map_none, ih]
      by_cases hconst : t.isConstant = true
      · simp only [if_pos hconst]
        cases readArguments vars (i + 1) used ts <;> rfl
      · simp only [if_neg hconst]
        rfl

/-- The conclusion is read alike, up to the numbers of variables in what is fixed. -/
theorem readConclusion_rename (hr : Injective r) (p : Template) (vars : List Serial)
    (conclusion : Term) :
    readConclusion (p.rename r) (vars.map r) (conclusion.rename r) =
      (readConclusion p vars conclusion).map fun x => (x.1, Slots.rename r x.2) := by
  rw [readConclusion, readConclusion, Template.capture?_rename hr]
  cases p.capture? conclusion with
  | none => rfl
  | some c =>
    cases c with
    | app h as =>
      cases h with
      | var v => rfl
      | hole => rfl
      | op f =>
        cases as with
        | nil => rfl
        | cons t ts =>
          have hread := readArguments_rename hr vars 0 [] (t :: ts)
          rw [List.map_cons] at hread
          simp only [Option.map_some, Term.rename_app, Symbol.rename, List.map_cons, hread,
            List.length_map]
          cases readArguments vars 0 [] (t :: ts) with
          | error e => rfl
          | ok x =>
            obtain ⟨used, slots⟩ := x
            simp only [Except.map, bind, Except.bind, pure, Except.pure, throw, throwThe,
              MonadExceptOf.throw]
            by_cases hlength : used.length = vars.length
            · by_cases horder : used = List.range vars.length
              · simp [horder]
              · simp [hlength, horder]
            · simp [hlength]

/-- The single variables of the conditions are renamed along with them. -/
theorem mapM_soleVar?_rename (hr : Injective r) (ts : List Term) :
    (ts.map (Term.rename r)).mapM Term.soleVar? = (ts.mapM Term.soleVar?).map (List.map r) := by
  induction ts with
  | nil => rfl
  | cons t ts ih =>
    rw [List.map_cons, List.mapM_cons, List.mapM_cons, ih, Term.soleVar?_rename hr]
    cases t.soleVar? with
    | none => rfl
    | some v => cases ts.mapM Term.soleVar? <;> rfl

/-- Renamed conditions and a renamed conclusion state the renamed schema. -/
theorem readSchema_rename (hr : Injective r) (conditions : List Term) (conclusion : Term) :
    readSchema (conditions.map (Term.rename r)) (conclusion.rename r) =
      (readSchema conditions conclusion).map (Schema.rename r) := by
  cases conditions with
  | nil => rfl
  | cons t ts =>
    have hvars := mapM_soleVar?_rename hr (t :: ts)
    rw [List.map_cons] at hvars ⊢
    cases hsole : (t :: ts).mapM Term.soleVar? with
    | none =>
      rw [hsole] at hvars
      simp only [readSchema, hsole, hvars]
      rfl
    | some vars =>
      rw [hsole] at hvars
      cases vars with
      | nil =>
        simp only [readSchema, hsole, hvars]
        rfl
      | cons v vs =>
        have habstract := Template.abstracting?_rename hr t v
        cases hp : Template.abstracting? t v with
        | none =>
          rw [hp] at habstract
          simp only [readSchema, hsole, hvars, hp, habstract, Option.map_some, List.map_cons]
          rfl
        | some p =>
          have hread := readConclusion_rename hr p (v :: vs) conclusion
          rw [hp] at habstract
          rw [List.map_cons] at hread
          simp only [readSchema, hsole, hvars, hp, habstract, Option.map_some, List.map_cons,
            checkConditions_rename hr, hread]
          cases checkConditions p 1 ts vs with
          | error e => rfl
          | ok u => cases readConclusion p (v :: vs) conclusion <;> rfl

/-- A pure rule is recognised whatever numbers its variables have. -/
theorem ofPure_rename (hr : Injective r) (a : Assertion) :
    ofPure (a.rename r) = (ofPure a).map (rename r) := by
  have hvars : (a.rename r).mandatoryVars.length = a.mandatoryVars.length := by
    rw [(a.perm_mandatoryVars_rename hr).length_eq, List.length_map]
  have hhyps : (a.rename r).hypotheses.length = a.hypotheses.length := List.length_map _
  have hschema : readSchema (a.rename r).hypotheses (a.rename r).conclusion =
      (readSchema a.hypotheses a.conclusion).map (Schema.rename r) :=
    readSchema_rename hr a.hypotheses a.conclusion
  simp only [ofPure, hvars, hhyps, hschema]
  by_cases hnone : a.hypotheses.length = 0
  · simp only [if_pos hnone]
    rfl
  · by_cases hcount : a.hypotheses.length ≠ a.mandatoryVars.length
    · simp only [if_neg hnone, if_pos hcount]
      rfl
    · simp only [if_neg hnone, if_neg hcount]
      cases readSchema a.hypotheses a.conclusion <;> rfl

/-- What is an implication, and into which conjuncts a term falls, does not depend on the numbers of
the variables. -/
structure Indifferent (r : Serial → Serial) (isImplication : Symbol → Bool)
    (conjuncts : Term → List Term) : Prop where
  isImplication : ∀ s, isImplication (s.rename r) = isImplication s
  conjuncts : ∀ t, conjuncts (t.rename r) = (conjuncts t).map (Term.rename r)

/-- An implication rule is recognised whatever numbers its variables have, if implications and
conjuncts do not depend on them either. -/
theorem ofImplication_rename (hr : Injective r) {isImplication : Symbol → Bool}
    {conjuncts : Term → List Term} (h : Indifferent r isImplication conjuncts) (a : Assertion) :
    ofImplication isImplication conjuncts (a.rename r) =
      (ofImplication isImplication conjuncts a).map (rename r) := by
  have hhyps : (a.rename r).hypotheses = [] ↔ a.hypotheses = [] := List.map_eq_nil_iff
  have hdepth : (a.rename r).conclusion.depth = a.conclusion.depth := a.conclusion.depth_rename r
  simp only [ofImplication, ne_eq, hhyps, hdepth]
  by_cases hnone : a.hypotheses = []
  · by_cases hfour : a.conclusion.depth = implicationDepth
    · simp only [hnone, hfour, not_true_eq_false, if_false]
      obtain ⟨label, hypotheses, conclusion⟩ := a
      cases conclusion with
      | app s as =>
        rcases as with _ | ⟨p, _ | ⟨q, _ | ⟨u, us⟩⟩⟩
        · rfl
        · rfl
        · simp only [Assertion.rename, Term.rename_app, List.map_cons, List.map_nil,
            h.isImplication, h.conjuncts, readSchema_rename hr]
          by_cases hs : isImplication s = true
          · simp only [if_pos hs]
            cases readSchema (conjuncts p) q <;> rfl
          · simp only [if_neg hs]
            rfl
        · rfl
    · simp only [hnone, hfour, not_true_eq_false, not_false_eq_true, if_false, if_true]
      rfl
  · simp only [hnone, not_false_eq_true, if_true]
    rfl

/-- The slots of a schema that is read off an assertion fix constants, so that a renaming changes
the schema at most in its template. -/
theorem rename_of_readSchema {conditions : List Term} {conclusion : Term} {s : Schema}
    (h : readSchema conditions conclusion = .ok s) (hvars : s.template.body.vars = [])
    (r : Serial → Serial) : s.rename r = s := by
  obtain ⟨t, ts, v, vs, -, -, -, -, hread⟩ := readSchema_eq_ok_iff.mp h
  obtain ⟨args, -, -, -, hargs⟩ := readConclusion_eq_ok_iff.mp hread
  obtain ⟨_, _, hdescribes, -, -⟩ := readArguments_spec hargs
  have hslots : s.slots.rename r = s.slots := by
    refine (List.map_congr_left fun slot hslot => ?_).trans (List.map_id' s.slots)
    cases slot with
    | none => rfl
    | some c =>
      have hconst := Term.isConstant_iff.mp (hdescribes.fixed_isConstant hslot)
      exact congrArg some (Term.rename_of_vars_eq_nil hconst.1 r)
  rw [Schema.rename, hslots, Template.rename_of_vars_eq_nil hvars]

end ClosureRule

/-! ## Connectives -/

/-- Implications are operators, so renaming variables does not touch them. -/
theorem Detachments.Lawful.isImplication_rename {d : Detachments} (h : d.Lawful)
    (r : Serial → Serial) (s : Symbol) : d.isImplication (s.rename r) = d.isImplication s := by
  have hvar : ∀ v, d.isImplication (.var v) = false := by
    intro v
    rw [← Bool.not_eq_true]
    intro himp
    obtain ⟨mp, hmp⟩ := h.valid.exists_of_contains himp
    obtain ⟨_, _, _, _, _, hs⟩ := Assertion.modusPonens?_spec (h.modusPonens _ mp hmp)
    cases hs
  cases s with
  | var v => rw [Symbol.rename, hvar, hvar]
  | op f => rfl
  | hole => rfl

/-- Only an operator is a conjunction, so renaming keeps what stands at the root. -/
theorem Conjunctions.Lawful.rootOf?_rename {c : Conjunctions} (h : c.Lawful) (r : Serial → Serial)
    (t : Term) : c.rootOf? (t.rename r) = c.rootOf? t := by
  have hvar : ∀ v as, c.rootOf? (.app (.var v) as) = none := by
    intro v as
    cases hk : c.rootOf? (.app (.var v) as) with
    | none => rfl
    | some k => cases (h.of_rootOf? hk).2
  cases t with
  | app s as =>
    rw [Term.rename_app]
    cases s with
    | var v => rw [Symbol.rename, hvar, hvar]
    | op f => exact rootOf?_congr _ _ (List.length_map _)
    | hole => exact rootOf?_congr _ _ (List.length_map _)

/-- The conjuncts of a renamed term are the renamed conjuncts. -/
theorem Conjunctions.Lawful.conjuncts_rename {c : Conjunctions} (h : c.Lawful)
    (r : Serial → Serial) (t : Term) :
    c.conjuncts (t.rename r) = (c.conjuncts t).map (Term.rename r) := by
  induction t with
  | app s as ih =>
    have hroot := h.rootOf?_rename r (.app s as)
    cases hk : c.rootOf? (.app s as) with
    | none =>
      rw [conjuncts_of_rootOf?_none hk, conjuncts_of_rootOf?_none (hroot.trans hk)]
      rfl
    | some k =>
      rw [hk, Term.rename_app] at hroot
      rw [Term.rename_app, conjuncts_of_rootOf?_some hk, conjuncts_of_rootOf?_some hroot,
        List.flatMap_map, List.map_flatMap]
      exact List.flatMap_congr ih

/-- The connectives of a theory do not depend on the numbers of variables. -/
theorem ClosureRule.indifferent_ofTheory (T T' : Theory) (r : Serial → Serial) :
    Indifferent r (Detachments.ofTheory T).isImplication (Conjunctions.ofTheory T').conjuncts :=
  ⟨(Detachments.lawful_ofTheory T).isImplication_rename r,
    (Conjunctions.lawful_ofTheory T').conjuncts_rename r⟩

/-! ## Lemmas of equivalences -/

/-- The relation between two variables, with these renamed. -/
def renameSides (r : Serial → Serial) : Symbol × Serial × Serial → Symbol × Serial × Serial
  | (s, x, y) => (s, r x, r y)

/-- A relation between variables stays one, with renamed sides. -/
theorem Term.betweenVars?_rename (hr : Injective r) (t : Term) :
    (t.rename r).betweenVars? = t.betweenVars?.map (renameSides r) := by
  cases t with
  | app h as =>
    cases h with
    | var v => rfl
    | hole => rfl
    | op f =>
      rcases as with _ | ⟨u, _ | ⟨w, _ | ⟨x, xs⟩⟩⟩
      · rfl
      · rfl
      · simp only [rename_app, Symbol.rename, List.map_cons, List.map_nil, betweenVars?,
          bareVar?_rename]
        cases u.bareVar? with
        | none => rfl
        | some a =>
          cases w.bareVar? with
          | none => rfl
          | some b => by_cases hab : a = b <;> simp [hab, hr.eq_iff, renameSides]
      · rfl

namespace Assertion

theorem betweenVars?_rename (hr : Injective r) (a : Assertion) :
    (a.rename r).hypotheses.map Term.betweenVars? =
        (a.hypotheses.map Term.betweenVars?).map (Option.map (renameSides r)) ∧
      (a.rename r).conclusion.betweenVars? = a.conclusion.betweenVars?.map (renameSides r) := by
  simp only [rename, List.map_map, Function.comp_def, Term.betweenVars?_rename hr, and_self]

/-- A lemma that turns a relation around does so after renaming. -/
theorem commutes_rename (hr : Injective r) (a : Assertion) :
    (a.rename r).commutes = a.commutes := by
  obtain ⟨hhyps, hconcl⟩ := a.betweenVars?_rename hr
  rw [commutes, commutes, hhyps, hconcl]
  rcases a.hypotheses.map Term.betweenVars? with _ | ⟨_ | ⟨s, x, y⟩, _ | ⟨_, _⟩⟩ <;>
    rcases a.conclusion.betweenVars? with _ | ⟨s', x', y'⟩ <;>
      simp [renameSides, hr.eq_iff]

/-- A lemma that chains a relation does so after renaming. -/
theorem chains_rename (hr : Injective r) (a : Assertion) :
    (a.rename r).chains = a.chains := by
  obtain ⟨hhyps, hconcl⟩ := a.betweenVars?_rename hr
  rw [chains, chains, hhyps, hconcl]
  rcases a.hypotheses.map Term.betweenVars? with
      _ | ⟨_ | ⟨s, x, y⟩, _ | ⟨_ | ⟨s', y', z⟩, _ | ⟨_, _⟩⟩⟩ <;>
    rcases a.conclusion.betweenVars? with _ | ⟨t, x', z'⟩ <;>
      simp [renameSides, hr.eq_iff]

end Assertion

/-! ## Recognition -/

/-- What the recognisers answer about a renamed assertion. -/
structure RecognisedAlike (r : Serial → Serial) (a : Assertion) : Prop where
  /-- A pure rule is recognised as the renamed rule, or skipped for the same reason. -/
  ofPure : ClosureRule.ofPure (a.rename r) = (ClosureRule.ofPure a).map (ClosureRule.rename r)
  /-- So is an implication rule, with any connectives that do not look at the variables. -/
  ofImplication : ∀ {isImplication conjuncts}, ClosureRule.Indifferent r isImplication conjuncts →
    ClosureRule.ofImplication isImplication conjuncts (a.rename r) =
      (ClosureRule.ofImplication isImplication conjuncts a).map (ClosureRule.rename r)
  /-- The connectives of a theory do not look at the variables. -/
  indifferent : ∀ T T' : Theory, ClosureRule.Indifferent r
    (Detachments.ofTheory T).isImplication (Conjunctions.ofTheory T').conjuncts
  /-- The relation that is turned around or chained is the same. -/
  commutes : (a.rename r).commutes = a.commutes
  chains : (a.rename r).chains = a.chains
  /-- A schema whose template mentions no variable is not changed at all. -/
  schema : ∀ {rule : ClosureRule}, (ClosureRule.ofPure a = .ok rule ∨
      ∃ isImplication conjuncts, ClosureRule.ofImplication isImplication conjuncts a = .ok rule) →
    rule.schema.template.body.vars = [] → (rule.rename r).schema = rule.schema

/-- Recognition commutes with an injective renaming of the variables. A renamed assertion is
recognised as a closure rule of either kind, with the renamed schema, exactly if the assertion is,
and is refused for the same reason otherwise; and it turns around or chains the same relation. -/
theorem recognition_rename (hr : Injective r) (a : Assertion) : RecognisedAlike r a where
  ofPure := ClosureRule.ofPure_rename hr a
  ofImplication h := ClosureRule.ofImplication_rename hr h a
  indifferent T T' := ClosureRule.indifferent_ofTheory T T' r
  commutes := a.commutes_rename hr
  chains := a.chains_rename hr
  schema := by
    intro rule hrule hvars
    obtain ⟨conditions, conclusion, hread⟩ : ∃ conditions conclusion,
        ClosureRule.readSchema conditions conclusion = .ok rule.schema := by
      rcases hrule with h | ⟨isImplication, conjuncts, h⟩
      · obtain ⟨-, -, s, hs, rfl⟩ := ClosureRule.ofPure_eq_ok_iff.mp h
        exact ⟨_, _, hs⟩
      · obtain ⟨-, -, _, _, _, -, -, s, hs, rfl⟩ := ClosureRule.ofImplication_eq_ok_iff.mp h
        exact ⟨_, _, hs⟩
    exact ClosureRule.rename_of_readSchema hread hvars r

/-- The rule about the first two variables, stated of the last two in the other order, has the same
schema. -/
theorem ofPure_plainRule_rev :
    let a := ClosureRule.plainRule.assertion.rename Fin.rev
    Injective (Fin.rev : Serial → Serial) ∧
      ClosureRule.ofPure a = .ok ⟨.pure, ClosureRule.plainRule.schema, a⟩ := by
  have hrev : Injective (Fin.rev : Serial → Serial) := fun _ _ => Fin.rev_inj.mp
  have halike := recognition_rename hrev ClosureRule.plainRule.assertion
  have hschema := halike.schema (.inl ClosureRule.ofPure_plainRule) (by decide)
  refine ⟨hrev, ?_⟩
  rw [halike.ofPure, ClosureRule.ofPure_plainRule, ← hschema]
  rfl

end Lemmata
