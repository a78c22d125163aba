import Lemmata.Closure.Rule
import Lemmata.Proofs.Closure.Schema
import Lemmata.Proofs.Theory.Reachable
import Mathlib.Data.List.Nodup
import Mathlib.Tactic.Tauto

/-!
# What recognised closure rules state

A schema is read off conditions and a conclusion by comparing symbols at the places where variables
are expected, and by counting. `readSchema_stated` says what this makes sure of: the conclusion
states the schema under the conditions, up to what stands below the variables.

For a pure rule this is just the difference from the form in which such a rule is meant to be
written, from the property of bare variables to the property of the operator applied to them. A
recognised assertion has this form exactly if no variable of it is applied to arguments
(`ofPure_canonical_iff_firstOrder`), and there are recognised assertions that do not have it.
-/

namespace Lemmata

namespace ClosureRule

/-! ## Reading -/

/-- What is left of the arguments after the ones read so far is described by the slots, and its
variables use up the conditions that belong to them. -/
theorem readArguments_spec {vars : List Serial} {i : Nat} {used used' : List Nat} {ts : List Term}
    {slots : Slots} (h : readArguments vars i used ts = .ok (used', slots)) :
    ∃ vs ks, slots.Describes ts vs ∧ used' = used ++ ks ∧ vs.map vars.idxOf? = ks.map some := by
  induction ts generalizing i used slots with
  | nil =>
    cases h
    exact ⟨[], [], .nil, (List.append_nil _).symm, rfl⟩
  | cons t ts ih =>
    rw [readArguments] at h
    split at h
    next v hv =>
      split at h
      next k hk =>
        split at h
        · cases h
        · cases hrest : readArguments vars (i + 1) (used ++ [k]) ts with
          | error e =>
            rw [hrest] at h
            cases h
          | ok r =>
            rw [hrest] at h
            cases h
            -- The variable uses up its condition and opens its place.
            obtain ⟨vs, ks, hdesc, hused, hks⟩ := ih hrest
            refine ⟨v :: vs, k :: ks, .opened (Symbol.eq_var_of_varId? hv) hdesc, ?_, ?_⟩
            · rw [hused, List.append_assoc]
              rfl
            · rw [List.map_cons, List.map_cons, hk, hks]
      · cases h
    next =>
      split at h
      next hconst =>
        cases hrest : readArguments vars (i + 1) used ts with
        | error e =>
          rw [hrest] at h
          cases h
        | ok r =>
          rw [hrest] at h
          cases h
          obtain ⟨vs, ks, hdesc, hused, hks⟩ := ih hrest
          exact ⟨vs, ks, .fixed hconst hdesc, hused, hks⟩
      · cases h

/-- A conclusion is read if it states the property of an application whose arguments use up all
variables in order. -/
theorem readConclusion_eq_ok_iff {p : Template} {vars : List Serial} {conclusion : Term}
    {f : Symbol} {slots : Slots} :
    readConclusion p vars conclusion = .ok (f, slots) ↔
      ∃ args, (∃ n, f = .op n) ∧ args ≠ [] ∧ p.capture? conclusion = some (.app f args) ∧
        readArguments vars 0 [] args = .ok (List.range vars.length, slots) := by
  constructor
  · intro h
    rw [readConclusion] at h
    split at h
    next n t ts hcapture =>
      cases hread : readArguments vars 0 [] (t :: ts) with
      | error e =>
        rw [hread] at h
        cases h
      | ok r =>
        obtain ⟨used, slots'⟩ := r
        rw [hread] at h
        simp only [bind, Except.bind, pure, Except.pure, throw, throwThe, MonadExceptOf.throw] at h
        split at h
        · cases h
        · split at h
          · cases h
          next hrange =>
            cases h
            refine ⟨t :: ts, ⟨n, rfl⟩, List.cons_ne_nil _ _, hcapture, ?_⟩
            rw [hread, Decidable.not_not.mp hrange]
    · cases h
  · rintro ⟨args, ⟨n, rfl⟩, hargs, hcapture, hread⟩
    obtain ⟨t, ts, rfl⟩ := List.exists_cons_of_ne_nil hargs
    simp [readConclusion, hcapture, hread, bind, Except.bind, pure, Except.pure]

/-- A conclusion that is accepted is the property of an application of an operator, whose arguments
are the variables in order and constants between them. -/
theorem readConclusion_spec {p : Template} (hp : p.Proper) {vars : List Serial} {conclusion : Term}
    {f : Symbol} {slots : Slots} (h : readConclusion p vars conclusion = .ok (f, slots)) :
    ∃ args, conclusion = p.fill (.app f args) ∧ args ≠ [] ∧ (∃ n, f = .op n) ∧
      slots.Describes args vars ∧ vars.Nodup := by
  obtain ⟨args, hf, hargs, hcapture, hread⟩ := readConclusion_eq_ok_iff.mp h
  obtain ⟨vs, ks, hdesc, hused, hks⟩ := readArguments_spec hread
  rw [List.nil_append] at hused
  rw [← hused] at hks
  obtain ⟨rfl, hnodup⟩ := List.eq_of_map_idxOf? hks
  exact ⟨args, hp.capture?_eq_some_iff.mp hcapture, hargs, hf, hdesc, hnodup⟩

/-- Conditions that pass the check state the property of terms that start with their variables. -/
theorem checkConditions_spec {p : Template} (hp : p.Proper) {i : Nat} {ts : List Term}
    {vs : List Serial} (hlen : ts.length = vs.length) (h : checkConditions p i ts vs = .ok ()) :
    ∃ xs : List Term, ts = xs.map p.fill ∧ xs.map Term.head = vs.map .var := by
  induction ts generalizing i vs with
  | nil =>
    cases vs with
    | nil => exact ⟨[], rfl, rfl⟩
    | cons v vs => cases hlen
  | cons t ts ih =>
    cases vs with
    | nil => cases hlen
    | cons v vs =>
      rw [checkConditions] at h
      split at h
      next hhead =>
        obtain ⟨x, hx, hxv⟩ := Option.map_eq_some_iff.mp hhead
        obtain ⟨xs, rfl, hxs⟩ := ih (Nat.succ.inj hlen) h
        refine ⟨x :: xs, ?_, ?_⟩
        · rw [hp.capture?_eq_some_iff.mp hx, List.map_cons]
        · rw [List.map_cons, List.map_cons, hxv, hxs]
      · cases h

/-- A schema is read if the first condition has a template, and the other conditions and the
conclusion follow it. -/
theorem readSchema_eq_ok_iff {conditions : List Term} {conclusion : Term} {s : Schema} :
    readSchema conditions conclusion = .ok s ↔
      ∃ t ts v vs, conditions = t :: ts ∧ conditions.map Term.soleVar? = (v :: vs).map some ∧
        Template.abstracting? t v = some s.template ∧
        checkConditions s.template 1 ts vs = .ok () ∧
        readConclusion s.template (v :: vs) conclusion = .ok (s.symbol, s.slots) := by
  constructor
  · intro h
    unfold readSchema at h
    split at h
    · cases h
    · cases h
    · cases h
    next t ts v vs hvars =>
      split at h
      · cases h
      next p hp =>
        cases hcheck : checkConditions p 1 ts vs with
        | error e =>
          rw [hcheck] at h
          cases h
        | ok u =>
          cases hread : readConclusion p (v :: vs) conclusion with
          | error e =>
            rw [hcheck, hread] at h
            cases h
          | ok r =>
            rw [hcheck, hread] at h
            cases h
            exact ⟨t, ts, v, vs, rfl, List.mapM_eq_some_iff.mp hvars, hp, hcheck, hread⟩
  · rintro ⟨t, ts, v, vs, rfl, hvars, hp, hcheck, hread⟩
    simp only [readSchema, List.mapM_eq_some_iff.mpr hvars, hp, hcheck, hread]
    rfl

/-- The conclusion states the schema that is read off it under the conditions, the first of which is
about a bare variable. -/
theorem readSchema_stated {conditions : List Term} {conclusion : Term} {s : Schema}
    (hfree : ∀ t ∈ conditions, t.HoleFree) (h : readSchema conditions conclusion = .ok s) :
    ∃ v vs xs args,
      s.Stated conditions conclusion (v :: vs) (.leaf (.var v) :: xs) args := by
  obtain ⟨t, ts, v, vs, rfl, hsole, hp, hcheck, hread⟩ := readSchema_eq_ok_iff.mp h
  obtain ⟨hv, hvs⟩ := List.cons.inj hsole
  have ht := hfree t List.mem_cons_self
  obtain ⟨hproper, hfill⟩ := Template.abstracting?_spec ht hp
  obtain ⟨hroot, hleaf⟩ := Template.abstracting?_soleVar ht hv hp
  have hlen : ts.length = vs.length := by simpa using congrArg List.length hvs
  obtain ⟨xs, hxs, hheads⟩ := checkConditions_spec hproper hlen hcheck
  obtain ⟨args, hconcl, hargs, hop, hdesc, hnodup⟩ := readConclusion_spec hproper hread
  refine ⟨v, vs, xs, args, hproper, hroot, hleaf, hop, hnodup, List.cons_ne_nil _ _, hsole, ?_, ?_,
    hconcl, hargs, hdesc⟩
  · rw [List.map_cons, List.map_cons, hheads]
    rfl
  · rw [List.map_cons, hxs]
    exact congrArg (· :: _) hfill.symm

/-- What is read as a schema is stated by the conditions and the conclusion, if there are no holes.
-/
theorem readSchema_spec {conditions : List Term} {conclusion : Term} {s : Schema}
    (hfree : ∀ t ∈ conditions, t.HoleFree) (h : readSchema conditions conclusion = .ok s) :
    ∃ vs subjects args, s.Stated conditions conclusion vs subjects args := by
  obtain ⟨v, vs, xs, args, hstated⟩ := readSchema_stated hfree h
  exact ⟨v :: vs, .leaf (.var v) :: xs, args, hstated⟩

/-! ## The two kinds of rules -/

/-- A pure rule has as many hypotheses as variables, at least one, and they state a schema. -/
theorem ofPure_eq_ok_iff {a : Assertion} {r : ClosureRule} :
    ofPure a = .ok r ↔
      a.hypotheses ≠ [] ∧ a.hypotheses.length = a.mandatoryVars.length ∧
        ∃ s, readSchema a.hypotheses a.conclusion = .ok s ∧ r = ⟨.pure, s, a⟩ := by
  simp only [ofPure, List.length_eq_zero_iff]
  split
  next hnil => simp [hnil]
  next hne =>
    split
    next hcount => simp [hcount]
    next hcount =>
      rw [Decidable.not_not] at hcount
      cases readSchema a.hypotheses a.conclusion <;> simp [Except.map, hne, hcount, eq_comm]

/-- The conclusion of a pure rule states its schema under the hypotheses. -/
theorem ofPure_spec {a : Assertion} {r : ClosureRule} (ha : a.HoleFree) (h : ofPure a = .ok r) :
    r.kind = .pure ∧ r.assertion = a ∧
      ∃ vs subjects args, r.schema.Stated a.hypotheses a.conclusion vs subjects args := by
  obtain ⟨-, -, s, hs, rfl⟩ := ofPure_eq_ok_iff.mp h
  exact ⟨rfl, rfl, readSchema_spec ha.hypotheses hs⟩

/-- An implication rule has no hypotheses, a conclusion of the right depth made with an implication,
and a schema stated by the conjuncts of the antecedent and the consequent. -/
theorem ofImplication_eq_ok_iff {isImplication : Symbol → Bool} {conjuncts : Term → List Term}
    {a : Assertion} {r : ClosureRule} :
    ofImplication isImplication conjuncts a = .ok r ↔
      a.hypotheses = [] ∧ a.conclusion.depth = implicationDepth ∧
        ∃ f p q, a.conclusion = .binary f p q ∧ isImplication f ∧
          ∃ s, readSchema (conjuncts p) q = .ok s ∧ r = ⟨.implication, s, a⟩ := by
  constructor
  · intro h
    rw [ofImplication] at h
    split at h
    · cases h
    next hhyps =>
      split at h
      · cases h
      next hdepth =>
        split at h
        next f p q hconcl =>
          split at h
          next hf =>
            cases hs : readSchema (conjuncts p) q with
            | error e =>
              rw [hs] at h
              cases h
            | ok s =>
              rw [hs] at h
              cases h
              exact ⟨Decidable.not_not.mp hhyps, Decidable.not_not.mp hdepth, f, p, q, hconcl, hf,
                s, hs, rfl⟩
          · cases h
        · cases h
  · rintro ⟨hhyps, hdepth, f, p, q, hconcl, hf, s, hs, rfl⟩
    rw [ofImplication, if_neg (not_not_intro hhyps), if_neg (not_not_intro hdepth)]
    simp only [hconcl, Term.binary, hf, if_true, hs]
    rfl

/-- An implication rule is an implication without hypotheses, of depth four, whose consequent states
its schema under the conjuncts of the antecedent. -/
theorem ofImplication_spec {isImplication : Symbol → Bool} {conjuncts : Term → List Term}
    (hconj : ∀ t, t.HoleFree → ∀ u ∈ conjuncts t, u.HoleFree) {a : Assertion} {r : ClosureRule}
    (ha : a.HoleFree) (h : ofImplication isImplication conjuncts a = .ok r) :
    r.kind = .implication ∧ r.assertion = a ∧ a.hypotheses = [] ∧
      ∃ f p q, a.conclusion = .binary f p q ∧ isImplication f ∧ q.depth ≤ 3 ∧
        ∃ vs subjects args, r.schema.Stated (conjuncts p) q vs subjects args := by
  obtain ⟨hhyps, hdepth, f, p, q, hconcl, hf, s, hs, rfl⟩ := ofImplication_eq_ok_iff.mp h
  have hp : p.HoleFree := (Term.holeFree_app.mp (hconcl ▸ ha.conclusion)).2 p List.mem_cons_self
  have hq : q.depth < a.conclusion.depth := by
    rw [hconcl]
    exact Term.depth_lt_of_mem (List.mem_cons_of_mem _ List.mem_cons_self)
  rw [hdepth] at hq
  exact ⟨rfl, rfl, hhyps, f, p, q, hconcl, hf, Nat.le_of_lt_succ hq, readSchema_spec (hconj p hp) hs⟩

end ClosureRule

/-! ## First-order assertions -/

namespace Term

/-- No variable of the term is applied to arguments. -/
inductive FirstOrder : Term → Prop
  | app {h : Symbol} {as : List Term} :
    (∀ v, h = .var v → as = []) → (∀ t ∈ as, FirstOrder t) → FirstOrder (app h as)

/-- An application is first-order if its root is no variable or has no arguments, and its arguments
are first-order. -/
theorem firstOrder_app {h : Symbol} {as : List Term} :
    (app h as).FirstOrder ↔ (∀ v, h = .var v → as = []) ∧ ∀ t ∈ as, t.FirstOrder := by
  constructor
  · rintro ⟨hhead, hargs⟩
    exact ⟨hhead, hargs⟩
  · rintro ⟨hhead, hargs⟩
    exact .app hhead hargs

theorem firstOrder_leaf (s : Symbol) : (leaf s).FirstOrder :=
  .app (fun _ _ => rfl) (List.forall_mem_nil _)

theorem firstOrder_of_vars_eq_nil {t : Term} (ht : t.vars = []) : t.FirstOrder := by
  induction t with
  | app h as ih =>
    refine .app (fun v hv => ?_) fun t hmem => ih t hmem (vars_eq_nil_of_mem_args ht hmem)
    exact absurd (mem_symbols_app.mpr (.inl hv.symm)) (vars_eq_nil.mp ht v)

/-- In a first-order term a variable has no arguments. -/
theorem FirstOrder.args_eq_nil {t : Term} (ht : t.FirstOrder) {v : Serial} (hv : t.head = .var v) :
    t.args = [] := by
  cases ht with
  | app hhead _ => exact hhead v hv

/-- In a first-order term, every variable stands in a leaf. -/
theorem FirstOrder.not_mem_symbols {t : Term} (ht : t.FirstOrder) {v : Serial}
    (hv : t.leafCount (.var v) = 0) : .var v ∉ t.symbols := by
  induction t with
  | app h as ih =>
    obtain ⟨hhead, hargs⟩ := firstOrder_app.mp ht
    rw [leafCount_app] at hv
    split at hv
    · cases hv
    next hne =>
      rw [mem_symbols_app, not_or]
      refine ⟨fun h => hne ⟨h.symm, hhead v h.symm⟩, ?_⟩
      rintro ⟨t, ht, hmem⟩
      exact ih t ht (hargs t ht) (leafCounts_eq_zero.mp hv t ht) hmem

/-- A filled term is first-order if it and what fills it are. -/
theorem OneHole.firstOrder_replaceLeaf {b x : Term} (hb : b.OneHole) :
    (b.replaceLeaf .hole x).FirstOrder ↔ b.FirstOrder ∧ x.FirstOrder := by
  induction hb with
  | hole => simp only [replaceLeaf_leaf, firstOrder_leaf, true_and]
  | @arg h pre b post _ hpre _ hpost ih =>
    rw [replaceLeaf_hole_arg b x hpre hpost, firstOrder_app, firstOrder_app]
    simp only [List.forall_mem_append, List.forall_mem_cons, ih, List.append_eq_nil_iff,
      reduceCtorEq, and_false]
    tauto

end Term

/-- No variable of the assertion is applied to arguments. -/
structure Assertion.FirstOrder (a : Assertion) : Prop where
  hypotheses : ∀ t ∈ a.hypotheses, t.FirstOrder
  conclusion : a.conclusion.FirstOrder

/-! ## The canonical form of pure rules -/

namespace ClosureRule

/-- The assertion leads from the property of bare variables to the property of the operator applied
to them and to constants, and has no other variables. -/
structure Canonical (s : Schema) (a : Assertion) (vs : List Serial) (args : List Term) : Prop where
  holeCount : s.template.body.holeCount = 1
  vars_template : s.template.body.vars = []
  symbol : ∃ f, s.symbol = .op f
  nodup : vs.Nodup
  nonempty : vs ≠ []
  mandatoryVars : ∀ v, v ∈ a.mandatoryVars ↔ v ∈ vs
  hypotheses : a.hypotheses = vs.map fun v => s.goal (.leaf (.var v))
  conclusion : a.conclusion = s.goal (.app s.symbol args)
  fits : s.slots.fits args
  openArgs : s.slots.openArgs args = vs.map fun v => .leaf (.var v)
  fixed : ∀ c, some c ∈ s.slots → c.vars = [] ∧ c.HoleFree

/-- Assertions in canonical form apply no variable to arguments. -/
theorem Canonical.firstOrder {s : Schema} {a : Assertion} {vs : List Serial} {args : List Term}
    (hproper : s.template.Proper) (h : Canonical s a vs args) : a.FirstOrder := by
  have htemplate := Term.firstOrder_of_vars_eq_nil h.vars_template
  constructor
  · intro t ht
    rw [h.hypotheses] at ht
    obtain ⟨v, -, rfl⟩ := List.mem_map.mp ht
    exact hproper.oneHole.firstOrder_replaceLeaf.mpr ⟨htemplate, Term.firstOrder_leaf _⟩
  · rw [h.conclusion]
    refine hproper.oneHole.firstOrder_replaceLeaf.mpr ⟨htemplate, .app ?_ fun t ht => ?_⟩
    · obtain ⟨f, hf⟩ := h.symbol
      intro v hv
      cases hf.symm.trans hv
    · rcases Slots.mem_openArgs_or_fixed h.fits ht with hopen | hfixed
      · rw [h.openArgs] at hopen
        obtain ⟨v, -, rfl⟩ := List.mem_map.mp hopen
        exact Term.firstOrder_leaf _
      · exact Term.firstOrder_of_vars_eq_nil (h.fixed t hfixed).1

/-- First-order terms with variables at their roots are these variables. -/
theorem eq_map_leaf {xs : List Term} {vs : List Serial} (hheads : xs.map Term.head = vs.map .var)
    (hxs : ∀ x ∈ xs, x.FirstOrder) : xs = vs.map fun v => .leaf (.var v) := by
  induction xs generalizing vs with
  | nil =>
    cases vs with
    | nil => rfl
    | cons v vs => cases hheads
  | cons x xs ih =>
    cases vs with
    | nil => cases hheads
    | cons v vs =>
      obtain ⟨hx, hrest⟩ := List.cons.inj hheads
      obtain ⟨hfo, hxs⟩ := List.forall_mem_cons.mp hxs
      rw [List.map_cons, ← ih hrest hxs, ← Term.eq_leaf hx (hfo.args_eq_nil hx)]

/-- A rule about bare variables has no variables but these. -/
theorem mem_mandatoryVars_of_stated {s : Schema} {a : Assertion} {vs : List Serial}
    {subjects args : List Term} (h : s.Stated a.hypotheses a.conclusion vs subjects args)
    (hvars : s.template.body.vars = [])
    (hbare : ∀ t ∈ args, ∀ v, t.head = .var v → t.args = [])
    (hhyps : a.hypotheses = vs.map fun v => s.goal (.leaf (.var v))) (v : Serial) :
    v ∈ a.mandatoryVars ↔ v ∈ vs := by
  have hnot := Term.vars_eq_nil.mp hvars v
  have hgoal : ∀ t, .var v ∈ (s.goal t).symbols ↔ .var v ∈ t.symbols := fun t => by
    rw [Schema.goal, Template.fill, h.proper.oneHole.mem_symbols_replaceLeaf]
    simp only [hnot, and_false, false_or]
  have hhyp : (∃ t ∈ vs.map fun w => s.goal (.leaf (.var w)), .var v ∈ t.symbols) ↔ v ∈ vs := by
    simp [hgoal]
  rw [Assertion.mem_mandatoryVars, hhyps, h.conclusion, hhyp, hgoal]
  refine or_iff_right_of_imp fun hmem => ?_
  obtain ⟨f, hf⟩ := h.symbol
  rcases Term.mem_symbols_app.mp hmem with hmem | ⟨t, ht, hmem⟩
  · cases hmem.trans hf
  · exact h.described.mem_of_mem_symbols hbare ht hmem

/-- A rule that states a schema without applying a variable is in canonical form. -/
theorem canonical_of_stated {s : Schema} {a : Assertion} {vs : List Serial}
    {subjects args : List Term} (h : s.Stated a.hypotheses a.conclusion vs subjects args)
    (ha : a.FirstOrder) : Canonical s a vs args := by
  have hconcl := ha.conclusion
  rw [h.conclusion, Schema.goal, Template.fill, h.proper.oneHole.firstOrder_replaceLeaf,
    Term.firstOrder_app] at hconcl
  obtain ⟨htemplate, -, hargs⟩ := hconcl
  have hvars : s.template.body.vars = [] :=
    Term.vars_eq_nil.mpr fun v => htemplate.not_mem_symbols (h.leafCount v)
  have hbare : ∀ t ∈ args, ∀ v, t.head = .var v → t.args = [] := fun t ht v hv =>
    (hargs t ht).args_eq_nil hv
  have hsubjects : subjects = vs.map fun v => .leaf (.var v) := by
    refine eq_map_leaf h.heads fun x hx => ?_
    have hmem : s.goal x ∈ a.hypotheses := by
      rw [h.conditions]
      exact List.mem_map_of_mem hx
    exact (h.proper.oneHole.firstOrder_replaceLeaf.mp (ha.hypotheses _ hmem)).2
  have hhyps : a.hypotheses = vs.map fun v => s.goal (.leaf (.var v)) := by
    rw [h.conditions, hsubjects, List.map_map]
    rfl
  exact ⟨h.proper.oneHole.holeCount, hvars, h.symbol, h.nodup, h.nonempty,
    mem_mandatoryVars_of_stated h hvars hbare hhyps, hhyps, h.conclusion,
    h.described.fits_self, h.described.openArgs_eq_map hbare,
    fun c hc => Term.isConstant_iff.mp (h.described.fixed_isConstant hc)⟩

/-- A recognised pure rule of a theory is in canonical form exactly if none of its variables is
applied to arguments. -/
theorem ofPure_canonical_iff_firstOrder {T : Theory} (hT : T.Reachable) {a : Assertion}
    (ha : a ∈ T.assertions.values) {r : ClosureRule} (h : ofPure a = .ok r) :
    r.kind = .pure ∧ r.assertion = a ∧
      ((∃ vs args, Canonical r.schema a vs args) ↔ a.FirstOrder) := by
  obtain ⟨hkind, hassertion, vs, subjects, args, hstated⟩ := ofPure_spec (hT.holeFree a ha) h
  refine ⟨hkind, hassertion, ?_, fun hfo => ⟨vs, args, canonical_of_stated hstated hfo⟩⟩
  rintro ⟨vs', args', hcanonical⟩
  exact hcanonical.firstOrder hstated.proper

/-! ### Examples

What the sample theory states: two pure rules, of which the first is in canonical form, modus ponens
and an implication rule. -/

def sampleProperty (t : Term) : Term :=
  .binary (.op 3) t (.leaf (.op 0))

def sampleVar : Term :=
  .leaf (.var 0)

def plainRule : ClosureRule where
  kind := .pure
  schema := ⟨.op 1, [none, some (.leaf (.op 0)), none], ⟨sampleProperty (.leaf .hole)⟩⟩
  assertion := {
    label := "plain"
    hypotheses := [sampleProperty sampleVar, sampleProperty (.leaf (.var 1))]
    conclusion := sampleProperty (.app (.op 1) [sampleVar, .leaf (.op 0), .leaf (.var 1)]) }

def appliedRule : ClosureRule where
  kind := .pure
  schema := ⟨.op 1, [none], ⟨sampleProperty (.leaf .hole)⟩⟩
  assertion := {
    label := "applied"
    hypotheses := [sampleProperty sampleVar]
    conclusion := sampleProperty (.app (.op 1) [.app (.var 0) [.leaf (.op 0)]]) }

def samplePonens : Assertion where
  label := "ponens"
  hypotheses := [.leaf (.var 2), .binary (.op 4) (.leaf (.var 2)) (.leaf (.var 3))]
  conclusion := .leaf (.var 3)

def impliedRule : ClosureRule where
  kind := .implication
  schema := ⟨.op 2, [none], ⟨sampleProperty (.leaf .hole)⟩⟩
  assertion := {
    label := "implied"
    hypotheses := []
    conclusion :=
      .binary (.op 4) (sampleProperty sampleVar) (sampleProperty (.app (.op 2) [sampleVar])) }

theorem assertions_sampleTheory :
    sampleTheory.assertions.values =
      [plainRule.assertion, appliedRule.assertion, samplePonens, impliedRule.assertion] := by
  decide +kernel

theorem ofPure_plainRule : ofPure plainRule.assertion = .ok plainRule := by
  rw [ofPure, Assertion.mandatoryVars, List.length_mergeSort]
  decide +kernel

theorem ofPure_appliedRule : ofPure appliedRule.assertion = .ok appliedRule := by
  rw [ofPure, Assertion.mandatoryVars, List.length_mergeSort]
  decide +kernel

/-- The rule `x ∈ c, y ∈ c ⊢ f(x, c, y) ∈ c` is in canonical form. -/
theorem plainRule_canonical :
    sampleTheory.Reachable ∧ plainRule.assertion ∈ sampleTheory.assertions.values ∧
      ofPure plainRule.assertion = .ok plainRule ∧ plainRule.kind = .pure ∧
      ∃ vs args, Canonical plainRule.schema plainRule.assertion vs args := by
  have hmem : plainRule.assertion ∈ sampleTheory.assertions.values := by
    rw [assertions_sampleTheory]
    exact List.mem_cons_self
  have hfo : plainRule.assertion.FirstOrder := by
    constructor <;>
      simp [plainRule, sampleProperty, sampleVar, Term.binary, Term.leaf, Term.firstOrder_app]
  obtain ⟨hkind, -, hiff⟩ :=
    ofPure_canonical_iff_firstOrder reachable_sampleTheory hmem ofPure_plainRule
  exact ⟨reachable_sampleTheory, hmem, ofPure_plainRule, hkind, hiff.mpr hfo⟩

/-- A recognised pure rule need not be in canonical form. -/
theorem appliedRule_not_canonical :
    sampleTheory.Reachable ∧ appliedRule.assertion ∈ sampleTheory.assertions.values ∧
      ofPure appliedRule.assertion = .ok appliedRule ∧
      ¬ ∃ vs args, Canonical appliedRule.schema appliedRule.assertion vs args := by
  have hmem : appliedRule.assertion ∈ sampleTheory.assertions.values := by
    rw [assertions_sampleTheory]
    exact List.mem_cons_of_mem _ List.mem_cons_self
  refine ⟨reachable_sampleTheory, hmem, ofPure_appliedRule, ?_⟩
  rintro ⟨vs, args, hcanonical⟩
  have hfree := reachable_sampleTheory.holeFree _ hmem
  obtain ⟨-, -, _, _, _, hstated⟩ := ofPure_spec hfree ofPure_appliedRule
  have hconclusion := (hcanonical.firstOrder hstated.proper).conclusion
  have hsubject := (Term.firstOrder_app.mp hconclusion).2 _ List.mem_cons_self
  have harg := (Term.firstOrder_app.mp hsubject).2 _ List.mem_cons_self
  cases harg.args_eq_nil rfl

end ClosureRule

end Lemmata
