import Lemmata.Proofs.Closure.Recognition

/-!
# Every canonical rule is recognised

A schema can be written down as a pure rule: from the property of different bare variables follows
the property of the operator applied to them, with the constants of the schema among them
(`Schema.canonicalAssertion`). The recogniser reads exactly this schema off the assertion, whatever
the variables and wherever the constants stand (`ofPure_canonicalAssertion`).

The way there is the way of the recogniser. A conclusion that states a schema under conditions, the
first of which is about a bare variable, is read as this schema (`readSchema_of_stated`); together
with `readSchema_stated` this says just what is read. Nothing is lost when a place is opened, because
a property without variables mentions the variable at that place only.
-/

namespace Lemmata

namespace ClosureRule

/-! ## Reading what is stated -/

/-- Arguments that the slots describe are read as these slots, if their variables belong to
conditions that are not used yet. -/
theorem readArguments_of_describes {vars : List Serial} {slots : Slots} {ts : List Term}
    {vs : List Serial} (h : slots.Describes ts vs) {i : Nat} {used ks : List Nat}
    (hks : vs.map vars.idxOf? = ks.map some) (hnodup : (used ++ ks).Nodup) :
    readArguments vars i used ts = .ok (used ++ ks, slots) := by
  induction h generalizing i used ks with
  | nil =>
    cases ks with
    | nil => simp [readArguments]
    | cons k ks => cases hks
  | @opened slots ts vs t v hhead _ ih =>
    cases ks with
    | nil => cases hks
    | cons k ks =>
      obtain ⟨hk, hks⟩ := List.cons.inj hks
      have hunused : k ∉ used := by
        intro hmem
        exact (List.nodup_append.mp hnodup).2.2 k hmem k List.mem_cons_self rfl
      have hrest : readArguments vars (i + 1) (used ++ [k]) ts = .ok (used ++ k :: ks, slots) := by
        rw [ih hks (by simpa using hnodup)]
        simp
      simp [readArguments, hhead, Symbol.varId?, hk, hunused, hrest, bind, Except.bind, pure,
        Except.pure]
  | @fixed slots ts vs c hc _ ih =>
    -- A constant is not taken for a variable, since it has none at its root.
    have hhead : c.head.varId? = none := by
      cases hv : c.head.varId? with
      | none => rfl
      | some v =>
        have hmem := Symbol.eq_var_of_varId? hv ▸ c.head_mem_symbols
        exact absurd hmem (Term.vars_eq_nil.mp (Term.isConstant_iff.mp hc).1 v)
    simp [readArguments, hhead, hc, ih hks hnodup, bind, Except.bind, pure, Except.pure]

/-- Conditions that state the property of terms that start with their variables pass the check. -/
theorem checkConditions_of_heads {p : Template} (hp : p.Proper) {i : Nat} {xs : List Term}
    {vs : List Serial} (hheads : xs.map Term.head = vs.map .var) :
    checkConditions p i (xs.map p.fill) vs = .ok () := by
  induction xs generalizing i vs with
  | nil => simp [checkConditions]
  | cons x xs ih =>
    cases vs with
    | nil => simp [checkConditions]
    | cons v vs =>
      obtain ⟨hx, hxs⟩ := List.cons.inj hheads
      have hcapture : p.capture? (p.fill x) = some x := hp.capture?_eq_some_iff.mpr rfl
      rw [List.map_cons, checkConditions, hcapture, Option.map_some, hx, if_pos rfl]
      exact ih hxs

/-- A schema that is stated is read, if the first condition is about a bare variable. -/
theorem readSchema_of_stated {s : Schema} {conditions : List Term} {conclusion : Term} {v : Serial}
    {vs : List Serial} {xs args : List Term}
    (h : s.Stated conditions conclusion (v :: vs) (.leaf (.var v) :: xs) args) :
    readSchema conditions conclusion = .ok s := by
  have hcapture : s.template.capture? conclusion = some (.app s.symbol args) :=
    h.proper.capture?_eq_some_iff.mpr h.conclusion
  have hread : readArguments (v :: vs) 0 [] args = .ok (List.range (v :: vs).length, s.slots) := by
    have hrange : ([] ++ List.range (v :: vs).length).Nodup := List.nodup_range
    exact readArguments_of_describes h.described (List.map_idxOf?_of_nodup h.nodup) hrange
  refine readSchema_eq_ok_iff.mpr ⟨s.goal (.leaf (.var v)), xs.map s.goal, v, vs, h.conditions,
    h.soleVars, h.proper.abstracting?_fill (Symbol.ne_var_of_varId? h.root v) (h.leafCount v),
    ?_, ?_⟩
  · exact checkConditions_of_heads h.proper (List.cons.inj h.heads).2
  · exact readConclusion_eq_ok_iff.mpr ⟨args, h.symbol, h.args_ne, hcapture, hread⟩

end ClosureRule

/-! ## Stating a schema about bare variables -/

namespace Slots

/-- The arguments as the slots ask for them, with the terms at the open places from left to right. -/
def fillOpen : Slots → List Term → List Term
  | [], _ => []
  | some c :: slots, ts => c :: fillOpen slots ts
  | none :: slots, t :: ts => t :: fillOpen slots ts
  | none :: _, [] => []

/-- Constant slots filled with as many variables as there are open places describe the result. -/
theorem describes_fillOpen {slots : Slots} {vs : List Serial}
    (hopen : slots.count none = vs.length) (hfixed : ∀ c, some c ∈ slots → c.isConstant) :
    slots.Describes (slots.fillOpen (vs.map fun v => .leaf (.var v))) vs := by
  induction slots generalizing vs with
  | nil =>
    cases vs with
    | nil => exact .nil
    | cons v vs => cases hopen
  | cons slot slots ih =>
    have hrest : ∀ c, some c ∈ slots → c.isConstant := fun c hc =>
      hfixed c (List.mem_cons_of_mem _ hc)
    cases slot with
    | some c =>
      rw [List.count_cons_of_ne (by simp)] at hopen
      exact .fixed (hfixed c List.mem_cons_self) (ih hopen hrest)
    | none =>
      rw [List.count_cons_self] at hopen
      cases vs with
      | nil => cases hopen
      | cons v vs => exact .opened rfl (ih (Nat.succ.inj hopen) hrest)

/-- What starts with a variable among the filled arguments is the bare variable. -/
theorem bare_of_mem_fillOpen {slots : Slots} {vs : List Serial}
    (hfixed : ∀ c, some c ∈ slots → c.isConstant) {t : Term}
    (ht : t ∈ slots.fillOpen (vs.map fun v => .leaf (.var v))) {w : Serial}
    (hw : t.head = .var w) : t.args = [] := by
  induction slots generalizing vs with
  | nil => cases ht
  | cons slot slots ih =>
    have hrest : ∀ c, some c ∈ slots → c.isConstant := fun c hc =>
      hfixed c (List.mem_cons_of_mem _ hc)
    cases slot with
    | some c =>
      rcases List.mem_cons.mp ht with rfl | ht
      · have hc := Term.isConstant_iff.mp (hfixed t List.mem_cons_self)
        exact absurd (hw ▸ t.head_mem_symbols) (Term.vars_eq_nil.mp hc.1 w)
      · exact ih hrest ht
    | none =>
      cases vs with
      | nil => cases ht
      | cons v vs =>
        rcases List.mem_cons.mp ht with rfl | ht
        · rfl
        · exact ih hrest ht

end Slots

namespace Schema

/-- The pure rule for a schema: from the property of the variables follows the property of the
operator applied to them in this order, with the fixed terms of the schema among them. -/
def canonicalAssertion (s : Schema) (label : String) (vs : List Serial) : Assertion where
  label := label
  hypotheses := vs.map fun v => s.goal (.leaf (.var v))
  conclusion := s.goal (.app s.symbol (s.slots.fillOpen (vs.map fun v => .leaf (.var v))))

/-- A property without variables, said of a bare variable, has this variable only. -/
theorem soleVar?_goal {s : Schema} (hproper : s.template.Proper)
    (hvars : s.template.body.vars = []) (v : Serial) :
    (s.goal (.leaf (.var v))).soleVar? = some v := by
  rw [Term.soleVar?_eq_some_iff]
  intro w
  have hnot := Term.vars_eq_nil.mp hvars w
  rw [goal, Template.fill, hproper.oneHole.mem_symbols_replaceLeaf]
  simp [hnot]

/-- Conditions and a conclusion about bare variables state the schema. -/
theorem stated_of_bare {s : Schema} (hproper : s.template.Proper)
    (hvars : s.template.body.vars = []) (hsymbol : ∃ f, s.symbol = .op f) {vs : List Serial}
    (hnodup : vs.Nodup) (hne : vs ≠ []) {args : List Term} (hdesc : s.slots.Describes args vs) :
    s.Stated (vs.map fun v => s.goal (.leaf (.var v))) (s.goal (.app s.symbol args)) vs
      (vs.map fun v => .leaf (.var v)) args where
  proper := hproper
  root := by
    cases hv : s.template.body.head.varId? with
    | none => rfl
    | some v =>
      have hmem := Symbol.eq_var_of_varId? hv ▸ s.template.body.head_mem_symbols
      exact absurd hmem (Term.vars_eq_nil.mp hvars v)
  leafCount v := Term.leafCount_of_not_mem (Term.vars_eq_nil.mp hvars v)
  symbol := hsymbol
  nodup := hnodup
  nonempty := hne
  soleVars := by
    rw [List.map_map]
    exact List.map_congr_left fun v _ => soleVar?_goal hproper hvars v
  heads := by
    rw [List.map_map]
    rfl
  conditions := by
    rw [List.map_map]
    rfl
  conclusion := rfl
  args_ne := by
    rintro rfl
    generalize s.slots = slots at hdesc
    cases hdesc
    exact hne rfl
  described := hdesc

end Schema

/-! ## Recognition -/

namespace ClosureRule

/-- A schema written down as a pure rule is recognised as this schema: for every property without
variables and with one hole, a leaf below the root, all different variables, and any constants at
any places. -/
theorem ofPure_canonicalAssertion {s : Schema} (hsymbol : ∃ f, s.symbol = .op f)
    (hcount : s.template.body.holeCount = 1) (hleaf : s.template.body.leafCount .hole = 1)
    (hroot : s.template.body.head ≠ .hole) (hvars : s.template.body.vars = []) {vs : List Serial}
    (hne : vs ≠ []) (hnodup : vs.Nodup) (hopen : s.slots.count none = vs.length)
    (hfixed : ∀ c, some c ∈ s.slots → c.vars = [] ∧ c.HoleFree) (label : String) :
    ofPure (s.canonicalAssertion label vs) = .ok ⟨.pure, s, s.canonicalAssertion label vs⟩ := by
  have hproper : s.template.Proper := ⟨Term.oneHole_of_counts hcount hleaf, hroot⟩
  have hconst : ∀ c, some c ∈ s.slots → c.isConstant := fun c hc =>
    Term.isConstant_iff.mpr (hfixed c hc)
  have hstated := Schema.stated_of_bare hproper hvars hsymbol hnodup hne
    (Slots.describes_fillOpen hopen hconst)
  have hmem : ∀ v, v ∈ (s.canonicalAssertion label vs).mandatoryVars ↔ v ∈ vs :=
    mem_mandatoryVars_of_stated hstated hvars
      (fun t ht w hw => Slots.bare_of_mem_fillOpen hconst ht hw) rfl
  have hlen : (s.canonicalAssertion label vs).mandatoryVars.length = vs.length :=
    ((List.perm_ext_iff_of_nodup (Assertion.nodup_mandatoryVars _) hnodup).mpr hmem).length_eq
  refine ofPure_eq_ok_iff.mpr ⟨?_, ?_, s, ?_, rfl⟩
  · simpa [Schema.canonicalAssertion] using hne
  · rw [hlen]
    simp [Schema.canonicalAssertion]
  · obtain ⟨v, vs, rfl⟩ := List.exists_cons_of_ne_nil hne
    exact readSchema_of_stated hstated

/-- The variables need not come in the order of their numbers, and a constant may be both a part of
the property and an argument. -/
theorem plainRule_schema_recognised :
    plainRule.schema.template.body.holeCount = 1 ∧
      plainRule.schema.slots.count none = ([1, 0] : List Serial).length ∧
      ofPure (plainRule.schema.canonicalAssertion "swapped" [1, 0]) =
        .ok ⟨.pure, plainRule.schema, plainRule.schema.canonicalAssertion "swapped" [1, 0]⟩ := by
  have hcount : plainRule.schema.template.body.holeCount = 1 := by decide
  have hopen : plainRule.schema.slots.count none = ([1, 0] : List Serial).length := by decide
  have hfixed : ∀ c, some c ∈ plainRule.schema.slots → c.vars = [] ∧ c.HoleFree := by
    intro c hc
    have hsole : c = .leaf (.op 0) := by simpa [plainRule] using hc
    rw [hsole]
    exact Term.isConstant_iff.mp (by decide)
  exact ⟨hcount, hopen, ofPure_canonicalAssertion ⟨1, rfl⟩ hcount (by decide) (by decide)
    (by decide) (by decide) (by decide) hopen hfixed "swapped"⟩

end ClosureRule

end Lemmata
