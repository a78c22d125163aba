import Lemmata.Proofs.Closure.Catalog

/-!
# The closure catalog as a record of offers

A closure catalog is filled by offers: an assertion is offered as a rule of a kind, and is filed if it
is recognised and its schema is free. The catalog of a theory comes from offering the assertions of
the theory in order, first all of them as pure rules and then all of them as implication rules, as far
as these kinds are selected; any other offers may follow.

What a catalog holds can be read off its history (`records_offered`). Each kind is a registry of the
recognised offers of that kind (`rulesOf_offered`), so the first offer of a schema keeps it, the later
ones are duplicates, and schemas are listed in the order of their first offers.
-/

namespace Lemmata

/-- Whether rules of a kind are selected. -/
def Selection.includes (selection : Selection) : ClosureKind → Bool
  | .pure => selection.pureClosure
  | .implication => selection.implicationClosure

namespace ClosureCatalog

/-- An assertion that is offered to a catalog as a rule of a kind. -/
structure Offer where
  kind : ClosureKind
  assertion : Assertion

/-- The schema that the offer is recognised to state as a rule of the kind. -/
def Offer.schemaAs? (c : ClosureCatalog) (kind : ClosureKind) (o : Offer) : Option Schema :=
  if o.kind = kind then (c.recognise kind o.assertion).toOption.map (·.schema) else none

/-- The catalog after the offers, one after the other. -/
def offered (c : ClosureCatalog) (offers : List Offer) : ClosureCatalog :=
  offers.foldl (fun c o => (c.add o.kind o.assertion).2) c

/-- The offers that make the catalog of a theory. -/
def offersOf (T : Theory) (selection : Selection) : List Offer :=
  (if selection.pureClosure then T.assertions.values.map (Offer.mk .pure) else []) ++
    if selection.implicationClosure then T.assertions.values.map (Offer.mk .implication) else []

/-! ## One offer -/

/-- What is recognised as a rule of a kind is of this kind and is stated by the assertion itself. -/
theorem kind_assertion_of_recognise {c : ClosureCatalog} {kind : ClosureKind} {a : Assertion}
    {r : ClosureRule} (h : c.recognise kind a = .ok r) : r.kind = kind ∧ r.assertion = a := by
  cases kind with
  | pure =>
    obtain ⟨-, -, s, -, rfl⟩ := ClosureRule.ofPure_eq_ok_iff.mp h
    exact ⟨rfl, rfl⟩
  | implication =>
    obtain ⟨-, -, f, p, q, -, -, s, -, rfl⟩ := ClosureRule.ofImplication_eq_ok_iff.mp h
    exact ⟨rfl, rfl⟩

/-- An offer has a schema as a rule of a kind if it is made for this kind and is recognised with the
schema. -/
theorem Offer.schemaAs?_eq_some_iff {c : ClosureCatalog} {kind : ClosureKind} {o : Offer}
    {s : Schema} :
    o.schemaAs? c kind = some s ↔
      o.kind = kind ∧ c.recognise kind o.assertion = .ok ⟨kind, s, o.assertion⟩ := by
  rw [schemaAs?]
  split
  next hkind =>
    rw [Option.map_eq_some_iff]
    constructor
    · rintro ⟨r, hr, rfl⟩
      rw [Except.toOption_eq_some_iff] at hr
      obtain ⟨rfl, ha⟩ := kind_assertion_of_recognise hr
      exact ⟨hkind, by rw [hr, ← ha]⟩
    · rintro ⟨-, hr⟩
      exact ⟨_, Except.toOption_eq_some_iff.mpr hr, rfl⟩
  next hkind => simp [hkind]

/-- An offer leaves the connectives alone, and with them what is recognised. -/
theorem recognise_add (c : ClosureCatalog) (o : Offer) :
    (c.add o.kind o.assertion).2.recognise = c.recognise := by
  have hconnectives : (c.add o.kind o.assertion).2.detachments = c.detachments ∧
      (c.add o.kind o.assertion).2.conjunctions = c.conjunctions := by
    rw [add]
    cases hr : c.recognise o.kind o.assertion with
    | error e => exact ⟨rfl, rfl⟩
    | ok r =>
      rw [register]
      split
      · exact ⟨rfl, rfl⟩
      · obtain ⟨k, s, a⟩ := r
        cases k <;> exact ⟨rfl, rfl⟩
  funext kind a
  cases kind with
  | pure => rfl
  | implication => rw [recognise, recognise, hconnectives.1, hconnectives.2]

/-- A recognised offer is filed under its schema, unless that is taken. -/
theorem rulesOf_add_of_some {c : ClosureCatalog} {o : Offer} {kind : ClosureKind} {s : Schema}
    (h : o.schemaAs? c kind = some s) :
    (c.add o.kind o.assertion).2.rulesOf kind = (c.rulesOf kind).add s o.assertion := by
  obtain ⟨rfl, hr⟩ := Offer.schemaAs?_eq_some_iff.mp h
  rw [add, hr, register, Registry.add]
  dsimp only
  split
  · rfl
  · rw [rulesOf_file, if_pos rfl]

/-- An offer of another kind, or one that is not recognised, changes no rule of the kind. -/
theorem rulesOf_add_of_none {c : ClosureCatalog} {o : Offer} {kind : ClosureKind}
    (h : o.schemaAs? c kind = none) :
    (c.add o.kind o.assertion).2.rulesOf kind = c.rulesOf kind := by
  rw [add]
  cases hr : c.recognise o.kind o.assertion with
  | error e => rfl
  | ok r =>
    obtain ⟨hkind, hassertion⟩ := kind_assertion_of_recognise hr
    have hne : kind ≠ r.kind := by
      rintro rfl
      rw [Offer.schemaAs?, if_pos hkind.symm, hkind, hr] at h
      cases h
    rw [register]
    split
    · rfl
    · rw [rulesOf_file, if_neg hne]

/-- A recognised offer whose schema is taken is a duplicate and changes nothing. -/
theorem add_of_contains {c : ClosureCatalog} {o : Offer} {s : Schema}
    (h : o.schemaAs? c o.kind = some s) (hs : (c.rulesOf o.kind).contains s) :
    c.add o.kind o.assertion = (.error .duplicate, c) := by
  rw [add, (Offer.schemaAs?_eq_some_iff.mp h).2, register, if_pos hs]

/-! ## All offers -/

/-- Offers may be made in two rounds. -/
theorem offered_append (c : ClosureCatalog) (before after : List Offer) :
    c.offered (before ++ after) = (c.offered before).offered after :=
  List.foldl_append

/-- No offers change what is recognised. -/
theorem recognise_offered (c : ClosureCatalog) (offers : List Offer) :
    (c.offered offers).recognise = c.recognise := by
  induction offers generalizing c with
  | nil => rfl
  | cons o offers ih => exact (ih _).trans (recognise_add c o)

/-- No offers change the schemas of other offers. -/
theorem schemaAs?_offered (c : ClosureCatalog) (offers : List Offer) (kind : ClosureKind) :
    Offer.schemaAs? (c.offered offers) kind = Offer.schemaAs? c kind := by
  funext o
  rw [Offer.schemaAs?, Offer.schemaAs?, recognise_offered]

section Records

variable (d : Detachments) (j : Conjunctions)

/-- The catalog before all offers. -/
def unfilled : ClosureCatalog :=
  { detachments := d, conjunctions := j }

/-- The rules of a kind are the registry of the recognised offers of that kind. -/
theorem rulesOf_offered (offers : List Offer) (kind : ClosureKind) :
    ((unfilled d j).offered offers).rulesOf kind =
      .ofList (offers.filterMap fun o =>
        (o.schemaAs? (unfilled d j) kind).map fun s => (s, o.assertion)) := by
  induction offers using List.reverseRecOn with
  | nil => cases kind <;> rfl
  | append_singleton offers o ih =>
    have hlast : (unfilled d j).offered (offers ++ [o]) =
        (((unfilled d j).offered offers).add o.kind o.assertion).2 := offered_append _ _ _
    have hschema := congrFun (schemaAs?_offered (unfilled d j) offers kind) o
    rw [hlast, List.filterMap_append]
    cases hs : o.schemaAs? (unfilled d j) kind with
    | none => simp [rulesOf_add_of_none (hschema.trans hs), hs, ih]
    | some s =>
      rw [rulesOf_add_of_some (hschema.trans hs), ih, ← Registry.ofList_concat]
      simp [hs]

/-- After any offers a schema is found at the place where it was filed. -/
theorem valid_rulesOf_offered (offers : List Offer) (kind : ClosureKind) :
    (((unfilled d j).offered offers).rulesOf kind).Valid := by
  rw [rulesOf_offered]
  exact (Registry.ofList_spec _).1

/-- The catalog of a theory is filled by the selected offers of its assertions. -/
theorem ofTheory_eq_offered (T : Theory) (selection : Selection) :
    ofTheory T selection d j = (unfilled d j).offered (offersOf T selection) := by
  have haddAll : ∀ (c : ClosureCatalog) (kind : ClosureKind) (as : List Assertion),
      c.addAll kind as = c.offered (as.map (Offer.mk kind)) := by
    intro c kind as
    rw [offered, List.foldl_map]
    rfl
  rw [ofTheory, offersOf, offered_append]
  rw [haddAll, haddAll]
  cases selection.pureClosure <;> cases selection.implicationClosure <;> rfl

/-- Of the offers of a theory those of one kind count for the rules of this kind. -/
theorem filterMap_offersOf {α : Type} (T : Theory) (selection : Selection) (kind : ClosureKind)
    (g : Assertion → Option α) :
    ((offersOf T selection).filterMap fun o => if o.kind = kind then g o.assertion else none) =
      if selection.includes kind then T.assertions.values.filterMap g else [] := by
  cases kind <;> cases hp : selection.pureClosure <;> cases hi : selection.implicationClosure <;>
    simp [offersOf, Selection.includes, hp, hi, List.filterMap_map]

/-- The rules of a selected kind are the registry of what is recognised in the assertions of the
theory, in their order. -/
theorem rulesOf_ofTheory (T : Theory) (selection : Selection) (kind : ClosureKind) :
    (ofTheory T selection d j).rulesOf kind = .ofList (if selection.includes kind
      then T.assertions.values.filterMap fun a =>
        ((unfilled d j).recognise kind a).toOption.map fun r => (r.schema, a)
      else []) := by
  rw [ofTheory_eq_offered, rulesOf_offered, ← filterMap_offersOf]
  congr 2
  funext o
  rw [Offer.schemaAs?]
  split
  · rw [Option.map_map]
    rfl
  · rfl

/-- What a catalog holds after a history of offers. -/
structure Records (history : List Offer) (c : ClosureCatalog) : Prop where
  /-- A schema is stated by the assertion of the first offer of the kind that was recognised with it,
  and by none if there was no such offer. -/
  first : ∀ kind s, c.assertion? kind s =
    (history.find? fun o => o.schemaAs? (unfilled d j) kind == some s).map (·.assertion)
  /-- An offer that is recognised with the schema of an earlier one of its kind is answered as a
  duplicate, and leaves the catalog as the offers before it made it. -/
  duplicate : ∀ before o after s, history = before ++ o :: after →
    o.schemaAs? (unfilled d j) o.kind = some s →
    (∃ e ∈ before, e.schemaAs? (unfilled d j) o.kind = some s) →
      ((unfilled d j).offered before).add o.kind o.assertion =
        (.error .duplicate, (unfilled d j).offered before)
  /-- A schema is stated if it is filed in one of the two kinds. -/
  states_iff : ∀ s, c.states s ↔ ∃ kind, (c.assertion? kind s).isSome
  /-- The size is the number of different pairs of a kind and a schema filed in it. -/
  size : ∃ pairs : List (ClosureKind × Schema), pairs.Nodup ∧
    (∀ kind s, (kind, s) ∈ pairs ↔ (c.assertion? kind s).isSome) ∧ c.size = pairs.length
  /-- The schemas of a symbol are listed without repetition, -/
  nodup_schemasFor : ∀ kind f, (c.schemasFor kind f).Nodup
  /-- they are those filed schemas that are about the symbol, -/
  mem_schemasFor_iff : ∀ kind f s,
    s ∈ c.schemasFor kind f ↔ s.symbol = f ∧ (c.assertion? kind s).isSome
  /-- and they stand in the order of the offers that they were filed by. -/
  ordered_schemasFor : ∀ kind f, (c.schemasFor kind f).Pairwise fun s s' =>
    (history.findIdx fun o => o.schemaAs? (unfilled d j) kind == some s) <
      history.findIdx fun o => o.schemaAs? (unfilled d j) kind == some s'

variable {d j}

/-- A schema is stated exactly if it is among the filed ones. -/
theorem isSome_assertion?_iff {offers : List Offer} {kind : ClosureKind} {s : Schema} :
    (((unfilled d j).offered offers).assertion? kind s).isSome ↔
      s ∈ (((unfilled d j).offered offers).rulesOf kind).keys :=
  (valid_rulesOf_offered d j offers kind).mem_keys_iff.symm

/-- The schemas of a kind stand in the order of the offers that they were filed by. -/
theorem pairwise_keys_rulesOf (offers : List Offer) (kind : ClosureKind) :
    (((unfilled d j).offered offers).rulesOf kind).keys.Pairwise fun s s' =>
      (offers.findIdx fun o => o.schemaAs? (unfilled d j) kind == some s) <
        offers.findIdx fun o => o.schemaAs? (unfilled d j) kind == some s' := by
  rw [rulesOf_offered]
  exact Registry.pairwise_keys_ofList offers _ _

/-- A schema is stated by the assertion of the first offer that is recognised with it. -/
theorem assertion?_offered (offers : List Offer) (kind : ClosureKind) (s : Schema) :
    ((unfilled d j).offered offers).assertion? kind s =
      (offers.find? fun o => o.schemaAs? (unfilled d j) kind == some s).map (·.assertion) := by
  rw [assertion?, rulesOf_offered]
  exact Registry.get?_ofList_filterMap offers _ _ s

/-- A schema of a selected kind is stated by the first assertion of the theory that is recognised
with it. -/
theorem assertion?_ofTheory_eq_some_iff {T : Theory} {selection : Selection} {kind : ClosureKind}
    {s : Schema} {a : Assertion} :
    (ofTheory T selection d j).assertion? kind s = some a ↔ selection.includes kind ∧
      T.First (fun b => (unfilled d j).recognise kind b = .ok ⟨kind, s, b⟩) a := by
  have hcheck : ∀ b, ((((unfilled d j).recognise kind b).toOption.map (·.schema)) == some s) ↔
      (unfilled d j).recognise kind b = .ok ⟨kind, s, b⟩ := by
    intro b
    have hoffer : Offer.schemaAs? (unfilled d j) kind ⟨kind, b⟩ = some s ↔ _ :=
      Offer.schemaAs?_eq_some_iff
    simpa [Offer.schemaAs?] using hoffer
  rw [assertion?, rulesOf_ofTheory]
  cases hsel : selection.includes kind with
  | false => simp [Registry.get?_ofList]
  | true =>
    rw [← Theory.find?_eq_some_iff_first hcheck]
    -- The registry keeps the first of the assertions that yield the schema.
    have hfirsts := Registry.get?_ofList_filterMap T.assertions.values
      (fun b => (((unfilled d j).recognise kind b).toOption.map (·.schema))) (fun b => b) s
    simpa [Option.map_map, Function.comp_def] using congrArg (· = some a) hfirsts

/-- An offer that is recognised with the schema of an earlier one of its kind is a duplicate. -/
theorem add_duplicate {before : List Offer} {o e : Offer} {s : Schema}
    (ho : o.schemaAs? (unfilled d j) o.kind = some s) (he : e ∈ before)
    (hes : e.schemaAs? (unfilled d j) o.kind = some s) :
    ((unfilled d j).offered before).add o.kind o.assertion =
      (.error .duplicate, (unfilled d j).offered before) := by
  have htaken : (((unfilled d j).offered before).assertion? o.kind s).isSome := by
    rw [assertion?_offered, Option.isSome_map, List.find?_isSome]
    exact ⟨e, he, by simp [hes]⟩
  refine add_of_contains (by rw [schemaAs?_offered, ho]) ?_
  rw [(valid_rulesOf_offered d j before o.kind).contains_iff]
  exact htaken

/-- The schemas of both kinds, each with its kind. -/
def filed (c : ClosureCatalog) : List (ClosureKind × Schema) :=
  c.pureRules.keys.map (Prod.mk .pure) ++ c.implicationRules.keys.map (Prod.mk .implication)

/-- The size counts the pairs of a kind and a schema filed in it. -/
theorem length_filed (c : ClosureCatalog) : c.size = c.filed.length := by
  simp [size, filed, Registry.size, Registry.keys, Registry.toList]

theorem mem_filed_iff {c : ClosureCatalog} {kind : ClosureKind} {s : Schema} :
    (kind, s) ∈ c.filed ↔ s ∈ (c.rulesOf kind).keys := by
  cases kind <;> simp [filed, rulesOf]

/-- No pair is filed twice. -/
theorem nodup_filed {c : ClosureCatalog} (h : ∀ kind, (c.rulesOf kind).Valid) :
    c.filed.Nodup := by
  have hmap : ∀ kind, ((c.rulesOf kind).keys.map (Prod.mk kind)).Nodup := fun kind =>
    (h kind).nodup_keys.map fun _ _ heq => (Prod.mk.inj heq).2
  refine List.nodup_append.mpr ⟨hmap .pure, hmap .implication, ?_⟩
  intro x hx y hy
  obtain ⟨s, -, rfl⟩ := List.mem_map.mp hx
  obtain ⟨t, -, rfl⟩ := List.mem_map.mp hy
  simp

/-- The catalog of a theory, with any offers after it, records its history, which is made of the
offers of the theory's assertions and these. The first recognised offer of a schema keeps it, a
later one is answered as a duplicate and changes nothing, and what is said of size, look-up and the
schemas of a symbol can all be read off the history. -/
theorem records_offered (T : Theory) (selection : Selection) (d : Detachments) (j : Conjunctions)
    (calls : List Offer) :
    Records d j (offersOf T selection ++ calls) ((ofTheory T selection d j).offered calls) := by
  rw [ofTheory_eq_offered, ← offered_append]
  generalize offersOf T selection ++ calls = history
  have hvalid := valid_rulesOf_offered d j history
  constructor
  · exact assertion?_offered history
  · rintro before o after s - ho ⟨e, he, hes⟩
    exact add_duplicate ho he hes
  · exact fun s => states_iff_of_valid hvalid
  · refine ⟨_, nodup_filed hvalid, fun kind s => ?_, length_filed _⟩
    rw [mem_filed_iff, isSome_assertion?_iff]
  · exact fun kind f => (hvalid kind).nodup_keys.filter _
  · intro kind f s
    rw [schemasFor, List.mem_filter, isSome_assertion?_iff, decide_eq_true_iff, and_comm]
  · exact fun kind f => (pairwise_keys_rulesOf history kind).filter _

end Records

end ClosureCatalog

end Lemmata
