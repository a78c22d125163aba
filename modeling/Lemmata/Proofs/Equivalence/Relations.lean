import Lemmata.Proofs.Equivalence.Catalog
import Lemmata.Proofs.Theory.Reachable

/-!
# Which relations are equivalences

A relation is an equivalence of a theory if the theory has a lemma that turns it around and one that
chains it. The lemmas of either form are filed by relation, and from both tables those relations are
dropped that the other one lacks. Dropping is repeated until neither table gets smaller; it comes to
an end, since after the first round there is nothing left to drop (`exists_settles`), and what is left
is what the catalog holds.

`records_ofTheory` puts together what the catalog of a theory says: its relations are those with both
lemmas, in the order of the first lemmas that turn them around, each with its first lemma of either
form, and a type belongs to the first relation between terms of this type.
-/

namespace Lemmata

/-! ## Types as keys -/

namespace TypeId

instance : Std.TransOrd TypeId :=
  inferInstanceAs (Std.TransCmp (compareOn serial))

instance : Std.LawfulEqOrd TypeId where
  eq_of_compare {s t} h := by
    cases s
    cases t
    exact congrArg mk (Std.LawfulEqOrd.eq_of_compare h)
  compare_self {t} := Std.ReflOrd.compare_self (a := t.serial)

end TypeId

/-! ## Lemmas of either form -/

namespace Assertion

/-- The assertion is `x = y ⊢ y = x`, for two different variables. -/
def Commutes (a : Assertion) (r : Symbol) : Prop :=
  (∃ f, r = .op f) ∧ ∃ x y : Serial, x ≠ y ∧
    a.hypotheses = [.binary r (.leaf (.var x)) (.leaf (.var y))] ∧
    a.conclusion = .binary r (.leaf (.var y)) (.leaf (.var x))

/-- The assertion is `x = y, y = z ⊢ x = z`, for three different variables. -/
def Chains (a : Assertion) (r : Symbol) : Prop :=
  (∃ f, r = .op f) ∧ ∃ x y z : Serial, [x, y, z].Nodup ∧
    a.hypotheses = [.binary r (.leaf (.var x)) (.leaf (.var y)),
      .binary r (.leaf (.var y)) (.leaf (.var z))] ∧
    a.conclusion = .binary r (.leaf (.var x)) (.leaf (.var z))

/-- The check for lemmas that turn a relation around finds just these. -/
theorem toOption_commutes_eq_iff {a : Assertion} {r : Symbol} :
    a.commutes.toOption = some r ↔ a.Commutes r := by
  rw [Except.toOption_eq_some_iff, commutes_eq_ok_iff]
  rfl

/-- The check for lemmas that chain a relation finds just these. -/
theorem toOption_chains_eq_iff {a : Assertion} {r : Symbol} :
    a.chains.toOption = some r ↔ a.Chains r := by
  rw [Except.toOption_eq_some_iff, chains_eq_ok_iff]
  rfl

instance (a : Assertion) (r : Symbol) : Decidable (a.Commutes r) :=
  decidable_of_iff _ toOption_commutes_eq_iff

end Assertion

/-- The theory has a lemma of either form for the relation. -/
def Theory.HasEquivalence (T : Theory) (s : Symbol) : Prop :=
  (∃ a ∈ T.assertions.values, a.Commutes s) ∧ ∃ b ∈ T.assertions.values, b.Chains s

/-! ## Dropping relations until nothing changes -/

/-- The lemmas of either form, filed by relation. -/
structure LemmaTables where
  commutative : Registry Symbol Assertion
  transitive : Registry Symbol Assertion

namespace LemmaTables

/-- The first lemmas among assertions. -/
def ofAssertions (as : List Assertion) : LemmaTables where
  commutative := .ofList (as.filterMap fun a => a.commutes.toOption.map fun s => (s, a))
  transitive := .ofList (as.filterMap fun a => a.chains.toOption.map fun s => (s, a))

/-- One round: the relations that cannot be turned around lose their other lemma, and then those that
cannot be chained lose the first. -/
def prune (t : LemmaTables) : LemmaTables :=
  let transitive := t.transitive.retain t.commutative.contains
  ⟨t.commutative.retain transitive.contains, transitive⟩

/-- The numbers of lemmas of either form. -/
def sizes (t : LemmaTables) : Nat × Nat :=
  (t.commutative.size, t.transitive.size)

/-- Rounds follow on each other until one of them changes no size. -/
inductive Settles : LemmaTables → LemmaTables → Prop
  | stop {t : LemmaTables} : t.prune.sizes = t.sizes → Settles t t.prune
  | again {t u : LemmaTables} : t.prune.sizes ≠ t.sizes → Settles t.prune u → Settles t u

/-- Both tables are valid registries. -/
structure Valid (t : LemmaTables) : Prop where
  commutative : t.commutative.Valid
  transitive : t.transitive.Valid

theorem valid_ofAssertions (as : List Assertion) : (ofAssertions as).Valid :=
  ⟨(Registry.ofList_spec _).1, (Registry.ofList_spec _).1⟩

theorem valid_prune (t : LemmaTables) : t.prune.Valid :=
  ⟨Registry.valid_retain _ _, Registry.valid_retain _ _⟩

/-- The second tables hold the lemmas of the relations that both of the first have. -/
structure Leaves (t left : LemmaTables) : Prop where
  commutative : ∀ {s a}, left.commutative.get? s = some a ↔
    t.commutative.get? s = some a ∧ (t.transitive.get? s).isSome
  transitive : ∀ {s b}, left.transitive.get? s = some b ↔
    t.transitive.get? s = some b ∧ (t.commutative.get? s).isSome

namespace Leaves

variable {t u v : LemmaTables}

/-- What is left of the first table are the relations of both tables. -/
theorem isSome_commutative (h : t.Leaves u) {s : Symbol} :
    (u.commutative.get? s).isSome ↔
      (t.commutative.get? s).isSome ∧ (t.transitive.get? s).isSome := by
  simp only [Option.isSome_iff_exists (x := u.commutative.get? s), h.commutative,
    exists_and_right, ← Option.isSome_iff_exists]

/-- What is left of the second table are the relations of both tables. -/
theorem isSome_transitive (h : t.Leaves u) {s : Symbol} :
    (u.transitive.get? s).isSome ↔
      (t.transitive.get? s).isSome ∧ (t.commutative.get? s).isSome := by
  simp only [Option.isSome_iff_exists (x := u.transitive.get? s), h.transitive,
    exists_and_right, ← Option.isSome_iff_exists]

/-- To leave the same lemmas twice is to leave them once. -/
theorem trans (h : t.Leaves u) (h' : u.Leaves v) : t.Leaves v where
  commutative {s a} := by
    rw [h'.commutative, h.commutative, h.isSome_transitive]
    constructor
    · rintro ⟨hboth, -⟩
      exact hboth
    · rintro ⟨ha, htrans⟩
      exact ⟨⟨ha, htrans⟩, htrans, by rw [ha]; rfl⟩
  transitive {s b} := by
    rw [h'.transitive, h.transitive, h.isSome_commutative]
    constructor
    · rintro ⟨hboth, -⟩
      exact hboth
    · rintro ⟨hb, hcomm⟩
      exact ⟨⟨hb, hcomm⟩, hcomm, by rw [hb]; rfl⟩

end Leaves

/-- One round leaves the lemmas of the relations that have both. -/
theorem Valid.leaves_prune {t : LemmaTables} (ht : t.Valid) : t.Leaves t.prune := by
  have htrans : ∀ {s b}, t.prune.transitive.get? s = some b ↔
      t.transitive.get? s = some b ∧ (t.commutative.get? s).isSome := by
    intro s b
    rw [← ht.commutative.contains_iff]
    exact ht.transitive.get?_retain_eq_some_iff
  refine ⟨?_, htrans⟩
  intro s a
  have hcomm : t.prune.commutative.get? s = some a ↔
      t.commutative.get? s = some a ∧ t.prune.transitive.contains s :=
    ht.commutative.get?_retain_eq_some_iff
  rw [hcomm, (valid_prune t).transitive.contains_iff]
  refine and_congr_right fun ha => ?_
  simp [Option.isSome_iff_exists (x := t.prune.transitive.get? s), htrans, ha,
    ← Option.isSome_iff_exists]

/-- After one round there is nothing more to drop. -/
theorem Valid.sizes_prune_prune {t : LemmaTables} (ht : t.Valid) :
    t.prune.prune.sizes = t.prune.sizes := by
  have hprune := valid_prune t
  have hleaves := ht.leaves_prune
  refine Prod.ext (hprune.commutative.size_retain fun s hs => ?_)
    (hprune.transitive.size_retain fun s hs => ?_)
  · obtain ⟨hcomm, htrans⟩ := hleaves.isSome_commutative.mp hs
    change t.prune.prune.transitive.contains s
    rw [(valid_prune _).transitive.contains_iff, hprune.leaves_prune.isSome_transitive]
    exact ⟨hleaves.isSome_transitive.mpr ⟨htrans, hcomm⟩, hs⟩
  · rw [hprune.commutative.contains_iff]
    exact hleaves.isSome_commutative.mpr (hleaves.isSome_transitive.mp hs).symm

/-- Dropping relations comes to an end. -/
theorem Valid.exists_settles {t : LemmaTables} (ht : t.Valid) : ∃ left, t.Settles left := by
  by_cases hsame : t.prune.sizes = t.sizes
  · exact ⟨t.prune, .stop hsame⟩
  · exact ⟨t.prune.prune, .again hsame (.stop ht.sizes_prune_prune)⟩

/-- However many rounds it takes, what is left are the lemmas of the relations that have both. -/
theorem Settles.leaves {t left : LemmaTables} (h : t.Settles left) (ht : t.Valid) :
    t.Leaves left := by
  induction h with
  | stop _ => exact ht.leaves_prune
  | again _ _ ih => exact ht.leaves_prune.trans (ih (valid_prune _))

end LemmaTables

/-! ## The catalog -/

namespace EquivalenceCatalog

/-- What a catalog says of the equivalences of a theory. -/
structure Records (T : Theory) (c : EquivalenceCatalog) : Prop where
  /-- Dropping relations comes to an end, and the catalog holds the lemmas that are left. -/
  settled : ∃ left, (LemmaTables.ofAssertions T.assertions.values).Settles left ∧ ∀ s,
    c.commutativity? s = left.commutative.get? s ∧ c.transitivity? s = left.transitive.get? s
  /-- The equivalences are the relations with both lemmas, in all four views of the catalog. -/
  isEquivalence_iff : ∀ s, c.isEquivalence s ↔ T.HasEquivalence s
  commutativity?_iff : ∀ s, (c.commutativity? s).isSome ↔ T.HasEquivalence s
  transitivity?_iff : ∀ s, (c.transitivity? s).isSome ↔ T.HasEquivalence s
  mem_relations_iff : ∀ s, s ∈ c.relations.keys ↔ T.HasEquivalence s
  /-- The lemmas of an equivalence are the first ones of the theory. -/
  first_commutativity : ∀ s a, c.commutativity? s = some a → T.First (·.Commutes s) a
  first_transitivity : ∀ s b, c.transitivity? s = some b → T.First (·.Chains s) b
  /-- No relation is listed twice, and they stand in the order of their first lemmas. -/
  nodup_relations : c.relations.keys.Nodup
  ordered_relations : c.relations.keys.Pairwise fun r s =>
    (T.assertions.values.findIdx fun a => a.Commutes r) <
      T.assertions.values.findIdx fun a => a.Commutes s
  /-- A type belongs to the first relation whose lemma concludes with a left operand of this type. -/
  relationFor?_eq : ∀ t, c.relationFor? t = c.relations.keys.find? fun s =>
    ((c.commutativity? s).bind fun a => a.conclusion.args.head?.bind T.signature.termType?) = some t

/-! ### Lemmas in the tables -/

section Tables

variable {T : Theory} {s : Symbol}

/-- The first table has the first lemma that turns a relation around. -/
theorem get?_commutative_eq_some_iff {a : Assertion} :
    (LemmaTables.ofAssertions T.assertions.values).commutative.get? s = some a ↔
      T.First (·.Commutes s) a := by
  simp only [LemmaTables.ofAssertions, Registry.get?_ofList, List.lookup_filterMap_key]
  refine Theory.find?_eq_some_iff_first fun b => ?_
  rw [beq_iff_eq, Assertion.toOption_commutes_eq_iff]

/-- The second table has the first lemma that chains a relation. -/
theorem get?_transitive_eq_some_iff {b : Assertion} :
    (LemmaTables.ofAssertions T.assertions.values).transitive.get? s = some b ↔
      T.First (·.Chains s) b := by
  simp only [LemmaTables.ofAssertions, Registry.get?_ofList, List.lookup_filterMap_key]
  refine Theory.find?_eq_some_iff_first fun b => ?_
  rw [beq_iff_eq, Assertion.toOption_chains_eq_iff]

/-- A relation has both lemmas in the theory exactly if it is in both tables. -/
theorem hasEquivalence_iff :
    T.HasEquivalence s ↔
      ((LemmaTables.ofAssertions T.assertions.values).commutative.get? s).isSome ∧
        ((LemmaTables.ofAssertions T.assertions.values).transitive.get? s).isSome := by
  simp only [Option.isSome_iff_exists, get?_commutative_eq_some_iff, get?_transitive_eq_some_iff,
    Theory.exists_first_iff]
  rfl

/-- The catalog files the relations of the first table that the second has as well. -/
theorem relationsOf_eq (as : List Assertion) :
    relationsOf as = .ofList ((LemmaTables.ofAssertions as).commutative.toList.filterMap fun e =>
      (((LemmaTables.ofAssertions as).transitive.get? e.1).map (EquivalenceLemmas.mk e.2)).map
        fun m => (e.1, m)) := by
  simp only [Option.map_map]
  rfl

end Tables

/-! ### The catalog of a theory -/

/-- The table of relations is valid, also if equivalences are not selected and it is empty. -/
theorem valid_relations (T : Theory) (selection : Selection) :
    (ofTheory T selection).relations.Valid := by
  rw [ofTheory]
  split
  · exact (Registry.ofList_spec _).1
  · exact Registry.valid_empty

section OfTheory

variable {T : Theory} {selection : Selection} (hsel : selection.equivalence = true)

include hsel

/-- With equivalences selected, the relations are those of all assertions. -/
theorem relations_ofTheory :
    (ofTheory T selection).relations = relationsOf T.assertions.values := by
  rw [ofTheory, if_pos hsel]

/-- A relation is filed with the lemmas that both tables have for it. -/
theorem get?_relations_ofTheory {s : Symbol} {e : EquivalenceLemmas} :
    (ofTheory T selection).relations.get? s = some e ↔
      (LemmaTables.ofAssertions T.assertions.values).commutative.get? s = some e.commutativity ∧
        (LemmaTables.ofAssertions T.assertions.values).transitive.get? s = some e.transitivity := by
  rw [relations_ofTheory hsel, relationsOf_eq,
    (LemmaTables.valid_ofAssertions _).commutative.get?_ofList_filterMap]
  simp only [Option.bind_eq_some_iff, Option.map_eq_some_iff]
  constructor
  · rintro ⟨a, ha, b, hb, rfl⟩
    exact ⟨ha, hb⟩
  · rintro ⟨ha, hb⟩
    exact ⟨_, ha, _, hb, rfl⟩

/-- The lemmas of a relation are those of the tables, if both have one. -/
theorem commutativity?_eq_some_iff {s : Symbol} {a : Assertion} :
    (ofTheory T selection).commutativity? s = some a ↔
      (LemmaTables.ofAssertions T.assertions.values).commutative.get? s = some a ∧
        ((LemmaTables.ofAssertions T.assertions.values).transitive.get? s).isSome := by
  rw [commutativity?, Option.map_eq_some_iff, Option.isSome_iff_exists]
  simp only [get?_relations_ofTheory hsel]
  constructor
  · rintro ⟨e, ⟨ha, hb⟩, rfl⟩
    exact ⟨ha, _, hb⟩
  · rintro ⟨ha, b, hb⟩
    exact ⟨⟨a, b⟩, ⟨ha, hb⟩, rfl⟩

/-- The lemma that chains a relation is that of the second table, if the first has one as well. -/
theorem transitivity?_eq_some_iff {s : Symbol} {b : Assertion} :
    (ofTheory T selection).transitivity? s = some b ↔
      (LemmaTables.ofAssertions T.assertions.values).transitive.get? s = some b ∧
        ((LemmaTables.ofAssertions T.assertions.values).commutative.get? s).isSome := by
  rw [transitivity?, Option.map_eq_some_iff, Option.isSome_iff_exists]
  simp only [get?_relations_ofTheory hsel]
  constructor
  · rintro ⟨e, ⟨ha, hb⟩, rfl⟩
    exact ⟨hb, _, ha⟩
  · rintro ⟨hb, a, ha⟩
    exact ⟨⟨a, b⟩, ⟨ha, hb⟩, rfl⟩

/-- A relation is filed exactly if the theory has both lemmas for it. -/
theorem isSome_relations_iff {s : Symbol} :
    ((ofTheory T selection).relations.get? s).isSome ↔ T.HasEquivalence s := by
  rw [hasEquivalence_iff, Option.isSome_iff_exists]
  simp only [get?_relations_ofTheory hsel, Option.isSome_iff_exists]
  constructor
  · rintro ⟨e, ha, hb⟩
    exact ⟨⟨_, ha⟩, _, hb⟩
  · rintro ⟨⟨a, ha⟩, b, hb⟩
    exact ⟨⟨a, b⟩, ha, hb⟩

/-- The catalog holds what is left when dropping relations has come to an end. -/
theorem settled_ofTheory :
    ∃ left, (LemmaTables.ofAssertions T.assertions.values).Settles left ∧ ∀ s,
      (ofTheory T selection).commutativity? s = left.commutative.get? s ∧
        (ofTheory T selection).transitivity? s = left.transitive.get? s := by
  have hvalid := LemmaTables.valid_ofAssertions T.assertions.values
  obtain ⟨left, hsettles⟩ := hvalid.exists_settles
  have hleaves := hsettles.leaves hvalid
  refine ⟨left, hsettles, fun s => ⟨Option.ext fun a => ?_, Option.ext fun b => ?_⟩⟩
  · rw [commutativity?_eq_some_iff hsel, hleaves.commutative]
  · rw [transitivity?_eq_some_iff hsel, hleaves.transitive]

/-- Relations stand in the order of the first lemmas that turn them around. -/
theorem ordered_relations_ofTheory :
    (ofTheory T selection).relations.keys.Pairwise fun r s =>
      (T.assertions.values.findIdx fun a => a.Commutes r) <
        T.assertions.values.findIdx fun a => a.Commutes s := by
  have hcheck : ∀ r, (fun a : Assertion => decide (a.Commutes r)) =
      fun a => a.commutes.toOption == some r := by
    intro r
    funext a
    rw [Bool.eq_iff_iff, decide_eq_true_iff, beq_iff_eq, Assertion.toOption_commutes_eq_iff]
  have hsub : (ofTheory T selection).relations.keys.Sublist
      (LemmaTables.ofAssertions T.assertions.values).commutative.keys := by
    rw [relations_ofTheory hsel, relationsOf_eq]
    exact Registry.keys_ofList_filterMap_sublist _ _
  simp only [hcheck]
  exact (Registry.pairwise_keys_ofList T.assertions.values (·.commutes.toOption) fun a => a).sublist
    hsub

/-- A type belongs to the first relation between terms of this type. -/
theorem relationFor?_ofTheory (t : TypeId) :
    (ofTheory T selection).relationFor? t =
      (ofTheory T selection).relations.keys.find? fun s =>
        (((ofTheory T selection).commutativity? s).bind fun a =>
          a.conclusion.args.head?.bind T.signature.termType?) = some t := by
  have hbyType : (ofTheory T selection).relationFor? t =
      ((relationsOf T.assertions.values).toList.find? fun e =>
        operandType? T.signature e.2 == some t).map (·.1) := by
    rw [relationFor?, ofTheory, if_pos hsel]
    exact Registry.get?_ofList_filterMap (relationsOf T.assertions.values).toList
      (fun e : Symbol × EquivalenceLemmas => operandType? T.signature e.2)
      (fun e : Symbol × EquivalenceLemmas => e.1) t
  rw [hbyType, Registry.keys, List.find?_map, relations_ofTheory hsel]
  congr 1
  -- The entries of the registry are what is found under their relations.
  refine List.find?_congr fun e he => ?_
  have hget : (ofTheory T selection).relations.get? e.1 = some e.2 := by
    rw [relations_ofTheory hsel]
    exact (Registry.ofList_spec _).1.get?_eq_some_iff.mpr he
  simp [commutativity?, hget, operandType?, beq_eq_decide]

end OfTheory

/-- The relations of the catalog are those with both lemmas, if equivalences are selected. -/
theorem mem_keys_relations_iff {T : Theory} {selection : Selection} {s : Symbol} :
    s ∈ (ofTheory T selection).relations.keys ↔ selection.equivalence ∧ T.HasEquivalence s := by
  rw [(valid_relations T selection).mem_keys_iff]
  cases hsel : selection.equivalence with
  | false =>
    rw [ofTheory, hsel]
    simp [Registry.get?, Registry.find?, Registry.empty]
  | true => simp [isSome_relations_iff hsel]

/-- If equivalences are selected, the catalog of a theory has just the relations with both lemmas,
in the order of the first lemmas that turn them around. Each has the first lemma of either form, and
a type belongs to the first relation between terms of this type. The same is left when relations
without a lemma in the other table are dropped until nothing changes any more. -/
theorem records_ofTheory (T : Theory) {selection : Selection}
    (hsel : selection.equivalence = true) : Records T (ofTheory T selection) := by
  have hvalid := valid_relations T selection
  have hfiled := fun s => isSome_relations_iff (T := T) hsel (s := s)
  constructor
  · exact settled_ofTheory hsel
  · exact fun s => hvalid.contains_iff.trans (hfiled s)
  · intro s
    rw [commutativity?, Option.isSome_map]
    exact hfiled s
  · intro s
    rw [transitivity?, Option.isSome_map]
    exact hfiled s
  · exact fun s => hvalid.mem_keys_iff.trans (hfiled s)
  · exact fun s a ha => get?_commutative_eq_some_iff.mp ((commutativity?_eq_some_iff hsel).mp ha).1
  · exact fun s b hb => get?_transitive_eq_some_iff.mp ((transitivity?_eq_some_iff hsel).mp hb).1
  · exact hvalid.nodup_keys
  · exact ordered_relations_ofTheory hsel
  · exact relationFor?_ofTheory hsel

/-- Two relations between classes, one between formulas, and one that cannot be chained. -/
def rivalTheory : Theory :=
  (Theory.build {
    vars := [⟨"class", ["x", "y", "z"]⟩, ⟨"wff", ["p", "q", "r"]⟩]
    operators := [⟨"wff", ["e", "l", "m", "b"]⟩]
    statements := [⟨"chainl", ["l(x, y)", "l(y, z)"], "l(x, z)"⟩, ⟨"turnm", ["m(x, y)"], "m(y, x)"⟩,
      ⟨"turne", ["e(x, y)"], "e(y, x)"⟩, ⟨"turnl", ["l(x, y)"], "l(y, x)"⟩,
      ⟨"chaine", ["e(x, y)", "e(y, z)"], "e(x, z)"⟩, ⟨"again", ["e(z, y)"], "e(y, z)"⟩,
      ⟨"turnb", ["b(p, q)"], "b(q, p)"⟩, ⟨"chainb", ["b(p, q)", "b(q, r)"], "b(p, r)"⟩] }
    {}).2

/-- The relations of the sample stand in the order in which they can be turned around, and classes
belong to the first of their two. -/
theorem rivalTheory_relations :
    Records rivalTheory (ofTheory rivalTheory {}) ∧
      (ofTheory rivalTheory {}).relations.keys = [.op 0, .op 1, .op 3] ∧
      (rivalTheory.signature.termType? (.leaf (.var 0))).bind (ofTheory rivalTheory {}).relationFor? =
        some (.op 0) :=
  ⟨records_ofTheory rivalTheory rfl, by decide +kernel, by decide +kernel⟩

end EquivalenceCatalog

end Lemmata
