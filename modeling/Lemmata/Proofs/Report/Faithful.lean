import Lemmata.Proofs.Closure.Listing
import Lemmata.Proofs.Equivalence.Relations
import Lemmata.Proofs.Mining.Names
import Lemmata.Proofs.Theory.Files
import Lemmata.Report.Basic

/-!
# Reports are faithful

A report can be made on every theory that comes from a file, with any selection and for any part. Its
entries stand for the closure rules and the relations of the catalogs, one for each and in their order.
The texts of a closure entry are read back, with the names of the theory, as the symbol, the fixed
arguments and the template of the rule's schema, and a relation is reported with a type and both its
lemmas. The lists that the entries follow leave nothing out: a rule is listed, once, if it is of a
selected kind and its assertion is the first of the theory that is recognised with its schema, and a
relation if equivalences are selected and the theory has both lemmas for it (`report_faithful`).

A rule in the listing was recognised in an assertion of the theory, so its schema is made of declared
symbols and the hole. Such a term is written with names that are read back as it was.
-/

namespace Lemmata

namespace Report

/-! ## Entries -/

/-- Reading an entry back gives the rule. -/
structure ReadsAs (sig : Signature) (e : ClosureEntry) (r : ClosureRule) : Prop where
  kind : e.kind = r.kind.write
  assertion : e.assertion = r.assertion.label
  symbol : sig.symbolNamed? e.symbol = some r.schema.symbol
  /-- An open place has no text, and the text of a fixed argument is read as this argument. -/
  arguments : List.Forall₂ (Option.Rel fun text t => sig.read text = .ok t) e.arguments r.schema.slots
  template : sig.read e.template = .ok r.schema.template.body

/-- The entry names the relation, the type of its operands and its lemmas. -/
structure Presents (sig : Signature) (e : RelationEntry) (s : Symbol) (l : EquivalenceLemmas) :
    Prop where
  relation : sig.symbolNamed? e.relation = some s
  typeName : ∃ t name, EquivalenceCatalog.operandType? sig l = some t ∧
    sig.typeName? t = some name ∧ e.typeName = some name
  commutative : e.commutative = some l.commutativity.label
  transitive : e.transitive = some l.transitivity.label

/-- The report has all of what the selection asks for from the theory, as far as it is in the part. -/
structure Faithful (T : Theory) (selection : Selection) (part : Option Part) (r : Report) : Prop where
  /-- The closure section has an entry for each rule, in the order of the rules, unless it is left
  out, -/
  closure : if part = some .equivalence then r.closure = []
    else List.Forall₂ (ReadsAs T.signature) r.closure (Catalogs.ofTheory T selection).closure.rules
  /-- where the rules are those that are filed, -/
  mem_rules_iff : ∀ rule, rule ∈ (Catalogs.ofTheory T selection).closure.rules ↔
    (Catalogs.ofTheory T selection).closure.Files rule
  /-- each of them once, -/
  nodup_rules : (Catalogs.ofTheory T selection).closure.rules.Nodup
  /-- by kind and then by schema, -/
  increasing_rules :
    (Catalogs.ofTheory T selection).closure.rules.Pairwise fun rule rule' =>
      rule.key.Before rule'.key
  /-- and filed are the selected kinds, every schema with the first assertion recognised with it. -/
  files_iff : ∀ rule, (Catalogs.ofTheory T selection).closure.Files rule ↔
    selection.includes rule.kind ∧
      T.First (fun a => (ClosureCatalog.unfilled (.ofTheory T) (.ofTheory T)).recognise rule.kind a =
        .ok ⟨rule.kind, rule.schema, a⟩) rule.assertion
  /-- The equivalence section has an entry for each relation, in the order of the relations, unless it
  is left out, -/
  equivalence : if part = some .closure then r.equivalence = []
    else List.Forall₂ (fun e p => Presents T.signature e p.1 p.2) r.equivalence
      (Catalogs.ofTheory T selection).equivalence.relations.toList
  /-- where the relations are those with both lemmas, if equivalences are selected, -/
  mem_relations_iff : ∀ s, s ∈ (Catalogs.ofTheory T selection).equivalence.relations.keys ↔
    selection.equivalence ∧ T.HasEquivalence s
  /-- each of them once. -/
  nodup_relations : (Catalogs.ofTheory T selection).equivalence.relations.keys.Nodup

/-- A symbol with a name is found by this name. -/
theorem exists_name? {sig : Signature} (hsig : sig.Lawful) {s : Symbol}
    (hs : (sig.name? s).isSome) :
    ∃ name, sig.name? s = some name ∧ sig.symbolNamed? name = some s := by
  obtain ⟨name, hname⟩ := Option.isSome_iff_exists.mp hs
  exact ⟨name, hname, hsig.symbolNamed?_of_name? hname⟩

/-- A rule whose schema has names is written as an entry that reads back. -/
theorem exists_ofRule? {sig : Signature} (hsig : sig.Lawful) {r : ClosureRule}
    (hr : r.schema.NamedIn sig) : ∃ e, ofRule? sig r = some e ∧ ReadsAs sig e r := by
  obtain ⟨name, hname, hsymbol⟩ := exists_name? hsig hr.symbol
  obtain ⟨text, htext, htemplate⟩ := hsig.read_write hr.template
  have hslots : ∀ slot ∈ r.schema.slots, ∃ o, writeSlot? sig slot = some o ∧
      Option.Rel (fun text t => sig.read text = .ok t) o slot := by
    intro slot hslot
    cases slot with
    | none => exact ⟨none, rfl, .none⟩
    | some t =>
      obtain ⟨text, htext, hread⟩ := hsig.read_write (hr.slots t hslot)
      exact ⟨some text, by rw [writeSlot?, htext, Option.map_some], .some hread⟩
  obtain ⟨arguments, harguments, hread⟩ := List.exists_mapM_eq_pure hslots
  refine ⟨⟨r.kind.write, r.assertion.label, name, arguments, text⟩, ?_, ?_⟩
  · simp [ofRule?, hname, harguments, htext]
  · exact ⟨rfl, rfl, hsymbol, hread, htemplate⟩

/-- A relation with a lemma of the theory has a name and a named type, so it can be written. -/
theorem exists_ofLemmas? {T : Theory} (hT : T.Lawful) {s : Symbol} {l : EquivalenceLemmas}
    (hl : l.commutativity ∈ T.assertions.values) (hs : l.commutativity.commutes = .ok s) :
    ∃ e, ofLemmas? T.signature s l = some e ∧ Presents T.signature e s l := by
  obtain ⟨relation, hname, hrelation⟩ :=
    exists_name? hT.signature (hT.isSome_name?_of_commutes hl hs)
  obtain ⟨t, name, -, htype, htypeName⟩ := ByPosition.operandType_eq hT hl hs
  have hoperand : operandTypeName? T.signature l = some (some name) := by
    rw [EquivalenceCatalog.operandType?] at htype
    obtain ⟨left, hleft, hterm⟩ := Option.bind_eq_some_iff.mp htype
    rw [List.head?_eq_getElem?] at hleft
    simp [operandTypeName?, hleft, hterm, htypeName]
  refine ⟨⟨relation, some name, some l.commutativity.label, some l.transitivity.label⟩, ?_, ?_⟩
  · simp [ofLemmas?, hname, hoperand]
  · exact ⟨hrelation, ⟨t, name, htype, htypeName, rfl⟩, rfl, rfl⟩

/-! ## The sections -/

section Sections

variable (T : Theory) (selection : Selection)

theorem registered_closure : (Catalogs.ofTheory T selection).closure.Registered :=
  .ofTheory T selection _ _

/-- The rule is filed exactly if it is the first of a selected kind with its schema. -/
theorem files_ofTheory_iff (rule : ClosureRule) :
    (Catalogs.ofTheory T selection).closure.Files rule ↔ selection.includes rule.kind ∧
      T.First (fun a => (ClosureCatalog.unfilled (.ofTheory T) (.ofTheory T)).recognise rule.kind a =
        .ok ⟨rule.kind, rule.schema, a⟩) rule.assertion :=
  ClosureCatalog.assertion?_ofTheory_eq_some_iff

variable {T} (hT : T.Lawful)
include hT

/-- Every listed rule was recognised in an assertion of the theory, so it can be written. -/
theorem exists_closureSection :
    ∃ es, (Catalogs.ofTheory T selection).closure.rules.mapM (ofRule? T.signature) = some es ∧
      List.Forall₂ (ReadsAs T.signature) es (Catalogs.ofTheory T selection).closure.rules := by
  refine List.exists_mapM_eq_pure fun rule hrule => ?_
  have hfiles := ((registered_closure T selection).canonical.mem_iff rule).mp hrule
  obtain ⟨-, hfirst⟩ := (files_ofTheory_iff T selection rule).mp hfiles
  exact exists_ofRule? hT.signature (hT.namedIn_of_recognise hfirst.mem hfirst.holds)

/-- Every filed relation has a lemma of the theory that turns it around, so it can be written. -/
theorem exists_equivalenceSection :
    ∃ es, ((Catalogs.ofTheory T selection).equivalence.relations.toList.mapM
        fun (s, e) => ofLemmas? T.signature s e) = some es ∧
      List.Forall₂ (fun e p => Presents T.signature e p.1 p.2) es
        (Catalogs.ofTheory T selection).equivalence.relations.toList := by
  refine List.exists_mapM_eq_pure fun p hp => ?_
  have hmem : p ∈ (EquivalenceCatalog.relationsOf T.assertions.values).toList := by
    change p ∈ (EquivalenceCatalog.ofTheory T selection).relations.toList at hp
    rw [EquivalenceCatalog.ofTheory] at hp
    split at hp
    · exact hp
    -- Nothing is mined if equivalences are not selected.
    · cases hp
  obtain ⟨hl, hs⟩ := ByPosition.mem_relationsOf hmem
  exact exists_ofLemmas? hT hl hs

end Sections

/-! ## The report -/

/-- What the sections follow is complete whatever part is reported, so only the sections have to be
looked at. -/
theorem Faithful.of_sections {T : Theory} {selection : Selection} {part : Option Part} {r : Report}
    (hclosure : if part = some .equivalence then r.closure = []
      else List.Forall₂ (ReadsAs T.signature) r.closure (Catalogs.ofTheory T selection).closure.rules)
    (hequivalence : if part = some .closure then r.equivalence = []
      else List.Forall₂ (fun e p => Presents T.signature e p.1 p.2) r.equivalence
        (Catalogs.ofTheory T selection).equivalence.relations.toList) :
    Faithful T selection part r := by
  have hcanonical := (registered_closure T selection).canonical
  exact ⟨hclosure, hcanonical.mem_iff, hcanonical.nodup, hcanonical.increasing,
    files_ofTheory_iff T selection, hequivalence, fun s => EquivalenceCatalog.mem_keys_relations_iff,
    (EquivalenceCatalog.valid_relations T selection).nodup_keys⟩

/-- On a lawful theory every part of the report can be made, and it is faithful. -/
theorem exists_ofCatalogs? {T : Theory} (hT : T.Lawful) (selection : Selection)
    (part : Option Part) :
    ∃ r, ofCatalogs? T.signature (.ofTheory T selection) part = some r ∧
      Faithful T selection part r := by
  obtain ⟨closure, hclosure, hreads⟩ := exists_closureSection selection hT
  obtain ⟨equivalence, hequivalence, hpresents⟩ := exists_equivalenceSection selection hT
  cases part with
  | none =>
    refine ⟨⟨closure, equivalence⟩, ?_, .of_sections hreads hpresents⟩
    simp [ofCatalogs?, hclosure, hequivalence]
  | some part =>
    cases part with
    | closure => exact ⟨⟨closure, []⟩, by simp [ofCatalogs?, hclosure], .of_sections hreads rfl⟩
    | equivalence =>
      exact ⟨⟨[], equivalence⟩, by simp [ofCatalogs?, hequivalence], .of_sections rfl hpresents⟩

/-- Mining a theory that comes from a file and reporting on it break off nowhere, whatever is selected
and whichever part is asked for, and the report is faithful: it has an entry for every rule and every
relation of the theory, and for nothing else, in the order of the listings, and the entries are read
back as what they stand for. -/
theorem report_faithful {f : TheoryFile} {T : Theory} (h : Theory.ofFile f = .ok T)
    (selection : Selection) (part : Option Part) :
    ByPosition.mine T selection = some (.ofTheory T selection) ∧
      ∃ r, ofCatalogs? T.signature (.ofTheory T selection) part = some r ∧
        Faithful T selection part r := by
  have hT : T.Lawful := (Theory.holds_of_ofFile h).lawful
  exact ⟨ByPosition.mine_eq hT selection, exists_ofCatalogs? hT selection part⟩

/-- Closure rules of both kinds, one of them with a variable over an argument, and an equivalence. -/
def reportedFile : TheoryFile where
  vars := [⟨"class", ["x", "y", "z"]⟩, ⟨"wff", ["p", "q"]⟩]
  operators := [⟨"class", ["c", "f", "g"]⟩, ⟨"wff", ["e", "i", "s"]⟩]
  statements := [
    ⟨"plain", ["e(x, c)", "e(y, c)"], "e(f(x, c, y), c)"⟩,
    ⟨"applied", ["e(x, c)"], "e(f(x(c)), c)"⟩,
    ⟨"ponens", ["p", "i(p, q)"], "q"⟩,
    ⟨"implied", [], "i(e(x, c), e(g(x), c))"⟩,
    ⟨"turn", ["s(x, y)"], "s(y, x)"⟩,
    ⟨"chain", ["s(x, y)", "s(y, z)"], "s(x, z)"⟩]

def reportedTheory : Theory :=
  (Theory.build reportedFile {}).2

/-- The report on the theory of this file. -/
def writtenReport : Report where
  closure := [
    ⟨"pure", "applied", "f", [none], "e(_, c)"⟩,
    ⟨"pure", "plain", "f", [none, some "c", none], "e(_, c)"⟩,
    ⟨"implication", "implied", "g", [none], "e(_, c)"⟩]
  equivalence := [⟨"s", some "class", some "turn", some "chain"⟩]

open ClosureRule in
/-- The rules are sorted by their schemas, so the pure rule that is stated first is listed second. -/
theorem rules_reportedTheory :
    (Catalogs.ofTheory reportedTheory {}).closure.rules = [appliedRule, plainRule, impliedRule] := by
  have hvalid := (registered_closure reportedTheory {}).valid
  have hpure : (Catalogs.ofTheory reportedTheory {}).closure.pureRules.sorted =
      [(appliedRule.schema, appliedRule.assertion), (plainRule.schema, plainRule.assertion)] := by
    refine (hvalid .pure).sorted_eq (by decide +kernel) ?_
    rw [Catalogs.ofTheory, ClosureCatalog.rulesOf_ofTheory]
    simp only [ClosureCatalog.recognise, ofPure, Assertion.mandatoryVars, List.length_mergeSort]
    decide +kernel
  have himplication : (Catalogs.ofTheory reportedTheory {}).closure.implicationRules.sorted =
      [(impliedRule.schema, impliedRule.assertion)] := by
    refine (hvalid .implication).sorted_eq (by decide +kernel) ?_
    rw [Catalogs.ofTheory, ClosureCatalog.rulesOf_ofTheory]
    decide +kernel
  rw [ClosureCatalog.rules, hpure, himplication]
  rfl

/-- The report has the three rules, sorted, and the one relation of the theory. -/
theorem reportedFile_faithful :
    Theory.ofFile reportedFile = .ok reportedTheory ∧
      ByPosition.mine reportedTheory {} = some (.ofTheory reportedTheory {}) ∧
      ofCatalogs? reportedTheory.signature (.ofTheory reportedTheory {}) none = some writtenReport ∧
      Faithful reportedTheory {} none writtenReport := by
  have hok : (Theory.build reportedFile {}).1.toOption.isSome := by decide +kernel
  have hT : Theory.ofFile reportedFile = .ok reportedTheory := by
    rw [Theory.ofFile, reportedTheory]
    split
    next hrun => rw [hrun]
    next e T hrun =>
      rw [hrun] at hok
      cases hok
  have hwritten : ofCatalogs? reportedTheory.signature (.ofTheory reportedTheory {}) none =
      some writtenReport := by
    rw [ofCatalogs?, rules_reportedTheory]
    decide +kernel
  obtain ⟨hmine, r, hr, hfaithful⟩ := report_faithful hT {} none
  cases hr.symm.trans hwritten
  exact ⟨hT, hmine, hwritten, hfaithful⟩

end Report

end Lemmata
