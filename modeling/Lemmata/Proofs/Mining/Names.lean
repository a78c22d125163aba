import Lemmata.Proofs.Connective.Operators
import Lemmata.Proofs.Mining.Positions
import Lemmata.Proofs.Theory.Statements

/-!
# Mining with names

Everything that is mined from a theory is made of its symbols. The schema of a closure rule, for one,
is made of symbols of the conclusion and the hole, so all of it can be written down
(`namedIn_of_recognise`). Relations are between terms that have a type with a name.

While a theory is mined, a log names what is found. `mine` is the whole of mining with all that can
break off: reading by position, and looking up names and types in the signature. It makes just the
catalogs of the theory (`mine_eq`).
-/

namespace Lemmata

/-! ## Symbols with names -/

namespace Signature

variable {sig : Signature}

/-- Declared symbols have names. -/
theorem Declares.isSome_name? {t : Term} (ht : sig.Declares t) {s : Symbol} (hs : s ∈ t.symbols) :
    (sig.name? s).isSome :=
  isSome_name?_iff.mpr (.inr (ht s hs))

/-- The arguments of a term over the declared symbols are such terms. -/
theorem Declares.arg {h : Symbol} {as : List Term} {t : Term} (happ : sig.Declares (.app h as))
    (ht : t ∈ as) : sig.Declares t :=
  fun s hs => happ s (Term.mem_symbols_of_mem_args ht hs)

/-- The type of a declared symbol has a name. -/
theorem Typed.exists_typeName? (h : sig.Typed) {s : Symbol} (hs : (sig.declared? s).isSome) :
    ∃ t name, sig.typeOf? s = some t ∧ sig.typeName? t = some name := by
  obtain ⟨e, he⟩ := Option.isSome_iff_exists.mp hs
  have hmem : ∃ role, e ∈ sig.listing.symbols role := by
    cases s with
    | var i => exact ⟨.var, List.mem_of_getElem? ((sig.declared?_symbol .var i).symm.trans he)⟩
    | op i => exact ⟨.op, List.mem_of_getElem? ((sig.declared?_symbol .op i).symm.trans he)⟩
    | hole => cases he
  obtain ⟨role, hmem⟩ := hmem
  obtain ⟨name, hname⟩ := Option.isSome_iff_exists.mp (h role e hmem)
  exact ⟨e.2, name, by rw [typeOf?, he, Option.map_some], hname⟩

end Signature

/-- All symbols of the schema have names. -/
structure Schema.NamedIn (sig : Signature) (s : Schema) : Prop where
  symbol : (sig.name? s.symbol).isSome
  slots : ∀ t, some t ∈ s.slots → ∀ u ∈ t.symbols, (sig.name? u).isSome
  template : ∀ u ∈ s.template.body.symbols, (sig.name? u).isSome

/-- A schema is made of the symbols of the conclusion that states it, and of the hole. -/
theorem Schema.Stated.namedIn {sig : Signature} {s : Schema} {conditions : List Term}
    {conclusion : Term} {vs : List Serial} {subjects args : List Term}
    (h : s.Stated conditions conclusion vs subjects args) (hconcl : sig.Declares conclusion) :
    s.NamedIn sig := by
  have hmem : ∀ u, u ≠ .hole ∧ u ∈ s.template.body.symbols ∨ u ∈ (Term.app s.symbol args).symbols →
      (sig.name? u).isSome := by
    intro u hu
    rw [← h.proper.oneHole.mem_symbols_replaceLeaf] at hu
    exact hconcl.isSome_name? (h.conclusion ▸ hu)
  refine ⟨hmem _ (.inr (Term.head_mem_symbols _)), fun t ht u hu => ?_, fun u hu => ?_⟩
  · have harg := Slots.mem_of_fixed h.described.fits_self ht
    exact hmem u (.inr (Term.mem_symbols_of_mem_args harg hu))
  · by_cases hhole : u = .hole
    · rw [hhole]
      rfl
    · exact hmem u (.inl ⟨hhole, hu⟩)

namespace Theory.Lawful

variable {T : Theory} (hT : T.Lawful)
include hT

theorem declares_conclusion {a : Assertion} (ha : a ∈ T.assertions.values) :
    T.signature.Declares a.conclusion :=
  hT.declared a ha _ List.mem_cons_self

theorem declares_hypothesis {a : Assertion} (ha : a ∈ T.assertions.values) {t : Term}
    (ht : t ∈ a.hypotheses) : T.signature.Declares t :=
  hT.declared a ha t (List.mem_cons_of_mem _ ht)

theorem holeFree {a : Assertion} (ha : a ∈ T.assertions.values) : a.HoleFree :=
  ⟨fun _ ht => (hT.declares_hypothesis ha ht).holeFree, (hT.declares_conclusion ha).holeFree⟩

/-- What is recognised as a rule can be written down. -/
theorem namedIn_of_recognise {c : ClosureCatalog} {kind : ClosureKind} {a : Assertion}
    {r : ClosureRule} (ha : a ∈ T.assertions.values) (h : c.recognise kind a = .ok r) :
    r.schema.NamedIn T.signature := by
  have hconcl := hT.declares_conclusion ha
  obtain ⟨-, -, hbacks⟩ := ClosureCatalog.recognise_spec (hT.holeFree ha) h
  cases kind with
  | pure =>
    obtain ⟨vs, subjects, args, hstated⟩ := hbacks
    exact hstated.namedIn hconcl
  | implication =>
    obtain ⟨-, f, p, q, heq, -, -, vs, subjects, args, hstated⟩ := hbacks
    rw [heq] at hconcl
    exact hstated.namedIn (hconcl.arg (List.mem_cons_of_mem _ List.mem_cons_self))

/-- Whatever symbol is found in an assertion occurs there, so it has a name. Here it is the symbol of an
implication. -/
theorem isSome_name?_of_modusPonens {a : Assertion} (ha : a ∈ T.assertions.values) {s : Symbol}
    (h : a.modusPonens? = some s) : (T.signature.name? s).isSome := by
  obtain ⟨φ, ψ, -, hhyps, -, -⟩ := Assertion.modusPonens?_spec h
  have hmajor := hT.declares_hypothesis ha (hhyps ▸ List.mem_cons_of_mem _ List.mem_cons_self)
  exact hmajor.isSome_name? (Term.head_mem_symbols _)

/-- The operator that a rule introduces has a name. -/
theorem isSome_name?_of_introduces {a : Assertion} (ha : a ∈ T.assertions.values) {s : Symbol}
    (h : a.introduces? = some s) : (T.signature.name? s).isSome := by
  obtain ⟨vs, -, -, -, heq, -⟩ := Assertion.introduces?_spec h
  exact (heq ▸ hT.declares_conclusion ha).isSome_name? (Term.head_mem_symbols _)

/-- The operator that a rule eliminates has a name. -/
theorem isSome_name?_of_eliminates {a : Assertion} (ha : a ∈ T.assertions.values) {s : Symbol}
    (h : a.eliminates?.map (·.1) = some s) : (T.signature.name? s).isSome := by
  obtain ⟨⟨s, i⟩, hsi, rfl⟩ := Option.map_eq_some_iff.mp h
  obtain ⟨n, -, -, vs, -, -, hhyps, -⟩ := Assertion.eliminates?_eq_some_iff.mp hsi
  have hhyp := hT.declares_hypothesis ha (hhyps ▸ List.mem_cons_self)
  exact hhyp.isSome_name? (Term.head_mem_symbols _)

/-- A relation that a lemma turns around has a name. -/
theorem isSome_name?_of_commutes {a : Assertion} (ha : a ∈ T.assertions.values) {s : Symbol}
    (h : a.commutes = .ok s) : (T.signature.name? s).isSome := by
  obtain ⟨-, x, y, -, -, heq⟩ := Assertion.commutes_eq_ok_iff.mp h
  exact (heq ▸ hT.declares_conclusion ha).isSome_name? (Term.head_mem_symbols _)

/-- A relation that a lemma chains has a name. -/
theorem isSome_name?_of_chains {a : Assertion} (ha : a ∈ T.assertions.values) {s : Symbol}
    (h : a.chains = .ok s) : (T.signature.name? s).isSome := by
  obtain ⟨-, x, y, z, -, -, heq⟩ := Assertion.chains_eq_ok_iff.mp h
  exact (heq ▸ hT.declares_conclusion ha).isSome_name? (Term.head_mem_symbols _)

end Theory.Lawful

/-! ## Mining with a log -/

namespace ByPosition

/-- Names the symbol that was found, if one was. -/
def log (sig : Signature) : Option Symbol → Option Unit
  | none => some ()
  | some s => (sig.name? s).map fun _ => ()

/-- The first assertion that a rule finds each symbol in. -/
def tabulate (T : Theory) (rule : Assertion → Option (Option Symbol)) :
    Option (Registry Symbol Assertion) := do
  let found ← T.assertions.values.mapM fun a => do
    let s ← rule a
    log T.signature s
    return s.map fun s => (s, a)
  return .ofList (found.filterMap id)

/-- The conjunctions, for which nothing is read by position. -/
def mineConjunctions (T : Theory) : Option Conjunctions := do
  let _ ← T.assertions.values.mapM fun a => do
    log T.signature a.introduces?
    log T.signature (a.eliminates?.map (·.1))
  return .ofTheory T

def recognise (c : ClosureCatalog) : ClosureKind → Assertion → Reading ClosureRule
  | .pure, a => ofPure a
  | .implication, a => ofImplication c.detachments.isImplication c.conjunctions.conjuncts a

/-- Files an assertion if it is a new rule of a kind, and then names its symbol and writes its
template. -/
def addRule (sig : Signature) (kind : ClosureKind) (c : ClosureCatalog) (a : Assertion) :
    Option ClosureCatalog := do
  let (outcome, c') := c.register (← (recognise c kind a).run)
  match outcome with
  | .ok r => do
    log sig (some r.schema.symbol)
    let _ ← sig.write? r.schema.template.body
    return c'
  | .error _ => return c'

def mineClosure (T : Theory) (selection : Selection) (d : Detachments) (j : Conjunctions) :
    Option ClosureCatalog := do
  let addAll (kind : ClosureKind) (selected : Bool) (c : ClosureCatalog) : Option ClosureCatalog :=
    if selected then T.assertions.values.foldlM (addRule T.signature kind) c else some c
  let c ← addAll .pure selection.pureClosure { detachments := d, conjunctions := j }
  addAll .implication selection.implicationClosure c

/-- The type of the operands of a relation, which must have a name. -/
def operandType (sig : Signature) (s : Symbol) (e : EquivalenceLemmas) :
    Option (Option TypeId) := do
  let left ← e.commutativity.conclusion.args[0]?
  match sig.termType? left with
  | none => return none
  | some t => do
    log sig (some s)
    let _ ← sig.typeName? t
    return some t

def mineEquivalence (T : Theory) (selection : Selection) : Option EquivalenceCatalog :=
  if selection.equivalence then do
    let commutative ← tabulate T fun a => (commutes a).map (·.toOption)
    let transitive ← tabulate T fun a => (chains a).map (·.toOption)
    let relations : Registry Symbol EquivalenceLemmas :=
      .ofList (commutative.toList.filterMap fun (s, a) =>
        (transitive.get? s).map fun b => (s, ⟨a, b⟩))
    let types ← relations.toList.mapM fun (s, e) => do
      let t ← operandType T.signature s e
      return t.map fun t => (t, s)
    return ⟨relations, .ofList (types.filterMap id)⟩
  else some {}

/-- Mines a theory. -/
def mine (T : Theory) (selection : Selection) : Option Catalogs := do
  let rules ← tabulate T modusPonens
  let conjunctions ← mineConjunctions T
  let closure ← mineClosure T selection ⟨rules⟩ conjunctions
  let equivalence ← mineEquivalence T selection
  return ⟨T.signature, closure, equivalence⟩

/-- A symbol with a name can be logged. -/
theorem log_eq {sig : Signature} {s : Option Symbol} (h : ∀ u, s = some u → (sig.name? u).isSome) :
    log sig s = some () := by
  cases s with
  | none => rfl
  | some s =>
    obtain ⟨name, hname⟩ := Option.isSome_iff_exists.mp (h s rfl)
    rw [log, hname, Option.map_some]

variable {T : Theory}

/-- If all found symbols have names, then tabulating them breaks off nowhere and files what is
found. -/
theorem tabulate_eq {rule : Assertion → Option (Option Symbol)} {found : Assertion → Option Symbol}
    (hrule : ∀ a, rule a = some (found a))
    (hname : ∀ a ∈ T.assertions.values, ∀ s, found a = some s → (T.signature.name? s).isSome) :
    tabulate T rule =
      some (.ofList (T.assertions.values.filterMap fun a => (found a).map fun s => (s, a))) := by
  have hfound : ∀ a ∈ T.assertions.values, (do
      let s ← rule a
      log T.signature s
      return s.map fun s => (s, a)) = some ((found a).map fun s => (s, a)) := by
    intro a ha
    rw [hrule, Option.bind_eq_bind, Option.bind_some, log_eq (hname a ha)]
    rfl
  rw [tabulate, List.mapM_eq_pure_map hfound, pure_bind, List.filterMap_map]
  rfl

/-- The same, for a search that says why nothing is found. -/
theorem tabulate_toOption_eq {rule : Assertion → Option (Except Skip Symbol)}
    {found : Assertion → Except Skip Symbol} (hrule : ∀ a, rule a = some (found a))
    (hname : ∀ a ∈ T.assertions.values, ∀ s, found a = .ok s → (T.signature.name? s).isSome) :
    tabulate T (fun a => (rule a).map (·.toOption)) = some (.ofList
      (T.assertions.values.filterMap fun a => (found a).toOption.map fun s => (s, a))) := by
  refine tabulate_eq (fun a => ?_) fun a ha s hs => ?_
  · rw [hrule, Option.map_some]
  · exact hname a ha s (Except.toOption_eq_some_iff.mp hs)

/-- Mining the conjunctions logs only symbols with names. -/
theorem mineConjunctions_eq (hT : T.Lawful) : mineConjunctions T = some (.ofTheory T) := by
  have hlog : ∀ a ∈ T.assertions.values, (do
      log T.signature a.introduces?
      log T.signature (a.eliminates?.map (·.1))) = some () := by
    intro a ha
    rw [log_eq fun s => hT.isSome_name?_of_introduces ha,
      log_eq fun s => hT.isSome_name?_of_eliminates ha]
    rfl
  rw [mineConjunctions, List.mapM_eq_pure_map hlog]
  rfl

/-- Reading by position recognises what is recognised without it. -/
theorem recognise_eq (c : ClosureCatalog) (kind : ClosureKind) (a : Assertion) :
    (recognise c kind a).run = some (c.recognise kind a) := by
  cases kind with
  | pure => exact answers_ofPure a
  | implication => exact answers_ofImplication _ _ a

/-- An offered rule is filed and logged, since its schema is written with names. -/
theorem addRule_eq (hT : T.Lawful) (kind : ClosureKind) (c : ClosureCatalog) {a : Assertion}
    (ha : a ∈ T.assertions.values) : addRule T.signature kind c a = some (c.add kind a).2 := by
  rw [addRule, recognise_eq, Option.bind_eq_bind, Option.bind_some, ClosureCatalog.add]
  cases hr : c.recognise kind a with
  | error e => rfl
  | ok r =>
    by_cases htaken : (c.rulesOf r.kind).contains r.schema
    · rw [ClosureCatalog.register, if_pos htaken]
      rfl
    · rw [ClosureCatalog.register, if_neg htaken]
      have hnamed := hT.namedIn_of_recognise ha hr
      obtain ⟨text, htext, -⟩ := hT.signature.read_write hnamed.template
      have hlog : log T.signature (some r.schema.symbol) = some () :=
        log_eq fun u hu => Option.some.inj hu ▸ hnamed.symbol
      simp only [hlog, htext]
      rfl

/-- Mining the closure rules breaks off nowhere and gives the closure catalog. -/
theorem mineClosure_eq (hT : T.Lawful) (selection : Selection) (d : Detachments)
    (j : Conjunctions) : mineClosure T selection d j = some (.ofTheory T selection d j) := by
  have hfold : ∀ (kind : ClosureKind) (as : List Assertion), (∀ a ∈ as, a ∈ T.assertions.values) →
      ∀ c, as.foldlM (addRule T.signature kind) c = some (c.addAll kind as) := by
    intro kind as
    induction as with
    | nil => exact fun _ _ => rfl
    | cons a as ih =>
      intro has c
      obtain ⟨ha, has⟩ := List.forall_mem_cons.mp has
      rw [List.foldlM_cons, addRule_eq hT kind c ha, Option.bind_eq_bind, Option.bind_some, ih has]
      rfl
  have hall := fun kind => hfold kind T.assertions.values fun _ ha => ha
  rw [mineClosure, ClosureCatalog.ofTheory]
  cases selection.pureClosure <;> cases selection.implicationClosure <;> simp [hall]

/-- A relation is between terms whose type has a name. -/
theorem operandType_eq (hT : T.Lawful) {s : Symbol} {e : EquivalenceLemmas}
    (he : e.commutativity ∈ T.assertions.values) (hs : e.commutativity.commutes = .ok s) :
    ∃ t name, operandType T.signature s e = some (some t) ∧
      EquivalenceCatalog.operandType? T.signature e = some t ∧
      T.signature.typeName? t = some name := by
  obtain ⟨-, x, y, -, -, heq⟩ := Assertion.commutes_eq_ok_iff.mp hs
  have hvar : (T.signature.declared? (.var y)).isSome := by
    have hconcl := hT.declares_conclusion he
    rw [heq] at hconcl
    exact hconcl.arg List.mem_cons_self _ (Term.head_mem_symbols _)
  obtain ⟨t, name, ht, hname⟩ := hT.typed.exists_typeName? hvar
  have hlog : log T.signature (some s) = some () :=
    log_eq fun u hu => Option.some.inj hu ▸ hT.isSome_name?_of_commutes he hs
  have hargs : e.commutativity.conclusion.args = [.leaf (.var y), .leaf (.var x)] := by
    rw [heq]
    rfl
  have htype : T.signature.termType? (.leaf (.var y)) = some t := ht
  refine ⟨t, name, ?_, ?_, hname⟩
  · simp [operandType, hargs, htype, hlog, hname]
  · simp [EquivalenceCatalog.operandType?, hargs, htype]

/-- The lemmas of a relation are assertions of the theory. -/
theorem mem_relationsOf {as : List Assertion} {s : Symbol} {e : EquivalenceLemmas}
    (h : (s, e) ∈ (EquivalenceCatalog.relationsOf as).toList) :
    e.commutativity ∈ as ∧ e.commutativity.commutes = .ok s := by
  have hvalid : (EquivalenceCatalog.relationsOf as).Valid := (Registry.ofList_spec _).1
  rw [← hvalid.get?_eq_some_iff, EquivalenceCatalog.get?_relationsOf] at h
  obtain ⟨a, ha, h⟩ := Option.bind_eq_some_iff.mp h
  obtain ⟨b, -, rfl⟩ := Option.map_eq_some_iff.mp h
  have hcommutes : a.commutes.toOption = some s := by simpa using List.find?_some ha
  exact ⟨List.mem_of_find?_eq_some ha, Except.toOption_eq_some_iff.mp hcommutes⟩

/-- Mining the equivalences breaks off nowhere and gives their catalog. -/
theorem mineEquivalence_eq (hT : T.Lawful) (selection : Selection) :
    mineEquivalence T selection = some (.ofTheory T selection) := by
  rw [mineEquivalence, EquivalenceCatalog.ofTheory]
  split
  · rw [tabulate_toOption_eq commutes_eq fun a ha s => hT.isSome_name?_of_commutes ha,
      tabulate_toOption_eq chains_eq fun a ha s => hT.isSome_name?_of_chains ha]
    have htypes : ∀ p ∈ (EquivalenceCatalog.relationsOf T.assertions.values).toList, (do
        let t ← operandType T.signature p.1 p.2
        return t.map fun t => (t, p.1)) =
          some ((EquivalenceCatalog.operandType? T.signature p.2).map fun t => (t, p.1)) := by
      intro p hp
      obtain ⟨he, hs⟩ := mem_relationsOf hp
      obtain ⟨t, name, htype, htype?, -⟩ := operandType_eq hT he hs
      rw [htype, htype?]
      rfl
    change List.mapM (m := Option) _
      (EquivalenceCatalog.relationsOf T.assertions.values).toList >>= _ = _
    rw [List.mapM_eq_pure_map htypes, pure_bind, List.filterMap_map]
    rfl
  · rfl

/-- Mining does not break off, and makes the catalogs of the theory. -/
theorem mine_eq (hT : T.Lawful) (selection : Selection) :
    mine T selection = some (.ofTheory T selection) := by
  rw [mine, tabulate_eq modusPonens_eq fun a ha s => hT.isSome_name?_of_modusPonens ha,
    mineConjunctions_eq hT, mineEquivalence_eq hT]
  simp only [Option.bind_eq_bind, Option.bind_some, mineClosure_eq hT]
  rfl

end ByPosition

end Lemmata
