import Lemmata.Proofs.Closure.History
import Lemmata.Proofs.Term.Order
import Std.Data.TreeMap.Lemmas

/-!
# The index of a closure catalog

To look for the schemas of a symbol a catalog goes through all schemas of a kind. A catalog that is
searched often keeps an index instead: for each symbol the schemas about it, with a new one put at the
end of its list whenever a rule is filed. The index is never looked at when a rule is filed, so it is
upkeep alone that makes it right.

`Mirrors` says that an indexed catalog and a plain one hold the same rules and that the index lists
what going through all schemas finds. Every offer is answered alike by both and leaves them mirrored
(`Mirrors.add`), so after any history the searches agree (`generalize_indexed`).
-/

namespace Lemmata

open Std (TreeMap)

/-! ## Rules with an index -/

/-- The rules of one kind, and for each symbol the schemas about it in order of registration. -/
structure IndexedRules where
  rules : Registry Schema Assertion := .empty
  bySymbol : TreeMap Symbol (Array Schema) := {}

namespace IndexedRules

/-- The schemas about a symbol: none, if the index has no list for it. -/
def schemasFor (x : IndexedRules) (f : Symbol) : List Schema :=
  (x.bySymbol.getD f #[]).toList

/-- Files an assertion under a schema and puts the schema at the end of the list of its symbol. If the
schema is taken nothing changes, and the answer says so. -/
def insert (x : IndexedRules) (s : Schema) (a : Assertion) : Bool × IndexedRules :=
  if x.rules.contains s then (false, x)
  else (true, {
    rules := x.rules.push s a
    bySymbol := x.bySymbol.alter s.symbol fun schemas => some ((schemas.getD #[]).push s) })

/-- The index lists what going through all schemas finds. -/
def Agrees (x : IndexedRules) : Prop :=
  ∀ f, x.schemasFor f = x.rules.keys.filter fun s => s.symbol = f

theorem agrees_empty : Agrees {} := by
  intro f
  rw [schemasFor, TreeMap.getD_emptyc]
  rfl

/-- One schema more is found at the end of the list of its symbol and in no other list. -/
theorem schemasFor_insert {x : IndexedRules} {s : Schema} (hs : x.rules.contains s = false)
    (a : Assertion) (f : Symbol) :
    (x.insert s a).2.schemasFor f = x.schemasFor f ++ if s.symbol = f then [s] else [] := by
  rw [insert, hs, schemasFor, schemasFor]
  simp only [Bool.false_eq_true, if_false, TreeMap.getD_alter, Std.LawfulEqOrd.compare_eq_iff_eq]
  split
  next hf =>
    rw [← hf, TreeMap.getD_eq_getD_getElem?, Option.getD_some, Array.toList_push]
  · rw [List.append_nil]

/-- Filing a rule keeps the index in agreement. -/
theorem Agrees.insert {x : IndexedRules} (hx : x.Agrees) (s : Schema) (a : Assertion) :
    (x.insert s a).2.Agrees := by
  cases hs : x.rules.contains s with
  | true =>
    rw [IndexedRules.insert, hs]
    exact hx
  | false =>
    intro f
    have hrules : (x.insert s a).2.rules = x.rules.push s a := by
      rw [IndexedRules.insert, hs]
      rfl
    rw [schemasFor_insert hs, hx f, hrules, Registry.keys_push, List.filter_append,
      List.filter_singleton, Bool.cond_decide]

end IndexedRules

/-! ## The catalog -/

/-- A closure catalog with an index for each kind. -/
structure IndexedCatalog where
  detachments : Detachments
  conjunctions : Conjunctions
  pureRules : IndexedRules := {}
  implicationRules : IndexedRules := {}

namespace IndexedCatalog

open ClosureCatalog (Offer offersOf unfilled)

def rulesOf (x : IndexedCatalog) : ClosureKind → IndexedRules
  | .pure => x.pureRules
  | .implication => x.implicationRules

/-- The catalog with other rules of a kind. -/
def withRules (x : IndexedCatalog) (rules : IndexedRules) : ClosureKind → IndexedCatalog
  | .pure => { x with pureRules := rules }
  | .implication => { x with implicationRules := rules }

/-- Other rules of a kind do not touch those of the other kind. -/
theorem rulesOf_withRules (x : IndexedCatalog) (rules : IndexedRules) (kind kind' : ClosureKind) :
    (x.withRules rules kind').rulesOf kind = if kind = kind' then rules else x.rulesOf kind := by
  cases kind <;> cases kind' <;> rfl

/-- Files what was recognised, unless its schema is taken. -/
def register (x : IndexedCatalog) :
    Except Skip ClosureRule → Except Skip ClosureRule × IndexedCatalog
  | .error e => (.error e, x)
  | .ok r =>
    match (x.rulesOf r.kind).insert r.schema r.assertion with
    | (true, rules) => (.ok r, x.withRules rules r.kind)
    | (false, _) => (.error .duplicate, x)

/-- Files an assertion if it is a new rule of a kind. -/
def add (x : IndexedCatalog) (o : Offer) : Except Skip ClosureRule × IndexedCatalog :=
  x.register ((unfilled x.detachments x.conjunctions).recognise o.kind o.assertion)

/-- The catalog after the offers, one after the other. -/
def offered (x : IndexedCatalog) (offers : List Offer) : IndexedCatalog :=
  offers.foldl (fun x o => (x.add o).2) x

/-- The schemas about applications of a symbol, from the index. -/
def schemasFor (x : IndexedCatalog) (kind : ClosureKind) (f : Symbol) : List Schema :=
  (x.rulesOf kind).schemasFor f

/-- A schema with this template that the term fits, found in the lists of its root. -/
def generalize (x : IndexedCatalog) (t : Term) (p : Template) : Option Schema :=
  (x.schemasFor .pure t.head ++ x.schemasFor .implication t.head).find? fun s =>
    s.template = p && s.slots.fits t.args

/-- The two catalogs hold the same rules, and the index of the first is right. -/
structure Mirrors (x : IndexedCatalog) (c : ClosureCatalog) : Prop where
  detachments : x.detachments = c.detachments
  conjunctions : x.conjunctions = c.conjunctions
  rules : ∀ kind, (x.rulesOf kind).rules = c.rulesOf kind
  agrees : ∀ kind, (x.rulesOf kind).Agrees

namespace Mirrors

variable {x : IndexedCatalog} {c : ClosureCatalog}

theorem unfilled (d : Detachments) (j : Conjunctions) :
    Mirrors ⟨d, j, {}, {}⟩ (unfilled d j) where
  detachments := rfl
  conjunctions := rfl
  rules kind := by cases kind <;> rfl
  agrees kind := by cases kind <;> exact IndexedRules.agrees_empty

/-- Both catalogs recognise the same rules, since they have the same connectives. -/
theorem recognise_eq (h : x.Mirrors c) :
    (ClosureCatalog.unfilled x.detachments x.conjunctions).recognise = c.recognise := by
  funext kind a
  cases kind with
  | pure => rfl
  | implication =>
    rw [ClosureCatalog.recognise, ClosureCatalog.recognise, ← h.detachments, ← h.conjunctions]
    rfl

/-- What is filed in both leaves them mirrored. -/
theorem file (h : x.Mirrors c) {r : ClosureRule} (hnew : (c.rulesOf r.kind).contains r.schema = false) :
    (x.withRules ((x.rulesOf r.kind).insert r.schema r.assertion).2 r.kind).Mirrors (c.file r) := by
  let x' := x.withRules ((x.rulesOf r.kind).insert r.schema r.assertion).2 r.kind
  have hrules : ((x.rulesOf r.kind).insert r.schema r.assertion).2.rules =
      (c.rulesOf r.kind).push r.schema r.assertion := by
    rw [IndexedRules.insert, h.rules, hnew]
    rfl
  have hconnectives : x'.detachments = (c.file r).detachments ∧
      x'.conjunctions = (c.file r).conjunctions := by
    obtain ⟨kind, s, a⟩ := r
    cases kind <;> exact ⟨h.detachments, h.conjunctions⟩
  refine ⟨hconnectives.1, hconnectives.2, fun kind => ?_, fun kind => ?_⟩
  · rw [rulesOf_withRules, ClosureCatalog.rulesOf_file]
    split
    next hkind => rw [hrules, hkind]
    next => exact h.rules kind
  · rw [rulesOf_withRules]
    split
    · exact (h.agrees r.kind).insert r.schema r.assertion
    · exact h.agrees kind

/-- An offer is answered alike by both catalogs, whether it is filed, not recognised or a duplicate,
and leaves them mirrored. -/
theorem add (h : x.Mirrors c) (o : Offer) :
    (x.add o).1 = (c.add o.kind o.assertion).1 ∧
      (x.add o).2.Mirrors (c.add o.kind o.assertion).2 := by
  rw [IndexedCatalog.add, ClosureCatalog.add, h.recognise_eq]
  cases c.recognise o.kind o.assertion with
  | error e => exact ⟨rfl, h⟩
  | ok r =>
    rw [register, ClosureCatalog.register]
    cases hs : (c.rulesOf r.kind).contains r.schema with
    -- A duplicate leaves both as they are, and the index is not touched.
    | true =>
      rw [IndexedRules.insert, h.rules, hs]
      exact ⟨rfl, h⟩
    | false =>
      have hfile := h.file hs
      rw [IndexedRules.insert, h.rules, hs] at hfile ⊢
      exact ⟨rfl, hfile⟩

/-- After any offers, one after the other, the catalogs are mirrored. -/
theorem offered (h : x.Mirrors c) (offers : List Offer) :
    (x.offered offers).Mirrors (c.offered offers) := by
  induction offers generalizing x c with
  | nil => exact h
  | cons o offers ih => exact ih (h.add o).2

/-- The index gives the list that going through all schemas gives. -/
theorem schemasFor_eq (h : x.Mirrors c) (kind : ClosureKind) (f : Symbol) :
    x.schemasFor kind f = c.schemasFor kind f := by
  rw [schemasFor, h.agrees kind f, h.rules, ClosureCatalog.schemasFor]

end Mirrors

/-- The catalog of a theory: all assertions are offered as pure rules and then as implication rules,
as far as these are selected. -/
def ofTheory (T : Theory) (selection : Selection) (d : Detachments) (j : Conjunctions) :
    IndexedCatalog :=
  (IndexedCatalog.mk d j {} {}).offered (offersOf T selection)

/-- The indexed catalog of a theory, with any offers after it, answers searches like the plain one:
its index lists the schemas of a symbol as going through all schemas does, in the same order, and a
term is generalised to the same schema. -/
theorem generalize_indexed (T : Theory) (selection : Selection) (d : Detachments) (j : Conjunctions)
    (calls : List Offer) :
    let x := (ofTheory T selection d j).offered calls
    let c := (ClosureCatalog.ofTheory T selection d j).offered calls
    (∀ kind f, x.schemasFor kind f = c.schemasFor kind f) ∧
      (∀ kind, (x.rulesOf kind).rules = c.rulesOf kind) ∧
      ∀ t p, x.generalize t p = c.generalize t p := by
  intro x c
  have hmirrors : x.Mirrors c := by
    have htheory := (Mirrors.unfilled d j).offered (offersOf T selection)
    rw [← ClosureCatalog.ofTheory_eq_offered] at htheory
    exact htheory.offered calls
  refine ⟨hmirrors.schemasFor_eq, hmirrors.rules, fun t p => ?_⟩
  rw [generalize, ClosureCatalog.generalize, hmirrors.schemasFor_eq, hmirrors.schemasFor_eq]

end IndexedCatalog

end Lemmata
