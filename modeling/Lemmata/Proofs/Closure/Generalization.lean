import Lemmata.Proofs.Closure.History

/-!
# The schema that a term is generalised to

A term is generalised, for a template, to a schema that it fits. Several may be filed: rules about
one symbol may fix different arguments, and the same schema may be stated in both forms. The search
looks at the schemas of the term's symbol only, and its answer is fixed by the history of the
catalog (`generalize_finds_first`). It answers exactly if some filed schema suits the term. It
prefers pure rules, whenever they were offered, and among the rules of one kind the one that was
offered first.

The order of the search is that of the offers, since a registry lists its schemas in the order in
which they were first offered (`pairwise_keys_rulesOf`). In a list that is ordered like this, the
first hit is the least one (`List.find?_eq_some_iff_least`).
-/

namespace Lemmata

namespace Slots

/-- The open places are the positions of the slots that fix nothing. -/
theorem mem_openPlaces_iff {slots : Slots} {i : Nat} :
    i ∈ slots.openPlaces ↔ slots[i]? = some none := by
  simp only [openPlaces, List.mem_filter, List.mem_range, decide_eq_true_eq, and_iff_right_iff_imp]
  intro h
  exact (List.getElem?_eq_some_iff.mp h).1

/-- Open places are listed from left to right. -/
theorem pairwise_openPlaces (slots : Slots) : slots.openPlaces.Pairwise (· < ·) :=
  List.pairwise_lt_range.filter _

end Slots

namespace ClosureCatalog

/-- The schema is filed as a rule of the kind, has the template, and is about terms like this one. -/
structure Suits (c : ClosureCatalog) (t : Term) (p : Template) (kind : ClosureKind) (s : Schema) :
    Prop where
  filed : (c.assertion? kind s).isSome
  symbol : s.symbol = t.head
  template : s.template = p
  slots : s.slots.fits t.args

/-- A term fits every schema that suits it. -/
theorem Suits.fits {c : ClosureCatalog} {t : Term} {p : Template} {kind : ClosureKind} {s : Schema}
    (h : c.Suits t p kind s) : s.fits t := by
  rw [Schema.fits, Bool.and_eq_true, decide_eq_true_eq]
  exact ⟨h.symbol.symm, h.slots⟩

section Search

variable (d : Detachments) (j : Conjunctions)

/-- The number of the first offer of the kind that was recognised with the schema. -/
def offeredAt (history : List Offer) (kind : ClosureKind) (s : Schema) : Nat :=
  history.findIdx fun o => o.schemaAs? (unfilled d j) kind == some s

/-- Of the schemas of the kind that suit the term, this was offered first. -/
structure FirstSuited (history : List Offer) (c : ClosureCatalog) (t : Term) (p : Template)
    (kind : ClosureKind) (s : Schema) : Prop where
  suits : c.Suits t p kind s
  first : ∀ s', c.Suits t p kind s' → offeredAt d j history kind s ≤ offeredAt d j history kind s'

/-- What the search in a catalog with this history answers. -/
structure FindsFirst (history : List Offer) (c : ClosureCatalog) : Prop where
  /-- There is an answer exactly if a schema of either kind suits the term. -/
  answers_iff : ∀ t p, (c.generalize t p).isSome ↔ ∃ kind s, c.Suits t p kind s
  /-- The answer is the pure schema that was offered first or, if no pure one suits the term, the
  first of the others. -/
  eq_some_iff : ∀ t p s, c.generalize t p = some s ↔
    FirstSuited d j history c t p .pure s ∨
      (∀ s', ¬ c.Suits t p .pure s') ∧ FirstSuited d j history c t p .implication s
  /-- The term fits the answer, and some rule states it. -/
  fits_and_states : ∀ t p s, c.generalize t p = some s → s.fits t ∧ c.states s
  /-- The open places of the answer are the slots that fix nothing, in increasing order. -/
  openPlaces : ∀ t p s, c.generalize t p = some s →
    s.openPlaces.Pairwise (· < ·) ∧ ∀ i, i ∈ s.openPlaces ↔ s.slots[i]? = some none

variable {d j} {history : List Offer} {kind : ClosureKind} {t : Term} {p : Template} {s : Schema}

/-- Among the schemas of its symbol, the search meets those that suit the term. -/
theorem suits_iff_mem_schemasFor :
    ((unfilled d j).offered history).Suits t p kind s ↔
      s ∈ ((unfilled d j).offered history).schemasFor kind t.head ∧
        (s.template = p && s.slots.fits t.args) = true := by
  rw [schemasFor, List.mem_filter, ← isSome_assertion?_iff, Bool.and_eq_true, decide_eq_true_eq,
    decide_eq_true_eq]
  constructor
  · intro h
    exact ⟨⟨h.filed, h.symbol⟩, h.template, h.slots⟩
  · intro h
    obtain ⟨⟨hfiled, hsymbol⟩, htemplate, hslots⟩ := h
    exact ⟨hfiled, hsymbol, htemplate, hslots⟩

/-- Within one kind, the search finds what was offered first. -/
theorem find?_schemasFor_eq_some_iff :
    (((unfilled d j).offered history).schemasFor kind t.head).find?
        (fun s => s.template = p && s.slots.fits t.args) = some s ↔
      FirstSuited d j history ((unfilled d j).offered history) t p kind s := by
  have hordered : (((unfilled d j).offered history).schemasFor kind t.head).Pairwise fun s s' =>
      offeredAt d j history kind s < offeredAt d j history kind s' :=
    (pairwise_keys_rulesOf history kind).filter _
  rw [List.find?_eq_some_iff_least hordered, ← and_assoc, ← suits_iff_mem_schemasFor]
  constructor
  · intro ⟨hsuits, hfirst⟩
    refine ⟨hsuits, fun s' hs' => ?_⟩
    obtain ⟨hmem, hq⟩ := suits_iff_mem_schemasFor.mp hs'
    exact hfirst s' hmem hq
  · intro ⟨hsuits, hfirst⟩
    exact ⟨hsuits, fun s' hmem hq => hfirst s' (suits_iff_mem_schemasFor.mpr ⟨hmem, hq⟩)⟩

/-- Within one kind, the search fails exactly if no schema of the kind suits the term. -/
theorem find?_schemasFor_eq_none_iff :
    (((unfilled d j).offered history).schemasFor kind t.head).find?
        (fun s => s.template = p && s.slots.fits t.args) = none ↔
      ∀ s, ¬ ((unfilled d j).offered history).Suits t p kind s := by
  simp only [List.find?_eq_none, suits_iff_mem_schemasFor, not_and]

/-- Pure rules are looked at first. -/
theorem generalize_eq_some_iff :
    ((unfilled d j).offered history).generalize t p = some s ↔
      FirstSuited d j history ((unfilled d j).offered history) t p .pure s ∨
        (∀ s', ¬ ((unfilled d j).offered history).Suits t p .pure s') ∧
          FirstSuited d j history ((unfilled d j).offered history) t p .implication s := by
  rw [generalize, List.find?_append, Option.or_eq_some_iff, find?_schemasFor_eq_some_iff,
    find?_schemasFor_eq_none_iff, find?_schemasFor_eq_some_iff]

/-- The search fails exactly if no schema of either kind suits the term. -/
theorem generalize_eq_none_iff :
    ((unfilled d j).offered history).generalize t p = none ↔
      ∀ kind s, ¬ ((unfilled d j).offered history).Suits t p kind s := by
  rw [generalize, List.find?_append, Option.or_eq_none_iff, find?_schemasFor_eq_none_iff,
    find?_schemasFor_eq_none_iff]
  constructor
  · intro ⟨hpure, himplication⟩ kind
    cases kind with
    | pure => exact hpure
    | implication => exact himplication
  · intro h
    exact ⟨h .pure, h .implication⟩

/-- In the catalog of a theory, with any offers after it, a term is generalised to the schema that
was offered first among those that suit it, pure ones before the others. If there is no such schema
there is no answer. The term fits the answer, some rule states it, and its open places are the slots
that fix nothing. -/
theorem generalize_finds_first (T : Theory) (selection : Selection) (d : Detachments)
    (j : Conjunctions) (calls : List Offer) :
    FindsFirst d j (offersOf T selection ++ calls) ((ofTheory T selection d j).offered calls) := by
  rw [ofTheory_eq_offered, ← offered_append]
  generalize offersOf T selection ++ calls = history
  refine ⟨fun t p => ?_, fun t p s => generalize_eq_some_iff, fun t p s hs => ?_, fun t p s _ => ?_⟩
  · rw [← not_iff_not, Bool.not_eq_true, Option.isSome_eq_false_iff, Option.isNone_iff_eq_none,
      generalize_eq_none_iff]
    simp only [not_exists]
  · have hsuits : ∃ kind, ((unfilled d j).offered history).Suits t p kind s := by
      rcases generalize_eq_some_iff.mp hs with hfirst | ⟨_, hfirst⟩
      · exact ⟨.pure, hfirst.suits⟩
      · exact ⟨.implication, hfirst.suits⟩
    obtain ⟨kind, hsuits⟩ := hsuits
    refine ⟨hsuits.fits, ?_⟩
    exact (states_iff_of_valid (valid_rulesOf_offered d j history)).mpr ⟨kind, hsuits.filed⟩
  · exact ⟨s.slots.pairwise_openPlaces, fun i => Slots.mem_openPlaces_iff⟩

end Search

end ClosureCatalog

end Lemmata
