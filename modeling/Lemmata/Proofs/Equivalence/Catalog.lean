import Lemmata.Equivalence.Catalog
import Lemmata.Proofs.Registry
import Lemmata.Proofs.Term.Basic
import Lemmata.Proofs.Term.Order

/-!
# The lemmas of equivalences

A lemma that turns a relation around, or chains it, has no other form than the one that is meant:
`commutes_eq_ok_iff` and `chains_eq_ok_iff` say so for single assertions. The catalog of a theory
files each relation with the first lemma of either form (`get?_relationsOf`), so that whatever it
yields for a relation is a lemma about this relation (`Lawful`).
-/

namespace Lemmata

/-! ## The shape of the lemmas -/

/-- A term is found to be between variables if it is an operator applied to two different ones. -/
theorem Term.betweenVars?_eq_some_iff {t : Term} {s : Symbol} {x y : Serial} :
    t.betweenVars? = some (s, x, y) ↔
      (∃ f, s = .op f) ∧ x ≠ y ∧ t = .binary s (.leaf (.var x)) (.leaf (.var y)) := by
  constructor
  · intro h
    unfold betweenVars? at h
    split at h
    next f l r =>
      obtain ⟨a, ha, h⟩ := Option.bind_eq_some_iff.mp h
      obtain ⟨b, hb, h⟩ := Option.bind_eq_some_iff.mp h
      split at h
      next hne =>
        cases h
        rw [bareVar?_eq_some_iff] at ha hb
        exact ⟨⟨f, rfl⟩, hne, by rw [ha, hb]; rfl⟩
      · cases h
    · cases h
  · rintro ⟨⟨f, rfl⟩, hne, rfl⟩
    have hbare : ∀ v, (Term.leaf (.var v)).bareVar? = some v := fun v =>
      bareVar?_eq_some_iff.mpr rfl
    simp [Term.binary, betweenVars?, hbare, hne]

namespace Assertion

/-- An assertion turns a relation around exactly if it is `x = y ⊢ y = x`. -/
theorem commutes_eq_ok_iff {a : Assertion} {r : Symbol} :
    a.commutes = .ok r ↔
      (∃ f, r = .op f) ∧ ∃ x y : Serial, x ≠ y ∧
        a.hypotheses = [.binary r (.leaf (.var x)) (.leaf (.var y))] ∧
        a.conclusion = .binary r (.leaf (.var y)) (.leaf (.var x)) := by
  constructor
  · intro h
    unfold commutes at h
    split at h
    next r' x y s hhyps hconcl =>
      split at h
      next hs =>
        cases h
        obtain ⟨t, ht, hbetween⟩ := List.map_eq_singleton_iff.mp hhyps
        obtain ⟨hop, hne, rfl⟩ := Term.betweenVars?_eq_some_iff.mp hbetween
        rw [hs, Term.betweenVars?_eq_some_iff] at hconcl
        exact ⟨hop, x, y, hne, ht, hconcl.2.2⟩
      · cases h
    · cases h
  · rintro ⟨hop, x, y, hne, hhyps, hconcl⟩
    have hhyp := Term.betweenVars?_eq_some_iff.mpr ⟨hop, hne, rfl⟩
    have hturned := Term.betweenVars?_eq_some_iff.mpr ⟨hop, hne.symm, rfl⟩
    simp [commutes, hhyps, hconcl, hhyp, hturned]

/-- An assertion chains a relation exactly if it is `x = y, y = z ⊢ x = z`. -/
theorem chains_eq_ok_iff {a : Assertion} {r : Symbol} :
    a.chains = .ok r ↔
      (∃ f, r = .op f) ∧ ∃ x y z : Serial, [x, y, z].Nodup ∧
        a.hypotheses = [.binary r (.leaf (.var x)) (.leaf (.var y)),
          .binary r (.leaf (.var y)) (.leaf (.var z))] ∧
        a.conclusion = .binary r (.leaf (.var x)) (.leaf (.var z)) := by
  constructor
  · intro h
    unfold chains at h
    split at h
    next r' x y s y' z t hhyps hconcl =>
      split at h
      next hrel =>
        cases h
        obtain ⟨rfl, rfl, rfl⟩ := hrel
        obtain ⟨t₁, rest, hts, h₁, hrest⟩ := List.map_eq_cons_iff.mp hhyps
        obtain ⟨t₂, rfl, h₂⟩ := List.map_eq_singleton_iff.mp hrest
        obtain ⟨hop, hxy, rfl⟩ := Term.betweenVars?_eq_some_iff.mp h₁
        obtain ⟨-, hyz, rfl⟩ := Term.betweenVars?_eq_some_iff.mp h₂
        obtain ⟨-, hxz, hconcl⟩ := Term.betweenVars?_eq_some_iff.mp hconcl
        exact ⟨hop, x, y', z, by simp [hxy, hyz, hxz], hts, hconcl⟩
      · cases h
    · cases h
  · rintro ⟨hop, x, y, z, hnodup, hhyps, hconcl⟩
    obtain ⟨⟨hxy, hxz⟩, hyz⟩ : (x ≠ y ∧ x ≠ z) ∧ y ≠ z := by simpa using hnodup
    have h₁ := Term.betweenVars?_eq_some_iff.mpr ⟨hop, hxy, rfl⟩
    have h₂ := Term.betweenVars?_eq_some_iff.mpr ⟨hop, hyz, rfl⟩
    have h₃ := Term.betweenVars?_eq_some_iff.mpr ⟨hop, hxz, rfl⟩
    simp [chains, hhyps, hconcl, h₁, h₂, h₃]

end Assertion

/-! ## The catalog -/

namespace EquivalenceCatalog

/-- A relation is filed with the first of its lemmas of either form. -/
theorem get?_relationsOf (as : List Assertion) (s : Symbol) :
    (relationsOf as).get? s =
      (as.find? fun a => a.commutes.toOption == some s).bind fun a =>
        (as.find? fun b => b.chains.toOption == some s).map fun b => ⟨a, b⟩ := by
  have hget := Registry.get?_ofList_firsts as (·.commutes.toOption) (fun e =>
    ((Registry.ofList (as.filterMap fun a => a.chains.toOption.map fun s => (s, a))).get? e.1).map
      fun b => EquivalenceLemmas.mk e.2 b) s
  simp only [Option.map_map, Registry.get?_ofList, List.lookup_filterMap_key] at hget
  rw [relationsOf]
  simp only [Registry.get?_ofList, List.lookup_filterMap_key]
  exact hget

/-- Every relation is filed with lemmas of its own. -/
structure Lawful (c : EquivalenceCatalog) : Prop where
  commutativity : ∀ {s a}, c.commutativity? s = some a → a.commutes = .ok s
  transitivity : ∀ {s a}, c.transitivity? s = some a → a.chains = .ok s

/-- The relations of a theory are filed with lemmas of the theory for them, in any selection. -/
theorem lawful_ofTheory (T : Theory) (selection : Selection) :
    (ofTheory T selection).Lawful := by
  have hlemmas : ∀ s e, (ofTheory T selection).relations.get? s = some e →
      e.commutativity.commutes = .ok s ∧ e.transitivity.chains = .ok s := by
    intro s e he
    unfold ofTheory at he
    split at he
    · dsimp only at he
      rw [get?_relationsOf] at he
      obtain ⟨a, ha, he⟩ := Option.bind_eq_some_iff.mp he
      obtain ⟨b, hb, rfl⟩ := Option.map_eq_some_iff.mp he
      have hcomm : a.commutes.toOption = some s := by simpa using List.find?_some ha
      have htrans : b.chains.toOption = some s := by simpa using List.find?_some hb
      rw [Except.toOption_eq_some_iff] at hcomm htrans
      exact ⟨hcomm, htrans⟩
    · cases he
  constructor
  · intro s a ha
    obtain ⟨e, he, rfl⟩ := Option.map_eq_some_iff.mp ha
    exact (hlemmas s e he).1
  · intro s a ha
    obtain ⟨e, he, rfl⟩ := Option.map_eq_some_iff.mp ha
    exact (hlemmas s e he).2

end EquivalenceCatalog

end Lemmata
