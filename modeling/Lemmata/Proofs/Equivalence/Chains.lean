import Lemmata.Proofs.Equivalence.Algebra
import Lemmata.Proofs.Equivalence.Relations
import Lemmata.Proofs.Worksheet.Additions

/-!
# Chains of equivalences

Turning a step around and chaining steps are operations on steps, not on formulas: what they yield
is a place on a worksheet, and the worksheet grows under them. Still the laws of an equivalence hold
of the places themselves, if all is done on one worksheet. The reason is that a formula has one step
only (`Valid.eq_of_formula?`), so two derivations that lead to the same formula yield the same step,
whichever of them comes first (`Completes.agree`).

What is left is to follow the formulas. `Completes n w m Q` says that a derivation goes through, and
counts the steps that it makes at most. A chain of steps then folds to the step between its ends,
and it does not matter where it is bracketed (`foldChain_splits`). Turning around twice leads back
to the step itself, and a chain turned around is the chain of its links turned around, in the other
order (`reverse_involutive_and_reverses_chains`).
-/

namespace Lemmata

open Lemmata.Worksheet

/-! ## Derivations that go through -/

namespace Derivation

variable {α β : Type}

/-- From `w` the derivation goes through and makes at most `n` steps, which rest on earlier ones,
and what it yields satisfies `Q` on the worksheet it leaves. -/
def Completes (n : Nat) (w : Worksheet) (m : Derivation α) (Q : α → Worksheet → Prop) : Prop :=
  ∃ a w', m w = (.ok a, w') ∧ w.Extends Grounded w' ∧ w'.size ≤ w.size + n ∧ Q a w'

namespace Completes

variable {n k : Nat} {w : Worksheet} {m : Derivation α} {Q : α → Worksheet → Prop}

theorem pure {a : α} (hQ : Q a w) : Completes 0 w (Pure.pure a) Q :=
  ⟨a, w, rfl, .refl, Nat.le_refl _, hQ⟩

/-- What completes goes through. -/
theorem returns (h : Completes n w m Q) : m.Returns w := by
  obtain ⟨a, w', hrun, -⟩ := h
  exact ⟨a, by rw [hrun]⟩

/-- The steps of a sequence are at most those of its parts together. -/
theorem bind {R : β → Worksheet → Prop} (h : Completes n w m Q) {f : α → Derivation β}
    (hf : ∀ a w', w.Extends Grounded w' → Q a w' → Completes k w' (f a) R) :
    Completes (k + n) w (m >>= f) R := by
  obtain ⟨a, w₁, hrun, hext, hsize, hQ⟩ := h
  obtain ⟨b, w₂, hrun', hext', hsize', hR⟩ := hf a w₁ hext hQ
  refine ⟨b, w₂, ?_, hext.trans hext', by omega, hR⟩
  rw [run_bind_ok hrun, hrun']

/-- What is made of a result costs no steps. -/
theorem map {R : β → Worksheet → Prop} (h : Completes n w m Q) {f : α → β}
    (hf : ∀ a w', Q a w' → R (f a) w') : Completes n w (f <$> m) R := by
  rw [map_eq_pure_bind, ← Nat.zero_add n]
  exact h.bind fun a w' _ hQ => .pure (hf a w' hQ)

/-- A formula that is entered on steps of the worksheet takes one step at most. -/
theorem of_enter (hw : w.Valid) {f : Term} {j : Justification}
    (hj : ∀ i ∈ j.premises, i < w.size) {m : Derivation StepId}
    (hm : m w = (.ok (w.enter f j).1, (w.enter f j).2)) :
    Completes 1 w m fun i w' => w'.formula? i = some f := by
  obtain ⟨hext, hformula⟩ := enter_spec (P := Grounded) hw (f := f) (j := j) fun _ => hj
  exact ⟨_, _, hm, hext, w.size_enter_le f j, hformula⟩

/-- Two derivations that lead to the same formula, one after the other, yield the same step. -/
theorem agree (hw : w.Valid) {f : Term} {m m' : Derivation StepId}
    (h : Completes n w m fun i w' => w'.formula? i = some f)
    (h' : ∀ w', w.Extends Grounded w' → Completes k w' m' fun i u => u.formula? i = some f) :
    ∃ i w₁ w₂, m w = (.ok i, w₁) ∧ m' w₁ = (.ok i, w₂) := by
  obtain ⟨i, w₁, hrun, hext, -, hi⟩ := h
  obtain ⟨j, w₂, hrun', hext', -, hj⟩ := h' w₁ hext
  have hvalid := hext'.valid (hext.valid hw)
  obtain rfl := hvalid.eq_of_formula? (hext'.formula?_eq_some hi) hj
  exact ⟨i, w₁, w₂, hrun, hrun'⟩

end Completes

end Derivation

/-! ## Chains -/

/-- Each of the steps relates a term to the next one. -/
def Worksheet.Links (w : Worksheet) (r : Symbol) (t : Nat → Term) (steps : List StepId) : Prop :=
  ∀ k i, steps[k]? = some i → w.formula? i = some (.binary r (t k) (t (k + 1)))

namespace Worksheet.Links

variable {w w' : Worksheet} {r : Symbol} {t : Nat → Term} {i : StepId} {steps l₁ l₂ : List StepId}

/-- The first link relates the first two terms. -/
theorem head (h : w.Links r t (i :: steps)) : w.formula? i = some (.binary r (t 0) (t 1)) :=
  h 0 i rfl

/-- The links after the first one relate the terms after the first one. -/
theorem tail (h : w.Links r t (i :: steps)) : w.Links r (fun k => t (k + 1)) steps :=
  fun k j hj => h (k + 1) j hj

/-- Links stay when more steps are added. -/
theorem mono {P : Worksheet → Term → Justification → Prop} (h : w.Links r t steps)
    (hext : w.Extends P w') : w'.Links r t steps :=
  fun k j hj => hext.formula?_eq_some (h k j hj)

/-- The beginning of a chain is a chain. -/
theorem left (h : w.Links r t (l₁ ++ l₂)) : w.Links r t l₁ := by
  intro k j hj
  have hk : k < l₁.length := (List.getElem?_eq_some_iff.mp hj).1
  exact h k j (by rw [List.getElem?_append_left hk, hj])

/-- The rest of a chain is a chain that starts further on. -/
theorem right (h : w.Links r t (l₁ ++ l₂)) : w.Links r (fun k => t (l₁.length + k)) l₂ := by
  intro k j hj
  refine h (l₁.length + k) j ?_
  rw [List.getElem?_append_right (Nat.le_add_right _ _), Nat.add_sub_cancel_left, hj]

end Worksheet.Links

namespace EquivalenceCatalog

open Lemmata.Derivation

/-! ## One operation -/

section Operations

variable {c : EquivalenceCatalog} {r : Symbol} {e : EquivalenceLemmas} {w : Worksheet}
  {a b d : Term}

theorem commutativity?_of_get? (he : c.relations.get? r = some e) :
    c.commutativity? r = some e.commutativity :=
  congrArg (Option.map EquivalenceLemmas.commutativity) he

theorem transitivity?_of_get? (he : c.relations.get? r = some e) :
    c.transitivity? r = some e.transitivity :=
  congrArg (Option.map EquivalenceLemmas.transitivity) he

/-- Turning a link around completes with at most one new step. -/
theorem reverse_completes (he : c.relations.get? r = some e) (hw : w.Valid) {p : StepId}
    (hp : w.formula? p = some (.binary r a b)) :
    Completes 1 w (c.reverse p) fun i w' => w'.formula? i = some (.binary r b a) := by
  refine .of_enter hw (j := .assertion e.commutativity [p]) ?_
    (reverse_eq_ok_iff.mpr ⟨r, a, b, [], _, hp, commutativity?_of_get? he, rfl⟩)
  simpa [Justification.premises] using lt_size_of_formula? hp

/-- Joining two links completes with at most one new step. -/
theorem chain_completes (he : c.relations.get? r = some e) (hw : w.Valid) {p q : StepId}
    (hp : w.formula? p = some (.binary r a b)) (hq : w.formula? q = some (.binary r b d)) :
    Completes 1 w (c.chain (some p) q) fun i w' => w'.formula? i = some (.binary r a d) := by
  refine .of_enter hw (j := .assertion e.transitivity [p, q]) ?_
    (join_eq_ok_iff.mpr ⟨r, a, b, d, [], [], _, hp, hq, transitivity?_of_get? he, rfl⟩)
  simpa [Justification.premises] using ⟨lt_size_of_formula? hp, lt_size_of_formula? hq⟩

end Operations

/-! ## Relations of a theory -/

section OfTheory

variable {T : Theory} {selection : Selection} {s : Symbol}

/-- An equivalence is filed with both its lemmas. -/
theorem exists_lemmas_of_isEquivalence (hs : (ofTheory T selection).isEquivalence s) :
    ∃ e, (ofTheory T selection).relations.get? s = some e :=
  (valid_relations T selection).exists_of_contains hs

/-- The relation for a type is an equivalence. -/
theorem isEquivalence_of_relationFor? {t : TypeId}
    (h : (ofTheory T selection).relationFor? t = some s) :
    (ofTheory T selection).isEquivalence s := by
  cases hsel : selection.equivalence with
  | true =>
    rw [relationFor?_ofTheory hsel] at h
    have hvalid := valid_relations T selection
    exact hvalid.contains_iff.mpr (hvalid.mem_keys_iff.mp (List.mem_of_find?_eq_some h))
  | false =>
    rw [relationFor?, ofTheory, hsel] at h
    cases h

/-- What is equated is related by an equivalence, and by nothing else. -/
theorem exists_relation_of_equate {sig : Signature} {left right f : Term}
    (h : (ofTheory T selection).equate sig left right = .ok f) :
    ∃ s, (ofTheory T selection).isEquivalence s ∧ f = .binary s left right := by
  unfold equate at h
  split at h
  · cases h
  · split at h
    · cases h
    next s hs =>
      cases h
      obtain ⟨t, -, ht⟩ := Option.bind_eq_some_iff.mp hs
      exact ⟨s, isEquivalence_of_relationFor? ht, rfl⟩

end OfTheory

/-! ## Folding chains -/

/-- Chains the steps one after the other, starting without links. -/
def foldChain (c : EquivalenceCatalog) (steps : List StepId) : Derivation (Option StepId) :=
  steps.foldlM (fun last i => some <$> c.chain last i) none

section Fold

variable {c : EquivalenceCatalog} {r : Symbol} {e : EquivalenceLemmas} {w : Worksheet}
  {t : Nat → Term} {steps l₁ l₂ : List StepId}

/-- Links that follow on a step lead on from where it starts, with one step for each of them at
most. -/
theorem foldlM_chain_completes (he : c.relations.get? r = some e) (hw : w.Valid) {a : Term}
    {first : StepId} (hfirst : w.formula? first = some (.binary r a (t 0)))
    (hlinks : w.Links r t steps) :
    Completes steps.length w (steps.foldlM (fun last i => some <$> c.chain last i) (some first))
      fun last w' => ∃ i, last = some i ∧ w'.formula? i = some (.binary r a (t steps.length)) := by
  induction steps generalizing w t first with
  | nil => exact .pure ⟨first, rfl, hfirst⟩
  | cons j steps ih =>
    rw [List.foldlM_cons]
    refine ((chain_completes he hw hfirst hlinks.head).map
      (R := fun last w' => ∃ i, last = some i ∧ w'.formula? i = some (.binary r a (t 1)))
      fun i w' hi => ⟨i, rfl, hi⟩).bind ?_
    rintro _ w' hext ⟨i, rfl, hi⟩
    exact ih (hext.valid hw) hi (hlinks.tail.mono hext)

/-- A chain folds to the step between its ends. -/
theorem foldChain_completes (he : c.relations.get? r = some e) (hw : w.Valid) (hne : steps ≠ [])
    (hlinks : w.Links r t steps) :
    Completes (steps.length - 1) w (c.foldChain steps) fun last w' =>
      ∃ i, last = some i ∧ w'.formula? i = some (.binary r (t 0) (t steps.length)) := by
  obtain ⟨i, rest, rfl⟩ := List.exists_cons_of_ne_nil hne
  have hstart : c.foldChain (i :: rest) =
      rest.foldlM (fun last i => some <$> c.chain last i) (some i) := by
    rw [foldChain, List.foldlM_cons, chain, map_pure, pure_bind]
  rw [hstart]
  exact foldlM_chain_completes he hw hlinks.head hlinks.tail

/-- The folds of two parts of a chain are the links of a shorter one. -/
theorem chain_foldChain_completes (he : c.relations.get? r = some e) (hw : w.Valid)
    (hl₁ : l₁ ≠ []) (hl₂ : l₂ ≠ []) (hlinks : w.Links r t (l₁ ++ l₂)) :
    ∃ j w₁ k w₂ i w₃, c.foldChain l₁ w = (.ok (some j), w₁) ∧
      c.foldChain l₂ w₁ = (.ok (some k), w₂) ∧ c.chain (some j) k w₂ = (.ok i, w₃) ∧
      w.Extends Grounded w₃ ∧ w₃.formula? i = some (.binary r (t 0) (t (l₁ ++ l₂).length)) := by
  obtain ⟨_, w₁, hrun₁, hext₁, -, j, rfl, hj⟩ := foldChain_completes he hw hl₁ hlinks.left
  have hw₁ := hext₁.valid hw
  obtain ⟨_, w₂, hrun₂, hext₂, -, k, rfl, hk⟩ :=
    foldChain_completes he hw₁ hl₂ (hlinks.right.mono hext₁)
  obtain ⟨i, w₃, hrun₃, hext₃, -, hi⟩ :=
    chain_completes he (hext₂.valid hw₁) (hext₂.formula?_eq_some hj) hk
  rw [List.length_append]
  exact ⟨j, w₁, k, w₂, i, w₃, hrun₁, hrun₂, hrun₃, (hext₁.trans hext₂).trans hext₃, hi⟩

end Fold

/-- A chain of steps of an equivalence folds to the step between its ends, with fewer new steps than
it has links. To fold two parts of it and to chain the results yields the same step, whether this is
done after the fold of the whole or before it. -/
theorem foldChain_splits (T : Theory) (selection : Selection) {r : Symbol}
    (hr : (ofTheory T selection).isEquivalence r = true) {w : Worksheet} (hw : w.Reachable)
    {t : Nat → Term} {steps : List StepId} (hne : steps ≠ []) (hlinks : w.Links r t steps) :
    let c := ofTheory T selection
    ∃ i w', c.foldChain steps w = (.ok (some i), w') ∧
      w'.formula? i = some (.binary r (t 0) (t steps.length)) ∧
      w.steps.toList <+: w'.steps.toList ∧ w'.size ≤ w.size + (steps.length - 1) ∧
      ∀ l₁ l₂, steps = l₁ ++ l₂ → l₁ ≠ [] → l₂ ≠ [] →
        (∃ j w₁ k w₂ w₃, c.foldChain l₁ w' = (.ok (some j), w₁) ∧
          c.foldChain l₂ w₁ = (.ok (some k), w₂) ∧ c.chain (some j) k w₂ = (.ok i, w₃)) ∧
        ∃ j w₁ k w₂ m w₃ w₄, c.foldChain l₁ w = (.ok (some j), w₁) ∧
          c.foldChain l₂ w₁ = (.ok (some k), w₂) ∧ c.chain (some j) k w₂ = (.ok m, w₃) ∧
          c.foldChain steps w₃ = (.ok (some m), w₄) := by
  intro c
  obtain ⟨e, he⟩ := exists_lemmas_of_isEquivalence hr
  obtain ⟨_, w', hrun, hext, hsize, i, rfl, hi⟩ := foldChain_completes he hw.valid hne hlinks
  have hw' := hext.valid hw.valid
  refine ⟨i, w', hrun, hi, hext.prefix_steps, hsize, ?_⟩
  rintro l₁ l₂ rfl hl₁ hl₂
  constructor
  · obtain ⟨j, w₁, k, w₂, m, w₃, hrun₁, hrun₂, hrun₃, hext₃, hm⟩ :=
      chain_foldChain_completes he hw' hl₁ hl₂ (hlinks.mono hext)
    obtain rfl := (hext₃.valid hw').eq_of_formula? (hext₃.formula?_eq_some hi) hm
    exact ⟨j, w₁, k, w₂, w₃, hrun₁, hrun₂, hrun₃⟩
  · obtain ⟨j, w₁, k, w₂, m, w₃, hrun₁, hrun₂, hrun₃, hext₃, hm⟩ :=
      chain_foldChain_completes he hw.valid hl₁ hl₂ hlinks
    have hw₃ := hext₃.valid hw.valid
    obtain ⟨_, w₄, hrun₄, hext₄, -, m', rfl, hm'⟩ :=
      foldChain_completes he hw₃ hne (hlinks.mono hext₃)
    obtain rfl := (hext₄.valid hw₃).eq_of_formula? (hext₄.formula?_eq_some hm) hm'
    exact ⟨j, w₁, k, w₂, m, w₃, w₄, hrun₁, hrun₂, hrun₃, hrun₄⟩

/-- The links `e(x, y)`, `e(y, x)` and `e(x, z)` go in a circle and then on, and fold to the last
one of them. So do the first link and the fold of the others. -/
theorem foldChain_splits_circle :
    ∃ (w w' : Worksheet) (i : StepId) (x y z : Term),
      let c := ofTheory relationTheory {}
      let t : Nat → Term := fun k => [x, y, x].getD k z
      c.isEquivalence (.op 0) ∧ w.Reachable ∧ w.Links (.op 0) t [0, 1, 2] ∧
        c.foldChain [0, 1, 2] w = (.ok (some i), w') ∧
        w'.formula? i = some (.binary (.op 0) x z) ∧ w'.size ≤ w.size + 2 ∧
        ∃ j w₁ k w₂ w₃, c.foldChain [0] w' = (.ok (some j), w₁) ∧
          c.foldChain [1, 2] w₁ = (.ok (some k), w₂) ∧ c.chain (some j) k w₂ = (.ok i, w₃) := by
  let x : Term := .leaf (.var 0)
  let y : Term := .leaf (.var 1)
  let z : Term := .leaf (.var 2)
  let t : Nat → Term := fun k => [x, y, x].getD k z
  let equal (a b : Term) : Term := .binary (.op 0) a b
  let w : Worksheet := (suppose (equal x z) (supposing (equal x y) (equal y x))).2
  have hr : (ofTheory relationTheory {}).isEquivalence (.op 0) = true := by decide +kernel
  have hw : w.Reachable := .suppose _ (reachable_supposing _ _)
  have hlinks : w.Links (.op 0) t [0, 1, 2] := by
    intro k i hi
    match k with
    | 0 => cases hi; decide +kernel
    | 1 => cases hi; decide +kernel
    | 2 => cases hi; decide +kernel
    | k + 3 => cases hi
  obtain ⟨i, w', hrun, hi, -, hsize, hsplit⟩ :=
    foldChain_splits relationTheory {} hr hw (List.cons_ne_nil 0 [1, 2]) hlinks
  obtain ⟨hafter, -⟩ := hsplit [0] [1, 2] rfl (by simp) (by simp)
  exact ⟨w, w', i, x, y, z, hr, hw, hlinks, hrun, hi, hsize, hafter⟩

/-! ## Chains turned around -/

/-- The chain of two steps, turned around. -/
def reverseChain (c : EquivalenceCatalog) (p q : StepId) : Derivation StepId := do
  let i ← c.chain (some p) q
  c.reverse i

/-- The chain of two steps turned around, the second before the first. -/
def chainReverses (c : EquivalenceCatalog) (p q : StepId) : Derivation StepId := do
  let i ← c.reverse q
  let j ← c.reverse p
  c.chain (some i) j

section Turning

variable {c : EquivalenceCatalog} {r : Symbol} {e : EquivalenceLemmas} {w : Worksheet}
  {a b d : Term} {p q : StepId}

/-- Joining two links and turning the result around takes at most two new steps. -/
theorem reverseChain_completes (he : c.relations.get? r = some e) (hw : w.Valid)
    (hp : w.formula? p = some (.binary r a b)) (hq : w.formula? q = some (.binary r b d)) :
    Completes 2 w (c.reverseChain p q) fun i w' => w'.formula? i = some (.binary r d a) :=
  (chain_completes he hw hp hq).bind fun _ _ hext hi => reverse_completes he (hext.valid hw) hi

/-- Turning two links around and joining them takes at most three new steps, and leads to the same
formula as joining them first. -/
theorem chainReverses_completes (he : c.relations.get? r = some e) (hw : w.Valid)
    (hp : w.formula? p = some (.binary r a b)) (hq : w.formula? q = some (.binary r b d)) :
    Completes 3 w (c.chainReverses p q) fun i w' => w'.formula? i = some (.binary r d a) := by
  refine (reverse_completes he hw hq).bind (k := 2) fun i w₁ hext hi => ?_
  have hw₁ := hext.valid hw
  refine (reverse_completes he hw₁ (hext.formula?_eq_some hp)).bind (k := 1)
    fun j w₂ hext' hj => ?_
  exact chain_completes he (hext'.valid hw₁) (hext'.formula?_eq_some hi) hj

/-- A step turned around twice is the step itself, and only the first time may make a new one. -/
theorem reverse_reverse (he : c.relations.get? r = some e) (hw : w.Valid)
    (hp : w.formula? p = some (.binary r a b)) :
    ∃ i w', c.reverse p w = (.ok i, w') ∧ c.reverse i w' = (.ok p, w') ∧
      w.Extends Grounded w' ∧ w'.size ≤ w.size + 1 := by
  obtain ⟨i, w', hrun, hext, hsize, hi⟩ := reverse_completes he hw hp
  have hfound := (hext.valid hw).find?_eq_some_iff.mpr (hext.formula?_eq_some hp)
  -- The way back is to a formula that is there, so nothing is appended.
  have hback : c.reverse i w' = (.ok p, w') :=
    reverse_eq_ok_iff.mpr ⟨r, b, a, [], _, hi, commutativity?_of_get? he,
      enter_of_find?_some hfound _⟩
  exact ⟨i, w', hrun, hback, hext, hsize⟩

end Turning

/-- Steps of an equivalence can be turned around. To do it twice leads back to the step and makes
one new step at most. To chain two steps and turn the result around yields the same step as to turn
both around and chain them in the other order, whichever is done first. All this applies to the
steps for formulas that equate two terms. -/
theorem reverse_involutive_and_reverses_chains (T : Theory) (selection : Selection) {r : Symbol}
    (hr : (ofTheory T selection).isEquivalence r = true) {w : Worksheet} (hw : w.Reachable)
    {p q : StepId} {a b d : Term} (hp : w.formula? p = some (.binary r a b))
    (hq : w.formula? q = some (.binary r b d)) :
    let c := ofTheory T selection
    ((c.reverse p).Returns w ∧ (c.reverse q).Returns w) ∧
      (∃ i w₁ w₂, c.reverse p w = (.ok i, w₁) ∧ c.reverse i w₁ = (.ok p, w₂) ∧
        w.steps.toList <+: w₂.steps.toList ∧ w₂.size ≤ w.size + 1) ∧
      (∃ i w₁ w₂, c.reverseChain p q w = (.ok i, w₁) ∧ c.chainReverses p q w₁ = (.ok i, w₂)) ∧
      (∃ i w₁ w₂, c.chainReverses p q w = (.ok i, w₁) ∧ c.reverseChain p q w₁ = (.ok i, w₂)) ∧
      ∀ sig left right f, c.equate sig left right = .ok f →
        ∃ s, c.isEquivalence s ∧ f = .binary s left right := by
  intro c
  have hvalid := hw.valid
  obtain ⟨e, he⟩ := exists_lemmas_of_isEquivalence hr
  refine ⟨⟨(reverse_completes he hvalid hp).returns, (reverse_completes he hvalid hq).returns⟩,
    ?_, ?_, ?_, fun sig left right f => exists_relation_of_equate⟩
  · obtain ⟨i, w', hrun, hback, hext, hsize⟩ := reverse_reverse he hvalid hp
    exact ⟨i, w', w', hrun, hback, hext.prefix_steps, hsize⟩
  · exact (reverseChain_completes he hvalid hp hq).agree hvalid fun w' hext =>
      chainReverses_completes he (hext.valid hvalid) (hext.formula?_eq_some hp)
        (hext.formula?_eq_some hq)
  · exact (chainReverses_completes he hvalid hp hq).agree hvalid fun w' hext =>
      reverseChain_completes he (hext.valid hvalid) (hext.formula?_eq_some hp)
        (hext.formula?_eq_some hq)

/-- The chain of `e(x, y)` and `e(y, z)` turned around is that of `e(z, y)` and `e(y, x)`. -/
theorem relationTheory_reverses_chain :
    ∃ (w : Worksheet) (x y z : Term),
      let c := ofTheory relationTheory {}
      c.isEquivalence (.op 0) ∧ w.Reachable ∧ w.formula? 0 = some (.binary (.op 0) x y) ∧
        w.formula? 1 = some (.binary (.op 0) y z) ∧
        (∃ i w₁ w₂, c.reverse 0 w = (.ok i, w₁) ∧ c.reverse i w₁ = (.ok 0, w₂)) ∧
        ∃ i w₁ w₂, c.reverseChain 0 1 w = (.ok i, w₁) ∧ c.chainReverses 0 1 w₁ = (.ok i, w₂) := by
  let x : Term := .leaf (.var 0)
  let y : Term := .leaf (.var 1)
  let z : Term := .leaf (.var 2)
  let w := supposing (.binary (.op 0) x y) (.binary (.op 0) y z)
  have hr : (ofTheory relationTheory {}).isEquivalence (.op 0) = true := by decide +kernel
  have hw : w.Reachable := reachable_supposing _ _
  have hp : w.formula? 0 = some (.binary (.op 0) x y) := by decide +kernel
  have hq : w.formula? 1 = some (.binary (.op 0) y z) := by decide +kernel
  obtain ⟨-, ⟨i, w₁, w₂, hrun, hback, -⟩, hturned, -⟩ :=
    reverse_involutive_and_reverses_chains relationTheory {} hr hw hp hq
  exact ⟨w, x, y, z, hr, hw, hp, hq, ⟨i, w₁, w₂, hrun, hback⟩, hturned⟩

end EquivalenceCatalog

end Lemmata
