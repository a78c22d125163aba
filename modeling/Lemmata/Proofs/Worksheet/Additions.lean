import Lemmata.Proofs.Worksheet.Growth

/-!
# What a worksheet proves, and what operations add to it

Which steps an operation makes depends on what is on the worksheet, since no formula gets a second
step. Which formulas have steps in the end depends on it in a simple way only: `w.Adds O w'` says that
`w'` proves what `w` proves and the formulas with the property `O`, some of which may have been there.

The steps that are made are told by the list at the end of the worksheet: to enter a formula adds at
most one step, and to enter two adds at most one for each, in this order (`enter_enter`).
-/

namespace Lemmata.Worksheet

open Lemmata.Derivation

/-- A step of the worksheet has the formula. -/
def Proves (w : Worksheet) (f : Term) : Prop :=
  ∃ i, w.formula? i = some f

/-- A formula is not found exactly if no step has it. -/
theorem Valid.find?_eq_none_iff {w : Worksheet} (hw : w.Valid) {f : Term} :
    w.find? f = none ↔ ¬ w.Proves f := by
  rw [Proves, ← hw.isSome_find?_iff, Option.not_isSome_iff_eq_none]

/-- One step more proves one formula more. -/
theorem proves_append {w : Worksheet} {f g : Term} {j : Justification} :
    (w.append f j).Proves g ↔ w.Proves g ∨ g = f := by
  constructor
  · rintro ⟨i, hi⟩
    rw [formula?, step?_append] at hi
    split at hi
    · exact .inr (Option.some.inj hi).symm
    · exact .inl ⟨i, hi⟩
  · rintro (⟨i, hi⟩ | rfl)
    · exact ⟨i, formula?_append_eq_some hi f j⟩
    · exact ⟨w.size, formula?_append_size w g j⟩

/-- What is proved are the formulas of the steps. -/
theorem proves_iff_mem_keys {w : Worksheet} {f : Term} : w.Proves f ↔ f ∈ w.steps.keys := by
  rw [Registry.keys, List.mem_map]
  constructor
  · rintro ⟨i, hi⟩
    obtain ⟨e, he, rfl⟩ := Option.map_eq_some_iff.mp hi
    exact ⟨e, Registry.mem_toList_iff.mpr ⟨i, he⟩, rfl⟩
  · rintro ⟨e, he, rfl⟩
    obtain ⟨i, hi⟩ := Registry.mem_toList_iff.mp he
    exact ⟨i, congrArg (Option.map Prod.fst) hi⟩

/-- The second worksheet proves what the first proves and the formulas with the property, and nothing
else. -/
def Adds (w : Worksheet) (O : Term → Prop) (w' : Worksheet) : Prop :=
  ∀ f, w'.Proves f ↔ w.Proves f ∨ O f

namespace Adds

variable {O O' : Term → Prop} {w w' w'' : Worksheet}

/-- To add what is proved already adds nothing. -/
theorem refl (hO : ∀ f, O f → w.Proves f) : w.Adds O w :=
  fun f => (or_iff_left_of_imp (hO f)).symm

/-- What is added in two rounds is added together. -/
theorem trans (h : w.Adds O w') (h' : w'.Adds O' w'') : w.Adds (fun f => O f ∨ O' f) w'' := by
  intro f
  rw [h' f, h f, or_assoc]

/-- Only what is added matters, not how it is put. -/
theorem congr (h : w.Adds O w') (hO : ∀ f, O f ↔ O' f) : w.Adds O' w' := by
  intro f
  rw [h f, hO f]

end Adds

/-- Whether the formula gets a step or has one, it is proved afterwards. -/
theorem enter_adds {w : Worksheet} (hw : w.Valid) (f : Term) (j : Justification) :
    w.Adds (· = f) (w.enter f j).2 := by
  cases hf : w.find? f with
  | some i =>
    rw [enter_of_find?_some hf]
    refine .refl ?_
    rintro g rfl
    exact ⟨i, hw.find?_eq_some_iff.mp hf⟩
  | none =>
    rw [enter_of_find?_none hf]
    exact fun g => proves_append

/-- A step that is made proves its formula, and nothing else is proved by it. -/
theorem derive_adds {w : Worksheet} (hw : w.Valid) (f : Term) (premises : List StepId)
    (a : Assertion) :
    Derives (fun _ _ _ => True) w (derive f premises a) fun _ w' => w.Adds (· = f) w' := by
  refine ⟨(derive_derives hw fun _ _ => trivial).extend, fun i hi => ?_⟩
  have hrun : derive f premises a w = (.ok i, (derive f premises a w).2) := Prod.ext hi rfl
  have hadds := enter_adds hw f (.assertion a premises)
  rwa [(derive_eq_ok_iff.mp hrun).2] at hadds

/-! ## The steps made -/

section Entering

variable {w u w' : Worksheet} {f g : Term} {j j' : Justification} {i k : StepId}

/-- Entering a formula adds at most one step, which is for the formula. -/
theorem enter_appends (h : w.enter f j = (k, u)) :
    ∃ new, u.steps.toList = w.steps.toList ++ new ∧ (new.map Prod.fst).Sublist [f] := by
  cases hf : w.find? f with
  | some i =>
    rw [enter_of_find?_some hf] at h
    cases h
    exact ⟨[], (List.append_nil _).symm, List.nil_sublist _⟩
  | none =>
    rw [enter_of_find?_none hf] at h
    cases h
    exact ⟨[(f, j)], w.steps.toList_push f j, .refl _⟩

/-- Entering a formula makes at most one step. -/
theorem size_enter_le (w : Worksheet) (f : Term) (j : Justification) :
    (w.enter f j).2.size ≤ w.size + 1 := by
  cases hf : w.find? f with
  | some i =>
    rw [enter_of_find?_some hf]
    exact Nat.le_succ _
  | none =>
    rw [enter_of_find?_none hf]
    exact Nat.le_of_eq (size_append w f j)

/-- Entering one formula and then another yields steps for both, and adds no others. -/
theorem enter_enter (hw : w.Valid) (hf : w.enter f j = (k, u)) (hg : u.enter g j' = (i, w')) :
    w'.formula? i = some g ∧ w'.Proves f ∧
      ∃ new, w'.steps.toList = w.steps.toList ++ new ∧ (new.map Prod.fst).Sublist [f, g] := by
  obtain ⟨hext, hk⟩ := enter_spec (P := fun _ _ _ => True) hw (f := f) (j := j) fun _ => trivial
  rw [hf] at hext hk
  obtain ⟨hext', hi⟩ :=
    enter_spec (P := fun _ _ _ => True) (hext.valid hw) (f := g) (j := j') fun _ => trivial
  rw [hg] at hext' hi
  obtain ⟨new, hnew, hsub⟩ := enter_appends hf
  obtain ⟨new', hnew', hsub'⟩ := enter_appends hg
  refine ⟨hi, ⟨k, hext'.formula?_eq_some hk⟩, new ++ new', ?_, ?_⟩
  · rw [hnew', hnew, List.append_assoc]
  · rw [List.map_append]
    exact hsub.append hsub'

end Entering

end Lemmata.Worksheet
