import Lemmata.Proofs.Registry
import Lemmata.Proofs.Sequence
import Lemmata.Proofs.Term.Order
import Lemmata.Worksheet.Basic

/-!
# How worksheets grow

A worksheet changes in one way only: a step for a formula that has none is added at the end. What an
operation does to a worksheet is therefore told by a property of steps: `w.Extends P w'` says that
`w'` is `w` with steps added one after the other, each of which had the property `P` on the
worksheet it was added to. Whatever follows for one added step follows for the whole run by
induction, and the steps before it stay as they are.

`Derives P w m Q` says this of a derivation: run from `w` it only adds steps with the property `P`,
also when it stops at a fault, and if it yields something, that and the worksheet satisfy `Q`.
-/

namespace Lemmata

namespace Worksheet

/-! ## One step more -/

/-- The worksheet with one more step at the end. -/
def append (w : Worksheet) (f : Term) (j : Justification) : Worksheet :=
  ⟨w.steps.push f j⟩

@[simp]
theorem size_append (w : Worksheet) (f : Term) (j : Justification) :
    (w.append f j).size = w.size + 1 :=
  w.steps.size_push f j

/-- The new step stands at the end, and the others stay where they are. -/
theorem step?_append (w : Worksheet) (f : Term) (j : Justification) (i : StepId) :
    (w.append f j).step? i = if i = w.size then some (f, j) else w.step? i :=
  w.steps.at?_push f j i

theorem lt_size_of_step? {w : Worksheet} {i : StepId} {s : Term × Justification}
    (h : w.step? i = some s) : i < w.size :=
  Registry.at?_lt_size h

/-- A step with a formula is on the worksheet. -/
theorem lt_size_of_formula? {w : Worksheet} {i : StepId} {f : Term} (h : w.formula? i = some f) :
    i < w.size := by
  obtain ⟨s, hs, -⟩ := Option.map_eq_some_iff.mp h
  exact lt_size_of_step? hs

/-- Steps whose formulas are known have formulas. -/
theorem exists_formula?_of_mem {w : Worksheet} {is : List StepId} {fs : List Term}
    (hfs : is.map w.formula? = fs.map some) {i : StepId} (hi : i ∈ is) :
    ∃ f, w.formula? i = some f := by
  have hmem : w.formula? i ∈ fs.map some := hfs ▸ List.mem_map_of_mem hi
  obtain ⟨f, -, hf⟩ := List.mem_map.mp hmem
  exact ⟨f, hf.symm⟩

theorem step?_append_size (w : Worksheet) (f : Term) (j : Justification) :
    (w.append f j).step? w.size = some (f, j) := by
  rw [step?_append, if_pos rfl]

theorem formula?_append_size (w : Worksheet) (f : Term) (j : Justification) :
    (w.append f j).formula? w.size = some f := by
  rw [formula?, step?_append_size]
  rfl

/-- The steps that were there are not changed. -/
theorem step?_append_of_lt {w : Worksheet} {i : StepId} (hi : i < w.size) (f : Term)
    (j : Justification) : (w.append f j).step? i = w.step? i := by
  rw [step?_append, if_neg (Nat.ne_of_lt hi)]

/-- The formulas of the steps that were there are not changed. -/
theorem formula?_append_eq_some {w : Worksheet} {i : StepId} {g : Term}
    (hg : w.formula? i = some g) (f : Term) (j : Justification) :
    (w.append f j).formula? i = some g := by
  rw [formula?, step?_append_of_lt (lt_size_of_formula? hg)]
  exact hg

/-- Looking a formula up and reading the formula of a step agree. -/
def Valid (w : Worksheet) : Prop :=
  w.steps.Valid

theorem valid_empty : Valid {} :=
  Registry.valid_empty

/-- A formula without a step may get one. -/
theorem Valid.append {w : Worksheet} (hw : w.Valid) {f : Term} (hf : w.find? f = none)
    (j : Justification) : (w.append f j).Valid :=
  Registry.Valid.push hw hf j

/-- A formula is found at the step that has it. -/
theorem Valid.find?_eq_some_iff {w : Worksheet} (hw : w.Valid) {f : Term} {i : StepId} :
    w.find? f = some i ↔ w.formula? i = some f :=
  hw f i

/-- A formula is found exactly if some step has it. -/
theorem Valid.isSome_find?_iff {w : Worksheet} (hw : w.Valid) {f : Term} :
    (w.find? f).isSome ↔ ∃ i, w.formula? i = some f := by
  simp only [Option.isSome_iff_exists, hw.find?_eq_some_iff]

/-- A formula has one step only. -/
theorem Valid.eq_of_formula? {w : Worksheet} (hw : w.Valid) {f : Term} {i j : StepId}
    (hi : w.formula? i = some f) (hj : w.formula? j = some f) : i = j := by
  have hfound := hw.find?_eq_some_iff.mpr hi
  rw [hw.find?_eq_some_iff.mpr hj] at hfound
  exact (Option.some.inj hfound).symm

/-! ## Many steps more -/

/-- The second worksheet is the first with steps added, each with the property `P` on the worksheet
it was added to. -/
inductive Extends (P : Worksheet → Term → Justification → Prop) (w : Worksheet) : Worksheet → Prop
  | refl : Extends P w w
  | step {w' : Worksheet} {f : Term} {j : Justification} :
    Extends P w w' → w'.find? f = none → P w' f j → Extends P w (w'.append f j)

namespace Extends

variable {P P' : Worksheet → Term → Justification → Prop} {w w' w'' : Worksheet}

/-- Steps may be added in two rounds. -/
theorem trans (h : w.Extends P w') (h' : w'.Extends P w'') : w.Extends P w'' := by
  induction h' with
  | refl => exact h
  | step _ hnew hstep ih => exact .step ih hnew hstep

/-- Each added step may be judged by what is known of the worksheet it was added to. -/
theorem mono (h : w.Extends P w') (hP : ∀ u f j, w.Extends P u → P u f j → P' u f j) :
    w.Extends P' w' := by
  induction h with
  | refl => exact .refl
  | step hrest hnew hstep ih => exact .step ih hnew (hP _ _ _ hrest hstep)

/-- Looking up and reading agree on the larger worksheet, too. -/
theorem valid (h : w.Extends P w') (hw : w.Valid) : w'.Valid := by
  induction h with
  | refl => exact hw
  | step _ hnew _ ih => exact ih.append hnew _

theorem size_le (h : w.Extends P w') : w.size ≤ w'.size := by
  induction h with
  | refl => exact Nat.le_refl _
  | step _ _ _ ih =>
    rw [size_append]
    exact Nat.le_succ_of_le ih

/-- The steps that were there stay as they are. -/
theorem step?_eq (h : w.Extends P w') {i : StepId} (hi : i < w.size) : w'.step? i = w.step? i := by
  induction h with
  | refl => rfl
  | step hrest _ _ ih => rw [step?_append_of_lt (Nat.lt_of_lt_of_le hi hrest.size_le), ih]

/-- A step keeps its formula when more steps are added. -/
theorem formula?_eq_some (h : w.Extends P w') {i : StepId} {f : Term} (hf : w.formula? i = some f) :
    w'.formula? i = some f := by
  rw [formula?, h.step?_eq (lt_size_of_formula? hf)]
  exact hf

/-- Steps with given formulas keep them when more steps are added. -/
theorem map_formula? (h : w.Extends P w') {is : List StepId} {fs : List Term}
    (hfs : is.map w.formula? = fs.map some) : is.map w'.formula? = fs.map some := by
  rw [← hfs]
  refine List.map_congr_left fun i hi => ?_
  obtain ⟨f, hf⟩ := exists_formula?_of_mem hfs hi
  rw [hf]
  exact h.formula?_eq_some hf

/-- What has a step keeps it. -/
theorem isSome_find? (h : w.Extends P w') (hw : w.Valid) {f : Term} (hf : (w.find? f).isSome) :
    (w'.find? f).isSome := by
  obtain ⟨i, hi⟩ := hw.isSome_find?_iff.mp hf
  exact (h.valid hw).isSome_find?_iff.mpr ⟨i, h.formula?_eq_some hi⟩

/-- Each of the steps that were added had the property on a worksheet in between. -/
theorem exists_new (h : w.Extends P w') :
    ∃ new, w'.steps.toList = w.steps.toList ++ new ∧
      ∀ f j, (f, j) ∈ new → ∃ u, P u f j ∧ u.Extends P w' := by
  induction h with
  | refl => exact ⟨[], (List.append_nil _).symm, fun f j hmem => nomatch hmem⟩
  | @step u g k hext hnew hstep ih =>
    obtain ⟨new, hsteps, hnews⟩ := ih
    have hlast : u.Extends P (u.append g k) := .step .refl hnew hstep
    refine ⟨new ++ [(g, k)], ?_, fun f j hmem => ?_⟩
    · rw [append, Registry.toList_push, hsteps, List.append_assoc]
    · rcases List.mem_append.mp hmem with hmem | hmem
      · obtain ⟨v, hv, hext'⟩ := hnews f j hmem
        exact ⟨v, hv, hext'.trans hlast⟩
      · cases List.mem_singleton.mp hmem
        exact ⟨u, hstep, hlast⟩

/-- What grows by steps has the old steps as its beginning. -/
theorem prefix_steps (h : w.Extends P w') : w.steps.toList <+: w'.steps.toList := by
  obtain ⟨new, hnew, -⟩ := h.exists_new
  exact ⟨new, hnew.symm⟩

end Extends

/-- Steps whose formulas are known exist. -/
theorem lt_size_of_map_formula? {w : Worksheet} {is : List StepId} {fs : List Term}
    (hfs : is.map w.formula? = fs.map some) : ∀ i ∈ is, i < w.size := by
  intro i hi
  obtain ⟨f, hf⟩ := exists_formula?_of_mem hfs hi
  exact lt_size_of_formula? hf

end Worksheet

/-! ## Derivations -/

namespace Derivation

variable {α β : Type}

/-- After a part that goes through, the rest runs on the worksheet it left. -/
theorem run_bind_ok {m : Derivation α} {w w' : Worksheet} {a : α} (hm : m w = (.ok a, w'))
    (f : α → Derivation β) : (m >>= f) w = f a w' :=
  Sequence.bind_of_ok hm f

/-- A part that stops ends the derivation, and the worksheet stays as it left it. -/
theorem run_bind_error {m : Derivation α} {w w' : Worksheet} {e : Fault}
    (hm : m w = (.error e, w')) (f : α → Derivation β) : (m >>= f) w = (.error e, w') :=
  Sequence.bind_of_error hm f

theorem run_get_bind (f : Worksheet → Derivation α) (w : Worksheet) : (get >>= f) w = f w w :=
  run_bind_ok rfl f

/-- A sequence goes through exactly if its parts do, one after the other. -/
theorem run_bind_eq_ok_iff {m : Derivation α} {f : α → Derivation β} {w w' : Worksheet} {b : β} :
    (m >>= f) w = (.ok b, w') ↔ ∃ a u, m w = (.ok a, u) ∧ f a u = (.ok b, w') :=
  Sequence.bind_eq_ok_iff

/-- What is computed without the worksheet leaves it alone. -/
theorem run_lift_bind_eq_ok_iff {x : Except Fault α} {f : α → Derivation β} {w w' : Worksheet}
    {b : β} :
    ((liftM x : Derivation α) >>= f) w = (.ok b, w') ↔ ∃ a, x = .ok a ∧ f a w = (.ok b, w') := by
  constructor
  · intro h
    obtain ⟨a, u, hrun, hf⟩ := run_bind_eq_ok_iff.mp h
    obtain ⟨hx, rfl⟩ := Prod.mk.inj hrun
    exact ⟨a, hx, hf⟩
  · rintro ⟨a, rfl, hf⟩
    exact run_bind_eq_ok_iff.mpr ⟨a, w, rfl, hf⟩

/-- From `w` the derivation only adds steps with the property `P`, and what it yields satisfies `Q`
on the worksheet it leaves. -/
structure Derives (P : Worksheet → Term → Justification → Prop) (w : Worksheet)
    (m : Derivation α) (Q : α → Worksheet → Prop) : Prop where
  extend : w.Extends P (m w).2
  yield : ∀ a, (m w).1 = .ok a → Q a (m w).2

/-- From `w` the derivation goes through. -/
def Returns (m : Derivation α) (w : Worksheet) : Prop :=
  ∃ a, (m w).1 = .ok a

namespace Derives

variable {P : Worksheet → Term → Justification → Prop} {w w' : Worksheet} {m : Derivation α}
  {Q : α → Worksheet → Prop}

/-- A derivation that goes through leaves a larger worksheet, on which its result is as told. -/
theorem of_ok (h : Derives P w m Q) {a : α} (hm : m w = (.ok a, w')) :
    w.Extends P w' ∧ Q a w' := by
  have hext := h.extend
  have hyield := h.yield a
  rw [hm] at hext hyield
  exact ⟨hext, hyield rfl⟩

/-- To yield something adds no steps. -/
theorem pure {a : α} (hQ : Q a w) : Derives P w (Pure.pure a) Q :=
  ⟨.refl, fun _ hb => Except.ok.inj hb ▸ hQ⟩

theorem throw (e : Fault) : Derives P w (MonadExcept.throw e) Q :=
  ⟨.refl, fun _ h => nomatch h⟩

/-- What is computed without the worksheet adds no steps and yields what was computed. -/
theorem lift (x : Except Fault α) :
    Derives P w (liftM x) fun a w' => w' = w ∧ x = .ok a :=
  ⟨.refl, fun _ h => ⟨rfl, h⟩⟩

theorem get : Derives P w MonadState.get fun u w' => u = w ∧ w' = w :=
  ⟨.refl, fun _ h => ⟨(Except.ok.inj h).symm, rfl⟩⟩

/-- What is told about the result may be weakened, with what is known of the worksheet. -/
theorem mono (h : Derives P w m Q) {Q' : α → Worksheet → Prop}
    (hQ : ∀ a w', w.Extends P w' → Q a w' → Q' a w') : Derives P w m Q' :=
  ⟨h.extend, fun a ha => hQ a _ h.extend (h.yield a ha)⟩

/-- What is told about the steps may be weakened, with what is known of the worksheet. -/
theorem imp {P' : Worksheet → Term → Justification → Prop} (h : Derives P w m Q)
    (hP : ∀ u f j, w.Extends P u → P u f j → P' u f j) : Derives P' w m Q :=
  ⟨h.extend.mono hP, h.yield⟩

/-- What is known about a result from two sides is known together. -/
theorem and {P' : Worksheet → Term → Justification → Prop} {Q' : α → Worksheet → Prop}
    (h : Derives P w m Q) (h' : Derives P' w m Q') :
    Derives P w m fun a w' => Q a w' ∧ Q' a w' :=
  ⟨h.extend, fun a ha => ⟨h.yield a ha, h'.yield a ha⟩⟩

/-- The steps of a sequence are those of its two parts. -/
theorem bind (h : Derives P w m Q) {f : α → Derivation β} {R : β → Worksheet → Prop}
    (hf : ∀ a w', w.Extends P w' → Q a w' → Derives P w' (f a) R) :
    Derives P w (m >>= f) R := by
  cases hm : m w with
  | mk r w' =>
    cases r with
    | error e =>
      have hext := h.extend
      rw [hm] at hext
      refine ⟨?_, fun b hb => ?_⟩
      · rw [run_bind_error hm]
        exact hext
      · rw [run_bind_error hm] at hb
        cases hb
    | ok a =>
      obtain ⟨hext, hQ⟩ := h.of_ok hm
      have hrest := hf a w' hext hQ
      refine ⟨?_, fun b hb => ?_⟩
      · rw [run_bind_ok hm]
        exact hext.trans hrest.extend
      · rw [run_bind_ok hm] at hb ⊢
        exact hrest.yield b hb

end Derives

/-- A derivation that goes through has a result and leaves a worksheet. -/
theorem Returns.exists {m : Derivation α} {w : Worksheet} (h : m.Returns w) :
    ∃ a w', m w = (.ok a, w') := by
  obtain ⟨a, ha⟩ := h
  exact ⟨a, (m w).2, Prod.ext ha rfl⟩

/-- A sequence goes through if its parts do. -/
theorem Returns.bind {P : Worksheet → Term → Justification → Prop} {w : Worksheet}
    {m : Derivation α} {Q : α → Worksheet → Prop} (hr : m.Returns w) (hm : Derives P w m Q)
    {f : α → Derivation β} (hf : ∀ a w', w.Extends P w' → Q a w' → (f a).Returns w') :
    (m >>= f).Returns w := by
  obtain ⟨a, w', ha⟩ := hr.exists
  obtain ⟨hext, hQ⟩ := hm.of_ok ha
  obtain ⟨b, hb⟩ := hf a w' hext hQ
  exact ⟨b, by rw [run_bind_ok ha, hb]⟩

end Derivation

/-! ## The operations on a worksheet -/

namespace Worksheet

open Lemmata.Derivation

variable {P : Worksheet → Term → Justification → Prop} {w : Worksheet}

/-- Reading the formula of a step changes nothing. -/
theorem formula_derives (i : StepId) :
    Derives P w (formula i) fun f w' => w' = w ∧ w.formula? i = some f := by
  refine ⟨?_, fun f hf => ?_⟩
  · rw [formula]
    split <;> exact .refl
  · rw [formula] at hf ⊢
    split at hf
    next g hg =>
      cases hf
      exact ⟨rfl, hg⟩
    · cases hf

/-- To go on with the formula of a step, the step must have one. -/
theorem run_formula_bind_eq_ok_iff {α : Type} {i : StepId} {m : Term → Derivation α}
    {w' : Worksheet} {a : α} :
    (formula i >>= m) w = (.ok a, w') ↔
      ∃ f, w.formula? i = some f ∧ m f w = (.ok a, w') := by
  constructor
  · intro h
    obtain ⟨f, u, hf, hm⟩ := run_bind_eq_ok_iff.mp h
    obtain ⟨-, rfl, hf⟩ := (formula_derives (P := fun _ _ _ => True) i).of_ok hf
    exact ⟨f, hf, hm⟩
  · rintro ⟨f, hf, hm⟩
    exact run_bind_eq_ok_iff.mpr ⟨f, w, by rw [formula, hf], hm⟩

theorem formula_returns {i : StepId} {f : Term} (hf : w.formula? i = some f) :
    (formula i).Returns w :=
  ⟨f, by rw [formula, hf]⟩

/-- A formula that has a step gets no second one. -/
theorem enter_of_find?_some {f : Term} {i : StepId} (hf : w.find? f = some i) (j : Justification) :
    w.enter f j = (i, w) := by
  rw [enter, hf]

/-- A new formula gets a step at the end. -/
theorem enter_of_find?_none {f : Term} (hf : w.find? f = none) (j : Justification) :
    w.enter f j = (w.size, w.append f j) := by
  rw [enter, hf]
  rfl

/-- Entering a formula adds a step only if there is none for it. -/
theorem enter_eq_append {f : Term} {j : Justification} {i : StepId} {w' : Worksheet}
    (h : w.enter f j = (i, w')) (hsize : w.size < w'.size) :
    w.find? f = none ∧ i = w.size ∧ w' = w.append f j := by
  cases hf : w.find? f with
  | some k =>
    rw [enter_of_find?_some hf] at h
    cases h
    exact absurd hsize (Nat.lt_irrefl _)
  | none =>
    rw [enter_of_find?_none hf] at h
    cases h
    exact ⟨rfl, rfl, rfl⟩

/-- Entering a formula adds at most a step for it, and yields the step that proves it. -/
theorem enter_spec (hw : w.Valid) {f : Term} {j : Justification}
    (hP : w.find? f = none → P w f j) :
    w.Extends P (w.enter f j).2 ∧ (w.enter f j).2.formula? (w.enter f j).1 = some f := by
  cases hf : w.find? f with
  | some i =>
    rw [enter_of_find?_some hf]
    exact ⟨.refl, hw.find?_eq_some_iff.mp hf⟩
  | none =>
    rw [enter_of_find?_none hf]
    exact ⟨.step .refl hf (hP hf), formula?_append_size w f j⟩

/-- A supposition makes at most one step, which has no premises. -/
theorem suppose_derives (hw : w.Valid) {f : Term} (hP : w.find? f = none → P w f .hypothesis) :
    Derives P w (suppose f) fun i w' => w'.formula? i = some f := by
  obtain ⟨hext, hformula⟩ := enter_spec hw hP
  exact ⟨hext, fun i hi => Except.ok.inj hi ▸ hformula⟩

/-- With existing premises a step is made as it is entered. -/
theorem derive_of_lt {is : List StepId} (his : ∀ i ∈ is, i < w.size) (f : Term) (a : Assertion) :
    derive f is a w =
      (.ok (w.enter f (.assertion a is)).1, (w.enter f (.assertion a is)).2) := by
  have hnone : is.find? (fun i => w.size ≤ i) = none := by
    refine List.find?_eq_none.mpr fun i hi => ?_
    simpa using his i hi
  rw [derive, hnone]

/-- A step is made exactly if its premises exist. -/
theorem derive_eq_ok_iff {is : List StepId} {f : Term} {a : Assertion} {i : StepId}
    {w' : Worksheet} :
    derive f is a w = (.ok i, w') ↔
      (∀ k ∈ is, k < w.size) ∧ w.enter f (.assertion a is) = (i, w') := by
  constructor
  · intro h
    unfold derive at h
    split at h
    next => cases h
    next hfind =>
      obtain ⟨hi, hw⟩ := Prod.mk.inj h
      refine ⟨fun k hk => ?_, Prod.ext (Except.ok.inj hi) hw⟩
      simpa using List.find?_eq_none.mp hfind k hk
  · rintro ⟨his, henter⟩
    rw [derive_of_lt his, henter]

/-- To apply an assertion makes at most one step, with the premises it was given. -/
theorem derive_derives (hw : w.Valid) {f : Term} {is : List StepId} {a : Assertion}
    (hP : w.find? f = none → (∀ i ∈ is, i < w.size) → P w f (.assertion a is)) :
    Derives P w (derive f is a) fun i w' => w'.formula? i = some f := by
  cases hfind : is.find? (fun i => w.size ≤ i) with
  | some i =>
    have hrun : derive f is a w = (.error (.missingStep i), w) := by rw [derive, hfind]
    refine ⟨?_, fun i hi => ?_⟩
    · rw [hrun]
      exact .refl
    · rw [hrun] at hi
      cases hi
  | none =>
    have his : ∀ i ∈ is, i < w.size := fun i hi => by
      simpa using List.find?_eq_none.mp hfind i hi
    obtain ⟨hext, hformula⟩ := enter_spec hw fun hf => hP hf his
    have hrun := derive_of_lt his f a
    refine ⟨?_, fun i hi => ?_⟩
    · rw [hrun]
      exact hext
    · rw [hrun] at hi ⊢
      exact Except.ok.inj hi ▸ hformula

theorem derive_returns {is : List StepId} (his : ∀ i ∈ is, i < w.size) (f : Term) (a : Assertion) :
    (derive f is a).Returns w :=
  ⟨_, by rw [derive_of_lt his f a]⟩

end Worksheet

end Lemmata
