import Lemmata.Proofs.Closure.Catalog

/-!
# The steps of closure proofs

`Makes` lists the four kinds of steps that a closure proof consists of: the goal for a term by its
pure rule, a conjunction of goals, an instance of an implication rule, and its consequent. In each
case it says what was on the worksheet before. `prove_derives` says that these are all the steps
that are ever made, also by a proof that does not get to its end, and that a proof that does yields
the step for its goal.

This holds of every catalog. What becomes of it in a lawful one is the matter of the modules that
follow.
-/

namespace Lemmata

open Lemmata.Derivation Lemmata.Worksheet

/-- The term fits, and the steps are for the property of its open arguments. -/
structure Schema.Supports (s : Schema) (w : Worksheet) (t : Term) (steps : List StepId) : Prop where
  fits : s.fits t
  formulas : steps.map w.formula? = ((s.openArgs t).map s.goal).map some

namespace Schema.Supports

variable {s : Schema} {w w' : Worksheet} {t : Term} {steps : List StepId}

/-- Steps for the open arguments stay so when more steps are added. -/
theorem mono {P : Worksheet → Term → Justification → Prop} (h : s.Supports w t steps)
    (hext : w.Extends P w') : s.Supports w' t steps :=
  ⟨h.fits, hext.map_formula? h.formulas⟩

/-- There is a step for each open argument. -/
theorem length_steps (h : s.Supports w t steps) : steps.length = (s.openArgs t).length := by
  simpa using congrArg List.length h.formulas

/-- The goal for an open argument has a step. -/
theorem isSome_find? (h : s.Supports w t steps) (hw : w.Valid) {u : Term} (hu : u ∈ s.openArgs t) :
    (w.find? (s.goal u)).isSome := by
  have hmem : some (s.goal u) ∈ steps.map w.formula? := by
    rw [h.formulas]
    exact List.mem_map_of_mem (List.mem_map_of_mem hu)
  obtain ⟨i, -, hi⟩ := List.mem_map.mp hmem
  exact hw.isSome_find?_iff.mpr ⟨i, hi⟩

end Schema.Supports

namespace ClosureCatalog

/-- The step that joins the supporting steps in the pattern of the antecedent. -/
structure Joins (c : ClosureCatalog) (s : Schema) (w : Worksheet) (t antecedent : Term)
    (i : StepId) : Prop where
  length : (c.conjunctions.conjuncts antecedent).length = (s.openArgs t).length
  formula :
    w.formula? i = some (c.conjunctions.withConjuncts antecedent ((s.openArgs t).map s.goal))

/-- The steps that a closure proof makes. -/
inductive Makes (c : ClosureCatalog) (s : Schema) (w : Worksheet) : Term → Justification → Prop
  | goal {a : Assertion} {t : Term} {steps : List StepId} :
    c.assertion? .pure s = some a → s.Supports w t steps → steps.length = a.hypotheses.length →
      Makes c s w (s.goal t) (.assertion a steps)
  | conjoin {a : Assertion} {f : Term} {j : Justification} :
    c.assertion? .implication s = some a →
      c.conjunctions.Conjoins (fun g => ∃ t, g = s.goal t) w f j → Makes c s w f j
  | detach {a : Assertion} {t antecedent consequent : Term} {steps : List StepId} {i : StepId}
      {f : Term} {j : Justification} :
    c.assertion? .implication s = some a → s.Supports w t steps →
      a.conclusion.argument 0 = .ok antecedent → a.conclusion.argument 1 = .ok consequent →
      c.Joins s w t antecedent i → c.detachments.Detaches a consequent i w f j → Makes c s w f j

/-- The step for a supported goal is made by the pure rule, or by joining and detaching. -/
theorem conclude_derives (c : ClosureCatalog) {s : Schema} {w : Worksheet} {t : Term}
    {steps : List StepId} (hw : w.Valid) (h : s.Supports w t steps) :
    Derives (c.Makes s) w (c.conclude s (s.goal t) steps) fun i w' =>
      w'.formula? i = some (s.goal t) := by
  rw [conclude]
  split
  next a ha =>
    split
    next hlen => exact derive_derives hw fun _ _ => .goal ha h hlen
    next => exact .throw _
  next =>
    split
    next => exact .throw _
    next a ha =>
      -- The steps for the open arguments are joined, and the implication is detached from the result.
      refine (Derives.lift _).bind ?_
      rintro p w - ⟨rfl, hp⟩
      have hjoin := c.conjunctions.concatenate_derives (fun g => ∃ u, g = s.goal u) p hw
        h.formulas fun g hg => (List.mem_map.mp hg).imp fun u hu => hu.2.symm
      refine (hjoin.imp fun _ _ _ _ hstep => .conjoin ha hstep).bind ?_
      rintro i w₁ hext ⟨hlen, hi⟩
      refine (Derives.lift _).bind ?_
      rintro q w₂ - ⟨rfl, hq⟩
      have hdetach := c.detachments.detach_derives i q a (hext.valid hw)
      refine (hdetach.imp fun u f j hu hstep => ?_).bind ?_
      · have hlen' := hlen.trans h.length_steps
        exact .detach ha ((h.mono hext).mono hu) hp hq ⟨hlen', hu.formula?_eq_some hi⟩ hstep
      · intro k w₃ _ _
        refine (formula_derives k).bind ?_
        rintro f w₄ - ⟨rfl, hf⟩
        split
        next hgoal => exact .pure (hgoal ▸ hf)
        next => exact .throw _

mutual

/-- A closure proof makes these steps only, and yields the step for its goal. -/
theorem prove_derives (c : ClosureCatalog) (s : Schema) : (t : Term) → {w : Worksheet} →
    w.Valid → Derives (c.Makes s) w (c.prove s t) fun i w' => w'.formula? i = some (s.goal t)
  | .app h as, w, hw => by
    rw [prove]
    refine Derives.get.bind ?_
    rintro w₁ w₂ - ⟨rfl, rfl⟩
    split
    next i hi => exact .pure (hw.find?_eq_some_iff.mp hi)
    next =>
      split
      next hfits =>
        refine (proveOpen_derives c s s.slots as hw).bind fun steps w' hext hsteps => ?_
        exact c.conclude_derives (hext.valid hw) ⟨hfits, hsteps⟩
      next => exact .throw _

theorem proveOpen_derives (c : ClosureCatalog) (s : Schema) : (slots : Slots) →
    (ts : List Term) → {w : Worksheet} → w.Valid →
      Derives (c.Makes s) w (c.proveOpen s slots ts) fun steps w' =>
        steps.map w'.formula? = ((slots.openArgs ts).map s.goal).map some
  | none :: slots, t :: ts, w, hw => by
    rw [proveOpen]
    refine (prove_derives c s t hw).bind fun i w₁ hext hi => ?_
    refine (proveOpen_derives c s slots ts (hext.valid hw)).bind fun rest w₂ hext' hrest => ?_
    refine .pure ?_
    rw [Slots.openArgs, List.map_cons, List.map_cons, List.map_cons, hrest,
      hext'.formula?_eq_some hi]
  | some c' :: slots, t :: ts, w, hw => by
    rw [proveOpen]
    exact proveOpen_derives c s slots ts hw
  | [], ts, w, hw => by
    rw [proveOpen]
    · exact .pure rfl
    all_goals simp
  | slot :: slots, [], w, hw => by
    rw [proveOpen]
    · cases slot <;> exact .pure rfl
    all_goals simp

end

end ClosureCatalog

end Lemmata
