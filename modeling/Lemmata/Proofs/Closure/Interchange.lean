import Lemmata.Proofs.Closure.Decision
import Lemmata.Proofs.Connective.Additions
import Lemmata.Proofs.Connective.Operators

/-!
# The order of closure proofs

A closure proof stops its descent at the goals that have steps, and so it visits fewer terms after
another proof than before it. Which formulas are proved when both are done does not depend on their
order (`prove_comm`).

What a proof has to visit on a worksheet are the pending terms: those without a step for their goal
that are reached through such terms (`Pending`). A proof that goes through adds what its pending
terms need (`prove_adds`), and what a term needs depends on the rules alone (`Needs`): its goal, the
conjunctions of the goals for its open arguments, and the instance of the implication. Of these only
the goal can be a goal (`needs_goal_iff`). So exactly the pending terms of one proof get steps for
their goals by it, and these are lost to the next one: where its descent stops for that reason, all
that is below was pending for the first one already (`Pending.absorb`).
-/

namespace Lemmata

open Lemmata.Derivation Lemmata.Worksheet

/-! ## Pending terms -/

namespace Schema

/-- The second term is visited for the first: both have no step for their goal, and nor have the
terms between them. -/
inductive Pending (s : Schema) (w : Worksheet) : Term → Term → Prop
  | here {t : Term} : ¬ w.Proves (s.goal t) → Pending s w t t
  | inner {t u x : Term} :
    ¬ w.Proves (s.goal t) → u ∈ s.openArgs t → Pending s w u x → Pending s w t x

/-- A term is pending below another if the goal of the other has no step and it is this term itself,
or is pending below an open argument of it. -/
theorem pending_iff {s : Schema} {w : Worksheet} {t x : Term} :
    s.Pending w t x ↔
      ¬ w.Proves (s.goal t) ∧ (x = t ∨ ∃ u ∈ s.openArgs t, s.Pending w u x) := by
  constructor
  · intro h
    cases h with
    | here hnew => exact ⟨hnew, .inl rfl⟩
    | inner hnew hu hx => exact ⟨hnew, .inr ⟨_, hu, hx⟩⟩
  · rintro ⟨hnew, rfl | ⟨u, hu, hx⟩⟩
    · exact .here hnew
    · exact .inner hnew hu hx

namespace Pending

variable {s : Schema} {w w' : Worksheet} {t u x : Term}

theorem not_proves (h : s.Pending w t x) : ¬ w.Proves (s.goal t) :=
  (pending_iff.mp h).1

/-- What is pending below a pending term is pending below the whole. -/
theorem trans (h : s.Pending w t u) (h' : s.Pending w u x) : s.Pending w t x := by
  induction h with
  | here _ => exact h'
  | inner hnew hu _ ih => exact .inner hnew hu (ih h')

/-- The more is proved the less is pending. -/
theorem mono (h : s.Pending w' t x) (hsub : ∀ f, w.Proves f → w'.Proves f) : s.Pending w t x := by
  induction h with
  | here hnew => exact .here fun hgoal => hnew (hsub _ hgoal)
  | inner hnew hu _ ih => exact .inner (fun hgoal => hnew (hsub _ hgoal)) hu ih

/-- If the pending terms of one proof have got steps for their goals, what was pending for another
proof was pending for this one, or still is for the other. -/
theorem absorb {m n : Term}
    (hadded : ∀ u, w'.Proves (s.goal u) → w.Proves (s.goal u) ∨ s.Pending w m u)
    (h : s.Pending w n x) : s.Pending w m x ∨ s.Pending w' n x := by
  induction h with
  | @here n hnew =>
    by_cases hgoal : w'.Proves (s.goal n)
    · exact .inl ((hadded n hgoal).resolve_left hnew)
    · exact .inr (.here hgoal)
  | @inner n u x hnew hu hx ih =>
    by_cases hgoal : w'.Proves (s.goal n)
    · -- The descent stops here now, and what is below was pending for the first proof.
      exact .inl (((hadded n hgoal).resolve_left hnew).trans (.inner hnew hu hx))
    · exact ih.imp id (.inner hgoal hu)

end Pending

end Schema

namespace ClosureCatalog

/-! ## What a term needs -/

/-- The goal for the term is concluded by the implication from `p` with the operator `op`, since its
schema has no pure rule. -/
structure ImpliedBy (c : ClosureCatalog) (s : Schema) (t : Term) (op : Symbol) (p : Term) : Prop where
  fits : s.fits t
  not_pure : c.assertion? .pure s = none
  rule : ∃ a q, c.assertion? .implication s = some a ∧ a.conclusion = .binary op p q

/-- The formulas that are entered to conclude the goal for a term from those for its open
arguments. -/
inductive Needs (c : ClosureCatalog) (s : Schema) (t : Term) : Term → Prop
  | goal : Needs c s t (s.goal t)
  | joint {op : Symbol} {p f : Term} : c.ImpliedBy s t op p →
    f ∈ c.conjunctions.joints p ((s.openArgs t).map s.goal) → Needs c s t f
  | implication {op : Symbol} {p : Term} : c.ImpliedBy s t op p →
    Needs c s t
      (.binary op (c.conjunctions.withConjuncts p ((s.openArgs t).map s.goal)) (s.goal t))

/-- By its pure rule a term needs nothing but its goal. -/
theorem needs_iff_of_pure {c : ClosureCatalog} {s : Schema} {a : Assertion}
    (ha : c.assertion? .pure s = some a) {t f : Term} : c.Needs s t f ↔ f = s.goal t := by
  constructor
  · intro h
    cases h with
    | goal => rfl
    | joint himp _ => cases himp.not_pure.symm.trans ha
    | implication himp => cases himp.not_pure.symm.trans ha
  · rintro rfl
    exact .goal

/-- By its implication rule a term needs conjunctions, an instance of the implication, and its
goal. -/
theorem ImpliedBy.needs_iff {c : ClosureCatalog} {s : Schema} {t p : Term} {op : Symbol}
    (h : c.ImpliedBy s t op p) {f : Term} :
    c.Needs s t f ↔ f ∈ c.conjunctions.joints p ((s.openArgs t).map s.goal) ∨
      f = .binary op (c.conjunctions.withConjuncts p ((s.openArgs t).map s.goal)) (s.goal t) ∨
        f = s.goal t := by
  have honly : ∀ {op' p'}, c.ImpliedBy s t op' p' → op' = op ∧ p' = p := by
    intro op' p' h'
    obtain ⟨a, q, ha, hconcl⟩ := h.rule
    obtain ⟨b, q', hb, hconcl'⟩ := h'.rule
    cases hb.symm.trans ha
    rw [hconcl] at hconcl'
    cases hconcl'
    exact ⟨rfl, rfl⟩
  constructor
  · intro hf
    cases hf with
    | goal => exact .inr (.inr rfl)
    | joint h' hf =>
      obtain ⟨-, rfl⟩ := honly h'
      exact .inl hf
    | implication h' =>
      obtain ⟨rfl, rfl⟩ := honly h'
      exact .inr (.inl rfl)
  · rintro (hf | rfl | rfl)
    · exact .joint h hf
    · exact .implication h
    · exact .goal

/-- The implication has a conjunct for each open argument. -/
theorem ImpliedBy.length_conjuncts {c : ClosureCatalog} (hc : c.Lawful) {s : Schema} {op : Symbol}
    {t p : Term} (h : c.ImpliedBy s t op p) :
    (c.conjunctions.conjuncts p).length = ((s.openArgs t).map s.goal).length := by
  obtain ⟨a, q, ha, hconcl⟩ := h.rule
  obtain ⟨-, _, _, _, hconcl', -, -, _, _, _, hstated⟩ := hc.backs_of_assertion? ha
  rw [hconcl] at hconcl'
  cases hconcl'
  rw [List.length_map, hstated.length_openArgs h.fits]

/-- Of what a term needs only its goal is the goal for a term: the conjunctions and the implication
are too large at all places. -/
theorem needs_goal_iff {c : ClosureCatalog} (hc : c.Lawful) {s : Schema}
    (hs : s.template.Proper) {t u : Term} : c.Needs s t (s.goal u) ↔ u = t := by
  have hgoals : ∀ g ∈ (s.openArgs t).map s.goal, ∃ v, g = s.goal v := fun g hg =>
    (List.mem_map.mp hg).imp fun v hv => hv.2.symm
  constructor
  · intro h
    generalize hf : s.goal u = f at h
    cases h with
    | goal => exact hs.fill_injective hf
    | joint himp hmem =>
      obtain ⟨h, fs, k, rfl, hroot, hjoint⟩ := c.conjunctions.joint_of_mem_joints _ _ hgoals
        (Nat.le_of_eq (himp.length_conjuncts hc)) f hmem
      have hlen := (hc.conjunctions.of_rootOf? hroot).1
      exact absurd hf (hs.fill_ne_app hlen (fun g hg => size_le_of_joint hc hs (hjoint g hg)) u)
    | implication himp =>
      refine absurd hf (hs.fill_ne_app (by simp) (fun g hg => ?_) u)
      rcases List.mem_pair.mp hg with rfl | rfl
      · exact size_le_of_joint hc hs (Conjunctions.joint_withConjuncts _ _ hgoals
          (Nat.le_of_eq (himp.length_conjuncts hc)))
      · exact hs.size_le_fill t
  · rintro rfl
    exact .goal

/-! ## What a proof adds -/

/-- Concluding a supported goal adds what the term needs. -/
theorem conclude_adds {c : ClosureCatalog} (hc : c.Lawful) {s : Schema} {w : Worksheet} {t : Term}
    {steps : List StepId} (hw : w.Valid) (h : s.Supports w t steps) :
    Derives (fun _ _ _ => True) w (c.conclude s (s.goal t) steps) fun _ w' =>
      w.Adds (c.Needs s t) w' := by
  rw [conclude]
  split
  next a ha =>
    split
    next =>
      refine (derive_adds hw _ _ _).mono fun _ w' _ hadds => hadds.congr fun f => ?_
      exact (needs_iff_of_pure ha).symm
    next => exact .throw _
  next hpure =>
    split
    next => exact .throw _
    next a ha =>
      obtain ⟨-, op, p, q, hconcl, -, hdepth, _, _, _, hstated⟩ := hc.backs_of_assertion? ha
      have himp : c.ImpliedBy s t op p := ⟨h.fits, hpure, a, q, ha, hconcl⟩
      simp only [hconcl]
      refine (Derives.lift _).bind ?_
      rintro _ w - ⟨rfl, ⟨⟩⟩
      have hjoin := c.conjunctions.concatenate_derives (fun _ => True) p hw h.formulas
        fun _ _ => trivial
      refine ((c.conjunctions.concatenate_adds p hw h.formulas).and hjoin).bind ?_
      rintro i w₁ hext ⟨hadds, hlen, hi⟩
      refine (Derives.lift _).bind ?_
      rintro _ w₂ - ⟨rfl, ⟨⟩⟩
      refine (c.detachments.detach_adds i q a (hext.valid hw)).bind ?_
      rintro j w₃ - ⟨op', p', mp, σ, hfires, hadds'⟩
      -- The instance that is detached is the one that the term needs.
      obtain ⟨-, -, q', hconcl'⟩ := Detachments.implication?_eq_some hfires.implication
      rw [hconcl] at hconcl'
      cases hconcl'
      have hantecedent := Option.some.inj (hfires.antecedent.symm.trans hi)
      have hresult : σ.apply q = s.goal t :=
        Joins.apply_eq hc h.fits ⟨hlen.trans h.length_steps, hi⟩ hdepth hstated hfires.covers
          hfires.antecedent
      rw [hantecedent, hresult] at hadds'
      have hneeds := (hadds.trans hadds').congr fun f => himp.needs_iff.symm
      refine (formula_derives j).bind ?_
      rintro f w₄ - ⟨rfl, -⟩
      split
      · exact .pure hneeds
      · exact .throw _

/-- The formulas that closure proofs for the terms have to make: what their pending terms need. -/
def Requires (c : ClosureCatalog) (s : Schema) (w : Worksheet) (ts : List Term) (f : Term) : Prop :=
  ∃ t ∈ ts, ∃ x, s.Pending w t x ∧ c.Needs s x f

/-- A proof for one term and then proofs for others add what is required for all of them on the first
worksheet, although the others are made on the second. -/
theorem adds_requires_cons {c : ClosureCatalog} (hc : c.Lawful) {s : Schema}
    {w w₁ w₂ : Worksheet} {t : Term} {ts : List Term}
    (hs : ¬ w.Proves (s.goal t) → s.template.Proper) (h : w.Adds (c.Requires s w [t]) w₁)
    (h' : w₁.Adds (c.Requires s w₁ ts) w₂) : w.Adds (c.Requires s w (t :: ts)) w₂ := by
  have hsub : ∀ f, w.Proves f → w₁.Proves f := fun f hf => (h f).mpr (.inl hf)
  have hadded : ∀ u, w₁.Proves (s.goal u) → w.Proves (s.goal u) ∨ s.Pending w t u := by
    intro u hu
    rcases (h _).mp hu with hu | ⟨t', ht, x, hx, hneeds⟩
    · exact .inl hu
    · cases List.mem_singleton.mp ht
      cases (needs_goal_iff hc (hs hx.not_proves)).mp hneeds
      exact .inr hx
  refine (h.trans h').congr fun f => ⟨?_, ?_⟩
  · rintro (⟨t', ht, hf⟩ | ⟨u, hu, x, hx, hneeds⟩)
    · cases List.mem_singleton.mp ht
      exact ⟨t, List.mem_cons_self, hf⟩
    · exact ⟨u, List.mem_cons_of_mem _ hu, x, hx.mono hsub, hneeds⟩
  · rintro ⟨u, hu, x, hx, hneeds⟩
    rcases List.mem_cons.mp hu with rfl | hu
    · exact .inl ⟨u, List.mem_singleton_self u, x, hx, hneeds⟩
    · rcases hx.absorb hadded with hx | hx
      · exact .inl ⟨t, List.mem_singleton_self t, x, hx, hneeds⟩
      · exact .inr ⟨u, hu, x, hx, hneeds⟩

mutual

/-- A closure proof that goes through adds what is required. -/
theorem prove_adds {c : ClosureCatalog} (hc : c.Lawful) {s : Schema} : (t : Term) →
    {w : Worksheet} → w.Valid → (¬ w.Proves (s.goal t) → s.template.Proper) →
      Derives (fun _ _ _ => True) w (c.prove s t) fun _ w' => w.Adds (c.Requires s w [t]) w'
  | .app h as, w, hw, hs => by
    rw [prove]
    refine Derives.get.bind ?_
    rintro _ w - ⟨rfl, rfl⟩
    split
    next i hi =>
      refine .pure (.refl ?_)
      rintro f ⟨t, ht, x, hx, -⟩
      cases List.mem_singleton.mp ht
      exact absurd ⟨i, hw.find?_eq_some_iff.mp hi⟩ hx.not_proves
    next hnone =>
      have hnew := hw.find?_eq_none_iff.mp hnone
      split
      next hfits =>
        have hsteps := proveOpen_derives c s s.slots as hw
        refine ((proveOpen_adds hc (hs hnew) s.slots as hw).and hsteps).bind ?_
        rintro steps w₁ hext ⟨hadds, hformulas⟩
        refine (conclude_adds hc (hext.valid hw) ⟨hfits, hformulas⟩).mono ?_
        intro _ w₂ _ hadds'
        refine (hadds.trans hadds').congr fun f => ⟨?_, ?_⟩
        -- Pending below the term is the term itself and what is pending below its open arguments.
        · rintro (⟨u, hu, x, hx, hneeds⟩ | hneeds)
          · exact ⟨_, List.mem_singleton_self _, x, .inner hnew hu hx, hneeds⟩
          · exact ⟨_, List.mem_singleton_self _, _, .here hnew, hneeds⟩
        · rintro ⟨t, ht, x, hx, hneeds⟩
          cases List.mem_singleton.mp ht
          rcases (Schema.pending_iff.mp hx).2 with rfl | ⟨u, hu, hx⟩
          · exact .inr hneeds
          · exact .inl ⟨u, hu, x, hx, hneeds⟩
      next => exact .throw _

theorem proveOpen_adds {c : ClosureCatalog} (hc : c.Lawful) {s : Schema}
    (hs : s.template.Proper) : (slots : Slots) → (ts : List Term) → {w : Worksheet} → w.Valid →
      Derives (fun _ _ _ => True) w (c.proveOpen s slots ts) fun _ w' =>
        w.Adds (c.Requires s w (slots.openArgs ts)) w'
  | none :: slots, t :: ts, w, hw => by
    rw [proveOpen]
    refine (prove_adds hc t hw fun _ => hs).bind fun i w₁ hext hadds => ?_
    refine (proveOpen_adds hc hs slots ts (hext.valid hw)).bind fun rest w₂ _ hadds' => .pure ?_
    exact adds_requires_cons hc (fun _ => hs) hadds hadds'
  | some c' :: slots, t :: ts, w, hw => by
    rw [proveOpen]
    exact proveOpen_adds hc hs slots ts hw
  | [], ts, w, hw => by
    rw [proveOpen]
    · refine .pure (.refl ?_)
      rintro f ⟨t, ht, -⟩
      cases ht
    all_goals simp
  | slot :: slots, [], w, hw => by
    rw [proveOpen]
    · refine .pure (.refl ?_)
      rintro f ⟨t, ht, -⟩
      cases slot <;> cases ht
    all_goals simp

end

/-! ## Two proofs -/

/-- A term that can be proved has a step for its goal, or its schema a proper template. -/
theorem proper_of_canProve {c : ClosureCatalog} (hc : c.Lawful) {s : Schema} {w : Worksheet}
    (hw : w.Valid) {t : Term} (ht : c.canProve w s t) (hnew : ¬ w.Proves (s.goal t)) :
    s.template.Proper := by
  rcases canProve_iff.mp ht with hfind | ⟨-, hstates, -⟩
  · exact absurd (hw.isSome_find?_iff.mp hfind) hnew
  · obtain ⟨kind, a, ha⟩ := hc.states_iff.mp hstates
    cases kind with
    | pure =>
      obtain ⟨_, _, _, hstated⟩ := hc.backs_of_assertion? ha
      exact hstated.proper
    | implication =>
      obtain ⟨-, _, _, _, -, -, -, _, _, _, hstated⟩ := hc.backs_of_assertion? ha
      exact hstated.proper

/-- Two closure proofs, one after the other, go through and add what is required for both terms. -/
theorem exists_prove_prove {c : ClosureCatalog} (hc : c.Lawful) {w : Worksheet} (hw : w.Valid)
    {s : Schema} (hs : s.template.body.vars = []) {m n : Term} (hm : c.canProve w s m)
    (hn : c.canProve w s n) :
    ∃ i w₁ j w₂, c.prove s m w = (.ok i, w₁) ∧ c.prove s n w₁ = (.ok j, w₂) ∧
      w.Adds (c.Requires s w [m, n]) w₂ := by
  obtain ⟨i, w₁, hrun⟩ := (prove_returns hc hs m hw hm).exists
  obtain ⟨hext, hadds⟩ := (prove_adds hc m hw (proper_of_canProve hc hw hm)).of_ok hrun
  have hw₁ := hext.valid hw
  have hn₁ := canProve_of_extends hw hext hn
  obtain ⟨j, w₂, hrun'⟩ := (prove_returns hc hs n hw₁ hn₁).exists
  obtain ⟨-, hadds'⟩ := (prove_adds hc n hw₁ (proper_of_canProve hc hw₁ hn₁)).of_ok hrun'
  exact ⟨i, w₁, j, w₂, hrun, hrun',
    adds_requires_cons hc (proper_of_canProve hc hw hm) hadds hadds'⟩

/-- In which order two terms are proved to have the property does not matter: both orders go through,
and the same formulas are proved in the end. -/
theorem prove_comm {T : Theory} (hT : T.Reachable) {c : ClosureCatalog} (hc : c.Mined T)
    {w : Worksheet} (hw : w.Reachable) {s : Schema} (hs : s.template.body.vars = []) {m n : Term}
    (hm : c.canProve w s m = true) (hn : c.canProve w s n = true) :
    ∃ i w₁ j w₂ j' w₁' i' w₂',
      c.prove s m w = (.ok i, w₁) ∧ c.prove s n w₁ = (.ok j, w₂) ∧
      c.prove s n w = (.ok j', w₁') ∧ c.prove s m w₁' = (.ok i', w₂') ∧
      ∀ f, w₂.Proves f ↔ w₂'.Proves f := by
  have hlawful := hc.lawful hT
  obtain ⟨i, w₁, j, w₂, hrun₁, hrun₂, hadds⟩ := exists_prove_prove hlawful hw.valid hs hm hn
  obtain ⟨j', w₁', i', w₂', hrun₁', hrun₂', hadds'⟩ := exists_prove_prove hlawful hw.valid hs hn hm
  refine ⟨i, w₁, j, w₂, j', w₁', i', w₂', hrun₁, hrun₂, hrun₁', hrun₂', fun f => ?_⟩
  have hboth : c.Requires s w [m, n] f ↔ c.Requires s w [n, m] f :=
    exists_congr fun t => and_congr_left' (List.Perm.swap n m []).mem_iff
  rw [hadds f, hadds' f, hboth]

/-- The closure rules of the sample in which the sum of two zeros is zero. -/
def pairedCatalog : ClosureCatalog :=
  (Catalogs.ofTheory Conjunctions.pairedTheory { pureClosure := false }).closure

/-- From `x = c` and `y = c` follow `f(x, y) = c` and `f(f(x, y), x) = c`, the second by way of the
first, in either order, by a conjunction and an implication each. -/
theorem nested_sums_prove_comm :
    ∃ (w : Worksheet) (s : Schema) (m n : Term), Conjunctions.pairedTheory.Reachable ∧
      pairedCatalog.Mined Conjunctions.pairedTheory ∧ w.Reachable ∧ s.template.body.vars = [] ∧
      n ∈ s.openArgs m ∧ w.find? (s.goal n) = none ∧ pairedCatalog.assertion? .pure s = none ∧
      pairedCatalog.canProve w s m ∧ pairedCatalog.canProve w s n ∧
      ∃ i w₁ j w₂ j' w₁' i' w₂',
        pairedCatalog.prove s m w = (.ok i, w₁) ∧ pairedCatalog.prove s n w₁ = (.ok j, w₂) ∧
        pairedCatalog.prove s n w = (.ok j', w₁') ∧ pairedCatalog.prove s m w₁' = (.ok i', w₂') ∧
        ∀ f, w₂.Proves f ↔ w₂'.Proves f := by
  let s : Schema := ⟨.op 1, [none, none], ⟨.binary (.op 4) (.leaf .hole) (.leaf (.op 0))⟩⟩
  let x : Term := .leaf (.var 0)
  let y : Term := .leaf (.var 1)
  let n : Term := .binary (.op 1) x y
  let m : Term := .binary (.op 1) n x
  let w : Worksheet := (suppose (s.goal y) (suppose (s.goal x) {}).2).2
  have hT : Conjunctions.pairedTheory.Reachable := Conjunctions.reachable_statedTheory _
  have hc : pairedCatalog.Mined Conjunctions.pairedTheory := .ofTheory _
  have hw : w.Reachable := .suppose _ (.suppose _ .empty)
  have hm : pairedCatalog.canProve w s m = true := by decide +kernel
  have hn : pairedCatalog.canProve w s n = true := by decide +kernel
  exact ⟨w, s, m, n, hT, hc, hw, rfl, by decide, by decide +kernel, by decide +kernel, hm, hn,
    prove_comm hT hc hw rfl hm hn⟩

end ClosureCatalog

end Lemmata
