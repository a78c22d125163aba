import Lemmata.Proofs.Closure.Interchange

/-!
# What a pure closure proof visits

A closure proof by a pure rule makes one step for each term that it has to visit, and nothing else.
Where a term occurs twice, only the first visit makes steps: at the second one the goal is on the
worksheet, put there by the proof itself.

The walk that the proof is held against knows nothing of this. `visits` goes through the term on the
worksheet as it was in the beginning, arguments first, and comes to a term as often as it occurs.
The proof makes the goals of these visits, each where it occurs first (`prove_visits`). This is kept
up from one term to the next: after proofs for some terms the worksheet has the goals of all their
visits (`Visited`), and a term whose goal is there by now has either had it from the start, or was
visited before together with all that is visited for it (`Visited.skip`).

Each step rests on the steps for the open arguments of its term, and a second proof finds the goal
and makes nothing (`prove_mints_visits`).
-/

namespace Lemmata

open Lemmata.Derivation Lemmata.Worksheet

/-! ## Open places -/

namespace Slots

/-- The open places after the first slot are those of the rest, moved by one. -/
theorem openPlaces_cons (slot : Option Term) (slots : Slots) :
    openPlaces (slot :: slots) =
      (if slot = none then [0] else []) ++ slots.openPlaces.map (· + 1) := by
  simp only [openPlaces, List.length_cons, List.range_succ_eq_map, List.filter_cons,
    List.getElem?_cons_zero, Option.some.injEq, decide_eq_true_eq, List.filter_map]
  split <;> rfl

/-- The open arguments are those at the open places. -/
theorem map_openPlaces {slots : Slots} {ts : List Term} (hfits : slots.fits ts) :
    slots.openPlaces.map (fun k => ts[k]?) = (slots.openArgs ts).map some := by
  induction slots generalizing ts with
  | nil =>
    cases ts with
    | nil => rfl
    | cons t ts => cases hfits
  | cons slot slots ih =>
    cases ts with
    | nil => cases slot <;> cases hfits
    | cons t ts =>
      rw [openPlaces_cons, List.map_append, List.map_map]
      cases slot with
      | none => exact congrArg (some t :: ·) (ih hfits)
      | some c =>
        rw [fits, Bool.and_eq_true] at hfits
        exact ih hfits.2

end Slots

/-! ## The walk -/

namespace Schema

mutual

/-- The terms without a step for their goal that are reached through such terms, arguments before
the term that they belong to, and each as often as it is reached. -/
def visits (s : Schema) (w : Worksheet) : Term → List Term
  | .app h as =>
    if (w.find? (s.goal (.app h as))).isSome then [] else s.visitsOpen w s.slots as ++ [.app h as]

/-- The terms that are visited for the arguments at the open places, from left to right. -/
def visitsOpen (s : Schema) (w : Worksheet) : Slots → List Term → List Term
  | none :: slots, t :: ts => s.visits w t ++ s.visitsOpen w slots ts
  | some _ :: slots, _ :: ts => s.visitsOpen w slots ts
  | _, _ => []

end

variable {s : Schema} {w u : Worksheet} {t x : Term} {ts : List Term}

/-- The visits of the open arguments are made from left to right. -/
theorem visitsOpen_eq_flatMap (s : Schema) (w : Worksheet) (slots : Slots) (ts : List Term) :
    s.visitsOpen w slots ts = (slots.openArgs ts).flatMap (s.visits w) := by
  induction slots generalizing ts with
  | nil => cases ts <;> rfl
  | cons slot slots ih =>
    cases ts with
    | nil => cases slot <;> rfl
    | cons t ts =>
      cases slot with
      | none => rw [visitsOpen, ih, Slots.openArgs, List.flatMap_cons]
      | some c => exact ih ts

/-- A term whose goal has a step is not visited. -/
theorem visits_of_proves (hw : w.Valid) (h : w.Proves (s.goal t)) : s.visits w t = [] := by
  cases t with
  | app f as => rw [visits, if_pos (hw.isSome_find?_iff.mpr h)]

/-- Any other term is visited after its open arguments. -/
theorem visits_of_not_proves (hw : w.Valid) (h : ¬ w.Proves (s.goal t)) :
    s.visits w t = (s.openArgs t).flatMap (s.visits w) ++ [t] := by
  cases t with
  | app f as =>
    rw [visits, if_neg (mt hw.isSome_find?_iff.mp h), visitsOpen_eq_flatMap]
    rfl

/-- What is visited is what is pending. -/
theorem mem_visits_iff (hw : w.Valid) : x ∈ s.visits w t ↔ s.Pending w t x := by
  induction t with
  | app f as ih =>
    rw [pending_iff]
    by_cases h : w.Proves (s.goal (.app f as))
    · rw [visits_of_proves hw h]
      simp [h]
    · have hargs : (∃ v ∈ s.openArgs (.app f as), x ∈ s.visits w v) ↔
          ∃ v ∈ s.openArgs (.app f as), s.Pending w v x :=
        exists_congr fun v => and_congr_right fun hv => ih v (Slots.mem_of_mem_openArgs hv)
      rw [visits_of_not_proves hw h, List.mem_append, List.mem_singleton, List.mem_flatMap, hargs]
      exact ⟨fun hx => ⟨h, hx.symm⟩, fun hx => hx.2.symm⟩

/-- Pending terms are subterms, so they are no larger. -/
theorem Pending.size_le (h : s.Pending w t x) : x.size ≤ t.size := by
  induction h with
  | here _ => exact Nat.le_refl _
  | @inner t v x _ hv _ ih =>
    cases t with
    | app f as =>
      exact Nat.le_trans ih (Nat.le_of_lt (Term.size_lt_of_mem (Slots.mem_of_mem_openArgs hv)))

/-- A term is not visited for its own arguments. -/
theorem not_pending_openArgs {v : Term} (hv : v ∈ s.openArgs t) : ¬ s.Pending w v t := by
  intro h
  cases t with
  | app f as =>
    have hlt : v.size < (Term.app f as).size :=
      Term.size_lt_of_mem (Slots.mem_of_mem_openArgs hv)
    exact Nat.not_le_of_lt hlt h.size_le

/-! ## Visited terms -/

/-- The second worksheet is the first with steps for the goals of all that is visited for the terms,
each where it comes first. -/
def Visited (s : Schema) (w : Worksheet) (ts : List Term) (u : Worksheet) : Prop :=
  u.steps.keys = w.steps.keys ++ ((ts.flatMap (s.visits w)).map s.goal).eraseDups

namespace Visited

/-- Goals that are proved were so in the beginning, or belong to visited terms. -/
theorem proves_goal_iff (h : s.Visited w ts u) (hw : w.Valid) (hs : s.template.Proper) :
    u.Proves (s.goal x) ↔ w.Proves (s.goal x) ∨ ∃ t ∈ ts, s.Pending w t x := by
  have hgoal : s.goal x ∈ (ts.flatMap (s.visits w)).map s.goal ↔ x ∈ ts.flatMap (s.visits w) :=
    List.mem_map_of_injective fun _ _ => hs.fill_injective
  rw [proves_iff_mem_keys, h, List.mem_append, ← proves_iff_mem_keys, List.mem_eraseDups, hgoal]
  simp only [List.mem_flatMap, mem_visits_iff hw]

/-- A term whose goal is proved brings no new visits. -/
theorem skip (h : s.Visited w ts u) (hw : w.Valid) (hs : s.template.Proper)
    (ht : u.Proves (s.goal t)) : s.Visited w (ts ++ [t]) u := by
  have hold : ∀ g ∈ (s.visits w t).map s.goal, g ∈ (ts.flatMap (s.visits w)).map s.goal := by
    intro g hg
    obtain ⟨x, hx, rfl⟩ := List.mem_map.mp hg
    have hx := (mem_visits_iff hw).mp hx
    -- The goal was not there from the start, so the term was visited for one before it.
    obtain ⟨v, hv, hvt⟩ := ((h.proves_goal_iff hw hs).mp ht).resolve_left hx.not_proves
    refine List.mem_map_of_mem (List.mem_flatMap.mpr ⟨v, hv, ?_⟩)
    exact (mem_visits_iff hw).mpr (hvt.trans hx)
  rw [Visited, List.flatMap_append, List.flatMap_singleton, List.map_append,
    List.eraseDups_append_of_mem hold]
  exact h

/-- A goal that is new stays so while those for the open arguments of its term are made. -/
theorem not_proves_goal (h : s.Visited w ts u) (hw : w.Valid) (hs : s.template.Proper)
    (ht : ¬ u.Proves (s.goal t)) {u' : Worksheet} (h' : s.Visited w (ts ++ s.openArgs t) u') :
    ¬ u'.Proves (s.goal t) := by
  intro hproves
  rcases (h'.proves_goal_iff hw hs).mp hproves with hold | ⟨v, hv, hpending⟩
  · exact ht ((h.proves_goal_iff hw hs).mpr (.inl hold))
  · rcases List.mem_append.mp hv with hv | hv
    · exact ht ((h.proves_goal_iff hw hs).mpr (.inr ⟨v, hv, hpending⟩))
    · exact not_pending_openArgs hv hpending

/-- The step for a new goal comes after those for the open arguments. -/
theorem append (h : s.Visited w (ts ++ s.openArgs t) u) (hw : w.Valid)
    (hs : s.template.Proper) (ht : ¬ u.Proves (s.goal t)) (j : Justification) :
    s.Visited w (ts ++ [t]) (u.append (s.goal t) j) := by
  have hnew : ¬ w.Proves (s.goal t) := fun hproves =>
    ht ((h.proves_goal_iff hw hs).mpr (.inl hproves))
  have hvisits : ((ts ++ [t]).flatMap (s.visits w)).map s.goal =
      ((ts ++ s.openArgs t).flatMap (s.visits w)).map s.goal ++ [s.goal t] := by
    rw [List.flatMap_append, List.flatMap_singleton, visits_of_not_proves hw hnew,
      List.flatMap_append, ← List.append_assoc, List.map_append, List.map_singleton]
  have hfirst : s.goal t ∉ ((ts ++ s.openArgs t).flatMap (s.visits w)).map s.goal := by
    intro hmem
    refine ht (proves_iff_mem_keys.mpr ?_)
    rw [h]
    exact List.mem_append_right _ (List.mem_eraseDups.mpr hmem)
  rw [Visited, hvisits, List.eraseDups_concat_of_not_mem hfirst, ← List.append_assoc, ← h]
  exact u.steps.keys_push (s.goal t) j

end Visited

end Schema

/-! ## Pure closure proofs -/

/-- The steps that a pure closure proof makes: the goal for a term, from those for its open
arguments. -/
def Schema.Mints (s : Schema) (a : Assertion) (w : Worksheet) (f : Term) (j : Justification) :
    Prop :=
  ∃ t steps, f = s.goal t ∧ j = .assertion a steps ∧ s.Supports w t steps

/-- The steps that support a term are for the arguments at its open places. -/
theorem Schema.Supports.map_openPlaces {s : Schema} {w : Worksheet} {t : Term}
    {steps : List StepId} (h : s.Supports w t steps) :
    steps.map w.formula? = s.openPlaces.map fun k => t.args[k]?.map s.goal := by
  have hplaces := congrArg (List.map (Option.map s.goal))
    (Slots.map_openPlaces (Schema.fits_iff.mp h.fits).2)
  rw [List.map_map, List.map_map] at hplaces
  rw [h.formulas, List.map_map]
  exact hplaces.symm

namespace ClosureCatalog

variable {c : ClosureCatalog} {s : Schema} {w u u' : Worksheet} {t : Term} {a : Assertion}
  {steps : List StepId} {i : StepId}

/-- What is on the worksheet is proved by looking it up. -/
theorem prove_of_find? (hi : u.find? (s.goal t) = some i) : c.prove s t u = (.ok i, u) := by
  cases t with
  | app h as =>
    rw [prove, run_get_bind, hi]
    rfl

/-- What is not on the worksheet is concluded from the open arguments. -/
theorem prove_of_proveOpen (hnew : u.find? (s.goal t) = none) (hfits : s.fits t)
    (hopen : c.proveOpen s s.slots t.args u = (.ok steps, u')) :
    c.prove s t u = c.conclude s (s.goal t) steps u' := by
  cases t with
  | app h as =>
    rw [prove, run_get_bind, hnew]
    simp only [hfits, ↓reduceIte]
    exact run_bind_ok hopen _

/-- A schema with a pure rule has its hole below the root. -/
theorem proper_of_pure (hc : c.Lawful) (ha : c.assertion? .pure s = some a) :
    s.template.Proper := by
  obtain ⟨_, _, _, hstated⟩ := hc.backs_of_assertion? ha
  exact hstated.proper

/-- The pure rule of a schema takes a supported goal in one step. -/
theorem conclude_mints (hc : c.Lawful) (ha : c.assertion? .pure s = some a)
    (hsupports : s.Supports u t steps) (hnew : u.find? (s.goal t) = none) :
    c.conclude s (s.goal t) steps u = (.ok u.size, u.append (s.goal t) (.assertion a steps)) := by
  obtain ⟨_, _, _, hstated⟩ := hc.backs_of_assertion? ha
  have hlen : steps.length = a.hypotheses.length :=
    hsupports.length_steps.trans (hstated.length_openArgs hsupports.fits)
  simp only [conclude, ha, hlen, ↓reduceIte]
  rw [derive_of_lt (lt_size_of_map_formula? hsupports.formulas), enter_of_find?_none hnew]

mutual

/-- A pure closure proof goes through, and adds the goals of what is visited for its term to those
of what was visited before. -/
theorem prove_visits (hc : c.Lawful) (ha : c.assertion? .pure s = some a) (hw : w.Valid) :
    (t : Term) → {u : Worksheet} → {ts : List Term} → u.Valid → c.canProve u s t →
      s.Visited w ts u →
        ∃ i u', c.prove s t u = (.ok i, u') ∧ u.Extends (s.Mints a) u' ∧ s.Visited w (ts ++ [t]) u'
  | .app h as, u, ts, hu, hcan, hvisited => by
    have hs := proper_of_pure hc ha
    cases hfind : u.find? (s.goal (.app h as)) with
    | some i =>
      have hproves : u.Proves (s.goal (.app h as)) := ⟨i, hu.find?_eq_some_iff.mp hfind⟩
      exact ⟨i, u, prove_of_find? hfind, .refl, hvisited.skip hw hs hproves⟩
    | none =>
      rcases canProve_iff.mp hcan with hsome | ⟨hfits, -, hopen⟩
      · rw [hfind] at hsome
        cases hsome
      · obtain ⟨steps, u₁, hrun, hext, hvisited₁⟩ :=
          proveOpen_visits hc ha hw s.slots as hu hopen hvisited
        have hu₁ := hext.valid hu
        -- The arguments may share terms with each other, but none of them holds the whole term.
        have hnot := hvisited.not_proves_goal hw hs (hu.find?_eq_none_iff.mp hfind) hvisited₁
        have hnew := hu₁.find?_eq_none_iff.mpr hnot
        obtain ⟨-, hformulas⟩ := (c.proveOpen_derives s s.slots as hu).of_ok hrun
        have hsupports : s.Supports u₁ (.app h as) steps := ⟨hfits, hformulas⟩
        refine ⟨u₁.size, _, ?_, hext.trans (.step .refl hnew ⟨_, steps, rfl, rfl, hsupports⟩),
          hvisited₁.append hw hs hnot _⟩
        rw [prove_of_proveOpen hfind hfits hrun, conclude_mints hc ha hsupports hnew]

theorem proveOpen_visits (hc : c.Lawful) (ha : c.assertion? .pure s = some a) (hw : w.Valid) :
    (slots : Slots) → (as : List Term) → {u : Worksheet} → {ts : List Term} → u.Valid →
      (∀ t ∈ slots.openArgs as, c.canProve u s t) → s.Visited w ts u →
        ∃ steps u', c.proveOpen s slots as u = (.ok steps, u') ∧ u.Extends (s.Mints a) u' ∧
          s.Visited w (ts ++ slots.openArgs as) u'
  | none :: slots, t :: as, u, ts, hu, hcan, hvisited => by
    rw [Slots.openArgs] at hcan
    obtain ⟨ht, has⟩ := List.forall_mem_cons.mp hcan
    obtain ⟨i, u₁, hrun, hext, hvisited₁⟩ := prove_visits hc ha hw t hu ht hvisited
    have has₁ : ∀ v ∈ Slots.openArgs slots as, c.canProve u₁ s v := fun v hv =>
      canProve_of_extends hu hext (has v hv)
    obtain ⟨steps, u₂, hrun', hext', hvisited₂⟩ :=
      proveOpen_visits hc ha hw slots as (hext.valid hu) has₁ hvisited₁
    refine ⟨i :: steps, u₂, ?_, hext.trans hext', ?_⟩
    · rw [proveOpen, run_bind_ok hrun, run_bind_ok hrun']
      rfl
    · rwa [List.append_assoc] at hvisited₂
  | some _ :: slots, t :: as, u, ts, hu, hcan, hvisited => by
    rw [proveOpen]
    exact proveOpen_visits hc ha hw slots as hu hcan hvisited
  | [], as, u, ts, _, _, hvisited => by
    have hnone : Slots.openArgs [] as = [] := by cases as <;> rfl
    refine ⟨[], u, by cases as <;> rfl, .refl, ?_⟩
    rwa [hnone, List.append_nil]
  | slot :: slots, [], u, ts, _, _, hvisited => by
    have hnone : Slots.openArgs (slot :: slots) [] = [] := by cases slot <;> rfl
    refine ⟨[], u, by cases slot <;> rfl, .refl, ?_⟩
    rwa [hnone, List.append_nil]

end

/-- A closure proof for a schema with a pure rule adds exactly the goals of the pending terms: each
of them once, arguments before the terms that they belong to and from left to right, where they come
first. Each is justified by the rule from the steps for the arguments at the open places, in order.
The same proof once more finds its step and adds nothing. -/
theorem prove_mints_visits {T : Theory} (hT : T.Reachable) {c : ClosureCatalog} (hc : c.Mined T)
    {w : Worksheet} (hw : w.Reachable) {s : Schema} {a : Assertion}
    (ha : c.assertion? .pure s = some a) {t : Term} (ht : c.canProve w s t = true) :
    (∀ m, m ∈ s.visits w t ↔ s.Pending w t m) ∧
      ∃ i w' new, c.prove s t w = (.ok i, w') ∧ w'.steps.toList = w.steps.toList ++ new ∧
        new.map Prod.fst = ((s.visits w t).map s.goal).eraseDups ∧
        (∀ f j, (f, j) ∈ new →
          ∃ m premises, s.Pending w t m ∧ f = s.goal m ∧ j = .assertion a premises ∧
            premises.map w'.formula? = s.openPlaces.map fun k => m.args[k]?.map s.goal) ∧
        c.prove s t w' = (.ok i, w') := by
  have hlawful := hc.lawful hT
  have hmem := fun m => Schema.mem_visits_iff (s := s) (t := t) (x := m) hw.valid
  have hstart : s.Visited w [] w := (List.append_nil _).symm
  obtain ⟨i, w', hrun, hext, hvisited⟩ := prove_visits hlawful ha hw.valid t hw.valid ht hstart
  obtain ⟨new, hsteps, hnew⟩ := hext.exists_new
  have hformulas : new.map Prod.fst = ((s.visits w t).map s.goal).eraseDups := by
    rw [Schema.Visited, Registry.keys, hsteps, List.map_append, List.nil_append,
      List.flatMap_singleton] at hvisited
    exact List.append_cancel_left hvisited
  refine ⟨hmem, i, w', new, hrun, hsteps, hformulas, fun f j hfj => ?_, ?_⟩
  · obtain ⟨u, ⟨m, premises, rfl, rfl, hsupports⟩, hext'⟩ := hnew f j hfj
    have hgoal : s.goal m ∈ ((s.visits w t).map s.goal).eraseDups :=
      hformulas ▸ List.mem_map_of_mem hfj
    obtain ⟨m', hm', heq⟩ := List.mem_map.mp (List.mem_eraseDups.mp hgoal)
    obtain rfl := (proper_of_pure hlawful ha).fill_injective heq
    exact ⟨m', premises, (hmem m').mp hm', rfl, rfl, (hsupports.mono hext').map_openPlaces⟩
  · obtain ⟨-, hi⟩ := (c.prove_derives s t hw.valid).of_ok hrun
    exact prove_of_find? ((hext.valid hw.valid).find?_eq_some_iff.mpr hi)

open ClosureRule

/-- The sample catalog with the pure rule `x ∈ c, y ∈ c ⊢ f(x, c, y) ∈ c`. -/
def plainCatalog : ClosureCatalog :=
  (sampleCatalog.add .pure plainRule.assertion).2

theorem plainCatalog_eq : plainCatalog = (sampleCatalog.register (.ok plainRule)).2 := by
  rw [plainCatalog, add, recognise, ofPure_plainRule]

/-- With `n` for `f(x, c, y)`, the proof that `f(n, c, n)` is in `c` makes two steps, one for `n`
and one for the whole, which rests twice on the first. -/
theorem repeated_argument_prove_mints :
    ∃ (w w' : Worksheet) (s : Schema) (n t : Term) (i : StepId) (new : List (Term × Justification)),
      sampleTheory.Reachable ∧ plainCatalog.Mined sampleTheory ∧ w.Reachable ∧
        plainCatalog.assertion? .pure s = some plainRule.assertion ∧
        plainCatalog.canProve w s t ∧ s.openArgs t = [n, n] ∧
        plainCatalog.prove s t w = (.ok i, w') ∧
        w'.steps.toList = w.steps.toList ++ new ∧ new.map Prod.fst = [s.goal n, s.goal t] ∧
        plainCatalog.prove s t w' = (.ok i, w') := by
  let s : Schema := plainRule.schema
  let c : Term := .leaf (.op 0)
  let y : Term := .leaf (.var 1)
  let n : Term := .app (.op 1) [sampleVar, c, y]
  let t : Term := .app (.op 1) [n, c, n]
  let w : Worksheet := (suppose (s.goal y) (suppose (s.goal sampleVar) {}).2).2
  have hmined : plainCatalog.Mined sampleTheory := by
    refine .add .pure mined_sampleCatalog ?_
    rw [assertions_sampleTheory]
    exact List.mem_cons_self
  have hw : w.Reachable := .suppose _ (.suppose _ .empty)
  obtain ⟨ha, ht⟩ : plainCatalog.assertion? .pure s = some plainRule.assertion ∧
      plainCatalog.canProve w s t = true := by
    rw [plainCatalog_eq, sampleCatalog, Catalogs.ofTheory, ClosureCatalog.ofTheory,
      Detachments.ofTheory, Conjunctions.ofTheory, assertions_sampleTheory]
    decide +kernel
  obtain ⟨-, i, w', new, hrun, hsteps, hformulas, -, hagain⟩ :=
    prove_mints_visits reachable_sampleTheory hmined hw ha ht
  have hvisits : ((s.visits w t).map s.goal).eraseDups = [s.goal n, s.goal t] := by decide +kernel
  exact ⟨w, w', s, n, t, i, new, reachable_sampleTheory, hmined, hw, ha, ht, by decide, hrun,
    hsteps, hformulas.trans hvisits, hagain⟩

end ClosureCatalog

end Lemmata
