import Lemmata.Closure.Schema
import Lemmata.Proofs.Term.Substitution
import Lemmata.Proofs.Term.Template

/-!
# What it is to state a schema

A schema is stated by a conclusion under conditions. Each condition says of a term that starts with
a variable of its own that it has the property, and the conclusion says it of an application to
these variables, in the same order, with constants among them. `Stated` collects this. It is what
all the use of closure rules rests on: as soon as terms are put for the variables so that the
conditions become the goals for the open arguments of a term, the conclusion becomes the goal for
the term (`Stated.apply_conclusion`).

Nothing is said here about what stands below the variables. A condition may say of `x(c)` that it
has the property, and an argument of the application may be `x(c)`; putting a term for `x` takes `c`
away.
-/

namespace Lemmata

namespace Slots

/-- The arguments at the open places, from left to right. -/
def openArgs : Slots → List Term → List Term
  | none :: slots, t :: ts => t :: openArgs slots ts
  | some _ :: slots, _ :: ts => openArgs slots ts
  | _, _ => []

/-- Open arguments are arguments. -/
theorem mem_of_mem_openArgs {slots : Slots} {ts : List Term} {t : Term}
    (ht : t ∈ slots.openArgs ts) : t ∈ ts := by
  induction slots generalizing ts with
  | nil => cases ts <;> cases ht
  | cons slot slots ih =>
    cases ts with
    | nil => cases slot <;> cases ht
    | cons u us =>
      cases slot with
      | none => exact List.mem_cons.mpr ((List.mem_cons.mp ht).imp id ih)
      | some c => exact List.mem_cons_of_mem _ (ih ht)

/-- Every argument that fits is at an open place or fixed. -/
theorem mem_openArgs_or_fixed {slots : Slots} {ts : List Term} (hfits : slots.fits ts) {t : Term}
    (ht : t ∈ ts) : t ∈ slots.openArgs ts ∨ some t ∈ slots := by
  induction slots generalizing ts with
  | nil =>
    cases ts with
    | nil => cases ht
    | cons u us => cases hfits
  | cons slot slots ih =>
    cases ts with
    | nil => cases ht
    | cons u us =>
      cases slot with
      | none =>
        rcases List.mem_cons.mp ht with rfl | ht
        · exact .inl List.mem_cons_self
        · exact (ih hfits ht).imp (List.mem_cons_of_mem _) (List.mem_cons_of_mem _)
      | some c =>
        rw [fits, Bool.and_eq_true, decide_eq_true_eq] at hfits
        rcases List.mem_cons.mp ht with rfl | ht
        · exact .inr (hfits.1 ▸ List.mem_cons_self)
        · exact (ih hfits.2 ht).imp id (List.mem_cons_of_mem _)

/-- What the slots fix is among the arguments that fit. -/
theorem mem_of_fixed {slots : Slots} {ts : List Term} (hfits : slots.fits ts) {c : Term}
    (hc : some c ∈ slots) : c ∈ ts := by
  induction slots generalizing ts with
  | nil => cases hc
  | cons slot slots ih =>
    cases ts with
    | nil => cases slot <;> cases hfits
    | cons t ts =>
      cases slot with
      | none =>
        simp only [List.mem_cons, reduceCtorEq, false_or] at hc
        exact List.mem_cons_of_mem _ (ih hfits hc)
      | some d =>
        rw [fits, Bool.and_eq_true, decide_eq_true_eq] at hfits
        rcases List.mem_cons.mp hc with heq | hc
        · cases heq
          exact hfits.1 ▸ List.mem_cons_self
        · exact List.mem_cons_of_mem _ (ih hfits.2 hc)

/-- The slots describe the arguments: those at the open places start with the variables, and the
others are constants and fixed by the slots. -/
inductive Describes : Slots → List Term → List Serial → Prop
  | nil : Describes [] [] []
  | opened {slots : Slots} {ts : List Term} {vs : List Serial} {t : Term} {v : Serial} :
    t.head = .var v → Describes slots ts vs → Describes (none :: slots) (t :: ts) (v :: vs)
  | fixed {slots : Slots} {ts : List Term} {vs : List Serial} {c : Term} :
    c.isConstant → Describes slots ts vs → Describes (some c :: slots) (c :: ts) vs

namespace Describes

variable {slots : Slots} {args ts : List Term} {vs : List Serial}

/-- A term that fits has an open argument for each variable. -/
theorem length_openArgs (h : slots.Describes args vs) (hfits : slots.fits ts) :
    (slots.openArgs ts).length = vs.length := by
  induction h generalizing ts with
  | nil =>
    cases ts with
    | nil => rfl
    | cons t ts => cases hfits
  | opened _ _ ih =>
    cases ts with
    | nil => cases hfits
    | cons t ts => rw [openArgs, List.length_cons, ih hfits, List.length_cons]
  | fixed _ _ ih =>
    cases ts with
    | nil => cases hfits
    | cons t ts =>
      rw [fits, Bool.and_eq_true] at hfits
      rw [openArgs, ih hfits.2]

/-- If the variables become the open arguments of a fitting application, the described arguments
become its arguments. -/
theorem map_apply (h : slots.Describes args vs) (hfits : slots.fits ts) {σ : Substitution}
    (hσ : vs.map σ.get? = (slots.openArgs ts).map some) : args.map σ.apply = ts := by
  induction h generalizing ts with
  | nil =>
    cases ts with
    | nil => rfl
    | cons t ts => cases hfits
  | opened hhead _ ih =>
    cases ts with
    | nil => cases hfits
    | cons t ts =>
      obtain ⟨hv, hvs⟩ := List.cons.inj hσ
      rw [List.map_cons, Substitution.apply_of_head_var hhead hv, ih hfits hvs]
  | @fixed slots args vs c hc _ ih =>
    cases ts with
    | nil => cases hfits
    | cons t ts =>
      rw [fits, Bool.and_eq_true, decide_eq_true_eq] at hfits
      have hvars := (Term.isConstant_iff.mp hc).1
      rw [List.map_cons, Substitution.apply_of_vars_eq_nil hvars, ih hfits.2 hσ, hfits.1]

/-- The described arguments fit the slots themselves. -/
theorem fits_self (h : slots.Describes args vs) : slots.fits args := by
  induction h with
  | nil => rfl
  | opened _ _ ih => exact ih
  | fixed _ _ ih =>
    rw [fits, decide_eq_true rfl]
    exact ih

/-- Slots fix constants only. -/
theorem fixed_isConstant (h : slots.Describes args vs) {c : Term} (hc : some c ∈ slots) :
    c.isConstant := by
  induction h with
  | nil => cases hc
  | opened _ _ ih =>
    rcases List.mem_cons.mp hc with heq | hc
    · cases heq
    · exact ih hc
  | fixed hconst _ ih =>
    rcases List.mem_cons.mp hc with heq | hc
    · cases heq
      exact hconst
    · exact ih hc

/-- Where nothing stands below the variables, the open arguments are the bare variables. -/
theorem openArgs_eq_map (h : slots.Describes args vs)
    (hargs : ∀ t ∈ args, ∀ v, t.head = .var v → t.args = []) :
    slots.openArgs args = vs.map fun v => .leaf (.var v) := by
  induction h with
  | nil => rfl
  | @opened slots ts vs t v hhead _ ih =>
    obtain ⟨ht, hargs⟩ := List.forall_mem_cons.mp hargs
    rw [openArgs, List.map_cons, ih hargs, Term.eq_leaf hhead (ht v hhead)]
  | fixed _ _ ih => exact ih (List.forall_mem_cons.mp hargs).2

/-- Arguments that fit are described, if the open ones are bare variables and the others
constants. -/
theorem of_fits (hfits : slots.fits args)
    (hopen : slots.openArgs args = vs.map fun v => .leaf (.var v))
    (hfixed : ∀ c, some c ∈ slots → c.isConstant) : slots.Describes args vs := by
  induction slots generalizing args vs with
  | nil =>
    cases args with
    | nil =>
      cases vs with
      | nil => exact .nil
      | cons v vs => cases hopen
    | cons t ts => cases hfits
  | cons slot slots ih =>
    have hrest : ∀ c, some c ∈ slots → c.isConstant := fun c hc =>
      hfixed c (List.mem_cons_of_mem _ hc)
    cases args with
    | nil => cases slot <;> cases hfits
    | cons t ts =>
      cases slot with
      | none =>
        cases vs with
        | nil => cases hopen
        | cons v vs =>
          obtain ⟨ht, hopens⟩ := List.cons.inj hopen
          exact .opened (congrArg Term.head ht) (ih hfits hopens hrest)
      | some c =>
        rw [fits, Bool.and_eq_true, decide_eq_true_eq] at hfits
        obtain ⟨rfl, hfits⟩ := hfits
        exact .fixed (hfixed c List.mem_cons_self) (ih hfits hopen hrest)

/-- A variable of the arguments is one of theirs, if nothing stands below the variables. -/
theorem mem_of_mem_symbols (h : slots.Describes args vs)
    (hargs : ∀ t ∈ args, ∀ v, t.head = .var v → t.args = []) {t : Term} (ht : t ∈ args)
    {v : Serial} (hv : .var v ∈ t.symbols) : v ∈ vs := by
  induction h with
  | nil => cases ht
  | @opened slots ts vs u w hhead _ ih =>
    obtain ⟨hu, hargs⟩ := List.forall_mem_cons.mp hargs
    rcases List.mem_cons.mp ht with rfl | ht
    · rw [Term.eq_leaf hhead (hu w hhead), Term.symbols_leaf, List.mem_singleton] at hv
      exact Symbol.var.inj hv ▸ List.mem_cons_self
    · exact List.mem_cons_of_mem _ (ih hargs ht)
  | @fixed slots ts vs c hc _ ih =>
    rcases List.mem_cons.mp ht with rfl | ht
    · exact absurd hv (Term.vars_eq_nil.mp (Term.isConstant_iff.mp hc).1 v)
    · exact ih (List.forall_mem_cons.mp hargs).2 ht

end Describes

end Slots

/-- The substitution changes nothing outside the hole. -/
def Template.FixedBy (p : Template) (σ : Substitution) : Prop :=
  ∀ t, σ.apply (p.fill t) = p.fill (σ.apply t)

/-! ## Stated schemas -/

namespace Schema

/-- The arguments of a term at the open places. -/
def openArgs (s : Schema) (t : Term) : List Term :=
  s.slots.openArgs t.args

/-- A term fits a schema if its root is the symbol and its arguments fit the slots. -/
theorem fits_iff {s : Schema} {h : Symbol} {as : List Term} :
    s.fits (.app h as) ↔ h = s.symbol ∧ s.slots.fits as := by
  rw [fits, Bool.and_eq_true, decide_eq_true_eq]
  rfl

/-- A substitution that leaves the template alone may be applied before or after the goals are
formed. -/
theorem map_apply_goal {s : Schema} {σ : Substitution} (hfixed : s.template.FixedBy σ)
    (xs : List Term) : (xs.map s.goal).map σ.apply = (xs.map σ.apply).map s.goal := by
  rw [List.map_map, List.map_map]
  exact List.map_congr_left fun x _ => hfixed x

/-- The conclusion states the schema under the conditions: they are about subjects that start with
the variables `vs`, and it is about the application to `args`. -/
structure Stated (s : Schema) (conditions : List Term) (conclusion : Term) (vs : List Serial)
    (subjects args : List Term) : Prop where
  proper : s.template.Proper
  /-- The property itself is no variable. -/
  root : s.template.body.head.varId? = none
  /-- No variable stands bare in the property. -/
  leafCount : ∀ v, s.template.body.leafCount (.var v) = 0
  symbol : ∃ f, s.symbol = .op f
  nodup : vs.Nodup
  nonempty : vs ≠ []
  soleVars : conditions.map Term.soleVar? = vs.map some
  heads : subjects.map Term.head = vs.map .var
  conditions : conditions = subjects.map s.goal
  conclusion : conclusion = s.goal (.app s.symbol args)
  args_ne : args ≠ []
  described : s.slots.Describes args vs

namespace Stated

variable {s : Schema} {conditions : List Term} {conclusion : Term} {vs : List Serial}
  {subjects args : List Term}

/-- There is a condition for each variable. -/
theorem length_conditions (h : s.Stated conditions conclusion vs subjects args) :
    conditions.length = vs.length := by
  simpa using congrArg List.length h.soleVars

/-- There is an open argument for each condition. -/
theorem length_openArgs (h : s.Stated conditions conclusion vs subjects args) {t : Term}
    (ht : s.fits t) : (s.openArgs t).length = conditions.length := by
  cases t with
  | app f as =>
    rw [h.length_conditions]
    exact h.described.length_openArgs (fits_iff.mp ht).2

/-- No substitution changes a template without variables. -/
theorem fixedBy_of_vars_eq_nil (h : s.Stated conditions conclusion vs subjects args)
    (hvars : s.template.body.vars = []) (σ : Substitution) : s.template.FixedBy σ :=
  h.proper.oneHole.apply_replaceLeaf hvars σ

/-- To bind the variables is to bind all variables of the conditions. -/
theorem covers_conditions (h : s.Stated conditions conclusion vs subjects args) {σ : Substitution}
    (hσ : ∀ v ∈ vs, (σ.get? v).isSome) {t : Term} (ht : t ∈ conditions) : σ.Covers t := by
  have hmem : t.soleVar? ∈ vs.map some := by
    rw [← h.soleVars]
    exact List.mem_map_of_mem ht
  obtain ⟨v, hv, hsole⟩ := List.mem_map.mp hmem
  intro w hw
  cases (Term.mem_symbols_of_soleVar hsole.symm).mp (Term.mem_symbols_of_mem_outerVars hw)
  exact hσ v hv

/-- With the open arguments for the variables, the conditions become the goals for them. -/
theorem map_apply_conditions (h : s.Stated conditions conclusion vs subjects args)
    {σ : Substitution} (hfixed : s.template.FixedBy σ) {us : List Term}
    (hσ : vs.map σ.get? = us.map some) : conditions.map σ.apply = us.map s.goal := by
  rw [h.conditions, map_apply_goal hfixed, Substitution.map_apply_of_heads h.heads hσ]

/-- With the open arguments of a fitting term for the variables, the conclusion becomes the goal for
the term. -/
theorem apply_conclusion (h : s.Stated conditions conclusion vs subjects args)
    {σ : Substitution} (hfixed : s.template.FixedBy σ) {t : Term} (ht : s.fits t)
    (hσ : vs.map σ.get? = (s.openArgs t).map some) : σ.apply conclusion = s.goal t := by
  obtain ⟨f, hf⟩ := h.symbol
  cases t with
  | app g as =>
    obtain ⟨rfl, hfits⟩ := fits_iff.mp ht
    have hsymbol : s.symbol.varId? = none := by
      rw [hf]
      rfl
    rw [h.conclusion, goal, hfixed, Substitution.apply_app hsymbol,
      h.described.map_apply hfits hσ, goal]

/-! ### Shallow conclusions -/

/-- In a conclusion with three levels, the arguments of the application are leaves. -/
theorem args_eq_nil (h : s.Stated conditions conclusion vs subjects args)
    (hdepth : conclusion.depth ≤ 3) {t : Term} (ht : t ∈ args) : t.args = [] := by
  have harg : t.depth < (Term.app s.symbol args).depth := Term.depth_lt_of_mem ht
  have hfill : (Term.app s.symbol args).depth < conclusion.depth := by
    rw [h.conclusion]
    exact h.proper.depth_lt_fill _
  cases t with
  | app f as =>
    have hleaf : (Term.app f as).depth ≤ 1 := by omega
    exact Term.args_eq_nil_of_depth hleaf

/-- A conclusion with three levels has no variables but those of the conditions, if the property has
none. -/
theorem mem_of_mem_vars (h : s.Stated conditions conclusion vs subjects args)
    (hvars : s.template.body.vars = []) (hdepth : conclusion.depth ≤ 3) {v : Serial}
    (hv : v ∈ conclusion.vars) : v ∈ vs := by
  obtain ⟨f, hf⟩ := h.symbol
  rw [Term.mem_vars, h.conclusion] at hv
  rcases h.proper.oneHole.mem_symbols_replaceLeaf.mp hv with ⟨-, hv⟩ | hv
  · exact absurd hv (Term.vars_eq_nil.mp hvars v)
  · rcases Term.mem_symbols_app.mp hv with hv | ⟨t, ht, hv⟩
    · cases hv.trans hf
    · exact h.described.mem_of_mem_symbols (fun u hu _ _ => h.args_eq_nil hdepth hu) ht hv

/-- In a conclusion with three levels, the property is stated by an operator right above the
application. -/
theorem exists_fill_eq (h : s.Stated conditions conclusion vs subjects args)
    (hdepth : conclusion.depth ≤ 3) :
    ∃ r pre post, r.varId? = none ∧ ∀ x, s.goal x = .app r (pre ++ x :: post) := by
  have hargs : 1 < (Term.app s.symbol args).depth := by
    obtain ⟨t, ts, rfl⟩ := List.exists_cons_of_ne_nil h.args_ne
    exact Nat.lt_of_le_of_lt t.depth_pos (Term.depth_lt_of_mem List.mem_cons_self)
  rw [h.conclusion] at hdepth
  obtain ⟨r, pre, post, hbody, hpre, hpost⟩ :=
    h.proper.oneHole.exists_args_of_depth h.proper.head_ne (Nat.le_trans hdepth (by omega))
  refine ⟨r, pre, post, ?_, fun x => ?_⟩
  · have hroot := h.root
    rw [hbody] at hroot
    exact hroot
  · rw [goal, Template.fill, hbody, Term.replaceLeaf_hole_arg _ _ hpre hpost,
      Term.replaceLeaf_leaf]

/-- If the conditions of a shallow conclusion become goals, the substitution leaves the property
alone and binds the variables to what the goals are about. -/
theorem fixedBy_of_instance (h : s.Stated conditions conclusion vs subjects args)
    (hdepth : conclusion.depth ≤ 3) {σ : Substitution} (hcov : ∀ t ∈ conditions, σ.Covers t)
    {us : List Term} (hσ : conditions.map σ.apply = us.map s.goal) :
    s.template.FixedBy σ ∧ vs.map σ.get? = us.map some := by
  obtain ⟨r, pre, post, hr, hgoal⟩ := h.exists_fill_eq hdepth
  rw [h.conditions] at hσ hcov
  have hfixed : s.template.FixedBy σ := by
    have hheads := h.heads
    obtain ⟨v, vs, rfl⟩ := List.exists_cons_of_ne_nil h.nonempty
    cases subjects with
    | nil => cases hheads
    | cons x xs =>
      cases us with
      | nil => cases hσ
      | cons u us =>
        -- One condition is enough to see that the arguments beside the hole are fixed.
        have hx : σ.apply (s.goal x) = s.goal u := (List.cons.inj hσ).1
        rw [hgoal, hgoal] at hx
        obtain ⟨hpre, -, hpost⟩ := Substitution.fixed_of_apply_arg hr hx
        intro t
        change σ.apply (s.goal t) = s.goal (σ.apply t)
        rw [hgoal, hgoal, Substitution.apply_app hr, List.map_append, List.map_cons, hpre, hpost]
  have hsubjects : subjects.map σ.apply = us := by
    rw [map_apply_goal hfixed] at hσ
    exact (List.map_inj_right fun x y hxy => h.proper.fill_injective hxy).mp hσ
  refine ⟨hfixed, ?_⟩
  rw [← hsubjects]
  refine Substitution.map_get?_of_heads h.heads fun x hx => ?_
  have hx' := hcov _ (List.mem_map_of_mem hx)
  rw [hgoal] at hx'
  exact (Substitution.covers_app hr).mp hx' x List.mem_append_cons_self

end Stated

end Schema

end Lemmata
