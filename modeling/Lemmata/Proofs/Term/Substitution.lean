import Lemmata.Proofs.Term.Basic
import Lemmata.Term.Substitution

/-!
# Substitutions and matching

A substitution replaces a bound variable together with whatever stands below it, so what it does to
a term depends on the outermost variables only: those without a variable above them. A match binds
exactly these. It is sound, for the substitution it ends with turns the general term into the
special one (`matchTerm_sound`), and complete, for it succeeds whenever some substitution does that,
and then its bindings are among those of that substitution (`matchTerm_complete`).

A substitution that binds the outermost variables can bind the others as it likes. So there is a
solution that binds all variables exactly if there is one that binds the outermost, and the match
finds the least of either sort (`matchTerm_least`).

Nothing here assumes that a variable is a leaf.
-/

namespace Lemmata

namespace Term

mutual

/-- The variables with no variable above them. -/
def outerVars : Term → List Serial
  | app (.var v) _ => [v]
  | app _ as => outerVarsList as

def outerVarsList : List Term → List Serial
  | [] => []
  | t :: ts => t.outerVars ++ outerVarsList ts

end

/-- The outer variables of a list of terms are those of its terms, one after the other. -/
theorem outerVarsList_eq_flatMap (ts : List Term) : outerVarsList ts = ts.flatMap outerVars := by
  induction ts with
  | nil => rfl
  | cons t ts ih => rw [outerVarsList, ih, List.flatMap_cons]

/-- Under a root that is no variable the outer variables are those of the arguments. -/
theorem outerVars_app {h : Symbol} (hh : h.varId? = none) (as : List Term) :
    (app h as).outerVars = as.flatMap outerVars := by
  cases h with
  | var v => cases hh
  | op f => rw [outerVars, outerVarsList_eq_flatMap]; simp
  | hole => rw [outerVars, outerVarsList_eq_flatMap]; simp

/-- A variable at the root is an outer variable. -/
theorem mem_outerVars_of_head {t : Term} {v : Serial} (h : t.head = .var v) : v ∈ t.outerVars := by
  cases t with
  | app s as =>
    cases h
    rw [outerVars]
    exact List.mem_singleton_self v

/-- Outer variables occur in the term. -/
theorem mem_symbols_of_mem_outerVars {t : Term} {v : Serial} (hv : v ∈ t.outerVars) :
    .var v ∈ t.symbols := by
  induction t with
  | app s as ih =>
    cases hs : s.varId? with
    | some w =>
      cases Symbol.eq_var_of_varId? hs
      rw [outerVars, List.mem_singleton] at hv
      exact mem_symbols_app.mpr (.inl (congrArg Symbol.var hv))
    | none =>
      rw [outerVars_app hs, List.mem_flatMap] at hv
      obtain ⟨t, ht, hv⟩ := hv
      exact mem_symbols_of_mem_args ht (ih t ht hv)

end Term

namespace Substitution

/-! ## Bindings -/

theorem lookup_cons_eq (v w : Serial) (t : Term) (bs : List (Serial × Term)) :
    ((v, t) :: bs).lookup w = if w = v then some t else bs.lookup w := by
  by_cases hw : w = v
  · rw [if_pos hw, hw, List.lookup_cons_self]
  · rw [if_neg hw, List.lookup_cons, beq_false_of_ne hw]

/-- Inserting a binding gives the variable its term and leaves the other variables alone. -/
theorem lookup_insertBinding (v w : Serial) (t : Term) (bs : List (Serial × Term)) :
    (insertBinding v t bs).lookup w = if w = v then some t else bs.lookup w := by
  induction bs with
  | nil => rw [insertBinding, lookup_cons_eq]
  | cons b bs ih =>
    obtain ⟨x, u⟩ := b
    rw [insertBinding]
    split
    · rw [lookup_cons_eq]
    · split
      next hvx =>
        rw [lookup_cons_eq, lookup_cons_eq, ← hvx]
        by_cases hw : w = v
        · rw [if_pos hw, if_pos hw]
        · rw [if_neg hw, if_neg hw, if_neg hw]
      next hvx =>
        rw [lookup_cons_eq, lookup_cons_eq, ih]
        by_cases hw : w = v
        · rw [if_pos hw, if_neg (hw ▸ hvx), if_pos hw]
        · rw [if_neg hw, if_neg hw]

/-- A bound variable has its new term, whatever it had before, and the others keep theirs. -/
theorem get?_bind (σ : Substitution) (v w : Serial) (t : Term) :
    (σ.bind v t).get? w = if w = v then some t else σ.get? w :=
  lookup_insertBinding v w t σ.bindings

/-- The order that the bindings are kept in. -/
def Ordered (σ : Substitution) : Prop :=
  σ.domain.Pairwise (· < ·)

theorem ordered_empty : empty.Ordered :=
  List.Pairwise.nil

/-- Inserting a binding makes one variable known and no other. -/
theorem mem_domain_insertBinding {v w : Serial} {t : Term} {bs : List (Serial × Term)}
    (hw : w ∈ (insertBinding v t bs).map (·.1)) : w = v ∨ w ∈ bs.map (·.1) := by
  induction bs with
  | nil => simpa [insertBinding] using hw
  | cons b bs ih =>
    obtain ⟨x, u⟩ := b
    rw [insertBinding] at hw
    split at hw
    · simpa using hw
    · split at hw
      next hvx =>
        subst hvx
        simpa using hw
      · rw [List.map_cons, List.mem_cons] at hw ⊢
        rcases hw with hw | hw
        · exact .inr (.inl hw)
        · exact (ih hw).imp_right .inr

/-- Binding keeps the order. -/
theorem Ordered.bind {σ : Substitution} (hσ : σ.Ordered) (v : Serial) (t : Term) :
    (σ.bind v t).Ordered := by
  obtain ⟨bs⟩ := σ
  change (bs.map (·.1)).Pairwise (· < ·) at hσ
  change ((insertBinding v t bs).map (·.1)).Pairwise (· < ·)
  induction bs with
  | nil => simp [insertBinding]
  | cons b bs ih =>
    obtain ⟨x, u⟩ := b
    rw [List.map_cons, List.pairwise_cons] at hσ
    rw [insertBinding]
    split
    next hlt =>
      rw [List.map_cons, List.map_cons, List.pairwise_cons, List.pairwise_cons]
      refine ⟨fun w hw => ?_, hσ⟩
      rcases List.mem_cons.mp hw with rfl | hw
      · exact hlt
      · exact Fin.lt_trans hlt (hσ.1 w hw)
    next hlt =>
      split
      next hvx =>
        rw [List.map_cons, List.pairwise_cons]
        exact ⟨hvx ▸ hσ.1, hσ.2⟩
      next hvx =>
        rw [List.map_cons, List.pairwise_cons]
        refine ⟨fun w hw => ?_, ih hσ.2⟩
        rcases mem_domain_insertBinding hw with rfl | hw
        · exact Nat.lt_of_le_of_ne (Fin.not_lt.mp hlt) fun h => hvx (Fin.ext h.symm)
        · exact hσ.1 w hw

/-- Different variables can be bound to any terms. -/
theorem exists_of_nodup {vs : List Serial} {ts : List Term} (hvs : vs.Nodup)
    (hlen : vs.length = ts.length) :
    ∃ σ : Substitution, σ.Ordered ∧ vs.map σ.get? = ts.map some := by
  induction vs generalizing ts with
  | nil =>
    cases ts with
    | nil => exact ⟨empty, ordered_empty, rfl⟩
    | cons t ts => cases hlen
  | cons v vs ih =>
    cases ts with
    | nil => cases hlen
    | cons t ts =>
      obtain ⟨hv, hvs⟩ := List.nodup_cons.mp hvs
      obtain ⟨σ, hσ, hget⟩ := ih hvs (Nat.succ.inj hlen)
      refine ⟨σ.bind v t, hσ.bind v t, ?_⟩
      rw [List.map_cons, List.map_cons, get?_bind, if_pos rfl, ← hget]
      congr 1
      refine List.map_congr_left fun w hw => ?_
      have hne : w ≠ v := fun h => hv (h ▸ hw)
      rw [get?_bind, if_neg hne]

/-- The substitution binds what the other one binds, to the same terms. -/
def Extends (τ σ : Substitution) : Prop :=
  ∀ v t, σ.get? v = some t → τ.get? v = some t

theorem Extends.refl (σ : Substitution) : σ.Extends σ :=
  fun _ _ h => h

/-- What extends an extension extends the substitution itself. -/
theorem Extends.trans {ρ τ σ : Substitution} (hρ : ρ.Extends τ) (hτ : τ.Extends σ) :
    ρ.Extends σ :=
  fun v t h => hρ v t (hτ v t h)

theorem extends_empty (τ : Substitution) : τ.Extends empty :=
  fun _ _ h => nomatch h

/-- Binding a free variable only adds to a substitution. -/
theorem extends_bind {σ : Substitution} {v : Serial} (hv : σ.get? v = none) (t : Term) :
    (σ.bind v t).Extends σ := by
  intro w u hw
  rw [get?_bind, if_neg, hw]
  rintro rfl
  rw [hv] at hw
  cases hw

/-- The outermost variables of the term are bound. -/
def Covers (σ : Substitution) (t : Term) : Prop :=
  ∀ v ∈ t.outerVars, (σ.get? v).isSome

/-- More bindings cover at least as much. -/
theorem Covers.mono {τ σ : Substitution} {t : Term} (hτ : τ.Extends σ) (hσ : σ.Covers t) :
    τ.Covers t := by
  intro v hv
  obtain ⟨u, hu⟩ := Option.isSome_iff_exists.mp (hσ v hv)
  rw [hτ v u hu]
  rfl

/-- Under a root that is no variable a term is covered if its arguments are. -/
theorem covers_app {σ : Substitution} {h : Symbol} (hh : h.varId? = none) {as : List Term} :
    σ.Covers (.app h as) ↔ ∀ t ∈ as, σ.Covers t := by
  simp only [Covers, Term.outerVars_app hh, List.mem_flatMap]
  exact ⟨fun H t ht v hv => H v ⟨t, ht, hv⟩, fun H v ⟨t, ht, hv⟩ => H t ht v hv⟩

/-! ## Application -/

/-- A substitution is applied to a list of terms one by one. -/
theorem applyList_eq_map (σ : Substitution) (ts : List Term) :
    σ.applyList ts = ts.map σ.apply := by
  induction ts with
  | nil => rfl
  | cons t ts ih => rw [applyList, ih, List.map_cons]

/-- Under a root that is no variable a substitution is applied to the arguments. -/
theorem apply_app {σ : Substitution} {h : Symbol} (hh : h.varId? = none) (as : List Term) :
    σ.apply (.app h as) = .app h (as.map σ.apply) := by
  rw [apply, hh, ← applyList_eq_map]
  rfl

/-- A bound variable is replaced with all that stands below it. -/
theorem apply_of_head_var {σ : Substitution} {t u : Term} {v : Serial} (ht : t.head = .var v)
    (hv : σ.get? v = some u) : σ.apply t = u := by
  cases t with
  | app h as =>
    cases ht
    rw [apply, Symbol.varId?, Option.bind_some, hv]

/-- A term without variables is not changed. -/
theorem apply_of_vars_eq_nil {σ : Substitution} {t : Term} (ht : t.vars = []) :
    σ.apply t = t := by
  induction t with
  | app h as ih =>
    have hh : h.varId? = none := by
      cases h with
      | var v => exact absurd List.mem_cons_self (Term.vars_eq_nil.mp ht v)
      | op f => rfl
      | hole => rfl
    rw [apply_app hh]
    congr 1
    refine (List.map_congr_left fun t hmem => ?_).trans (List.map_id' as)
    exact ih t hmem (Term.vars_eq_nil_of_mem_args ht hmem)

/-- Once the outermost variables of a term are bound, more bindings do not change what becomes of
it. -/
theorem apply_eq_of_extends {τ σ : Substitution} {t : Term} (hτ : τ.Extends σ)
    (hσ : σ.Covers t) : τ.apply t = σ.apply t := by
  induction t with
  | app h as ih =>
    cases hh : h.varId? with
    | some v =>
      obtain rfl := Symbol.eq_var_of_varId? hh
      obtain ⟨u, hu⟩ := Option.isSome_iff_exists.mp (hσ v (by simp [Term.outerVars]))
      rw [apply_of_head_var rfl hu, apply_of_head_var rfl (hτ v u hu)]
    | none =>
      rw [apply_app hh, apply_app hh]
      congr 1
      exact List.map_congr_left fun t ht => ih t ht ((covers_app hh).mp hσ t ht)

/-- If an instance of an application differs in one argument only, the others are fixed. -/
theorem fixed_of_apply_arg {σ : Substitution} {r : Symbol} (hr : r.varId? = none)
    {pre post : List Term} {x u : Term}
    (h : σ.apply (.app r (pre ++ x :: post)) = .app r (pre ++ u :: post)) :
    pre.map σ.apply = pre ∧ σ.apply x = u ∧ post.map σ.apply = post := by
  rw [apply_app hr, List.map_append, List.map_cons] at h
  obtain ⟨hpre, hrest⟩ := List.append_inj (Term.app.inj h).2 (List.length_map ..)
  obtain ⟨hx, hpost⟩ := List.cons.inj hrest
  exact ⟨hpre, hx, hpost⟩

/-- Terms that start with bound variables become what these are bound to. -/
theorem map_apply_of_heads {σ : Substitution} {vs : List Serial} {xs us : List Term}
    (hxs : xs.map Term.head = vs.map .var) (hσ : vs.map σ.get? = us.map some) :
    xs.map σ.apply = us := by
  induction xs generalizing vs us with
  | nil =>
    cases vs with
    | nil =>
      cases us with
      | nil => rfl
      | cons u us => cases hσ
    | cons v vs => cases hxs
  | cons x xs ih =>
    cases vs with
    | nil => cases hxs
    | cons v vs =>
      cases us with
      | nil => cases hσ
      | cons u us =>
        obtain ⟨hx, hxs⟩ := List.cons.inj hxs
        obtain ⟨hv, hvs⟩ := List.cons.inj hσ
        rw [List.map_cons, apply_of_head_var hx hv, ih hxs hvs]

/-- Variables are bound to what the terms that start with them become, if they are bound. -/
theorem map_get?_of_heads {σ : Substitution} {vs : List Serial} {xs : List Term}
    (hxs : xs.map Term.head = vs.map .var) (hcov : ∀ x ∈ xs, σ.Covers x) :
    vs.map σ.get? = (xs.map σ.apply).map some := by
  induction xs generalizing vs with
  | nil =>
    cases vs with
    | nil => rfl
    | cons v vs => cases hxs
  | cons x xs ih =>
    cases vs with
    | nil => cases hxs
    | cons v vs =>
      obtain ⟨hx, hxs⟩ := List.cons.inj hxs
      obtain ⟨hcovx, hcov⟩ := List.forall_mem_cons.mp hcov
      obtain ⟨u, hu⟩ := Option.isSome_iff_exists.mp (hcovx v (Term.mem_outerVars_of_head hx))
      rw [List.map_cons, List.map_cons, List.map_cons, apply_of_head_var hx hu, hu, ih hxs hcov]

/-- Variables that are bound to given terms are bound. -/
theorem isSome_of_map_get? {σ : Substitution} {vs : List Serial} {us : List Term}
    (hσ : vs.map σ.get? = us.map some) : ∀ v ∈ vs, (σ.get? v).isSome := by
  intro v hv
  have hmem : σ.get? v ∈ us.map some := hσ ▸ List.mem_map_of_mem hv
  obtain ⟨u, -, hu⟩ := List.mem_map.mp hmem
  rw [← hu]
  rfl

/-- Bare variables become the terms they are bound to. -/
theorem map_apply_leaf_var {σ : Substitution} {vs : List Serial} {ts : List Term}
    (hσ : vs.map σ.get? = ts.map some) :
    (vs.map fun v => .leaf (.var v)).map σ.apply = ts :=
  map_apply_of_heads (List.map_map ..) hσ

/-- Different bare variables can become any terms. -/
theorem exists_map_apply_leaf_var {vs : List Serial} {ts : List Term} (hvs : vs.Nodup)
    (hlen : vs.length = ts.length) :
    ∃ σ : Substitution, σ.Ordered ∧ (vs.map fun v => .leaf (.var v)).map σ.apply = ts := by
  obtain ⟨σ, hσ, hget⟩ := exists_of_nodup hvs hlen
  exact ⟨σ, hσ, map_apply_leaf_var hget⟩

/-- A substitution is applied to both sides of a relation. -/
theorem apply_binary {σ : Substitution} {s : Symbol} (hs : s.varId? = none) (l r : Term) :
    σ.apply (.binary s l r) = .binary s (σ.apply l) (σ.apply r) := by
  rw [Term.binary, apply_app hs]
  rfl

/-! ## Matching -/

/-- Under a root that is no variable, two terms match if they have the same root and equally many
arguments that match in order. A failure keeps the bindings made so far. -/
theorem matchTerm_app {σ : Substitution} {f g : Symbol} (hf : f.varId? = none)
    (as bs : List Term) :
    σ.matchTerm (.app f as) (.app g bs) =
      if f = g ∧ as.length = bs.length then σ.matchList as bs else ⟨σ, false⟩ := by
  cases f with
  | var v => cases hf
  | op k => rw [matchTerm]; simp
  | hole => rw [matchTerm]; simp

/-- What survives the binding of a free variable. -/
def BindInvariant (I : Substitution → Prop) : Prop :=
  ∀ (σ : Substitution) (v : Serial) (t : Term), σ.get? v = none → I σ → I (σ.bind v t)

/-- To match a variable keeps what every new binding keeps. -/
theorem matchVar_invariant {I : Substitution → Prop} (hI : BindInvariant I) {σ : Substitution}
    (v : Serial) (t : Term) (hσ : I σ) : I (σ.matchVar v t).subst := by
  rw [matchVar]
  cases hv : σ.get? v with
  | none => exact hI σ v t hv hσ
  | some u => exact hσ

mutual

/-- What survives the binding of a free variable holds wherever a match ends, be it with success or
not. -/
theorem matchTerm_invariant {I : Substitution → Prop} (hI : BindInvariant I) :
    (σ : Substitution) → (p t : Term) → I σ → I (σ.matchTerm p t).subst
  | σ, .app f as, .app g bs, hσ => by
    cases hf : f.varId? with
    | some v =>
      obtain rfl := Symbol.eq_var_of_varId? hf
      rw [matchTerm]
      exact matchVar_invariant hI v _ hσ
    | none =>
      rw [matchTerm_app hf]
      split
      · exact matchList_invariant hI σ as bs hσ
      · exact hσ

theorem matchList_invariant {I : Substitution → Prop} (hI : BindInvariant I) :
    (σ : Substitution) → (ps ts : List Term) → I σ → I (σ.matchList ps ts).subst
  | σ, [], [], hσ => by
    rw [matchList]
    exact hσ
  | σ, [], _ :: _, hσ => by
    rw [matchList]
    · exact hσ
    all_goals simp
  | σ, _ :: _, [], hσ => by
    rw [matchList]
    · exact hσ
    all_goals simp
  | σ, p :: ps, t :: ts, hσ => by
    have hτ := matchTerm_invariant hI σ p t hσ
    rw [matchList]
    cases hm : σ.matchTerm p t with
    | mk τ matched =>
      rw [hm] at hτ
      cases matched with
      | true => exact matchList_invariant hI τ ps ts hτ
      | false => exact hτ

end

/-- To extend a substitution is kept by new bindings. -/
theorem bindInvariant_extends (σ : Substitution) : BindInvariant fun τ => τ.Extends σ :=
  fun _ _ u hv hτ => (extends_bind hv u).trans hτ

/-- A match only adds bindings. -/
theorem matchTerm_extends (σ : Substitution) (p t : Term) : (σ.matchTerm p t).subst.Extends σ :=
  matchTerm_invariant (bindInvariant_extends σ) σ p t (Extends.refl σ)

theorem matchList_extends (σ : Substitution) (ps ts : List Term) :
    (σ.matchList ps ts).subst.Extends σ :=
  matchList_invariant (bindInvariant_extends σ) σ ps ts (Extends.refl σ)

/-- Matching keeps the bindings in order, also if it fails. -/
theorem ordered_matchTerm {σ : Substitution} (hσ : σ.Ordered) (p t : Term) :
    (σ.matchTerm p t).subst.Ordered :=
  matchTerm_invariant (fun _ v u _ hτ => hτ.bind v u) σ p t hσ

/-- A variable that is matched is bound to the term, now or before. -/
theorem matchVar_sound {σ τ : Substitution} {v : Serial} {t : Term}
    (hm : σ.matchVar v t = ⟨τ, true⟩) : τ.get? v = some t := by
  rw [matchVar] at hm
  cases hv : σ.get? v with
  | none =>
    simp only [hv, Match.mk.injEq, and_true] at hm
    rw [← hm, get?_bind, if_pos rfl]
  | some u =>
    simp only [hv, Match.mk.injEq, decide_eq_true_eq] at hm
    rw [← hm.1, hv, hm.2]

mutual

/-- A match that succeeds ends with a substitution that binds the outermost variables of the general
term and turns it into the special one. -/
theorem matchTerm_sound : (σ : Substitution) → (p t : Term) → {τ : Substitution} →
    σ.matchTerm p t = ⟨τ, true⟩ → τ.Covers p ∧ τ.apply p = t
  | σ, .app f as, .app g bs, τ, hm => by
    cases hf : f.varId? with
    | some v =>
      obtain rfl := Symbol.eq_var_of_varId? hf
      rw [matchTerm] at hm
      have hv := matchVar_sound hm
      refine ⟨fun w hw => ?_, apply_of_head_var rfl hv⟩
      obtain rfl : w = v := by simpa [Term.outerVars] using hw
      rw [hv]
      rfl
    | none =>
      rw [matchTerm_app hf] at hm
      split at hm
      next hroot =>
        obtain ⟨hcov, happ⟩ := matchList_sound σ as bs hm
        refine ⟨(covers_app hf).mpr hcov, ?_⟩
        rw [apply_app hf, happ, hroot.1]
      · cases hm

theorem matchList_sound : (σ : Substitution) → (ps ts : List Term) → {τ : Substitution} →
    σ.matchList ps ts = ⟨τ, true⟩ → (∀ p ∈ ps, τ.Covers p) ∧ ps.map τ.apply = ts
  | σ, [], [], τ, _ => ⟨List.forall_mem_nil _, rfl⟩
  | σ, [], _ :: _, τ, hm => by simp [matchList] at hm
  | σ, _ :: _, [], τ, hm => by simp [matchList] at hm
  | σ, p :: ps, t :: ts, τ, hm => by
    rw [matchList] at hm
    cases hp : σ.matchTerm p t with
    | mk ρ matched =>
      cases matched with
      | false => simp [hp] at hm
      | true =>
        simp only [hp] at hm
        obtain ⟨hcov, happ⟩ := matchTerm_sound σ p t hp
        obtain ⟨hcovs, happs⟩ := matchList_sound ρ ps ts hm
        -- The rest of the match adds to `ρ`, which changes nothing about `p`.
        have hext : τ.Extends ρ := by
          have := matchList_extends ρ ps ts
          rwa [hm] at this
        refine ⟨List.forall_mem_cons.mpr ⟨hcov.mono hext, hcovs⟩, ?_⟩
        rw [List.map_cons, happs, apply_eq_of_extends hext hcov, happ]

end

/-- If an extension binds the variable to the term, then matching goes through and leads no further
than this extension. -/
theorem matchVar_complete {ρ σ : Substitution} {v : Serial} {t : Term} (hρ : ρ.Extends σ)
    (hv : ρ.get? v = some t) : ∃ τ, σ.matchVar v t = ⟨τ, true⟩ ∧ ρ.Extends τ := by
  cases hσ : σ.get? v with
  | none =>
    refine ⟨σ.bind v t, by simp only [matchVar, hσ], fun w u hw => ?_⟩
    rw [get?_bind] at hw
    split at hw
    next hwv =>
      cases hw
      rw [hwv, hv]
    · exact hρ w u hw
  | some u =>
    have hut : u = t := Option.some.inj ((hρ v u hσ).symm.trans hv)
    exact ⟨σ, by simp only [matchVar, hσ, hut, decide_true], hρ⟩

mutual

/-- If a substitution that binds the outermost variables of the general term turns it into the
special one, the match succeeds, with bindings of that substitution. -/
theorem matchTerm_complete {ρ : Substitution} : (σ : Substitution) → (p t : Term) →
    ρ.Extends σ → ρ.Covers p → ρ.apply p = t →
      ∃ τ, σ.matchTerm p t = ⟨τ, true⟩ ∧ ρ.Extends τ
  | σ, .app f as, t, hρ, hcov, happ => by
    cases hf : f.varId? with
    | some v =>
      obtain rfl := Symbol.eq_var_of_varId? hf
      obtain ⟨u, hu⟩ := Option.isSome_iff_exists.mp (hcov v (by simp [Term.outerVars]))
      rw [apply_of_head_var rfl hu] at happ
      rw [matchTerm]
      exact matchVar_complete hρ (happ ▸ hu)
    | none =>
      rw [apply_app hf] at happ
      subst happ
      rw [matchTerm_app hf, if_pos ⟨rfl, List.length_map _ |>.symm⟩]
      exact matchList_complete σ as hρ ((covers_app hf).mp hcov)

theorem matchList_complete {ρ : Substitution} : (σ : Substitution) → (ps : List Term) →
    ρ.Extends σ → (∀ p ∈ ps, ρ.Covers p) →
      ∃ τ, σ.matchList ps (ps.map ρ.apply) = ⟨τ, true⟩ ∧ ρ.Extends τ
  | σ, [], hρ, _ => ⟨σ, by rw [List.map_nil, matchList], hρ⟩
  | σ, p :: ps, hρ, hcov => by
    obtain ⟨hp, hps⟩ := List.forall_mem_cons.mp hcov
    obtain ⟨τ, hm, hτ⟩ := matchTerm_complete σ p _ hρ hp rfl
    obtain ⟨τ', hms, hτ'⟩ := matchList_complete τ ps hτ hps
    exact ⟨τ', by simp only [List.map_cons, matchList, hm, hms], hτ'⟩

end

/-- The substitution of a match is what matching leaves if it goes through. -/
theorem ofMatch?_eq_some_iff {p t : Term} {σ : Substitution} :
    ofMatch? p t = some σ ↔ empty.matchTerm p t = ⟨σ, true⟩ := by
  rw [ofMatch?]
  split
  next τ hm => simp [hm]
  next τ hm => simp [hm]

/-- A match from scratch yields a substitution that turns the general term into the special one. -/
theorem ofMatch?_sound {p t : Term} {σ : Substitution} (h : ofMatch? p t = some σ) :
    σ.Ordered ∧ σ.Covers p ∧ σ.apply p = t := by
  have hm := ofMatch?_eq_some_iff.mp h
  have hord := ordered_matchTerm ordered_empty p t
  rw [hm] at hord
  exact ⟨hord, matchTerm_sound empty p t hm⟩

/-- A match from scratch succeeds if there is anything to be found. -/
theorem ofMatch?_complete {p t : Term} {ρ : Substitution} (hcov : ρ.Covers p)
    (happ : ρ.apply p = t) : ∃ σ, ofMatch? p t = some σ ∧ ρ.Extends σ := by
  obtain ⟨σ, hm, hσ⟩ := matchTerm_complete empty p t (extends_empty ρ) hcov happ
  exact ⟨σ, ofMatch?_eq_some_iff.mpr hm, hσ⟩

/-! ## The least solution -/

/-- All variables of the term are bound, those below other variables too. -/
def Binds (σ : Substitution) (t : Term) : Prop :=
  ∀ v ∈ t.vars, (σ.get? v).isSome

-- by a search of the list, as the instance for numbers below a bound tries all of them
instance (σ : Substitution) (t : Term) : Decidable (σ.Binds t) :=
  List.decidableBAll (fun v => (σ.get? v).isSome) t.vars

/-- The search for a variable without a term finds none exactly if all variables are bound. -/
theorem find?_vars_eq_none_iff {σ : Substitution} {t : Term} :
    t.vars.find? (fun v => (σ.get? v).isNone) = none ↔ σ.Binds t := by
  simp [Binds, Option.isSome_iff_ne_none]

/-- If all variables are bound, then so are the outer ones. -/
theorem Binds.covers {σ : Substitution} {t : Term} (h : σ.Binds t) : σ.Covers t := by
  intro v hv
  exact h v (Term.mem_vars.mpr (Term.mem_symbols_of_mem_outerVars hv))

/-- Bindings can be added for any variables that are free. -/
theorem exists_extends_binding {σ : Substitution} (hσ : σ.Ordered) (vs : List Serial) :
    ∃ τ : Substitution, τ.Ordered ∧ τ.Extends σ ∧ ∀ v ∈ vs, (τ.get? v).isSome := by
  induction vs with
  | nil => exact ⟨σ, hσ, .refl σ, List.forall_mem_nil _⟩
  | cons v vs ih =>
    obtain ⟨τ, hord, hext, hvs⟩ := ih
    cases hv : τ.get? v with
    | some t => exact ⟨τ, hord, hext, List.forall_mem_cons.mpr ⟨Option.isSome_of_eq_some hv, hvs⟩⟩
    | none =>
      have hbind : (τ.bind v (.leaf (.var v))).Extends τ := extends_bind hv _
      refine ⟨_, hord.bind v (.leaf (.var v)), hbind.trans hext, List.forall_mem_cons.mpr ⟨?_, ?_⟩⟩
      · simp [get?_bind]
      · intro w hw
        obtain ⟨t, ht⟩ := Option.isSome_iff_exists.mp (hvs w hw)
        exact Option.isSome_of_eq_some (hbind w t ht)

/-- The substitution `τ` is `σ` with bindings added, binds all variables of the general term and
turns it into the special one. -/
structure Solves (τ σ : Substitution) (general special : Term) : Prop where
  ordered : τ.Ordered
  extends_start : τ.Extends σ
  binds : τ.Binds general
  apply_eq : τ.apply general = special

/-- A match that succeeds can be made a solution by binding the variables it has not met. -/
theorem exists_solves {σ τ : Substitution} (hσ : σ.Ordered) {general special : Term}
    (hm : σ.matchTerm general special = ⟨τ, true⟩) : ∃ ρ : Substitution, ρ.Solves σ general special := by
  have hord := ordered_matchTerm hσ general special
  have hext := matchTerm_extends σ general special
  rw [hm] at hord hext
  obtain ⟨hcov, happ⟩ := matchTerm_sound σ general special hm
  obtain ⟨ρ, hρ, hρτ, hbinds⟩ := exists_extends_binding hord general.vars
  exact ⟨ρ, hρ, hρτ.trans hext, hbinds, (apply_eq_of_extends hρτ hcov).trans happ⟩

/-- Matching keeps the bindings it starts from, whether it succeeds or not. It succeeds exactly if
there is a solution, and then its own bindings turn the general term into the special one and are
among those of every solution. -/
theorem matchTerm_least {σ : Substitution} (hσ : σ.Ordered) (general special : Term) :
    let m := σ.matchTerm general special
    m.subst.Ordered ∧ m.subst.Extends σ ∧
      (m.matched ↔ ∃ τ : Substitution, τ.Solves σ general special) ∧
      (m.matched → m.subst.apply general = special ∧
        ∀ τ : Substitution, τ.Solves σ general special → τ.Extends m.subst) := by
  intro m
  have hmatch (hmatched : m.matched) : σ.matchTerm general special = ⟨m.subst, true⟩ := by
    rw [← hmatched]
  have hfound (τ : Substitution) (hτ : τ.Solves σ general special) :
      m.matched ∧ τ.Extends m.subst := by
    obtain ⟨ρ, hm, hρ⟩ :=
      matchTerm_complete σ general special hτ.extends_start hτ.binds.covers hτ.apply_eq
    have hm : m = ⟨ρ, true⟩ := hm
    rw [hm]
    exact ⟨rfl, hρ⟩
  refine ⟨ordered_matchTerm hσ general special, matchTerm_extends σ general special, ?_, ?_⟩
  · exact ⟨fun hmatched => exists_solves hσ (hmatch hmatched), fun ⟨τ, hτ⟩ => (hfound τ hτ).1⟩
  · intro hmatched
    exact ⟨(matchTerm_sound σ general special (hmatch hmatched)).2, fun τ hτ => (hfound τ hτ).2⟩

/-- With `x₁` bound to `s₂`, matching `s₀(x₀, s₁(x₁, x₀(x₂)))` with `s₀(s₃(x₅), s₁(s₂, s₃(x₅)))` binds
`x₀`, although a solution also binds `x₂`, which stands below `x₀`. -/
theorem matchTerm_least_below_variable :
    ∃ (σ : Substitution) (general special : Term), σ.Ordered ∧
      (σ.matchTerm general special).subst.domain = [0, 1] ∧
      (σ.matchTerm general special).subst.apply general = special ∧
      (∃ τ : Substitution, τ.Solves σ general special) ∧
      ∀ τ : Substitution, τ.Solves σ general special →
        τ.Extends (σ.matchTerm general special).subst := by
  let σ : Substitution := empty.bind 1 (.leaf (.op 2))
  let general : Term := .binary (.op 0) (.leaf (.var 0))
    (.binary (.op 1) (.leaf (.var 1)) (.app (.var 0) [.leaf (.var 2)]))
  let t : Term := .app (.op 3) [.leaf (.var 5)]
  let special : Term := .binary (.op 0) t (.binary (.op 1) (.leaf (.op 2)) t)
  have hσ : σ.Ordered := ordered_empty.bind 1 _
  obtain ⟨-, -, hiff, hleast⟩ := matchTerm_least hσ general special
  have hmatched : (σ.matchTerm general special).matched = true := by decide
  obtain ⟨happly, hsolutions⟩ := hleast hmatched
  exact ⟨σ, general, special, hσ, by decide, happly, hiff.mp hmatched, hsolutions⟩

end Substitution

end Lemmata
