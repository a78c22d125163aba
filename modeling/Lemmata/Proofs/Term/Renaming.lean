import Lemmata.Proofs.Term.Template
import Mathlib.Data.List.Basic

/-!
# Renaming variables

A renaming gives every variable another number and leaves operators and the hole alone. What is
read off a term follows the renaming, as far as different variables stay different: its variables in
order of first occurrence, the places where a symbol stands in a leaf, the template that is opened at
a variable, and what a template captures. Each function on terms has one equation for this, and the
equations of the functions that compare symbols ask for an injective renaming.
-/

namespace Lemmata

open Function (Injective)

variable {r : Serial → Serial}

namespace Symbol

/-- The symbol with another number, if it is a variable. -/
def rename (r : Serial → Serial) : Symbol → Symbol
  | var v => var (r v)
  | op f => op f
  | hole => hole

/-- A renaming that keeps variables apart keeps symbols apart. -/
theorem rename_injective (hr : Injective r) : Injective (rename r) := by
  intro s t h
  cases s with
  | var v =>
    cases t with
    | var w => exact congrArg var (hr (var.inj h))
    | op g => cases h
    | hole => cases h
  | op f =>
    cases t with
    | var w => cases h
    | op g => exact h
    | hole => cases h
  | hole =>
    cases t with
    | var w => cases h
    | op g => cases h
    | hole => rfl

/-- The number of a renamed variable is the renamed number. -/
@[simp]
theorem varId?_rename (r : Serial → Serial) (s : Symbol) :
    (s.rename r).varId? = s.varId?.map r := by
  cases s <;> rfl

@[simp]
theorem isOp_rename (r : Serial → Serial) (s : Symbol) : (s.rename r).isOp = s.isOp := by
  cases s <;> rfl

/-- Only the hole is renamed to the hole. -/
theorem rename_eq_hole_iff {s : Symbol} : s.rename r = .hole ↔ s = .hole := by
  cases s <;> simp [rename]

/-- A symbol that is no variable keeps its number. -/
theorem rename_of_varId? {s : Symbol} (h : s.varId? = none) (r : Serial → Serial) :
    s.rename r = s := by
  cases s with
  | var v => cases h
  | op f => rfl
  | hole => rfl

end Symbol

namespace Term

mutual

/-- The term with its variables renamed. -/
def rename (r : Serial → Serial) : Term → Term
  | app h as => app (h.rename r) (renameList r as)

def renameList (r : Serial → Serial) : List Term → List Term
  | [] => []
  | t :: ts => t.rename r :: renameList r ts

end

/-- A list of terms is renamed term by term. -/
theorem renameList_eq_map (r : Serial → Serial) (ts : List Term) :
    renameList r ts = ts.map (rename r) := by
  induction ts with
  | nil => rfl
  | cons t ts ih => rw [renameList, ih, List.map_cons]

/-- An application is renamed at its root and in its arguments. -/
@[simp]
theorem rename_app (r : Serial → Serial) (h : Symbol) (as : List Term) :
    (app h as).rename r = app (h.rename r) (as.map (rename r)) := by
  rw [rename, renameList_eq_map]

@[simp]
theorem head_rename (r : Serial → Serial) (t : Term) : (t.rename r).head = t.head.rename r := by
  cases t
  rw [rename_app]
  rfl

/-! ## What is read off a term -/

/-- The symbols of a renamed term are the renamed symbols, in the same order. -/
theorem symbols_rename (r : Serial → Serial) (t : Term) :
    (t.rename r).symbols = t.symbols.map (Symbol.rename r) := by
  induction t with
  | app h as ih =>
    rw [rename_app, symbols_app, symbols_app, List.map_cons, List.map_flatMap, List.flatMap_map]
    exact congrArg _ (List.flatMap_congr ih)

/-- Renaming changes no depth. -/
theorem depth_rename (r : Serial → Serial) (t : Term) : (t.rename r).depth = t.depth := by
  have hmax : ∀ ts : List Term, (∀ t ∈ ts, (t.rename r).depth = t.depth) →
      maxDepth (ts.map (rename r)) = maxDepth ts := by
    intro ts hts
    induction ts with
    | nil => rfl
    | cons t ts ih =>
      obtain ⟨ht, hts⟩ := List.forall_mem_cons.mp hts
      rw [List.map_cons, maxDepth, maxDepth, ht, ih hts]
  induction t with
  | app h as ih => rw [rename_app, depth, depth, hmax as ih]

/-- Whether a term is constant is not changed by renaming. -/
theorem isConstant_rename (r : Serial → Serial) (t : Term) :
    (t.rename r).isConstant = t.isConstant := by
  rw [isConstant, isConstant, symbols_rename, List.all_map]
  exact List.all_congr rfl fun s => s.isOp_rename r

/-- The variables of a renamed term are the renamed variables. -/
theorem vars_rename (hr : Injective r) (t : Term) : (t.rename r).vars = t.vars.map r := by
  rw [vars, vars, symbols_rename, List.filterMap_map, ← List.eraseDups_map hr, List.map_filterMap]
  simp only [Function.comp_def, Symbol.varId?_rename]

/-- A term with a single variable has a single variable after renaming, too. -/
theorem soleVar?_rename (hr : Injective r) (t : Term) :
    (t.rename r).soleVar? = t.soleVar?.map r := by
  rw [soleVar?, soleVar?, vars_rename hr]
  rcases t.vars with _ | ⟨v, _ | ⟨w, vs⟩⟩ <;> rfl

theorem bareVar?_rename (r : Serial → Serial) (t : Term) :
    (t.rename r).bareVar? = t.bareVar?.map r := by
  cases t with
  | app h as => cases as <;> simp [bareVar?, isLeaf, args, head]

/-- A term without variables is not changed. -/
theorem rename_of_vars_eq_nil {t : Term} (ht : t.vars = []) (r : Serial → Serial) :
    t.rename r = t := by
  induction t with
  | app h as ih =>
    have hroot : h.varId? = none := by
      cases h with
      | var v => exact absurd (mem_symbols_app.mpr (.inl rfl)) (vars_eq_nil.mp ht v)
      | op f => rfl
      | hole => rfl
    rw [rename_app, Symbol.rename_of_varId? hroot]
    congr 1
    refine (List.map_congr_left fun t hmem => ?_).trans (List.map_id' as)
    exact ih t hmem (vars_eq_nil_of_mem_args ht hmem)

/-! ## Leaves -/

/-- A renamed term is a leaf of a renamed symbol exactly if the term is a leaf of the symbol. -/
theorem rename_leaf_iff (hr : Injective r) {h s : Symbol} {as : List Term} :
    h.rename r = s.rename r ∧ as.map (rename r) = [] ↔ h = s ∧ as = [] := by
  rw [(Symbol.rename_injective hr).eq_iff, List.map_eq_nil_iff]

/-- As many leaves of a symbol are in a term as there are leaves of the renamed symbol in the
renamed term. -/
theorem leafCount_rename (hr : Injective r) (s : Symbol) (t : Term) :
    (t.rename r).leafCount (s.rename r) = t.leafCount s := by
  have hcounts : ∀ ts : List Term,
      (∀ t ∈ ts, (t.rename r).leafCount (s.rename r) = t.leafCount s) →
        leafCounts (s.rename r) (ts.map (rename r)) = leafCounts s ts := by
    intro ts hts
    induction ts with
    | nil => rfl
    | cons t ts ih =>
      obtain ⟨ht, hts⟩ := List.forall_mem_cons.mp hts
      rw [List.map_cons, leafCounts, leafCounts, ht, ih hts]
  induction t with
  | app h as ih =>
    rw [rename_app, leafCount_app, leafCount_app, hcounts as ih]
    simp only [rename_leaf_iff hr]

/-- Renaming may be done before or after a leaf is replaced. -/
theorem rename_replaceLeaf (hr : Injective r) (s : Symbol) (x t : Term) :
    (t.replaceLeaf s x).rename r = (t.rename r).replaceLeaf (s.rename r) (x.rename r) := by
  induction t with
  | app h as ih =>
    rw [rename_app, replaceLeaf_app, replaceLeaf_app]
    by_cases hleaf : h = s ∧ as = []
    · rw [if_pos hleaf, if_pos ((rename_leaf_iff hr).mpr hleaf)]
    · rw [if_neg hleaf, if_neg (mt (rename_leaf_iff hr).mp hleaf), rename_app, List.map_map,
        List.map_map]
      exact congrArg _ (List.map_congr_left ih)

end Term

/-! ## Templates -/

namespace Template

/-- The template with its variables renamed. -/
def rename (r : Serial → Serial) (p : Template) : Template :=
  ⟨p.body.rename r⟩

/-- A template without variables is not changed by renaming. -/
theorem rename_of_vars_eq_nil {p : Template} (hp : p.body.vars = []) (r : Serial → Serial) :
    p.rename r = p :=
  congrArg mk (Term.rename_of_vars_eq_nil hp r)

/-- The template of a renamed term is the renamed template. -/
theorem abstracting?_rename (hr : Injective r) (t : Term) (v : Serial) :
    abstracting? (t.rename r) (r v) = (abstracting? t v).map (rename r) := by
  have hroot : (t.rename r).head ≠ .var (r v) ↔ t.head ≠ .var v := by
    rw [Term.head_rename]
    exact (Symbol.rename_injective hr).ne_iff (y := .var v)
  have hcount : (t.rename r).leafCount (.var (r v)) = t.leafCount (.var v) :=
    Term.leafCount_rename hr (.var v) t
  rw [abstracting?, abstracting?, hcount]
  by_cases hopen : t.head ≠ .var v ∧ t.leafCount (.var v) = 1
  · rw [if_pos hopen, if_pos ⟨hroot.mpr hopen.1, hopen.2⟩, Option.map_some, rename,
      Term.rename_replaceLeaf hr]
    rfl
  · rw [if_neg hopen, if_neg fun h => hopen ⟨hroot.mp h.1, h.2⟩]
    rfl

/-- The comparison of renamed terms captures the renamed term. -/
def Comparison.rename (r : Serial → Serial) : Comparison → Comparison
  | mismatch => mismatch
  | equal => equal
  | captured t => captured (t.rename r)

mutual

/-- Going through a pattern and a term side by side does not depend on the numbers of variables. -/
theorem correspond_rename (hr : Injective r) : (p t : Term) →
    correspond (p.rename r) (t.rename r) = (correspond p t).rename r
  | .app f as, .app g bs => by
    by_cases hf : f = .hole
    · subst hf
      rw [Term.rename_app, Symbol.rename, correspond, correspond]
      rfl
    · rw [Term.rename_app, Term.rename_app, correspond_app (mt Symbol.rename_eq_hole_iff.mp hf),
        correspond_app hf, correspondList_rename hr as bs]
      by_cases hfg : f = g
      · rw [if_pos hfg, if_pos (congrArg _ hfg)]
      · rw [if_neg hfg, if_neg ((Symbol.rename_injective hr).ne hfg)]
        rfl

theorem correspondList_rename (hr : Injective r) : (ps ts : List Term) →
    correspondList (ps.map (Term.rename r)) (ts.map (Term.rename r)) =
      (correspondList ps ts).rename r
  | [], [] => rfl
  | [], _ :: _ => rfl
  | _ :: _, [] => rfl
  | p :: ps, t :: ts => by
    rw [List.map_cons, List.map_cons, correspondList, correspondList, correspond_rename hr p t,
      correspondList_rename hr ps ts]
    cases correspond p t <;> cases correspondList ps ts <;> rfl

end

/-- What a renamed template captures in a renamed term is the renamed term that is captured without
renaming. -/
theorem capture?_rename (hr : Injective r) (p : Template) (t : Term) :
    (p.rename r).capture? (t.rename r) = (p.capture? t).map (Term.rename r) := by
  rw [capture?, capture?, rename, correspond_rename hr]
  cases correspond p.body t <;> rfl

end Template

end Lemmata
