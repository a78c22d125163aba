import Lemmata.Proofs.Lists
import Lemmata.Term.Replace

/-!
# Induction on terms, and what occurs in them

The functions on terms are written as pairs, one for a term and one for its arguments. Here each
pair becomes one equation in terms of the list operations, and the induction on a term hands over
its hypothesis for every argument. What follows are the facts about occurrences, size and depth that
the theory of templates and substitutions rests on.
-/

namespace Lemmata

/-- Only variables have the number of a variable. -/
theorem Symbol.eq_var_of_varId? {s : Symbol} {v : Serial} (h : s.varId? = some v) : s = .var v := by
  cases s with
  | var w => exact congrArg Symbol.var (Option.some.inj h)
  | op f => cases h
  | hole => cases h

theorem Symbol.ne_var_of_varId? {s : Symbol} (h : s.varId? = none) (v : Serial) : s ≠ .var v := by
  intro hs
  rw [hs] at h
  cases h

namespace Term

/-- A term without arguments is the leaf of its root. -/
theorem eq_leaf {t : Term} {s : Symbol} (hhead : t.head = s) (hargs : t.args = []) :
    t = leaf s := by
  cases t with
  | app h as =>
    cases hhead
    cases hargs
    rfl

/-! ## Induction -/

mutual

/-- What passes from the arguments of an application to the application holds of all terms. -/
theorem induction_of_args {motive : Term → Prop}
    (app : ∀ h as, (∀ t ∈ as, motive t) → motive (.app h as)) : (t : Term) → motive t
  | .app h as => app h as (forall_of_args app as)

/-- What passes from the arguments of an application to the application holds of all terms of a
list. -/
theorem forall_of_args {motive : Term → Prop}
    (app : ∀ h as, (∀ t ∈ as, motive t) → motive (.app h as)) :
    (ts : List Term) → ∀ t ∈ ts, motive t
  | [] => List.forall_mem_nil _
  | t :: ts => List.forall_mem_cons.mpr ⟨induction_of_args app t, forall_of_args app ts⟩

end

/-- A property of all terms may be proved for an application from its arguments. -/
@[induction_eliminator]
theorem induction {motive : Term → Prop}
    (app : ∀ (h : Symbol) (as : List Term), (∀ t ∈ as, motive t) → motive (.app h as))
    (t : Term) : motive t :=
  induction_of_args app t

/-! ## Occurrence -/

/-- The symbols of a list of terms are those of its terms, one after the other. -/
theorem symbolsList_eq_flatMap (ts : List Term) : symbolsList ts = ts.flatMap symbols := by
  induction ts with
  | nil => rfl
  | cons t ts ih => rw [symbolsList, ih, List.flatMap_cons]

/-- The symbols of an application are its root and the symbols of its arguments. -/
@[simp]
theorem symbols_app (h : Symbol) (as : List Term) :
    (app h as).symbols = h :: as.flatMap symbols := by
  rw [symbols, symbolsList_eq_flatMap]

/-- A symbol of an application is its root or a symbol of an argument. -/
theorem mem_symbols_app {s h : Symbol} {as : List Term} :
    s ∈ (app h as).symbols ↔ s = h ∨ ∃ t ∈ as, s ∈ t.symbols := by
  simp only [symbols_app, List.mem_cons, List.mem_flatMap]

theorem head_mem_symbols (t : Term) : t.head ∈ t.symbols := by
  cases t
  exact mem_symbols_app.mpr (.inl rfl)

theorem mem_symbols_of_mem_args {s h : Symbol} {as : List Term} {t : Term} (ht : t ∈ as)
    (hs : s ∈ t.symbols) : s ∈ (app h as).symbols :=
  mem_symbols_app.mpr (.inr ⟨t, ht, hs⟩)

@[simp]
theorem symbols_leaf (s : Symbol) : (leaf s).symbols = [s] := by
  simp [leaf]

/-- The variables of a term are those of its symbols that are variables. -/
theorem mem_vars {t : Term} {v : Serial} : v ∈ t.vars ↔ .var v ∈ t.symbols := by
  rw [vars, List.mem_eraseDups, List.mem_filterMap]
  constructor
  · rintro ⟨s, hs, hv⟩
    cases s with
    | var w =>
      cases hv
      exact hs
    | op w => cases hv
    | hole => cases hv
  · intro h
    exact ⟨.var v, h, rfl⟩

/-- A term is without variables when no symbol of it is one. -/
theorem vars_eq_nil {t : Term} : t.vars = [] ↔ ∀ v, .var v ∉ t.symbols := by
  simp only [List.eq_nil_iff_forall_not_mem, mem_vars]

/-- The arguments of a term without variables are without variables. -/
theorem vars_eq_nil_of_mem_args {h : Symbol} {as : List Term} {t : Term}
    (happ : (app h as).vars = []) (ht : t ∈ as) : t.vars = [] :=
  vars_eq_nil.mpr fun v hv => vars_eq_nil.mp happ v (mem_symbols_of_mem_args ht hv)

/-- The terms that are nothing but a variable are the leaves of variables. -/
theorem bareVar?_eq_some_iff {t : Term} {v : Serial} :
    t.bareVar? = some v ↔ t = leaf (.var v) := by
  constructor
  · intro h
    rw [bareVar?] at h
    split at h
    next hleaf =>
      cases t with
      | app s as =>
        have hs : s = .var v := Symbol.eq_var_of_varId? h
        have has : as = [] := List.isEmpty_iff.mp hleaf
        rw [hs, has]
        rfl
    · cases h
  · rintro rfl
    rfl

/-- A term with just one variable has no other. -/
theorem mem_symbols_of_soleVar {t : Term} {v w : Serial} (h : t.soleVar? = some v) :
    .var w ∈ t.symbols ↔ w = v := by
  rw [soleVar?] at h
  split at h
  next u hu =>
    cases h
    rw [← mem_vars, hu, List.mem_singleton]
  · cases h

/-- A variable is the only one of a term when it occurs there and no other does. -/
theorem soleVar?_eq_some_iff {t : Term} {v : Serial} :
    t.soleVar? = some v ↔ ∀ w, .var w ∈ t.symbols ↔ w = v := by
  constructor
  · intro h w
    exact mem_symbols_of_soleVar h
  · intro h
    have hnodup : t.vars.Nodup := List.nodup_eraseDups _
    have hperm : t.vars.Perm [v] := by
      refine (List.perm_ext_iff_of_nodup hnodup (by simp)).mpr ?_
      intro w
      rw [mem_vars, h, List.mem_singleton]
    simp [soleVar?, List.perm_singleton.mp hperm]

/-- The terms that may stand in statements: the hole occurs nowhere in them. -/
def HoleFree (t : Term) : Prop :=
  .hole ∉ t.symbols

/-- A term is without holes exactly if no hole is counted in it. -/
theorem holeFree_iff_holeCount {t : Term} : t.HoleFree ↔ t.holeCount = 0 :=
  List.count_eq_zero.symm

/-- An application is without holes if its root is not the hole and its arguments are without holes.
-/
theorem holeFree_app {h : Symbol} {as : List Term} :
    (app h as).HoleFree ↔ h ≠ .hole ∧ ∀ t ∈ as, t.HoleFree := by
  simp only [HoleFree, mem_symbols_app, not_or, not_exists, not_and]
  exact and_congr_left fun _ => ne_comm

/-- A constant holds neither variables nor holes. -/
theorem isConstant_iff {t : Term} : t.isConstant ↔ t.vars = [] ∧ t.HoleFree := by
  rw [isConstant, List.all_eq_true, vars_eq_nil, HoleFree]
  constructor
  · intro h
    exact ⟨fun v hv => absurd (h _ hv) (by simp [Symbol.isOp]),
      fun hh => absurd (h _ hh) (by simp [Symbol.isOp])⟩
  · rintro ⟨hv, hh⟩ s hs
    cases s with
    | var v => exact absurd hs (hv v)
    | op f => rfl
    | hole => exact absurd hs hh

/-! ## Size and depth -/

/-- The number of nodes. -/
def size (t : Term) : Nat :=
  t.symbols.length

theorem size_pos (t : Term) : 0 < t.size := by
  cases t
  rw [size, symbols_app]
  exact Nat.succ_pos _

/-- An argument adds its size to the size of the application, wherever it stands. -/
theorem size_app_append (h : Symbol) (pre : List Term) (t : Term) (post : List Term) :
    (app h (pre ++ t :: post)).size = (app h (pre ++ post)).size + t.size := by
  simp only [size, symbols_app, List.flatMap_append, List.flatMap_cons, List.length_cons,
    List.length_append]
  omega

/-- An argument is smaller than the application. -/
theorem size_lt_of_mem {h : Symbol} {as : List Term} {t : Term} (ht : t ∈ as) :
    t.size < (app h as).size := by
  obtain ⟨pre, post, rfl⟩ := List.append_of_mem ht
  have hpos := (app h (pre ++ post)).size_pos
  rw [size_app_append]
  omega

theorem depth_le_maxDepth {t : Term} {ts : List Term} (ht : t ∈ ts) : t.depth ≤ maxDepth ts := by
  induction ts with
  | nil => cases ht
  | cons u us ih =>
    rw [maxDepth]
    rcases List.mem_cons.mp ht with rfl | ht
    · exact Nat.le_max_left ..
    · exact Nat.le_trans (ih ht) (Nat.le_max_right ..)

/-- An argument is less deep than the application. -/
theorem depth_lt_of_mem {h : Symbol} {as : List Term} {t : Term} (ht : t ∈ as) :
    t.depth < (app h as).depth := by
  rw [depth]
  exact Nat.lt_succ_of_le (depth_le_maxDepth ht)

theorem depth_arg_lt (h : Symbol) (pre : List Term) (t : Term) (post : List Term) :
    t.depth < (app h (pre ++ t :: post)).depth :=
  depth_lt_of_mem List.mem_append_cons_self

theorem depth_pos (t : Term) : 0 < t.depth := by
  cases t
  rw [depth]
  exact Nat.succ_pos _

/-- A term of depth one is a leaf. -/
theorem args_eq_nil_of_depth {h : Symbol} {as : List Term} (hd : (app h as).depth ≤ 1) :
    as = [] := by
  cases as with
  | nil => rfl
  | cons t ts =>
    have hlt : t.depth < (app h (t :: ts)).depth := depth_lt_of_mem List.mem_cons_self
    have hpos := t.depth_pos
    omega

/-! ## Replacing leaves -/

/-- Replacing a leaf in a list of terms is replacing it in each of them. -/
theorem replaceLeaves_eq_map (s : Symbol) (ts : List Term) (r : Term) :
    replaceLeaves s ts r = ts.map fun t => t.replaceLeaf s r := by
  induction ts with
  | nil => rfl
  | cons t ts ih => rw [replaceLeaves, ih, List.map_cons]

/-- A leaf is replaced by the term; in any other term the replacement is made in the arguments. -/
theorem replaceLeaf_app (s h : Symbol) (as : List Term) (r : Term) :
    (app h as).replaceLeaf s r =
      if h = s ∧ as = [] then r else app h (as.map fun t => t.replaceLeaf s r) := by
  rw [replaceLeaf, replaceLeaves_eq_map]

/-- A leaf counts as one, and in any other term the leaves are counted in the arguments. -/
theorem leafCount_app (s h : Symbol) (as : List Term) :
    (app h as).leafCount s = if h = s ∧ as = [] then 1 else leafCounts s as := by
  rw [leafCount]

/-- No leaf is counted in a list of terms exactly if none is counted in any of them. -/
theorem leafCounts_eq_zero {s : Symbol} {ts : List Term} :
    leafCounts s ts = 0 ↔ ∀ t ∈ ts, t.leafCount s = 0 := by
  induction ts with
  | nil => simp [leafCounts]
  | cons t ts ih => rw [leafCounts, Nat.add_eq_zero_iff, ih, List.forall_mem_cons]

/-- Leaves are counted along a list. -/
theorem leafCounts_append (s : Symbol) (ts us : List Term) :
    leafCounts s (ts ++ us) = leafCounts s ts + leafCounts s us := by
  induction ts with
  | nil => simp [leafCounts]
  | cons t ts ih =>
    rw [List.cons_append, leafCounts, leafCounts, ih]
    omega

/-- If just one leaf of a list of terms is the symbol, it is in one of them. -/
theorem exists_of_leafCounts_eq_one {s : Symbol} {ts : List Term} (h : leafCounts s ts = 1) :
    ∃ pre t post, ts = pre ++ t :: post ∧ t.leafCount s = 1 ∧
      (∀ u ∈ pre, u.leafCount s = 0) ∧ ∀ u ∈ post, u.leafCount s = 0 := by
  induction ts with
  | nil => cases h
  | cons t ts ih =>
    rw [leafCounts] at h
    cases ht : t.leafCount s with
    | zero =>
      obtain ⟨pre, u, post, rfl, hu, hpre, hpost⟩ := ih (by omega)
      exact ⟨t :: pre, u, post, rfl, hu, List.forall_mem_cons.mpr ⟨ht, hpre⟩, hpost⟩
    | succ n =>
      refine ⟨[], t, ts, rfl, by omega, List.forall_mem_nil _, ?_⟩
      exact leafCounts_eq_zero.mp (by omega)

/-- Where no leaf is the symbol, replacing it changes nothing. -/
theorem replaceLeaf_of_leafCount {s : Symbol} {t : Term} (r : Term) (ht : t.leafCount s = 0) :
    t.replaceLeaf s r = t := by
  induction t with
  | app h as ih =>
    rw [leafCount_app] at ht
    rw [replaceLeaf_app]
    split at ht
    · cases ht
    next hleaf =>
      rw [if_neg hleaf]
      congr 1
      refine List.map_congr_left (fun t hmem => ?_) |>.trans (List.map_id' as)
      exact ih t hmem (leafCounts_eq_zero.mp ht t hmem)

/-- Once its leaves are replaced, a symbol is in no leaf. -/
theorem leafCount_replaceLeaf {s : Symbol} {r : Term} (hr : r.leafCount s = 0) (t : Term) :
    (t.replaceLeaf s r).leafCount s = 0 := by
  induction t with
  | app h as ih =>
    rw [replaceLeaf_app]
    split
    · exact hr
    next hleaf =>
      rw [leafCount_app, if_neg fun h => hleaf ⟨h.1, List.map_eq_nil_iff.mp h.2⟩]
      refine leafCounts_eq_zero.mpr fun u hu => ?_
      obtain ⟨t, ht, rfl⟩ := List.mem_map.mp hu
      exact ih t ht

/-- Every leaf that is the symbol is an occurrence of it. -/
theorem leafCount_le_count (s : Symbol) (t : Term) : t.leafCount s ≤ t.symbols.count s := by
  have hargs : ∀ ts : List Term, (∀ t ∈ ts, t.leafCount s ≤ t.symbols.count s) →
      leafCounts s ts ≤ (ts.flatMap symbols).count s := by
    intro ts hts
    induction ts with
    | nil => simp [leafCounts]
    | cons t ts ih =>
      obtain ⟨ht, hts⟩ := List.forall_mem_cons.mp hts
      have hrest := ih hts
      rw [leafCounts, List.flatMap_cons, List.count_append]
      omega
  induction t with
  | app h as ih =>
    rw [leafCount_app, symbols_app]
    split
    next hleaf => simp [hleaf]
    next => exact Nat.le_trans (hargs as ih) List.count_le_count_cons

/-- A symbol that does not occur is not a leaf. -/
theorem leafCount_of_not_mem {s : Symbol} {t : Term} (hs : s ∉ t.symbols) :
    t.leafCount s = 0 := by
  induction t with
  | app h as ih =>
    rw [mem_symbols_app, not_or] at hs
    rw [leafCount_app, if_neg fun hleaf => hs.1 hleaf.1.symm]
    exact leafCounts_eq_zero.mpr fun t ht => ih t ht fun hmem => hs.2 ⟨t, ht, hmem⟩

end Term

end Lemmata
