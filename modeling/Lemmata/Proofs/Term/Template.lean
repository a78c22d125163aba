import Lemmata.Proofs.Term.Substitution
import Lemmata.Term.Template

/-!
# Templates with one open place

The templates of a theory come from its statements, by opening the place of a variable in a term
without holes. Such a template has exactly one hole, the hole is a leaf, and it is not the root.
`OneHole` says the first two of these along the path to the hole: at every node of the path one
argument leads on, and the arguments beside it are without holes.

For these templates filling and capturing are inverse to each other (`capture?_eq_some_iff`), and
filling is injective. A filled template is at least as large as the template and deeper than what
fills it, which is what keeps a property and the terms it is stated of apart. Opening the place of a
variable is undone by filling it with the variable, and undoes it as far as the variable stands in no
other leaf (`opening_capturing_filling_inverse`).
-/

namespace Lemmata

namespace Term

/-- A term with exactly one hole, and that a leaf. -/
inductive OneHole : Term → Prop
  | hole : OneHole (leaf .hole)
  | arg {h : Symbol} {pre : List Term} {b : Term} {post : List Term} :
    h ≠ .hole → (∀ t ∈ pre, t.HoleFree) → OneHole b → (∀ t ∈ post, t.HoleFree) →
      OneHole (app h (pre ++ b :: post))

/-- It is enough to count: one hole in all, and one leaf that is a hole. -/
theorem oneHole_of_counts {t : Term} (hcount : t.holeCount = 1) (hleaf : t.leafCount .hole = 1) :
    t.OneHole := by
  have hside : ∀ ts : List Term, (ts.flatMap symbols).count .hole = 0 → ∀ t ∈ ts, t.HoleFree := by
    intro ts hts t ht hmem
    exact List.count_eq_zero.mp hts (List.mem_flatMap.mpr ⟨t, ht, hmem⟩)
  induction t with
  | app h as ih =>
    rw [leafCount_app] at hleaf
    split at hleaf
    next hroot =>
      rw [hroot.1, hroot.2]
      exact .hole
    next =>
      obtain ⟨pre, b, post, rfl, hb, -, -⟩ := exists_of_leafCounts_eq_one hleaf
      -- The leaf in `b` is the only hole there is, so the root and the other arguments have none.
      have hle : 1 ≤ b.holeCount := hb ▸ leafCount_le_count .hole b
      simp only [holeCount, symbols_app, List.count_cons, List.flatMap_append, List.flatMap_cons,
        List.count_append] at hcount hle
      have hh : h ≠ .hole := by
        rintro rfl
        simp at hcount
        omega
      refine .arg hh (hside pre (by omega)) (ih b (by simp) ?_ hb) (hside post (by omega))
      rw [holeCount]
      omega

/-! ## Filling -/

/-- There is nothing to fill in a term without holes. -/
theorem replaceLeaf_hole_of_holeFree {t : Term} (ht : t.HoleFree) (x : Term) :
    t.replaceLeaf .hole x = t :=
  replaceLeaf_of_leafCount x (leafCount_of_not_mem ht)

@[simp]
theorem replaceLeaf_leaf (s : Symbol) (x : Term) : (leaf s).replaceLeaf s x = x := by
  rw [leaf, replaceLeaf_app, if_pos ⟨rfl, rfl⟩]

/-- Filling goes into the one argument that leads to the hole. -/
theorem replaceLeaf_hole_arg {h : Symbol} {pre post : List Term} (b x : Term)
    (hpre : ∀ t ∈ pre, t.HoleFree) (hpost : ∀ t ∈ post, t.HoleFree) :
    (app h (pre ++ b :: post)).replaceLeaf .hole x =
      app h (pre ++ b.replaceLeaf .hole x :: post) := by
  have hfix : ∀ ts : List Term, (∀ t ∈ ts, t.HoleFree) →
      ts.map (fun t => t.replaceLeaf .hole x) = ts := by
    intro ts hts
    refine (List.map_congr_left fun t ht => ?_).trans (List.map_id' ts)
    exact replaceLeaf_hole_of_holeFree (hts t ht) x
  rw [replaceLeaf_app, if_neg (by simp), List.map_append, List.map_cons, hfix pre hpre,
    hfix post hpost]

namespace OneHole

/-- Different terms fill the hole differently. -/
theorem replaceLeaf_injective {b x y : Term} (hb : b.OneHole)
    (hxy : b.replaceLeaf .hole x = b.replaceLeaf .hole y) : x = y := by
  induction hb with
  | hole => simpa only [replaceLeaf_leaf] using hxy
  | arg _ hpre _ hpost ih =>
    rw [replaceLeaf_hole_arg _ _ hpre hpost, replaceLeaf_hole_arg _ _ hpre hpost] at hxy
    simp only [app.injEq, true_and, List.append_cancel_left_eq, List.cons.injEq, and_true] at hxy
    exact ih hxy

/-- The hole is counted just once. -/
theorem holeCount {b : Term} (hb : b.OneHole) : b.holeCount = 1 := by
  have hnone : ∀ ts : List Term, (∀ t ∈ ts, t.HoleFree) →
      (ts.flatMap symbols).count .hole = 0 := by
    intro ts hts
    refine List.count_eq_zero.mpr fun hmem => ?_
    obtain ⟨t, ht, hh⟩ := List.mem_flatMap.mp hmem
    exact hts t ht hh
  induction hb with
  | hole => rfl
  | @arg h pre b post hh hpre _ hpost ih =>
    rw [Term.holeCount] at ih
    rw [Term.holeCount, symbols_app, List.count_cons, List.flatMap_append, List.flatMap_cons,
      List.count_append, List.count_append, hnone pre hpre, hnone post hpost, ih]
    simp [hh]

/-- The only hole is a leaf. -/
theorem leafCount {b : Term} (hb : b.OneHole) : b.leafCount .hole = 1 := by
  have hnone : ∀ ts : List Term, (∀ t ∈ ts, t.HoleFree) → leafCounts .hole ts = 0 := by
    intro ts hts
    exact leafCounts_eq_zero.mpr fun t ht => leafCount_of_not_mem (hts t ht)
  induction hb with
  | hole => rfl
  | @arg h pre b post _ hpre _ hpost ih =>
    rw [leafCount_app, if_neg (by simp), leafCounts_append, leafCounts, hnone pre hpre,
      hnone post hpost, ih]

/-- What occurs in a filled term occurs in the one that is filled, the hole apart, or in the one
that fills it. -/
theorem mem_symbols_replaceLeaf {b x : Term} {s : Symbol} (hb : b.OneHole) :
    s ∈ (b.replaceLeaf .hole x).symbols ↔ s ≠ .hole ∧ s ∈ b.symbols ∨ s ∈ x.symbols := by
  induction hb with
  | hole => simp
  | @arg h pre b post hh hpre _ hpost ih =>
    have hside : ∀ ts : List Term, (∀ t ∈ ts, t.HoleFree) → s ∈ ts.flatMap symbols → s ≠ .hole := by
      rintro ts hts hs rfl
      obtain ⟨t, ht, hmem⟩ := List.mem_flatMap.mp hs
      exact hts t ht hmem
    have hl := hside pre hpre
    have hr := hside post hpost
    have hroot : s = h → s ≠ .hole := fun hs => hs ▸ hh
    rw [replaceLeaf_hole_arg b x hpre hpost]
    simp only [symbols_app, List.flatMap_append, List.flatMap_cons, List.mem_cons, List.mem_append]
    rw [ih]
    grind

/-- The hole counts for one, and the term that fills it for its size. -/
theorem size_replaceLeaf {b : Term} (hb : b.OneHole) (x : Term) :
    (b.replaceLeaf .hole x).size + 1 = b.size + x.size := by
  induction hb with
  | hole =>
    rw [replaceLeaf_leaf, Nat.add_comm]
    rfl
  | arg _ hpre _ hpost ih =>
    rw [replaceLeaf_hole_arg _ _ hpre hpost]
    rw [size_app_append, size_app_append]
    omega

/-- Filling the hole makes a term no smaller. -/
theorem size_le_replaceLeaf {b : Term} (hb : b.OneHole) (x : Term) :
    b.size ≤ (b.replaceLeaf .hole x).size := by
  have hsize := hb.size_replaceLeaf x
  have hpos := x.size_pos
  omega

/-- A filled term is at least as deep as what fills it. -/
theorem depth_le_replaceLeaf {b : Term} (hb : b.OneHole) (x : Term) :
    x.depth ≤ (b.replaceLeaf .hole x).depth := by
  induction hb with
  | hole => exact Nat.le_of_eq (congrArg depth (replaceLeaf_leaf .hole x).symm)
  | arg _ hpre _ hpost ih =>
    rw [replaceLeaf_hole_arg _ _ hpre hpost]
    exact Nat.le_of_lt (Nat.lt_of_le_of_lt ih (depth_arg_lt ..))

/-- If a filled term is only one deeper than what fills it, the hole is an argument of the root. -/
theorem exists_args_of_depth {b x : Term} (hb : b.OneHole) (hroot : b.head ≠ .hole)
    (hdepth : (b.replaceLeaf .hole x).depth ≤ x.depth + 1) :
    ∃ h pre post, b = app h (pre ++ leaf .hole :: post) ∧
      (∀ t ∈ pre, t.HoleFree) ∧ ∀ t ∈ post, t.HoleFree := by
  cases hb with
  | hole => exact absurd rfl hroot
  | @arg h pre b post _ hpre hb hpost =>
    refine ⟨h, pre, post, ?_, hpre, hpost⟩
    rw [replaceLeaf_hole_arg b x hpre hpost] at hdepth
    have hlt := depth_arg_lt h pre (b.replaceLeaf .hole x) post
    cases hb with
    | hole => rfl
    | @arg k left c right _ hleft hc hright =>
      -- One more node on the way to the hole would be one more level.
      rw [replaceLeaf_hole_arg c x hleft hright] at hlt hdepth
      have hmore := depth_arg_lt k left (c.replaceLeaf .hole x) right
      have hleast := hc.depth_le_replaceLeaf x
      omega

/-- A term without variables around the hole is the same for all instances. -/
theorem apply_replaceLeaf {b : Term} (hb : b.OneHole) (hvars : b.vars = [])
    (σ : Substitution) (t : Term) :
    σ.apply (b.replaceLeaf .hole t) = b.replaceLeaf .hole (σ.apply t) := by
  induction hb with
  | hole => rw [replaceLeaf_leaf, replaceLeaf_leaf]
  | @arg h pre b post _ hpre _ hpost ih =>
    have hside : ∀ ts : List Term, (∀ u ∈ ts, u ∈ pre ++ b :: post) → ts.map σ.apply = ts := by
      intro ts hts
      refine (List.map_congr_left fun u hu => ?_).trans (List.map_id' ts)
      exact Substitution.apply_of_vars_eq_nil (vars_eq_nil_of_mem_args hvars (hts u hu))
    have hroot : h.varId? = none := by
      cases h with
      | var v => exact absurd (mem_symbols_app.mpr (.inl rfl)) (vars_eq_nil.mp hvars v)
      | op f => rfl
      | hole => rfl
    rw [replaceLeaf_hole_arg _ _ hpre hpost, replaceLeaf_hole_arg _ _ hpre hpost,
      Substitution.apply_app hroot, List.map_append, List.map_cons,
      ih (vars_eq_nil_of_mem_args hvars List.mem_append_cons_self),
      hside pre fun u hu => List.mem_append_left _ hu,
      hside post fun u hu => List.mem_append_right _ (List.mem_cons_of_mem _ hu)]

end OneHole

/-! ## Opening a place -/

/-- Opening the place of a symbol that stands in exactly one leaf gives a term with one hole, and
filling the hole with the symbol gives the term back. -/
theorem oneHole_replaceLeaf {s : Symbol} {t : Term} (ht : t.HoleFree) (hs : t.leafCount s = 1) :
    (t.replaceLeaf s (leaf .hole)).OneHole ∧
      (t.replaceLeaf s (leaf .hole)).replaceLeaf .hole (leaf s) = t := by
  induction t with
  | app h as ih =>
    rw [leafCount_app] at hs
    rw [replaceLeaf_app]
    split at hs
    next hleaf =>
      rw [if_pos hleaf, replaceLeaf_leaf, hleaf.1, hleaf.2]
      exact ⟨.hole, rfl⟩
    next hleaf =>
      obtain ⟨pre, b, post, rfl, hb, hpre, hpost⟩ := exists_of_leafCounts_eq_one hs
      have hfree := holeFree_app.mp ht
      have hfix : ∀ ts : List Term, (∀ u ∈ ts, u.leafCount s = 0) →
          ts.map (fun u => u.replaceLeaf s (leaf .hole)) = ts := fun ts hts =>
        (List.map_congr_left fun u hu => replaceLeaf_of_leafCount _ (hts u hu)).trans
          (List.map_id' ts)
      have hpre' : ∀ u ∈ pre, u.HoleFree := fun u hu => hfree.2 u (List.mem_append_left _ hu)
      have hpost' : ∀ u ∈ post, u.HoleFree := fun u hu =>
        hfree.2 u (List.mem_append_right _ (List.mem_cons_of_mem _ hu))
      have hmem : b ∈ pre ++ b :: post := List.mem_append_cons_self
      obtain ⟨hone, hback⟩ := ih b hmem (hfree.2 b hmem) hb
      rw [if_neg hleaf, List.map_append, List.map_cons, hfix pre hpre, hfix post hpost,
        replaceLeaf_hole_arg _ _ hpre' hpost', hback]
      exact ⟨.arg hfree.1 hpre' hone hpost', rfl⟩

/-- Opening the place that a symbol fills gives the term back, if the symbol is in no other leaf. -/
theorem OneHole.open_replaceLeaf {b : Term} {s : Symbol} (hb : b.OneHole)
    (hs : b.leafCount s = 0) :
    (b.replaceLeaf .hole (leaf s)).leafCount s = 1 ∧
      (b.replaceLeaf .hole (leaf s)).replaceLeaf s (leaf .hole) = b := by
  induction hb with
  | hole => simp [leaf, leafCount_app, replaceLeaf_app]
  | @arg h pre b post hh hpre _ hpost ih =>
    rw [leafCount_app, if_neg (by simp), leafCounts_append, leafCounts] at hs
    obtain ⟨hcount, hback⟩ := ih (by omega)
    have hfix : ∀ ts : List Term, leafCounts s ts = 0 →
        ts.map (fun t => t.replaceLeaf s (leaf .hole)) = ts := by
      intro ts hts
      refine (List.map_congr_left fun t ht => ?_).trans (List.map_id' ts)
      exact replaceLeaf_of_leafCount _ (leafCounts_eq_zero.mp hts t ht)
    rw [replaceLeaf_hole_arg b _ hpre hpost]
    constructor
    · rw [leafCount_app, if_neg (by simp), leafCounts_append, leafCounts, hcount]
      omega
    · rw [replaceLeaf_app, if_neg (by simp), List.map_append, List.map_cons, hback,
        hfix pre (by omega), hfix post (by omega)]

end Term

namespace Template

/-- A template with one hole, a leaf that is not the root: a property of the term that fills it. -/
structure Proper (p : Template) : Prop where
  oneHole : p.body.OneHole
  head_ne : p.body.head ≠ .hole

/-- A template with one hole below its root is proper as soon as a filling leaves no hole: a hole
over arguments would stay. -/
theorem proper_of_holeFree_fill {p : Template} (hcount : p.body.holeCount = 1)
    (hroot : p.body.head ≠ .hole) {x : Term} (hfree : (p.fill x).HoleFree) : p.Proper := by
  refine ⟨Term.oneHole_of_counts hcount ?_, hroot⟩
  have hle : p.body.leafCount .hole ≤ p.body.holeCount := Term.leafCount_le_count .hole p.body
  have hne : p.body.leafCount .hole ≠ 0 := by
    intro hzero
    rw [fill, Term.replaceLeaf_of_leafCount x hzero, Term.holeFree_iff_holeCount] at hfree
    omega
  omega

/-- Opening the place of a variable leaves the root as it was, which is another symbol, and leaves
the variable in no leaf. -/
theorem abstracting?_root {t : Term} {v : Serial} {p : Template} (hp : abstracting? t v = some p) :
    p.body.head = t.head ∧ t.head ≠ .var v ∧ p.body.leafCount (.var v) = 0 := by
  rw [abstracting?] at hp
  split at hp
  next hcond =>
    cases hp
    refine ⟨?_, hcond.1, Term.leafCount_replaceLeaf rfl t⟩
    cases t with
    | app h as =>
      rw [Term.replaceLeaf_app, if_neg fun hleaf => hcond.1 hleaf.1]
      rfl
  · cases hp

/-- The templates of statements are proper, and the statement is the template filled with its
variable. -/
theorem abstracting?_spec {t : Term} {v : Serial} {p : Template} (ht : t.HoleFree)
    (hp : abstracting? t v = some p) : p.Proper ∧ p.fill (.leaf (.var v)) = t := by
  have hhead := (abstracting?_root hp).1
  rw [abstracting?] at hp
  split at hp
  next hcond =>
    cases hp
    obtain ⟨hone, hback⟩ := Term.oneHole_replaceLeaf ht hcond.2
    refine ⟨⟨hone, ?_⟩, hback⟩
    rw [hhead]
    cases t with
    | app h as => exact (Term.holeFree_app.mp ht).1
  · cases hp

/-- In the template of a statement about its only variable, the root is no variable and neither is
any leaf. -/
theorem abstracting?_soleVar {t : Term} {v : Serial} {p : Template} (ht : t.HoleFree)
    (hv : t.soleVar? = some v) (hp : abstracting? t v = some p) :
    p.body.head.varId? = none ∧ ∀ w, p.body.leafCount (.var w) = 0 := by
  obtain ⟨hproper, hfill⟩ := abstracting?_spec ht hp
  obtain ⟨hhead, hne, hleaf⟩ := abstracting?_root hp
  have hvar : ∀ w, .var w ∈ p.body.symbols → w = v := by
    intro w hw
    rw [← Term.mem_symbols_of_soleVar hv, ← hfill]
    exact hproper.oneHole.mem_symbols_replaceLeaf.mpr (.inl ⟨by simp, hw⟩)
  constructor
  · cases hroot : p.body.head.varId? with
    | none => rfl
    | some w =>
      have hw : p.body.head = .var w := Symbol.eq_var_of_varId? hroot
      have hmem : .var w ∈ p.body.symbols := hw ▸ p.body.head_mem_symbols
      rw [hvar w hmem, hhead] at hw
      exact absurd hw hne
  · intro w
    by_cases hw : w = v
    · rw [hw]
      exact hleaf
    · exact Term.leafCount_of_not_mem fun hmem => hw (hvar w hmem)

/-- Filling a template leaves its root alone. -/
theorem Proper.head_fill {p : Template} (hp : p.Proper) (x : Term) :
    (p.fill x).head = p.body.head := by
  obtain ⟨b⟩ := p
  cases hp.oneHole with
  | hole => exact absurd rfl hp.head_ne
  | arg _ hpre _ hpost =>
    rw [fill, Term.replaceLeaf_hole_arg _ _ hpre hpost]
    rfl

/-- The template of a filled template is the template, if the variable that fills it is not its root
and in no leaf. -/
theorem Proper.abstracting?_fill {p : Template} (hp : p.Proper) {v : Serial}
    (hroot : p.body.head ≠ .var v) (hleaf : p.body.leafCount (.var v) = 0) :
    abstracting? (p.fill (.leaf (.var v))) v = some p := by
  obtain ⟨hcount, hback⟩ := hp.oneHole.open_replaceLeaf hleaf
  rw [abstracting?, if_pos ⟨by rwa [hp.head_fill], hcount⟩, fill, hback]

/-- A template filled with different terms gives different terms. -/
theorem Proper.fill_injective {p : Template} (hp : p.Proper) {x y : Term}
    (hxy : p.fill x = p.fill y) : x = y :=
  hp.oneHole.replaceLeaf_injective hxy

/-- A filled template is deeper than what fills it, as the hole is below the root. -/
theorem Proper.depth_lt_fill {p : Template} (hp : p.Proper) (x : Term) :
    x.depth < (p.fill x).depth := by
  obtain ⟨b⟩ := p
  cases hp.oneHole with
  | hole => exact absurd rfl hp.head_ne
  | arg _ hpre hb hpost =>
    rw [fill, Term.replaceLeaf_hole_arg _ _ hpre hpost]
    exact Nat.lt_of_le_of_lt (hb.depth_le_replaceLeaf x) (Term.depth_arg_lt ..)

/-- A filled template is at least as large as the template. -/
theorem Proper.size_le_fill {p : Template} (hp : p.Proper) (x : Term) :
    p.body.size ≤ (p.fill x).size :=
  hp.oneHole.size_le_replaceLeaf x

/-- No template is filled to an application whose arguments, two or more, are all as large as the
template: the arguments beside the hole are smaller. -/
theorem Proper.fill_ne_app {p : Template} (hp : p.Proper) {h : Symbol} {ts : List Term}
    (hlen : 2 ≤ ts.length) (hts : ∀ t ∈ ts, p.body.size ≤ t.size) (x : Term) :
    p.fill x ≠ .app h ts := by
  intro hfill
  obtain ⟨b⟩ := p
  cases hp.oneHole with
  | hole => exact hp.head_ne rfl
  | @arg g pre b post _ hpre _ hpost =>
    rw [fill, Term.replaceLeaf_hole_arg _ _ hpre hpost] at hfill
    obtain ⟨-, rfl⟩ := Term.app.inj hfill
    have hside : ∀ t, t ∈ pre ++ post → False := by
      intro t ht
      have hmem : ∀ u : Term, t ∈ pre ++ u :: post := fun u => by
        rcases List.mem_append.mp ht with ht | ht
        · exact List.mem_append_left _ ht
        · exact List.mem_append_right _ (List.mem_cons_of_mem _ ht)
      exact Nat.lt_irrefl _ (Nat.lt_of_lt_of_le (Term.size_lt_of_mem (hmem b)) (hts t (hmem _)))
    have hnil : pre ++ post = [] := List.eq_nil_iff_forall_not_mem.mpr hside
    have hcount := congrArg List.length hnil
    simp only [List.length_append, List.length_cons, List.length_nil] at hlen hcount
    omega

/-! ## Capturing -/

/-- Under a root that is not the hole, the roots must be the same and the arguments are compared. -/
theorem correspond_app {f g : Symbol} {as bs : List Term} (hf : f ≠ .hole) :
    correspond (.app f as) (.app g bs) =
      if f = g then correspondList as bs else .mismatch := by
  cases f with
  | var v => rw [correspond]; exact hf
  | op k => rw [correspond]; exact hf
  | hole => exact absurd rfl hf

mutual

/-- Without a hole, comparing is asking for equality. -/
theorem correspond_of_holeFree : (p t : Term) → p.HoleFree →
    correspond p t = if p = t then .equal else .mismatch
  | .app f as, .app g bs, hp => by
    have hfree := Term.holeFree_app.mp hp
    rw [correspond_app hfree.1, correspondList_of_holeFree as bs hfree.2]
    by_cases hfg : f = g
    · by_cases hab : as = bs
      · rw [if_pos hfg, if_pos hab, if_pos (by rw [hfg, hab])]
      · rw [if_pos hfg, if_neg hab, if_neg fun h => hab (Term.app.inj h).2]
    · rw [if_neg hfg, if_neg fun h => hfg (Term.app.inj h).1]

theorem correspondList_of_holeFree : (ps ts : List Term) → (∀ p ∈ ps, p.HoleFree) →
    correspondList ps ts = if ps = ts then .equal else .mismatch
  | [], [], _ => by rw [correspondList, if_pos rfl]
  | [], _ :: _, _ => by rw [correspondList, if_neg (by simp)] <;> simp
  | _ :: _, [], _ => by rw [correspondList, if_neg (by simp)] <;> simp
  | p :: ps, t :: ts, hps => by
    have hfree := List.forall_mem_cons.mp hps
    rw [correspondList, correspond_of_holeFree p t hfree.1,
      correspondList_of_holeFree ps ts hfree.2]
    by_cases hpt : p = t
    · by_cases hrest : ps = ts
      · rw [if_pos hpt, if_pos hrest, if_pos (by rw [hpt, hrest])]
      · rw [if_pos hpt, if_neg hrest, if_neg fun h => hrest (List.cons.inj h).2]
    · rw [if_neg hpt, if_neg fun h => hpt (List.cons.inj h).1]

end

/-- A list with one argument that may hold the hole captures what that argument captures, and only
if the other arguments are the same. -/
theorem correspondList_eq_captured {pre post ts : List Term} {b c : Term}
    (hpre : ∀ t ∈ pre, t.HoleFree) (hpost : ∀ t ∈ post, t.HoleFree) :
    correspondList (pre ++ b :: post) ts = .captured c ↔
      ∃ u, ts = pre ++ u :: post ∧ correspond b u = .captured c := by
  induction pre generalizing ts with
  | nil =>
    cases ts with
    | nil => simp [correspondList]
    | cons t ts =>
      rw [List.nil_append, correspondList, correspondList_of_holeFree post ts hpost]
      by_cases hrest : post = ts
      · cases hc : correspond b t <;> simp [hrest, hc]
      · cases hc : correspond b t <;> simp [hrest, Ne.symm hrest]
  | cons q pre ih =>
    have hfree := List.forall_mem_cons.mp hpre
    cases ts with
    | nil => simp [correspondList]
    | cons t ts =>
      rw [List.cons_append, correspondList, correspond_of_holeFree q t hfree.1]
      by_cases hqt : q = t
      · have hrest : correspondList (pre ++ b :: post) ts = .captured c ↔
            ∃ u, ts = pre ++ u :: post ∧ correspond b u = .captured c := ih hfree.2
        cases hc : correspondList (pre ++ b :: post) ts <;> simp_all
      · simp [hqt, Ne.symm hqt]

/-- A pattern with one hole captures a term exactly if the term is the pattern filled with it. -/
theorem correspond_eq_captured {b t c : Term} (hb : b.OneHole) :
    correspond b t = .captured c ↔ t = b.replaceLeaf .hole c := by
  induction hb generalizing t with
  | hole =>
    rw [Term.replaceLeaf_leaf, Term.leaf, correspond, Comparison.captured.injEq]
  | @arg h pre b post hh hpre _ hpost ih =>
    cases t with
    | app g bs =>
      rw [correspond_app hh, Term.replaceLeaf_hole_arg b c hpre hpost, Term.app.injEq]
      by_cases hg : h = g
      · rw [if_pos hg, correspondList_eq_captured hpre hpost]
        simp only [ih, exists_eq_right, hg, true_and]
      · rw [if_neg hg]
        simp [Ne.symm hg]

/-- Capturing undoes filling, and nothing else is captured. -/
theorem capture?_eq_some_iff {p : Template} (hp : p.body.OneHole) {t c : Term} :
    p.capture? t = some c ↔ t = p.fill c := by
  rw [fill, ← correspond_eq_captured hp, capture?]
  cases correspond p.body t <;> simp

/-- A template captures a term exactly if it is filled with it to give the whole. -/
theorem Proper.capture?_eq_some_iff {p : Template} (hp : p.Proper) {t c : Term} :
    p.capture? t = some c ↔ t = p.fill c :=
  Template.capture?_eq_some_iff hp.oneHole

/-! ## Opening, capturing and filling -/

/-- A term is a template exactly if it has one hole. -/
theorem ofTerm?_eq_some_iff {b : Term} {p : Template} :
    ofTerm? b = some p ↔ p.body = b ∧ b.holeCount = 1 := by
  unfold ofTerm?
  split
  next hcount =>
    simp only [Option.some.injEq, hcount, and_true]
    constructor
    · intro h
      rw [← h]
    · intro h
      rw [← h]
  next hcount => simp [hcount]

/-- Opening a place, capturing and filling undo each other. A template that is opened in a statement
has one hole, a leaf below the root, which the variable fills to give the statement. With any
template whose only hole is a leaf, a term is captured from another exactly if it fills the template
to that one; so no two terms do, and if none is captured then none does. Where a variable fills such
a template, and is not in it as a leaf or as the root, opening its place gives the template back. -/
theorem opening_capturing_filling_inverse :
    (∀ (t : Term) (v : Serial) (p : Template), t.HoleFree → abstracting? t v = some p →
      ofTerm? p.body = some p ∧ p.body.holeCount = 1 ∧ p.body.leafCount .hole = 1 ∧
        p.body.head ≠ .hole ∧ p.fill (.leaf (.var v)) = t ∧
        p.capture? t = some (.leaf (.var v))) ∧
    ∀ (b : Term) (p : Template), ofTerm? b = some p → b.leafCount .hole = 1 →
      (∀ t c : Term, p.capture? t = some c ↔ p.fill c = t) ∧
      (∀ c c' : Term, p.fill c = p.fill c' → c = c') ∧
      (∀ t : Term, p.capture? t = none ↔ ∀ c, p.fill c ≠ t) ∧
      ∀ v : Serial, b.head ≠ .hole → b.head ≠ .var v → b.leafCount (.var v) = 0 →
        abstracting? (p.fill (.leaf (.var v))) v = some p := by
  constructor
  · intro t v p ht hp
    obtain ⟨hproper, hfill⟩ := abstracting?_spec ht hp
    have hcount := hproper.oneHole.holeCount
    exact ⟨ofTerm?_eq_some_iff.mpr ⟨rfl, hcount⟩, hcount, hproper.oneHole.leafCount,
      hproper.head_ne, hfill, hproper.capture?_eq_some_iff.mpr hfill.symm⟩
  · intro b p hp hleaf
    obtain ⟨rfl, hcount⟩ := ofTerm?_eq_some_iff.mp hp
    have hone : p.body.OneHole := Term.oneHole_of_counts hcount hleaf
    have hcapture : ∀ t c : Term, p.capture? t = some c ↔ p.fill c = t := by
      intro t c
      rw [capture?_eq_some_iff hone, eq_comm]
    refine ⟨hcapture, fun c c' => hone.replaceLeaf_injective, ?_, ?_⟩
    · intro t
      simp only [Option.eq_none_iff_forall_ne_some, ne_eq, hcapture]
    · intro v hhole hvar hfree
      exact Proper.abstracting?_fill ⟨hone, hhole⟩ hvar hfree

/-- The variable stands in one leaf here, and once over an argument, where it stays. The template
captures a hole, and captures nothing from a term that differs beside the hole. -/
theorem opening_capturing_filling_applied :
    ∃ (t : Term) (p : Template), t.HoleFree ∧ abstracting? t 0 = some p ∧
      p.fill (.leaf (.var 0)) = t ∧ p.capture? t = some (.leaf (.var 0)) ∧
      p.capture? p.body = some (.leaf .hole) ∧ p.capture? (.leaf (.op 0)) = none ∧
      ∀ c, p.fill c ≠ .leaf (.op 0) := by
  let t : Term := .binary (.op 0) (.app (.var 0) [.leaf (.op 1)]) (.leaf (.var 0))
  let p : Template := ⟨.binary (.op 0) (.app (.var 0) [.leaf (.op 1)]) (.leaf .hole)⟩
  have ht : t.HoleFree := Term.holeFree_iff_holeCount.mpr rfl
  have hp : abstracting? t 0 = some p := by decide
  obtain ⟨hopen, hinverse⟩ := opening_capturing_filling_inverse
  obtain ⟨hof, -, hleaf, -, hfill, hcapture⟩ := hopen t 0 p ht hp
  obtain ⟨hiff, -, hnone, -⟩ := hinverse p.body p hof hleaf
  have hdiffers : p.capture? (.leaf (.op 0)) = none := by decide
  exact ⟨t, p, ht, hp, hfill, hcapture, (hiff _ _).mpr (by decide), hdiffers,
    (hnone _).mp hdiffers⟩

end Template

end Lemmata
