import Mathlib.Data.List.Find
import Mathlib.Data.List.Forall2
import Mathlib.Data.List.Nodup
import Mathlib.Data.List.Perm.Subperm

/-!
# Lists

Facts about lists that know nothing of terms and theories: reading something off every element,
leaving out repetitions, places of elements, first elements with a property, and sorting by a key.
-/

namespace Except

/-- A result is kept as an option exactly if it is a success. -/
theorem toOption_eq_some_iff {ε α : Type} {x : Except ε α} {a : α} :
    x.toOption = some a ↔ x = .ok a := by
  cases x <;> simp [Except.toOption]

end Except

namespace List

variable {α β : Type}

/-! ## Reading something off every element -/

/-- Every element of a list has its partner in a list that is related to it. -/
theorem Forall₂.exists_of_mem {R : α → β → Prop} {as : List α} {bs : List β}
    (h : Forall₂ R as bs) {a : α} (ha : a ∈ as) : ∃ b, R a b := by
  induction h with
  | nil => cases ha
  | cons hR _ ih =>
    rcases mem_cons.mp ha with ha | ha
    · exact ⟨_, ha ▸ hR⟩
    · exact ih ha

section MapM

variable {m : Type → Type} [Monad m] [LawfulMonad m]

/-- If something can be read off each element and is related to it, then it can be read off the
whole list, and the results are related to the elements one for one. -/
theorem exists_mapM_eq_pure {f : α → m β} {R : β → α → Prop} {as : List α}
    (h : ∀ a ∈ as, ∃ b, f a = pure b ∧ R b a) :
    ∃ bs, as.mapM f = pure bs ∧ Forall₂ R bs as := by
  induction as with
  | nil => exact ⟨[], mapM_nil, .nil⟩
  | cons a as ih =>
    obtain ⟨⟨b, hb, hR⟩, has⟩ := forall_mem_cons.mp h
    obtain ⟨bs, hbs, hall⟩ := ih has
    exact ⟨b :: bs, by rw [mapM_cons, hb, pure_bind, hbs, pure_bind], .cons hR hall⟩

/-- What is read off each element by a function is read off the whole list by `map`. -/
theorem mapM_eq_pure_map {f : α → m β} {g : α → β} {as : List α}
    (h : ∀ a ∈ as, f a = pure (g a)) : as.mapM f = pure (as.map g) := by
  obtain ⟨bs, hbs, hall⟩ := exists_mapM_eq_pure (R := fun b a => b = g a)
    fun a ha => ⟨g a, h a ha, rfl⟩
  rw [← forall₂_map_right_iff, forall₂_eq_eq_eq] at hall
  rw [hbs, hall]

/-- In a monad where a sequence yields a value just if both its parts do, reading something off the
whole list yields a list just if each element yields the one at its place. -/
theorem mapM_eq_pure_iff (hinj : ∀ {γ : Type} {a b : γ}, (pure a : m γ) = pure b → a = b)
    (hbind : ∀ {γ δ : Type} {x : m γ} {f : γ → m δ} {b : δ},
      x >>= f = pure b ↔ ∃ a, x = pure a ∧ f a = pure b)
    {f : α → m β} {as : List α} {bs : List β} :
    as.mapM f = pure bs ↔ as.map f = bs.map pure := by
  induction as generalizing bs with
  | nil =>
    rw [mapM_nil, map_nil, eq_comm (a := []), map_eq_nil_iff]
    exact ⟨fun h => (hinj h).symm, fun h => by rw [h]⟩
  | cons a as ih =>
    simp only [mapM_cons, hbind, ih, map_cons]
    cases bs with
    | nil => exact iff_of_false (fun ⟨_, _, _, _, h⟩ => cons_ne_nil _ _ (hinj h)) (cons_ne_nil _ _)
    | cons b bs =>
      rw [map_cons, cons.injEq]
      constructor
      · intro h
        obtain ⟨b', hb, bs', hbs, h⟩ := h
        obtain ⟨rfl, rfl⟩ := cons.inj (hinj h)
        exact ⟨hb, hbs⟩
      · intro h
        exact ⟨b, h.1, bs, h.2, rfl⟩

end MapM

/-- Options are read off a list exactly if each element yields the one at its place. -/
theorem mapM_eq_some_iff {f : α → Option β} {as : List α} {bs : List β} :
    as.mapM f = some bs ↔ as.map f = bs.map some :=
  mapM_eq_pure_iff Option.some.inj Option.bind_eq_some_iff

/-- Results are read off a list exactly if each element yields the one at its place. -/
theorem mapM_eq_ok_iff {ε : Type} {f : α → Except ε β} {as : List α} {bs : List β} :
    as.mapM f = .ok bs ↔ as.map f = bs.map .ok := by
  refine mapM_eq_pure_iff (m := Except ε) Except.ok.inj fun {_ _ x _ _} => ?_
  cases x <;> simp [bind, Except.bind, pure, Except.pure]

/-! ## Leaving out repetitions -/

section EraseDups

variable [BEq α] [LawfulBEq α]

/-- Without its repetitions a list has none. -/
theorem nodup_eraseDups : (as : List α) → as.eraseDups.Nodup
  | [] => nodup_nil
  | a :: as => by
    rw [eraseDups_cons, nodup_cons]
    refine ⟨?_, nodup_eraseDups (as.filter fun b => !b == a)⟩
    simp [mem_eraseDups]
termination_by as => as.length
decreasing_by
  simpa using Nat.lt_succ_of_le (length_filter_le _ as)

/-- What occurs already does not occur for the first time. -/
theorem eraseDups_append_of_mem {as bs : List α} (h : ∀ b ∈ bs, b ∈ as) :
    (as ++ bs).eraseDups = as.eraseDups := by
  have hnone : bs.removeAll as = [] := by
    simpa [removeAll, filter_eq_nil_iff] using h
  rw [eraseDups_append, hnone, eraseDups_nil, append_nil]

/-- A new element at the end stays there. -/
theorem eraseDups_concat_of_not_mem {as : List α} {b : α} (h : b ∉ as) :
    (as ++ [b]).eraseDups = as.eraseDups ++ [b] := by
  have hleft : [b].removeAll as = [b] := by
    simpa [removeAll] using h
  rw [eraseDups_append, hleft, eraseDups_cons, filter_nil, eraseDups_nil]

/-- Where nothing is left out but repetitions, an injective function may be applied before or
after. -/
theorem eraseDups_map [BEq β] [LawfulBEq β] {f : α → β} (hf : Function.Injective f) :
    (as : List α) → (as.map f).eraseDups = as.eraseDups.map f
  | [] => rfl
  | a :: as => by
    have hkeep : (fun b => !f b == f a) = fun b => !b == a := by
      funext b
      rw [Bool.eq_iff_iff]
      simp [hf.eq_iff]
    rw [map_cons, eraseDups_cons, eraseDups_cons, filter_map, map_cons, Function.comp_def, hkeep,
      eraseDups_map hf (as.filter fun b => !b == a)]
termination_by as => as.length
decreasing_by
  simpa using Nat.lt_succ_of_le (length_filter_le _ as)

end EraseDups

/-! ## Places of elements -/

section Places

variable [BEq α] [LawfulBEq α]

/-- In a list without repetitions, an element is found at its place. -/
theorem idxOf?_eq_some_iff_of_nodup {as : List α} (hnodup : as.Nodup) {a : α} {i : Nat} :
    as.idxOf? a = some i ↔ as[i]? = some a := by
  rw [idxOf?_eq_some_iff, getElem?_eq_some_iff]
  constructor
  · intro h
    obtain ⟨hi, ha, -⟩ := h
    exact ⟨hi, ha⟩
  · intro h
    obtain ⟨hi, rfl⟩ := h
    refine ⟨hi, rfl, fun j hj heq => ?_⟩
    have hget : as[j]? = as[i]? := by simp [heq, hi, Nat.lt_trans hj hi]
    exact Nat.ne_of_lt hj ((getElem?_inj (Nat.lt_trans hj hi) hnodup).mp hget)

/-- The elements of a list without repetitions have the places from zero on. -/
theorem map_idxOf?_of_nodup {as : List α} (h : as.Nodup) :
    as.map as.idxOf? = (range as.length).map some := by
  apply ext_getElem
  · simp
  · intro i hi _
    simp only [getElem_map, getElem_range]
    rw [idxOf?_eq_some_iff_of_nodup h]
    simp

/-- Elements with the places from zero on are all elements of a list, and these are different. -/
theorem eq_of_map_idxOf? {as bs : List α} (h : bs.map as.idxOf? = (range as.length).map some) :
    bs = as ∧ as.Nodup := by
  have hlen : bs.length = as.length := by simpa using congrArg length h
  have heq : bs = as := by
    refine ext_getElem hlen fun i hi hi' => ?_
    have hidx : as.idxOf? bs[i] = some i := by
      have hget := congrArg (fun l : List (Option Nat) => l[i]?) h
      simpa [hi, hi'] using hget
    obtain ⟨_, hget, -⟩ := idxOf?_eq_some_iff.mp hidx
    exact hget.symm
  refine ⟨heq, ?_⟩
  have hnodup : ((range as.length).map some).Nodup := nodup_range.map fun _ _ => Option.some.inj
  rw [← h, heq] at hnodup
  exact Nodup.of_map _ hnodup

/-- An injective function leaves elements at their places. -/
theorem idxOf?_map [BEq β] [LawfulBEq β] {f : α → β} (hf : Function.Injective f) (as : List α)
    (a : α) : (as.map f).idxOf? (f a) = as.idxOf? a := by
  have heq : (fun b => f b == f a) = fun b => b == a := by
    funext b
    rw [Bool.eq_iff_iff, beq_iff_eq, beq_iff_eq, hf.eq_iff]
  rw [idxOf?, idxOf?, findIdx?_map, Function.comp_def, heq]

end Places

/-- As many different numbers below a bound as there are below it are all of them. -/
theorem mem_of_nodup_of_length_le {n : Nat} {ks : List Nat} (hnodup : ks.Nodup)
    (hlt : ∀ k ∈ ks, k < n) (hlen : n ≤ ks.length) {k : Nat} (hk : k < n) : k ∈ ks := by
  have hsub : ks ⊆ range n := fun k hk => mem_range.mpr (hlt k hk)
  have hperm := (subperm_of_subset hnodup hsub).perm_of_length_le (by simpa using hlen)
  exact hperm.mem_iff.mpr (mem_range.mpr hk)

/-! ## First elements -/

/-- In a list with increasing numbers, the first element with a property is the one with the least
number. -/
theorem find?_eq_some_iff_least {number : α → Nat} {q : α → Bool} {as : List α}
    (h : as.Pairwise fun a b => number a < number b) {a : α} :
    as.find? q = some a ↔ a ∈ as ∧ q a ∧ ∀ b ∈ as, q b → number a ≤ number b := by
  induction as with
  | nil => simp
  | cons c as ih =>
    obtain ⟨hc, has⟩ := pairwise_cons.mp h
    by_cases hq : q c
    · rw [find?_cons_of_pos hq, Option.some.injEq]
      constructor
      · intro hca
        subst hca
        refine ⟨mem_cons_self, hq, ?_⟩
        intro b hb _
        rcases mem_cons.mp hb with hb | hb
        · exact Nat.le_of_eq (congrArg number hb.symm)
        · exact Nat.le_of_lt (hc b hb)
      · intro hleast
        obtain ⟨ha, -, hleast⟩ := hleast
        rcases mem_cons.mp ha with ha | ha
        · exact ha.symm
        · -- A later element has a greater number.
          have hle := hleast c mem_cons_self hq
          have hlt := hc a ha
          omega
    · rw [find?_cons_of_neg hq, ih has]
      constructor
      · intro hleast
        obtain ⟨ha, hqa, hleast⟩ := hleast
        refine ⟨mem_cons_of_mem _ ha, hqa, ?_⟩
        intro b hb hqb
        rcases mem_cons.mp hb with hb | hb
        · exact absurd (hb ▸ hqb) hq
        · exact hleast b hb hqb
      · intro hleast
        obtain ⟨ha, hqa, hleast⟩ := hleast
        rcases mem_cons.mp ha with ha | ha
        · exact absurd (ha ▸ hqa) hq
        · exact ⟨ha, hqa, fun b hb => hleast b (mem_cons_of_mem _ hb)⟩

section Lookup

variable {κ ν : Type} [BEq κ] [LawfulBEq κ]

/-- Looking up what elements have filed is looking for the first element with the key. -/
theorem lookup_filterMap (as : List α) (key : α → Option κ) (value : α → ν) (k : κ) :
    (as.filterMap fun a => (key a).map fun k => (k, value a)).lookup k =
      (as.find? fun a => key a == some k).map value := by
  induction as with
  | nil => rfl
  | cons a as ih =>
    cases hkey : key a with
    | none => simp [hkey, ih]
    | some k' =>
      by_cases hk : k' = k
      · simp [hkey, hk]
      · simp [hkey, hk, lookup_cons, beq_false_of_ne (Ne.symm hk), ih]

/-- Looking up what elements are filed under is looking for the first element with the key. -/
theorem lookup_filterMap_key (as : List α) (key : α → Option κ) (k : κ) :
    (as.filterMap fun a => (key a).map fun k => (k, a)).lookup k =
      as.find? fun a => key a == some k := by
  rw [lookup_filterMap as key fun a => a, Option.map_id']

end Lookup

/-! ## Sorting by a key -/

/-- A list that is sorted by a comparison of keys stands in the order of its keys. -/
theorem pairwise_mergeSort_isLE {κ : Type} (cmp : κ → κ → Ordering) [Std.TransCmp cmp]
    (key : α → κ) (as : List α) :
    (as.mergeSort fun a b => (cmp (key a) (key b)).isLE).Pairwise fun a b =>
      (cmp (key a) (key b)).isLE := by
  refine pairwise_mergeSort (fun _ _ _ => Std.TransCmp.isLE_trans) (fun a b => ?_) as
  have hswap : cmp (key a) (key b) = (cmp (key b) (key a)).swap := Std.OrientedCmp.eq_swap
  rw [hswap]
  cases cmp (key b) (key a) <;> rfl

end List
