import Lemmata.Proofs.Lists
import Lemmata.Registry
import Mathlib.Data.List.Induction
import Std.Data.TreeMap.Lemmas

/-!
# The laws of registries

A registry is valid when its search tree and its entries agree: a key is found at a position exactly
if the entry there has that key. The empty registry is valid, and filing under a new key keeps a
registry valid, so every registry made by the operations is. In a valid registry the value under a
key is the one of the only entry with that key, and in the registry of a list it is the first one
that the list has for the key (`get?_ofList`). The keys stand in the order in which the list first
has them (`pairwise_keys_ofList`).
-/

namespace Lemmata.Registry

variable {κ ν : Type} [Ord κ]

/-- The search tree leads from a key exactly to the position of its entry. -/
def Valid (r : Registry κ ν) : Prop :=
  ∀ k i, r.find? k = some i ↔ (r.at? i).map (·.1) = some k

/-! ## Entries -/

@[simp]
theorem size_push (r : Registry κ ν) (k : κ) (v : ν) : (r.push k v).size = r.size + 1 :=
  Array.size_push _

/-- A filed entry stands at the end. -/
@[simp]
theorem toList_push (r : Registry κ ν) (k : κ) (v : ν) :
    (r.push k v).toList = r.toList ++ [(k, v)] :=
  Array.toList_push

/-- A filed value stands at the end of the values. -/
theorem values_push (r : Registry κ ν) (k : κ) (v : ν) : (r.push k v).values = r.values ++ [v] := by
  simp [values]

/-- Filing leaves the positions of the earlier entries alone. -/
theorem at?_push (r : Registry κ ν) (k : κ) (v : ν) (i : Nat) :
    (r.push k v).at? i = if i = r.size then some (k, v) else r.at? i :=
  Array.getElem?_push

theorem mem_toList_iff {r : Registry κ ν} {e : κ × ν} : e ∈ r.toList ↔ ∃ i, r.at? i = some e := by
  simp only [toList, List.mem_iff_getElem?, Array.getElem?_toList, at?]

theorem at?_lt_size {r : Registry κ ν} {i : Nat} {e : κ × ν} (h : r.at? i = some e) :
    i < r.size :=
  (Array.getElem?_eq_some_iff.mp h).1

/-! ## Look-up -/

/-- The value under a key is that of an entry with this key, of which there is only one. -/
theorem Valid.get?_eq_some_iff {r : Registry κ ν} (hr : r.Valid) {k : κ} {v : ν} :
    r.get? k = some v ↔ (k, v) ∈ r.toList := by
  rw [mem_toList_iff, get?]
  constructor
  · intro h
    obtain ⟨i, hi, hv⟩ := Option.bind_eq_some_iff.mp h
    obtain ⟨⟨k', v'⟩, he, rfl⟩ := Option.map_eq_some_iff.mp hv
    have hk := (hr k i).mp hi
    rw [he] at hk
    cases hk
    exact ⟨i, he⟩
  · rintro ⟨i, hi⟩
    have hk : r.find? k = some i := (hr k i).mpr (by rw [hi]; rfl)
    rw [hk, Option.bind_some, hi]
    rfl

/-- A key that is found has a value. -/
theorem Valid.exists_of_contains {r : Registry κ ν} (hr : r.Valid) {k : κ} (hk : r.contains k) :
    ∃ v, r.get? k = some v := by
  obtain ⟨i, hi⟩ := Option.isSome_iff_exists.mp hk
  obtain ⟨e, he, rfl⟩ := Option.map_eq_some_iff.mp ((hr k i).mp hi)
  exact ⟨e.2, hr.get?_eq_some_iff.mpr (mem_toList_iff.mpr ⟨i, he⟩)⟩

theorem contains_of_get? {r : Registry κ ν} {k : κ} {v : ν} (h : r.get? k = some v) :
    r.contains k := by
  obtain ⟨i, hi, -⟩ := Option.bind_eq_some_iff.mp h
  exact Option.isSome_iff_exists.mpr ⟨i, hi⟩

/-- A key is found exactly if there is a value under it. -/
theorem Valid.contains_iff {r : Registry κ ν} (hr : r.Valid) {k : κ} :
    r.contains k ↔ (r.get? k).isSome := by
  rw [Option.isSome_iff_exists]
  exact ⟨hr.exists_of_contains, fun ⟨_, hv⟩ => contains_of_get? hv⟩

/-- The keys are those that have a value. -/
theorem Valid.mem_keys_iff {r : Registry κ ν} (hr : r.Valid) {k : κ} :
    k ∈ r.keys ↔ (r.get? k).isSome := by
  simp [keys, Option.isSome_iff_exists, hr.get?_eq_some_iff]

/-- A key stands at one position only. -/
theorem Valid.nodup_keys {r : Registry κ ν} (hr : r.Valid) : r.keys.Nodup := by
  have hat : ∀ i, r.keys[i]? = (r.at? i).map (·.1) := by simp [keys, toList, at?]
  refine List.pairwise_iff_getElem.mpr fun i j hi hj hlt heq => Nat.ne_of_lt hlt ?_
  have hfound := (hr r.keys[i] i).mpr (by rw [← hat, List.getElem?_eq_getElem hi])
  rw [(hr r.keys[i] j).mpr (by rw [← hat, heq, List.getElem?_eq_getElem hj])] at hfound
  exact (Option.some.inj hfound).symm

/-- A key is found at its place among the keys. -/
theorem Valid.find?_eq_idxOf? [BEq κ] [LawfulBEq κ] {r : Registry κ ν} (hr : r.Valid) (k : κ) :
    r.find? k = r.keys.idxOf? k := by
  ext i
  rw [hr k i, List.idxOf?_eq_some_iff_of_nodup hr.nodup_keys]
  simp [keys, toList, at?]

/-- Filing brings in no entry but the new one. -/
theorem mem_toList_add {r : Registry κ ν} {k : κ} {v : ν} {e : κ × ν}
    (he : e ∈ (r.add k v).toList) : e ∈ r.toList ∨ e = (k, v) := by
  rw [Registry.add] at he
  split at he
  · exact .inl he
  · rw [toList_push, List.mem_append, List.mem_singleton] at he
    exact he

/-! ## Filing keeps a registry valid -/

theorem valid_empty [Std.TransOrd κ] : (empty : Registry κ ν).Valid := by
  intro k i
  simp [find?, at?, empty]

theorem contains_empty [Std.TransOrd κ] (k : κ) : (empty : Registry κ ν).contains k = false := by
  simp [contains, find?, empty]

/-- A new key is found at the end. -/
theorem find?_push_self [Std.TransOrd κ] (r : Registry κ ν) (k : κ) (v : ν) :
    (r.push k v).find? k = some r.size :=
  Std.TreeMap.getElem?_insert_self

variable [Std.TransOrd κ] [Std.LawfulEqOrd κ]

/-- The other keys are found where they were. -/
theorem find?_push_of_ne (r : Registry κ ν) {k k' : κ} (hk : k ≠ k') (v : ν) :
    (r.push k v).find? k' = r.find? k' := by
  rw [find?, push, Std.TreeMap.getElem?_insert, if_neg]
  · rfl
  · exact fun h => hk (Std.LawfulEqOrd.eq_of_compare h)

/-- Filing makes one key known and no other. -/
theorem contains_push_iff {r : Registry κ ν} {k k' : κ} {v : ν} :
    (r.push k v).contains k' ↔ r.contains k' ∨ k = k' := by
  by_cases hk : k = k'
  · simp [contains, ← hk, find?_push_self]
  · simp [contains, find?_push_of_ne r hk v, hk]

/-- Filing under a new key keeps a registry valid. -/
theorem Valid.push {r : Registry κ ν} (hr : r.Valid) {k : κ} (hk : r.find? k = none) (v : ν) :
    (r.push k v).Valid := by
  intro k' i
  rw [at?_push]
  by_cases hi : i = r.size
  · subst hi
    rw [if_pos rfl, Option.map_some, Option.some.injEq]
    by_cases hkk : k = k'
    · subst hkk
      exact iff_of_true (find?_push_self r k v) rfl
    · refine iff_of_false (fun h => ?_) hkk
      -- The old positions are below the size.
      rw [find?_push_of_ne r hkk v, hr k'] at h
      obtain ⟨e, he, -⟩ := Option.map_eq_some_iff.mp h
      exact Nat.lt_irrefl _ (at?_lt_size he)
  · rw [if_neg hi, ← hr k' i]
    by_cases hkk : k = k'
    · subst hkk
      rw [find?_push_self, hk]
      exact iff_of_false (fun h => hi (Option.some.inj h).symm) nofun
    · rw [find?_push_of_ne r hkk v]

/-- Filing keeps a registry valid, whether the key is new or taken. -/
theorem Valid.add {r : Registry κ ν} (hr : r.Valid) (k : κ) (v : ν) : (r.add k v).Valid := by
  rw [Registry.add]
  split
  · exact hr
  next hk => exact hr.push (by simpa [contains] using hk) v

/-- A registry of a list is valid, and its entries are from the list. -/
theorem ofList_spec (es : List (κ × ν)) :
    (ofList es).Valid ∧ ∀ e ∈ (ofList es).toList, e ∈ es := by
  -- The fold starts from a valid registry `r` and ends with entries of `r` and of the list.
  have hfold : ∀ (es : List (κ × ν)) (r : Registry κ ν), r.Valid →
      (es.foldl (fun r e => r.add e.1 e.2) r).Valid ∧
        ∀ e ∈ (es.foldl (fun r e => r.add e.1 e.2) r).toList, e ∈ r.toList ∨ e ∈ es := by
    intro es
    induction es with
    | nil => exact fun r hr => ⟨hr, fun e he => .inl he⟩
    | cons d es ih =>
      intro r hr
      obtain ⟨hvalid, hmem⟩ := ih (r.add d.1 d.2) (hr.add d.1 d.2)
      refine ⟨hvalid, fun e he => ?_⟩
      rcases hmem e he with he | he
      · rcases mem_toList_add he with he | rfl
        · exact .inl he
        · exact .inr List.mem_cons_self
      · exact .inr (List.mem_cons_of_mem d he)
  obtain ⟨hvalid, hmem⟩ := hfold es empty valid_empty
  exact ⟨hvalid, fun e he => (hmem e he).resolve_left List.not_mem_nil⟩

/-- What is found in the registry of a list comes from the list. -/
theorem mem_of_get?_ofList {es : List (κ × ν)} {k : κ} {v : ν} (h : (ofList es).get? k = some v) :
    (k, v) ∈ es :=
  (ofList_spec es).2 _ ((ofList_spec es).1.get?_eq_some_iff.mp h)

/-! ## The first value keeps the key -/

section FirstWins

variable [BEq κ] [LawfulBEq κ]

/-- Filing a value changes what is found under its key, if nothing was found there before, and
nothing else. -/
theorem Valid.get?_add {r : Registry κ ν} (hr : r.Valid) (k k' : κ) (v : ν) :
    (r.add k v).get? k' = (r.get? k').or ([(k, v)].lookup k') := by
  rw [Registry.add]
  split
  next hk =>
    obtain ⟨u, hu⟩ := hr.exists_of_contains hk
    by_cases hkk : k' = k
    · simp [hkk, hu]
    · simp [List.lookup_cons, beq_false_of_ne hkk]
  next hk =>
    have hnew : r.find? k = none := by simpa [contains] using hk
    ext u
    rw [(hr.push hnew v).get?_eq_some_iff, toList_push, List.mem_append, List.mem_singleton,
      ← hr.get?_eq_some_iff]
    by_cases hkk : k' = k
    · subst hkk
      simp [get?, hnew, eq_comm]
    · simp [hkk, List.lookup_cons, beq_false_of_ne hkk]

/-- In the registry of a list, the first value under a key is found. -/
theorem get?_ofList (es : List (κ × ν)) (k : κ) : (ofList es).get? k = es.lookup k := by
  -- What the registry `r` of the entries so far has is found before the rest of the list.
  have hfold : ∀ (es : List (κ × ν)) (r : Registry κ ν), r.Valid →
      (es.foldl (fun r e => r.add e.1 e.2) r).get? k = (r.get? k).or (es.lookup k) := by
    intro es
    induction es with
    | nil => simp
    | cons e es ih =>
      intro r hr
      obtain ⟨k', v⟩ := e
      rw [List.foldl_cons, ih _ (hr.add k' v), hr.get?_add, Option.or_assoc]
      by_cases hk : k = k'
      · simp [hk]
      · simp [List.lookup_cons, beq_false_of_ne hk]
  have hempty : (empty : Registry κ ν).get? k = none := by simp [get?, find?, empty]
  rw [ofList, hfold es empty valid_empty, hempty, Option.none_or]

/-- Reworking the values of a registry, and leaving some out, reworks what is found under a key. -/
theorem Valid.get?_ofList_filterMap {μ : Type} {r : Registry κ ν} (hr : r.Valid)
    (g : κ × ν → Option μ) (k : κ) :
    (ofList (r.toList.filterMap fun e => (g e).map fun m => (e.1, m))).get? k =
      (r.get? k).bind fun v => g (k, v) := by
  have hsound : ∀ m, (ofList (r.toList.filterMap fun e => (g e).map fun m => (e.1, m))).get? k =
      some m → (r.get? k).bind (fun v => g (k, v)) = some m := by
    intro m hm
    obtain ⟨⟨k', v⟩, he, heq⟩ := List.mem_filterMap.mp (mem_of_get?_ofList hm)
    obtain ⟨m', hg, heq⟩ := Option.map_eq_some_iff.mp heq
    cases heq
    rw [hr.get?_eq_some_iff.mpr he]
    exact hg
  cases hfound : (ofList (r.toList.filterMap fun e => (g e).map fun m => (e.1, m))).get? k with
  | some m => exact (hsound m hfound).symm
  | none =>
    symm
    rw [Option.bind_eq_none_iff]
    intro v hv
    rw [get?_ofList, List.lookup_eq_none_iff] at hfound
    cases hg : g (k, v) with
    | none => rfl
    | some m =>
      have hmem : (k, m) ∈ r.toList.filterMap fun e => (g e).map fun m => (e.1, m) :=
        List.mem_filterMap.mpr ⟨(k, v), hr.get?_eq_some_iff.mp hv, by simp [hg]⟩
      simpa using hfound _ hmem

end FirstWins

/-- When the first element with each key is filed, and then reworked or left out, what is found under
a key comes from the first element with the key. -/
theorem get?_ofList_firsts [BEq κ] [LawfulBEq κ] {α μ : Type} (as : List α) (key : α → Option κ)
    (g : κ × α → Option μ) (k : κ) :
    (ofList ((ofList (as.filterMap fun a => (key a).map fun k => (k, a))).toList.filterMap
        fun e => (g e).map fun m => (e.1, m))).get? k =
      (as.find? fun a => key a == some k).bind fun a => g (k, a) := by
  rw [(ofList_spec _).1.get?_ofList_filterMap, get?_ofList, List.lookup_filterMap_key]

/-! ## The order of the keys -/

omit [Std.TransOrd κ] [Std.LawfulEqOrd κ] in
/-- The last entry of a list is filed last. -/
theorem ofList_concat (es : List (κ × ν)) (k : κ) (v : ν) :
    ofList (es ++ [(k, v)]) = (ofList es).add k v := by
  rw [ofList, List.foldl_append]
  rfl

omit [Std.TransOrd κ] [Std.LawfulEqOrd κ] in
/-- A filed key stands at the end of the keys. -/
theorem keys_push (r : Registry κ ν) (k : κ) (v : ν) : (r.push k v).keys = r.keys ++ [k] := by
  rw [keys, toList_push, List.map_append]
  rfl

omit [Std.TransOrd κ] [Std.LawfulEqOrd κ] in
/-- The keys of a registry come from its list, in the order they have there. -/
theorem keys_ofList_sublist (es : List (κ × ν)) : (ofList es).keys.Sublist (es.map (·.1)) := by
  induction es using List.reverseRecOn with
  | nil => exact List.Sublist.refl _
  | append_singleton es e ih =>
    rw [ofList_concat, add, List.map_append]
    split
    · exact ih.trans (List.sublist_append_left _ _)
    · rw [keys_push]
      exact ih.append (List.Sublist.refl _)

section FirstPlaces

variable [BEq κ] [LawfulBEq κ] {α : Type} (as : List α) (key : α → Option κ) (value : α → ν)

/-- What is found under a key was filed by the first element with the key. -/
theorem get?_ofList_filterMap (k : κ) :
    (ofList (as.filterMap fun a => (key a).map fun k => (k, value a))).get? k =
      (as.find? fun a => key a == some k).map value := by
  rw [get?_ofList, List.lookup_filterMap]

/-- The keys of a registry made from a list are those that the elements yield. -/
theorem mem_keys_ofList_filterMap {k : κ} :
    k ∈ (ofList (as.filterMap fun a => (key a).map fun k => (k, value a))).keys ↔
      ∃ a ∈ as, key a = some k := by
  rw [(ofList_spec _).1.mem_keys_iff, get?_ofList_filterMap, Option.isSome_map, List.find?_isSome]
  simp only [beq_iff_eq]

/-- Keys stand in the order of the first elements that have them. -/
theorem pairwise_keys_ofList :
    (ofList (as.filterMap fun a => (key a).map fun k => (k, value a))).keys.Pairwise fun k k' =>
      as.findIdx (fun a => key a == some k) < as.findIdx (fun a => key a == some k') := by
  induction as using List.reverseRecOn with
  | nil => exact .nil
  | append_singleton as a ih =>
    -- The place of a key that is there does not change when the list goes on.
    have hplace : ∀ k, (∃ b ∈ as, key b = some k) →
        as.findIdx (fun b => key b == some k) < as.length ∧
          (as ++ [a]).findIdx (fun b => key b == some k) =
            as.findIdx (fun b => key b == some k) := by
      rintro k ⟨b, hb, hkey⟩
      have hlt := List.findIdx_lt_length_of_exists (p := fun b => key b == some k)
        ⟨b, hb, by simp [hkey]⟩
      exact ⟨hlt, (List.prefix_append as [a]).findIdx_eq_of_findIdx_lt_length hlt⟩
    have hold := ih.imp_of_mem fun {k k'} hk hk' hlt => by
      rw [mem_keys_ofList_filterMap] at hk hk'
      rwa [← (hplace k hk).2, ← (hplace k' hk').2] at hlt
    rw [List.filterMap_append]
    cases hkey : key a with
    | none => simpa [hkey] using hold
    | some k =>
      have hlast : [a].filterMap (fun a => (key a).map fun k => (k, value a)) = [(k, value a)] := by
        simp [hkey]
      rw [hlast, ofList_concat, add]
      split
      next => exact hold
      next hnew =>
        -- A new key has its first element at the end.
        have hnone : ∀ b ∈ as, (key b == some k) = false := by
          intro b hb
          rw [beq_eq_false_iff_ne]
          intro hkb
          refine hnew ((ofList_spec _).1.contains_iff.mpr ?_)
          rw [← (ofList_spec _).1.mem_keys_iff, mem_keys_ofList_filterMap]
          exact ⟨b, hb, hkb⟩
        rw [keys_push, List.pairwise_append]
        refine ⟨hold, List.pairwise_singleton _ _, ?_⟩
        intro k' hk' k'' hk''
        obtain rfl := List.mem_singleton.mp hk''
        obtain ⟨hlt, heq⟩ := hplace k' ((mem_keys_ofList_filterMap as key value).mp hk')
        rw [heq, List.findIdx_append, List.findIdx_eq_length.mpr hnone, if_neg (Nat.lt_irrefl _)]
        exact Nat.lt_of_lt_of_le hlt (Nat.le_add_left _ _)

end FirstPlaces

/-! ## Sorting by key -/

omit [Std.TransOrd κ] [Std.LawfulEqOrd κ] in
/-- Sorting loses no entry and adds none. -/
theorem sorted_perm (r : Registry κ ν) : r.sorted.Perm r.toList :=
  List.mergeSort_perm _ _

/-- Sorted entries stand in strictly increasing order of their keys. -/
theorem Valid.pairwise_sorted {r : Registry κ ν} (hr : r.Valid) :
    r.sorted.Pairwise fun e e' => compare e.1 e'.1 = .lt := by
  have hle := List.pairwise_mergeSort_isLE compare Prod.fst r.toList
  have hne : r.sorted.Pairwise fun e e' => e.1 ≠ e'.1 := by
    rw [← List.pairwise_map]
    exact (r.sorted_perm.map Prod.fst).nodup_iff.mpr hr.nodup_keys
  refine List.Pairwise.imp₂ (fun e e' hle hne => ?_) hle hne
  exact (Ordering.isLE_iff_eq_lt_or_eq_eq.mp hle).resolve_right fun heq =>
    hne (Std.LawfulEqOrd.eq_of_compare heq)

/-- There is only one way to list the entries in strictly increasing order of their keys. -/
theorem Valid.sorted_eq {r : Registry κ ν} (hr : r.Valid) {es : List (κ × ν)}
    (hes : es.Pairwise fun e e' => compare e.1 e'.1 = .lt) (hperm : r.toList.Perm es) :
    r.sorted = es := by
  refine List.Perm.eq_of_pairwise (fun e e' _ _ hlt hgt => ?_) hr.pairwise_sorted hes
    (r.sorted_perm.trans hperm)
  cases (Std.TransCmp.lt_trans hlt hgt).symm.trans Std.ReflCmp.compare_self

/-! ## Keeping some keys -/

/-- Entries with different keys are all filed. -/
theorem toList_ofList {es : List (κ × ν)} (h : (es.map (·.1)).Nodup) : (ofList es).toList = es := by
  induction es using List.reverseRecOn with
  | nil => rfl
  | append_singleton es e ih =>
    rw [List.map_append, List.nodup_append] at h
    obtain ⟨hes, -, hnew⟩ := h
    have hfree : ¬ (ofList es).contains e.1 := by
      rw [(ofList_spec es).1.contains_iff, ← (ofList_spec es).1.mem_keys_iff]
      exact fun hmem => hnew _ ((keys_ofList_sublist es).subset hmem) _ (by simp) rfl
    rw [ofList_concat, add, if_neg hfree, toList_push, ih hes]

/-- The registry of those entries whose keys pass a test. -/
def retain (r : Registry κ ν) (p : κ → Bool) : Registry κ ν :=
  .ofList (r.toList.filter fun e => p e.1)

/-- The entries that are kept stay in their order. -/
theorem Valid.toList_retain {r : Registry κ ν} (hr : r.Valid) (p : κ → Bool) :
    (r.retain p).toList = r.toList.filter fun e => p e.1 :=
  toList_ofList (hr.nodup_keys.sublist (List.filter_sublist.map _))

/-- A registry of kept entries is valid, whatever it was taken from. -/
theorem valid_retain (r : Registry κ ν) (p : κ → Bool) : (r.retain p).Valid :=
  (ofList_spec _).1

/-- A kept key has the value it had, and a dropped one has none. -/
theorem Valid.get?_retain_eq_some_iff {r : Registry κ ν} (hr : r.Valid) {p : κ → Bool} {k : κ}
    {v : ν} : (r.retain p).get? k = some v ↔ r.get? k = some v ∧ p k := by
  rw [(valid_retain r p).get?_eq_some_iff, hr.toList_retain, List.mem_filter, hr.get?_eq_some_iff]

/-- Nothing is dropped when all keys pass the test. -/
theorem Valid.size_retain {r : Registry κ ν} (hr : r.Valid) {p : κ → Bool}
    (hp : ∀ k, (r.get? k).isSome → p k) : (r.retain p).size = r.size := by
  have hlist : (r.retain p).toList = r.toList := by
    rw [hr.toList_retain, List.filter_eq_self]
    intro e he
    exact hp _ (by rw [hr.get?_eq_some_iff.mpr he]; rfl)
  exact congrArg List.length hlist

omit [Std.TransOrd κ] [Std.LawfulEqOrd κ] in
/-- Reworking the values of a registry, and leaving some out, leaves the keys in their order. -/
theorem keys_ofList_filterMap_sublist {μ : Type} (r : Registry κ ν) (g : κ × ν → Option μ) :
    (ofList (r.toList.filterMap fun e => (g e).map fun m => (e.1, m))).keys.Sublist r.keys := by
  refine (keys_ofList_sublist _).trans ?_
  rw [keys]
  induction r.toList with
  | nil => exact .slnil
  | cons e es ih =>
    cases hg : g e with
    | none => simpa [hg] using ih.cons e.1
    | some m => simpa [hg] using ih

end Lemmata.Registry
