import Lemmata.Proofs.Closure.History
import Mathlib.Order.Defs.Unbundled

/-!
# The listing of a closure catalog

The rules of a catalog are listed by kind and then by schema. What comes before what is said here
without a comparison function: variables before operators and these before the hole, terms and slots
like words in a dictionary, open slots before fixed ones, and pure rules before implication rules. The
comparison that sorts the rules decides just this (`compareKeys_eq_lt_iff`), and what it calls equal is
the same.

A key is filed once, so the listing is strictly increasing, and there is only one such list of the
filed rules. Hence the listing depends neither on the order in which the rules came nor on the order in
which they are collected before they are sorted (`rules_canonical`).
-/

namespace Lemmata

/-! ## What comes before what -/

namespace Symbol

/-- Variables come before operators and these before the hole, two of a sort by number. -/
inductive Before : Symbol → Symbol → Prop
  | vars {i j : Serial} (h : i < j) : Before (var i) (var j)
  | ops {i j : Serial} (h : i < j) : Before (op i) (op j)
  | var_op (i j : Serial) : Before (var i) (op j)
  | var_hole (i : Serial) : Before (var i) hole
  | op_hole (i : Serial) : Before (op i) hole

/-- Symbols are compared by sort and then by number. -/
theorem compare_eq_lt_iff {s t : Symbol} : compare s t = .lt ↔ s.Before t := by
  have hparts : compare s t = .lt ↔
      s.rank < t.rank ∨ s.rank = t.rank ∧ s.number < t.number := by
    rw [← Nat.compare_eq_lt, ← Nat.compare_eq_lt, ← Nat.compare_eq_eq]
    exact Ordering.then_eq_lt
  rw [hparts]
  constructor
  · intro h
    cases s <;> cases t <;> simp [rank, number] at h
    · exact .vars h
    · exact .var_op _ _
    · exact .var_hole _
    · exact .ops h
    · exact .op_hole _
  · intro h
    cases h with
    | vars h => exact .inr ⟨rfl, h⟩
    | ops h => exact .inr ⟨rfl, h⟩
    | var_op i j => exact .inl (Nat.zero_lt_one)
    | var_hole i => exact .inl (Nat.zero_lt_two)
    | op_hole i => exact .inl (Nat.one_lt_two)

end Symbol

namespace Term

/-- The roots decide first. Under the same root the first difference between the arguments decides,
and a proper beginning comes first. -/
inductive Before : Term → Term → Prop
  | head {f g : Symbol} (as bs : List Term) (h : f.Before g) : Before (app f as) (app g bs)
  | args (f : Symbol) {as bs : List Term} (h : List.Lex Before as bs) : Before (app f as) (app f bs)

mutual

/-- Terms are compared by their roots and then by their arguments. The induction goes along both
terms. -/
theorem order_eq_lt_iff : (s t : Term) → (s.order t = .lt ↔ s.Before t)
  | app f as, app g bs => by
    rw [order, Ordering.then_eq_lt, Symbol.compare_eq_lt_iff, Std.LawfulEqOrd.compare_eq_iff_eq,
      orderList_eq_lt_iff as bs]
    constructor
    · intro h
      rcases h with h | ⟨rfl, h⟩
      · exact .head as bs h
      · exact .args f h
    · intro h
      cases h with
      | head _ _ h => exact .inl h
      | args _ h => exact .inr ⟨rfl, h⟩

theorem orderList_eq_lt_iff :
    (ss ts : List Term) → (orderList ss ts = .lt ↔ List.Lex Before ss ts)
  | [], [] => iff_of_false nofun nofun
  | [], _ :: _ => iff_of_true rfl .nil
  | _ :: _, [] => iff_of_false nofun nofun
  | s :: ss, t :: ts => by
    have heq : s.order t = .eq ↔ s = t :=
      Std.LawfulEqOrd.compare_eq_iff_eq (a := s) (b := t)
    rw [orderList, Ordering.then_eq_lt, order_eq_lt_iff s t, heq, orderList_eq_lt_iff ss ts,
      List.cons_lex_cons_iff]

end

/-- The comparison that the order of schemas uses is this one. -/
theorem compare_eq_lt_iff {s t : Term} : compare s t = .lt ↔ s.Before t :=
  order_eq_lt_iff s t

end Term

namespace Slots

/-- The first difference decides, an open slot comes before a fixed one, and a proper beginning comes
first. -/
def Before : Slots → Slots → Prop :=
  List.Lex (Option.lt Term.Before)

/-- Slots are compared one after the other, and the first difference decides. -/
theorem compare_eq_lt_iff (ss ts : Slots) : compare ss ts = .lt ↔ Before ss ts := by
  have hslot : ∀ s t : Option Term, compare s t = .lt ↔ Option.lt Term.Before s t := by
    intro s t
    cases s with
    | none => cases t <;> simp [Option.lt, compare]
    | some s =>
      cases t with
      | none => simp [Option.lt, compare]
      | some t => exact Term.compare_eq_lt_iff
  induction ss generalizing ts with
  | nil =>
    cases ts with
    | nil => exact iff_of_false nofun nofun
    | cons t ts => exact iff_of_true rfl .nil
  | cons s ss ih =>
    cases ts with
    | nil => exact iff_of_false nofun nofun
    | cons t ts =>
      rw [List.compare_cons_cons, Ordering.then_eq_lt, hslot, Std.LawfulEqOrd.compare_eq_iff_eq,
        Before, List.cons_lex_cons_iff]
      exact or_congr_right (and_congr_right fun _ => ih ts)

end Slots

namespace Schema

/-- The symbols decide first, then the slots and then the templates. -/
inductive Before (s t : Schema) : Prop
  | symbol (h : s.symbol.Before t.symbol)
  | slots (hsymbol : s.symbol = t.symbol) (h : Slots.Before s.slots t.slots)
  | template (hsymbol : s.symbol = t.symbol) (hslots : s.slots = t.slots)
    (h : s.template.body.Before t.template.body)

/-- Schemas are compared by symbol, by slots and by template, in this order. -/
theorem compare_eq_lt_iff {s t : Schema} : compare s t = .lt ↔ s.Before t := by
  have hparts : compare s t = .lt ↔ s.symbol.Before t.symbol ∨ s.symbol = t.symbol ∧
      (Slots.Before s.slots t.slots ∨
        s.slots = t.slots ∧ s.template.body.Before t.template.body) := by
    rw [← Symbol.compare_eq_lt_iff, ← Slots.compare_eq_lt_iff, ← Term.compare_eq_lt_iff,
      ← Std.LawfulEqOrd.compare_eq_iff_eq (a := s.symbol),
      ← Std.LawfulEqOrd.compare_eq_iff_eq (a := s.slots), ← Ordering.then_eq_lt,
      ← Ordering.then_eq_lt]
    rfl
  rw [hparts]
  constructor
  · intro h
    rcases h with h | ⟨hsymbol, h | ⟨hslots, h⟩⟩
    · exact .symbol h
    · exact .slots hsymbol h
    · exact .template hsymbol hslots h
  · intro h
    cases h with
    | symbol h => exact .inl h
    | slots hsymbol h => exact .inr ⟨hsymbol, .inl h⟩
    | template hsymbol hslots h => exact .inr ⟨hsymbol, .inr ⟨hslots, h⟩⟩

end Schema

namespace ClosureRule

/-- What a rule is filed under. -/
abbrev Key : Type :=
  ClosureKind × Schema

def key (r : ClosureRule) : Key :=
  (r.kind, r.schema)

/-- Pure rules come before implication rules, and the schemas decide within a kind. -/
inductive Key.Before : Key → Key → Prop
  | kind (s t : Schema) : Before (.pure, s) (.implication, t)
  | schema (kind : ClosureKind) {s t : Schema} (h : s.Before t) : Before (kind, s) (kind, t)

/-- The place of a kind. -/
def kindRank : ClosureKind → Nat
  | .pure => 0
  | .implication => 1

/-- Keys are compared by kind and then by schema. -/
def compareKeys (k k' : Key) : Ordering :=
  (compare (kindRank k.1) (kindRank k'.1)).then (compare k.2 k'.2)

/-- The rules in the order of their keys. -/
def sort (rs : List ClosureRule) : List ClosureRule :=
  rs.mergeSort fun r r' => (compareKeys r.key r'.key).isLE

instance : Std.TransCmp compareKeys :=
  inferInstanceAs (Std.TransCmp
    (compareLex (compareOn fun k : Key => kindRank k.1) (compareOn fun k : Key => k.2)))

/-- The comparison of keys decides which of them comes first. -/
theorem compareKeys_eq_lt_iff {k k' : Key} : compareKeys k k' = .lt ↔ k.Before k' := by
  obtain ⟨kind, s⟩ := k
  obtain ⟨kind', s'⟩ := k'
  rw [compareKeys, Ordering.then_eq_lt, Nat.compare_eq_lt, Nat.compare_eq_eq,
    Schema.compare_eq_lt_iff]
  constructor
  · intro h
    cases kind <;> cases kind' <;> simp [kindRank] at h
    · exact .schema _ h
    · exact .kind s s'
    · exact .schema _ h
  · intro h
    cases h with
    | kind => exact .inl Nat.zero_lt_one
    | schema _ h => exact .inr ⟨rfl, h⟩

/-- What the comparison calls equal is the same. -/
theorem compareKeys_eq_eq_iff {k k' : Key} : compareKeys k k' = .eq ↔ k = k' := by
  obtain ⟨kind, s⟩ := k
  obtain ⟨kind', s'⟩ := k'
  rw [compareKeys, Ordering.then_eq_eq, Nat.compare_eq_eq, Std.LawfulEqOrd.compare_eq_iff_eq,
    Prod.mk.injEq]
  refine and_congr_left fun _ => ?_
  cases kind <;> cases kind' <;> simp [kindRank]

/-- The order of the keys is a strict total order. -/
theorem isStrictTotalOrder_before : IsStrictTotalOrder Key Key.Before where
  irrefl k h := by
    rw [← compareKeys_eq_lt_iff, compareKeys_eq_eq_iff.mpr rfl] at h
    cases h
  trans k k' k'' h h' := by
    rw [← compareKeys_eq_lt_iff] at *
    exact Std.TransCmp.lt_trans h h'
  trichotomous k k' h h' := by
    rw [← compareKeys_eq_lt_iff] at h h'
    have hswap : compareKeys k' k = (compareKeys k k').swap := Std.OrientedCmp.eq_swap
    rw [hswap, Ordering.swap_eq_lt] at h'
    rw [← compareKeys_eq_eq_iff]
    cases hcmp : compareKeys k k' with
    | lt => exact absurd hcmp h
    | eq => rfl
    | gt => exact absurd hcmp h'

end ClosureRule

/-! ## The listing -/

namespace ClosureCatalog

open ClosureRule

/-- The catalogs that any registrations make. -/
inductive Registered : ClosureCatalog → Prop
  | ofTheory (T : Theory) (selection : Selection) (d : Detachments) (j : Conjunctions) :
    Registered (.ofTheory T selection d j)
  | add {c : ClosureCatalog} (kind : ClosureKind) (a : Assertion) :
    Registered c → Registered (c.add kind a).2

/-- Registrations are offers, so a registered catalog has a history. -/
theorem Registered.exists_offered {c : ClosureCatalog} (h : c.Registered) :
    ∃ d j offers, c = (unfilled d j).offered offers := by
  induction h with
  | ofTheory T selection d j => exact ⟨d, j, _, ofTheory_eq_offered d j T selection⟩
  | add kind a _ ih =>
    obtain ⟨d, j, offers, rfl⟩ := ih
    have hlast : (unfilled d j).offered (offers ++ [⟨kind, a⟩]) =
        (((unfilled d j).offered offers).add kind a).2 := offered_append _ _ _
    exact ⟨d, j, _, hlast.symm⟩

/-- In a registered catalog a schema is found where it was filed. -/
theorem Registered.valid {c : ClosureCatalog} (h : c.Registered) (kind : ClosureKind) :
    (c.rulesOf kind).Valid := by
  obtain ⟨d, j, offers, rfl⟩ := h.exists_offered
  exact valid_rulesOf_offered d j offers kind

/-- The rule is filed. -/
def Files (c : ClosureCatalog) (r : ClosureRule) : Prop :=
  c.assertion? r.kind r.schema = some r.assertion

/-- The filed rules are listed once each, in strictly increasing order of their keys, whatever the
order in which they are collected before they are sorted. -/
structure Canonical (c : ClosureCatalog) : Prop where
  nodup : c.rules.Nodup
  mem_iff : ∀ r, r ∈ c.rules ↔ c.Files r
  increasing : c.rules.Pairwise fun r r' => r.key.Before r'.key
  sort_eq : ∀ rs : List ClosureRule, rs.Nodup → (∀ r, r ∈ rs ↔ c.Files r) → sort rs = c.rules

/-- Under one key only one rule is filed. -/
theorem Files.eq_of_key {c : ClosureCatalog} {r r' : ClosureRule} (h : c.Files r) (h' : c.Files r')
    (hkey : r.key = r'.key) : r = r' := by
  obtain ⟨kind, s, a⟩ := r
  obtain ⟨kind', s', a'⟩ := r'
  cases hkey
  cases h.symm.trans h'
  rfl

section Valid

variable {c : ClosureCatalog} (hc : ∀ kind, (c.rulesOf kind).Valid)
include hc

/-- The listing has the filed rules and no others: sorting loses nothing, and each kind is listed
with its own rules. -/
theorem mem_rules_iff (r : ClosureRule) : r ∈ c.rules ↔ c.Files r := by
  obtain ⟨kind, s, a⟩ := r
  have hfiles : c.Files ⟨kind, s, a⟩ ↔ (s, a) ∈ (c.rulesOf kind).sorted := by
    rw [(Registry.sorted_perm _).mem_iff, ← (hc kind).get?_eq_some_iff]
    rfl
  rw [hfiles]
  cases kind <;> simp [rules, rulesOf]

/-- The listing is strictly increasing. Within a kind the schemas are sorted, and all pure rules
come before all implication rules. -/
theorem pairwise_rules : c.rules.Pairwise fun r r' => r.key.Before r'.key := by
  have hkind : ∀ kind, ((c.rulesOf kind).sorted.map fun e => ClosureRule.mk kind e.1 e.2).Pairwise
      fun r r' => r.key.Before r'.key := by
    intro kind
    rw [List.pairwise_map]
    exact (hc kind).pairwise_sorted.imp fun h => .schema kind (Schema.compare_eq_lt_iff.mp h)
  refine List.pairwise_append.mpr ⟨hkind .pure, hkind .implication, ?_⟩
  intro r hr r' hr'
  obtain ⟨e, -, rfl⟩ := List.mem_map.mp hr
  obtain ⟨e', -, rfl⟩ := List.mem_map.mp hr'
  exact .kind e.1 e'.1

/-- No rule is listed twice, since a strictly increasing list cannot repeat anything. -/
theorem nodup_rules : c.rules.Nodup := by
  refine (pairwise_rules hc).imp fun {r r'} h heq => ?_
  subst heq
  exact isStrictTotalOrder_before.irrefl _ h

/-- However the filed rules are collected, sorting them gives the listing. -/
theorem sort_eq_rules {rs : List ClosureRule} (hnodup : rs.Nodup) (hmem : ∀ r, r ∈ rs ↔ c.Files r) :
    sort rs = c.rules := by
  have hperm : (sort rs).Perm c.rules := by
    refine (List.mergeSort_perm _ _).trans ((List.perm_ext_iff_of_nodup hnodup (nodup_rules hc)).mpr ?_)
    intro r
    rw [hmem, mem_rules_iff hc]
  have hsorted : (sort rs).Pairwise fun r r' => (compareKeys r.key r'.key).isLE :=
    List.pairwise_mergeSort_isLE compareKeys key rs
  have hrules : c.rules.Pairwise fun r r' => (compareKeys r.key r'.key).isLE :=
    (pairwise_rules hc).imp fun h => Ordering.isLE_of_eq_lt (compareKeys_eq_lt_iff.mpr h)
  -- Two rules that are filed under one key are the same.
  refine List.Perm.eq_of_pairwise (fun r r' hr hr' hle hle' => ?_) hsorted hrules hperm
  have hkey : r.key = r'.key := compareKeys_eq_eq_iff.mp (Std.OrientedCmp.isLE_antisymm hle hle')
  exact Files.eq_of_key ((mem_rules_iff hc r).mp (hperm.mem_iff.mp hr))
    ((mem_rules_iff hc r').mp hr') hkey

end Valid

/-- Whatever was registered, the filed rules are listed in their one order. -/
theorem Registered.canonical {c : ClosureCatalog} (hc : c.Registered) : c.Canonical :=
  ⟨nodup_rules hc.valid, mem_rules_iff hc.valid, pairwise_rules hc.valid,
    fun _ => sort_eq_rules hc.valid⟩

/-- The listing of a registered catalog is canonical: it has the filed rules once each, in
increasing order of their keys, however they are collected before they are sorted. The order of the
keys is a strict total order that the comparison decides, and catalogs with the same entries have
the same listing, whatever came first. -/
theorem rules_canonical {c c' : ClosureCatalog} (hc : c.Registered) (hc' : c'.Registered) :
    c.Canonical ∧ IsStrictTotalOrder Key Key.Before ∧
      (∀ k k', (compareKeys k k' = .lt ↔ k.Before k') ∧ (compareKeys k k' = .eq ↔ k = k')) ∧
      ((∀ kind s, c'.assertion? kind s = c.assertion? kind s) → c'.rules = c.rules) := by
  refine ⟨hc.canonical, isStrictTotalOrder_before,
    fun _ _ => ⟨compareKeys_eq_lt_iff, compareKeys_eq_eq_iff⟩, fun hsame => ?_⟩
  have hfiles : ∀ r, r ∈ c'.rules ↔ c.Files r := by
    intro r
    rw [hc'.canonical.mem_iff, Files, Files, hsame]
  rw [← hc'.canonical.sort_eq _ hc'.canonical.nodup hc'.canonical.mem_iff,
    hc.canonical.sort_eq _ hc'.canonical.nodup hfiles]

/-- The catalog of two pure rules that come one after the other. -/
def pairCatalog (r r' : ClosureRule) : ClosureCatalog :=
  (((ofTheory {} {} (.ofTheory {}) (.ofTheory {})).add .pure r.assertion).2.add .pure r'.assertion).2

theorem registered_pairCatalog (r r' : ClosureRule) : (pairCatalog r r').Registered :=
  .add _ _ (.add _ _ (.ofTheory _ _ _ _))

/-- Two recognised rules are filed one after the other. -/
theorem rulesOf_pairCatalog {r r' : ClosureRule} (hr : ofPure r.assertion = .ok r)
    (hr' : ofPure r'.assertion = .ok r') :
    (pairCatalog r r').rulesOf .pure =
        (Registry.empty.add r.schema r.assertion).add r'.schema r'.assertion ∧
      (pairCatalog r r').rulesOf .implication = .empty := by
  have hsome : ∀ (c : ClosureCatalog) (r : ClosureRule), ofPure r.assertion = .ok r →
      (c.add .pure r.assertion).2.rulesOf .pure = (c.rulesOf .pure).add r.schema r.assertion := by
    intro c r hr
    have hschema : Offer.schemaAs? c .pure ⟨.pure, r.assertion⟩ = some r.schema := by
      rw [Offer.schemaAs?, if_pos rfl, recognise, hr]
      rfl
    exact rulesOf_add_of_some hschema
  have hnone : ∀ (c : ClosureCatalog) (a : Assertion),
      (c.add .pure a).2.rulesOf .implication = c.rulesOf .implication :=
    fun c a => rulesOf_add_of_none (o := ⟨.pure, a⟩) (if_neg (by simp))
  constructor
  · rw [pairCatalog, hsome _ r' hr', hsome _ r hr]
    rfl
  · rw [pairCatalog, hnone, hnone]
    rfl

/-- Two rules are listed in the same order whichever comes first. -/
theorem rules_pairCatalog_comm :
    (pairCatalog plainRule appliedRule).Registered ∧ (pairCatalog appliedRule plainRule).Registered ∧
      (∀ kind s, (pairCatalog appliedRule plainRule).assertion? kind s =
        (pairCatalog plainRule appliedRule).assertion? kind s) ∧
      (pairCatalog plainRule appliedRule).pureRules.keys = [plainRule.schema, appliedRule.schema] ∧
      (pairCatalog appliedRule plainRule).pureRules.keys = [appliedRule.schema, plainRule.schema] ∧
      (pairCatalog appliedRule plainRule).rules = (pairCatalog plainRule appliedRule).rules := by
  have hfirst := rulesOf_pairCatalog ofPure_plainRule ofPure_appliedRule
  have hsecond := rulesOf_pairCatalog ofPure_appliedRule ofPure_plainRule
  have hsame : ∀ kind s, (pairCatalog appliedRule plainRule).assertion? kind s =
      (pairCatalog plainRule appliedRule).assertion? kind s := by
    intro kind s
    have hempty : (Registry.empty : Registry Schema Assertion).Valid := Registry.valid_empty
    cases kind with
    | pure =>
      rw [assertion?, assertion?, hfirst.1, hsecond.1]
      rw [(hempty.add _ _).get?_add, (hempty.add _ _).get?_add, hempty.get?_add, hempty.get?_add]
      rw [Option.or_assoc, Option.or_assoc]
      congr 1
      by_cases hs : s = appliedRule.schema
      · have hne : (s == plainRule.schema) = false := hs ▸ by decide
        simp [List.lookup_cons, hne]
      · simp [List.lookup_cons, beq_false_of_ne hs]
    | implication => rw [assertion?, assertion?, hfirst.2, hsecond.2]
  refine ⟨registered_pairCatalog _ _, registered_pairCatalog _ _, hsame, ?_, ?_,
    (rules_canonical (registered_pairCatalog _ _) (registered_pairCatalog _ _)).2.2.2 hsame⟩
  · change ((pairCatalog plainRule appliedRule).rulesOf .pure).keys = _
    rw [hfirst.1]
    decide +kernel
  · change ((pairCatalog appliedRule plainRule).rulesOf .pure).keys = _
    rw [hsecond.1]
    decide +kernel

end ClosureCatalog

end Lemmata
