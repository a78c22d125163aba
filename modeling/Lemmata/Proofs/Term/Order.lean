import Lemmata.Closure.Schema

/-!
# The laws of the orders

Registries look their keys up in search trees, so a look-up means what it says only if the order of
the keys is a linear order in which equal means the same. That is proved here for symbols, terms,
templates and schemas.

Symbols, templates and schemas are compared part by part, and their laws come from those of the
parts. Terms are compared along their recursion, so their laws are inductions: first that comparing
the other way round swaps the answer, then that only a term and itself compare as equal, and with
that the transitivity of being smaller.
-/

namespace Lemmata

namespace Symbol

instance : Std.TransOrd Symbol :=
  inferInstanceAs (Std.TransCmp (compareLex (compareOn rank) (compareOn number)))

/-- Sort and number together determine the symbol. -/
theorem eq_of_rank_of_number {s t : Symbol} (hr : s.rank = t.rank) (hn : s.number = t.number) :
    s = t := by
  cases s <;> cases t <;> simp only [rank, number, reduceCtorEq, Nat.reduceEqDiff] at hr hn ⊢
  · exact congrArg var (Fin.ext hn)
  · exact congrArg op (Fin.ext hn)

instance : Std.LawfulEqOrd Symbol where
  eq_of_compare {s t} h := by
    obtain ⟨hr, hn⟩ := Ordering.then_eq_eq.mp h
    exact eq_of_rank_of_number (Std.LawfulEqOrd.eq_of_compare hr) (Std.LawfulEqOrd.eq_of_compare hn)
  compare_self {s} := Ordering.then_eq_eq.mpr ⟨Std.ReflOrd.compare_self, Std.ReflOrd.compare_self⟩

end Symbol

namespace Term

mutual

/-- Comparing the other way round swaps the answer. -/
theorem order_swap : (s t : Term) → s.order t = (t.order s).swap
  | app f as, app g bs => by
    rw [order, order, Ordering.swap_then, ← orderList_swap as bs]
    rw [Std.OrientedOrd.eq_swap (a := f) (b := g)]

theorem orderList_swap : (ss ts : List Term) → orderList ss ts = (orderList ts ss).swap
  | [], [] => rfl
  | [], _ :: _ => rfl
  | _ :: _, [] => rfl
  | s :: ss, t :: ts => by
    rw [orderList, orderList, Ordering.swap_then, ← order_swap s t, ← orderList_swap ss ts]

end

mutual

/-- A term is equal to itself in the order. -/
theorem order_self : (t : Term) → t.order t = .eq
  | app f as => by
    rw [order, Ordering.then_eq_eq]
    exact ⟨Std.ReflOrd.compare_self, orderList_self as⟩

theorem orderList_self : (ts : List Term) → orderList ts ts = .eq
  | [] => rfl
  | t :: ts => by
    rw [orderList, Ordering.then_eq_eq]
    exact ⟨order_self t, orderList_self ts⟩

end

mutual

/-- Only a term and itself compare as equal. -/
theorem eq_of_order_eq : (s t : Term) → s.order t = .eq → s = t
  | app f as, app g bs, h => by
    rw [order, Ordering.then_eq_eq] at h
    rw [Std.LawfulEqOrd.eq_of_compare h.1, eq_of_orderList_eq as bs h.2]

theorem eq_of_orderList_eq : (ss ts : List Term) → orderList ss ts = .eq → ss = ts
  | [], [], _ => rfl
  | [], _ :: _, h => by cases h
  | _ :: _, [], h => by cases h
  | s :: ss, t :: ts, h => by
    rw [orderList, Ordering.then_eq_eq] at h
    rw [eq_of_order_eq s t h.1, eq_of_orderList_eq ss ts h.2]

end

mutual

/-- Being smaller is transitive. Where two parts compare as equal they are the same, so each case is
decided by the first place at which one of the two comparisons decides. -/
theorem order_lt_trans : (s t u : Term) → s.order t = .lt → t.order u = .lt → s.order u = .lt
  | app f as, app g bs, app k cs, hst, htu => by
    rw [order, Ordering.then_eq_lt] at *
    rcases hst with hst | ⟨hst, hst'⟩
    · rcases htu with htu | ⟨htu, -⟩
      · exact .inl (Std.TransCmp.lt_trans hst htu)
      · exact .inl (Std.LawfulEqOrd.eq_of_compare htu ▸ hst)
    · rcases htu with htu | ⟨htu, htu'⟩
      · exact .inl (Std.LawfulEqOrd.eq_of_compare hst ▸ htu)
      · refine .inr ⟨?_, orderList_lt_trans as bs cs hst' htu'⟩
        exact Std.LawfulEqOrd.eq_of_compare hst ▸ htu

theorem orderList_lt_trans : (ss ts us : List Term) →
    orderList ss ts = .lt → orderList ts us = .lt → orderList ss us = .lt
  | [], [], _, h, _ => by cases h
  | _ :: _, [], _, h, _ => by cases h
  | _, _ :: _, [], _, h => by cases h
  | [], _ :: _, _ :: _, _, _ => rfl
  | s :: ss, t :: ts, u :: us, hst, htu => by
    rw [orderList, Ordering.then_eq_lt] at *
    rcases hst with hst | ⟨hst, hst'⟩
    · rcases htu with htu | ⟨htu, -⟩
      · exact .inl (order_lt_trans s t u hst htu)
      · exact .inl (eq_of_order_eq t u htu ▸ hst)
    · rcases htu with htu | ⟨htu, htu'⟩
      · exact .inl (eq_of_order_eq s t hst ▸ htu)
      · refine .inr ⟨?_, orderList_lt_trans ss ts us hst' htu'⟩
        exact eq_of_order_eq s t hst ▸ htu

end

instance : Std.LawfulEqOrd Term where
  eq_of_compare {s t} := eq_of_order_eq s t
  compare_self {t} := order_self t

instance : Std.TransOrd Term where
  eq_swap {s t} := order_swap s t
  isLE_trans {s t u} hst htu := by
    rcases Ordering.isLE_iff_eq_lt_or_eq_eq.mp hst with hst | hst
    · rcases Ordering.isLE_iff_eq_lt_or_eq_eq.mp htu with htu | htu
      · exact Ordering.isLE_of_eq_lt (order_lt_trans s t u hst htu)
      · exact Ordering.isLE_of_eq_lt (eq_of_order_eq t u htu ▸ hst)
    · rw [eq_of_order_eq s t hst]
      exact htu

end Term

namespace Template

instance : Std.TransOrd Template :=
  inferInstanceAs (Std.TransCmp (compareOn body))

instance : Std.LawfulEqOrd Template where
  eq_of_compare {p q} h := by
    cases p
    cases q
    exact congrArg mk (Std.LawfulEqOrd.eq_of_compare h)
  compare_self {p} := Std.ReflOrd.compare_self (a := p.body)

end Template

namespace Schema

instance : Std.TransOrd Schema :=
  inferInstanceAs (Std.TransCmp
    (compareLex (compareOn symbol) (compareLex (compareOn slots) (compareOn template))))

instance : Std.LawfulEqOrd Schema where
  eq_of_compare {s t} h := by
    obtain ⟨hf, h⟩ := Ordering.then_eq_eq.mp h
    obtain ⟨hs, hp⟩ := Ordering.then_eq_eq.mp h
    cases s
    cases t
    cases Std.LawfulEqOrd.eq_of_compare hf
    cases Std.LawfulEqOrd.eq_of_compare hs
    cases Std.LawfulEqOrd.eq_of_compare hp
    rfl
  compare_self {s} := by
    refine Ordering.then_eq_eq.mpr ⟨Std.ReflOrd.compare_self, Ordering.then_eq_eq.mpr ⟨?_, ?_⟩⟩
    · exact Std.ReflOrd.compare_self
    · exact Std.ReflOrd.compare_self

end Schema

end Lemmata
