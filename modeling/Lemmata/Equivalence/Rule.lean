import Lemmata.Mining.Skip
import Lemmata.Theory.Assertion

/-!
# Lemmas of an equivalence

A relation behaves like equality when it can be turned around and chained:

    A = B  ⊢  B = A
    A = B,  B = C  ⊢  A = C
-/

namespace Lemmata

/-- Operator and variables, if the term is an operator between two different bare variables. -/
def Term.betweenVars? : Term → Option (Symbol × Serial × Serial)
  | .app (.op f) [l, r] => do
    let a ← l.bareVar?
    let b ← r.bareVar?
    if a ≠ b then some (.op f, a, b) else none
  | _ => none

namespace Assertion

/-- The relation, if the assertion turns it around. -/
def commutes (a : Assertion) : Except Skip Symbol :=
  match a.hypotheses.map Term.betweenVars?, a.conclusion.betweenVars? with
  | [some (r, x, y)], some s => if s = (r, y, x) then .ok r else .error .notEquivalenceLemma
  | _, _ => .error .notEquivalenceLemma

/-- The relation, if the assertion chains it. -/
def chains (a : Assertion) : Except Skip Symbol :=
  match a.hypotheses.map Term.betweenVars?, a.conclusion.betweenVars? with
  | [some (r, x, y), some (s, y', z)], some t =>
    if s = r ∧ y' = y ∧ t = (r, x, z) then .ok r else .error .notEquivalenceLemma
  | _, _ => .error .notEquivalenceLemma

end Assertion

end Lemmata
