import Lemmata.Term.Basic

/-!
# Replacing leaves

Replacement looks at leaves only. A node that carries the symbol over arguments stays, and the
replacement goes on inside it.
-/

namespace Lemmata.Term

mutual

/-- The term with every leaf `s` replaced by `r`. -/
def replaceLeaf (s : Symbol) : (t r : Term) → Term
  | app h as, r => if h = s ∧ as = [] then r else app h (replaceLeaves s as r)

def replaceLeaves (s : Symbol) : (ts : List Term) → (r : Term) → List Term
  | [], _ => []
  | t :: ts, r => t.replaceLeaf s r :: replaceLeaves s ts r

end

mutual

/-- The number of leaves `s`, which is the number of replacements that `replaceLeaf` makes. -/
def leafCount (s : Symbol) : Term → Nat
  | app h as => if h = s ∧ as = [] then 1 else leafCounts s as

def leafCounts (s : Symbol) : List Term → Nat
  | [] => 0
  | t :: ts => t.leafCount s + leafCounts s ts

end

end Lemmata.Term
