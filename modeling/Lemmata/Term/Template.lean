import Lemmata.Term.Order
import Lemmata.Term.Replace

/-!
# Templates

A template is a property with one open place, like `_ ∈ ℂ`: a term in which the hole marks the
place. Filling puts a term there, capturing recovers it, and abstracting makes the template of a
term by opening the place where its variable stands.
-/

namespace Lemmata

/-- A property with an open place, marked by the hole. -/
structure Template where
  body : Term
  deriving DecidableEq

namespace Template

/-- The template with this body, if exactly one node of it is the hole. -/
def ofTerm? (t : Term) : Option Template :=
  if t.holeCount = 1 then some ⟨t⟩ else none

/-- Opens the place of the variable `v` in `t`. The variable has to stand in exactly one leaf, and
not at the root: the bare variable is no property. -/
def abstracting? (t : Term) (v : Serial) : Option Template :=
  if t.head ≠ .var v ∧ t.leafCount (.var v) = 1 then
    some ⟨t.replaceLeaf (.var v) (.leaf .hole)⟩
  else none

/-- The template with its hole filled. -/
def fill (p : Template) (t : Term) : Term :=
  p.body.replaceLeaf .hole t

/-- What comparing a template with a term yields. -/
inductive Comparison where
  /-- The two differ outside the hole. -/
  | mismatch
  /-- The two agree, and the template has no hole. -/
  | equal
  /-- The two agree, and this stands where the template has its hole. -/
  | captured (t : Term)

mutual

/-- Walks the two terms in lock step, and takes whatever stands opposite a hole. -/
def correspond : Term → Term → Comparison
  | .app .hole _, t => .captured t
  | .app f as, .app g bs => if f = g then correspondList as bs else .mismatch

/-- The arguments in lock step; of several captures the last one counts. -/
def correspondList : List Term → List Term → Comparison
  | [], [] => .equal
  | p :: ps, t :: ts =>
    match correspond p t, correspondList ps ts with
    | .mismatch, _ => .mismatch
    | _, .mismatch => .mismatch
    | c, .equal => c
    | _, c => c
  | _, _ => .mismatch

end

/-- The term that fills the template's hole to give `t`, if there is one. -/
def capture? (p : Template) (t : Term) : Option Term :=
  match correspond p.body t with
  | .captured c => some c
  | _ => none

instance : Ord Template :=
  ⟨fun p q => compare p.body q.body⟩

end Template

end Lemmata
