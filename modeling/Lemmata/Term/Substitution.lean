import Lemmata.Term.Basic

/-!
# Substitutions

A substitution binds finitely many variables to terms. Applying it turns a general term into a
special one; matching goes the other way and extends a substitution, binding by binding, until it
turns the general term into the given special one. Variables of the special term are constants to
the match.
-/

namespace Lemmata

/-- Terms for finitely many variables, with the variables in increasing order. -/
structure Substitution where
  bindings : List (Serial × Term) := []
  deriving DecidableEq

namespace Substitution

/-- The substitution that binds nothing. -/
def empty : Substitution :=
  {}

def isEmpty (σ : Substitution) : Bool :=
  σ.bindings.isEmpty

/-- The term bound to a variable. -/
def get? (σ : Substitution) (v : Serial) : Option Term :=
  σ.bindings.lookup v

/-- The bound variables, in increasing order. -/
def domain (σ : Substitution) : List Serial :=
  σ.bindings.map (·.1)

/-- One more than the largest bound number: how many places a table of the bindings needs. -/
def extent (σ : Substitution) : Nat :=
  match σ.domain.getLast? with
  | some v => v.val + 1
  | none => 0

/-- Puts a binding in its place, over an older one for the same variable. -/
def insertBinding (v : Serial) (t : Term) : List (Serial × Term) → List (Serial × Term)
  | [] => [(v, t)]
  | (w, u) :: rest =>
    if v < w then (v, t) :: (w, u) :: rest
    else if v = w then (v, t) :: rest
    else (w, u) :: insertBinding v t rest

/-- The substitution with `v` bound to `t`, whatever it was bound to. -/
def bind (σ : Substitution) (v : Serial) (t : Term) : Substitution :=
  ⟨insertBinding v t σ.bindings⟩

mutual

/-- The term with its bound variables replaced. A replaced node loses its arguments; an unbound
variable stays where it is. -/
def apply (σ : Substitution) : Term → Term
  | .app h as =>
    match h.varId?.bind σ.get? with
    | some t => t
    | none => .app h (applyList σ as)

def applyList (σ : Substitution) : List Term → List Term
  | [] => []
  | t :: ts => σ.apply t :: applyList σ ts

end

/-- What a match leaves behind: the substitution it got to, and whether it went through. A match
that fails keeps the bindings it made on the way. -/
structure Match where
  subst : Substitution
  matched : Bool
  deriving DecidableEq

/-- Binds the variable to the term, or compares with the term it is bound to already. -/
def matchVar (σ : Substitution) (v : Serial) (t : Term) : Match :=
  match σ.get? v with
  | none => ⟨σ.bind v t, true⟩
  | some u => ⟨σ, u = t⟩

mutual

/-- Extends the substitution so that it turns the general term into the special one. A variable of
the general term stands for a whole subterm, with or without arguments of its own. -/
def matchTerm (σ : Substitution) : (general special : Term) → Match
  | .app (.var v) _, t => σ.matchVar v t
  | .app f as, .app g bs =>
    if f = g ∧ as.length = bs.length then σ.matchList as bs else ⟨σ, false⟩

/-- Matches the arguments from left to right, up to the first that does not match. -/
def matchList (σ : Substitution) : (general special : List Term) → Match
  | p :: ps, t :: ts =>
    match σ.matchTerm p t with
    | ⟨τ, true⟩ => τ.matchList ps ts
    | ⟨τ, false⟩ => ⟨τ, false⟩
  | [], [] => ⟨σ, true⟩
  | _, _ => ⟨σ, false⟩

end

/-- The least substitution that turns the general term into the special one. -/
def ofMatch? (general special : Term) : Option Substitution :=
  match empty.matchTerm general special with
  | ⟨σ, true⟩ => some σ
  | ⟨_, false⟩ => none

end Substitution

end Lemmata
