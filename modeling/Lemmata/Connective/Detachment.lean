import Lemmata.Term.Substitution
import Lemmata.Theory.Basic
import Lemmata.Worksheet.Basic

/-!
# Detachment

An operator is an implication when the theory has its modus ponens: from `φ` and `φ → ψ` follows
`ψ`. With that, an assertion that states an implication can be applied to a step that proves an
instance of its antecedent.
-/

namespace Lemmata

/-- The operator, if the assertion is its modus ponens: two different variables `φ` and `ψ`, the
hypotheses `φ` and `op(φ, ψ)`, and the conclusion `ψ`. -/
def Assertion.modusPonens? (a : Assertion) : Option Symbol :=
  match a.hypotheses with
  | [minor, .app (.op f) [l, r]] => do
    let φ ← minor.bareVar?
    let ψ ← a.conclusion.bareVar?
    if φ ≠ ψ ∧ l.bareVar? = some φ ∧ r.bareVar? = some ψ then some (.op f) else none
  | _ => none

/-- The implications of a theory, each with the first assertion that is its modus ponens. -/
structure Detachments where
  rules : Registry Symbol Assertion := .empty

namespace Detachments

/-- The implications of a theory. -/
def ofTheory (T : Theory) : Detachments :=
  ⟨.ofList (T.assertions.values.filterMap fun a => a.modusPonens?.map fun s => (s, a))⟩

def isImplication (d : Detachments) (s : Symbol) : Bool :=
  d.rules.contains s

/-- The antecedent of an implication without hypotheses, its operator and its modus ponens. -/
def implication? (d : Detachments) (a : Assertion) : Option (Symbol × Term × Assertion) :=
  match a.hypotheses, a.conclusion with
  | [], .app s [p, _] => (d.rules.get? s).map fun mp => (s, p, mp)
  | _, _ => none

/-- Applies an implication to a step that proves an instance of its antecedent. The result is the
step for the same instance of the consequent, which is proved by modus ponens from the given step
and the instance of the implication. -/
def detach (d : Detachments) (antecedent : StepId) (consequent : Term) (a : Assertion) :
    Derivation StepId :=
  match d.implication? a with
  | none => throw (.notAnImplication a.label)
  | some (s, p, mp) => do
    let f ← Worksheet.formula antecedent
    match Substitution.ofMatch? p f with
    | none => throw (.antecedentMismatch antecedent a.label)
    | some σ =>
      match consequent.vars.find? fun v => (σ.get? v).isNone with
      | some v => throw (.openVariable v a.label)
      | none =>
        let result := σ.apply consequent
        let i ← Worksheet.derive (.binary s f result) [] a
        Worksheet.derive result [antecedent, i] mp

end Detachments

end Lemmata
