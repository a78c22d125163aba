import Lemmata.Closure.Proof
import Lemmata.Equivalence.Proof

/-!
# The catalogs of a theory

Everything that is mined from a theory at one time. A theory that has changed since needs new
catalogs.
-/

namespace Lemmata

/-- What is mined from a theory, with the signature it had then. -/
structure Catalogs where
  signature : Signature
  closure : ClosureCatalog
  equivalence : EquivalenceCatalog

namespace Catalogs

/-- The selected catalogs of a theory. Its connectives are always known. -/
def ofTheory (T : Theory) (selection : Selection) : Catalogs where
  signature := T.signature
  closure := .ofTheory T selection (.ofTheory T) (.ofTheory T)
  equivalence := .ofTheory T selection

/-- The implications of the theory. -/
def detachments (c : Catalogs) : Detachments :=
  c.closure.detachments

/-- The conjunctions of the theory. -/
def conjunctions (c : Catalogs) : Conjunctions :=
  c.closure.conjunctions

end Catalogs

end Lemmata
