import Lemmata.Text.Serial

/-!
# Terms

A term is a symbol applied to a list of terms. Nothing fixes the arity of a symbol: a variable or
the hole may stand over arguments like an operator does, and one operator may occur with different
numbers of arguments. Everything that depends on arity therefore checks it where it is used.
-/

namespace Lemmata

/-- What a node of a term is labelled with. -/
inductive Symbol where
  /-- A variable, like the `A` of `A ∈ ℂ`. -/
  | var (id : Serial)
  /-- A constant, a function or a relation. -/
  | op (id : Serial)
  /-- The place that a template leaves open. It occurs in templates only. -/
  | hole
  deriving DecidableEq

namespace Symbol

/-- The number of a variable. -/
def varId? : Symbol → Option Serial
  | var i => some i
  | _ => none

def isVar (s : Symbol) : Bool :=
  s.varId?.isSome

def isOp : Symbol → Bool
  | op _ => true
  | _ => false

def isHole : Symbol → Bool
  | hole => true
  | _ => false

end Symbol

/-- A symbol applied to its arguments. -/
inductive Term where
  | app (head : Symbol) (args : List Term)

namespace Term

/-- The symbol at the root. -/
def head : Term → Symbol
  | app h _ => h

/-- The arguments of the root. -/
def args : Term → List Term
  | app _ as => as

/-- A symbol without arguments. -/
def leaf (s : Symbol) : Term :=
  app s []

/-- An operator between two terms. -/
def binary (s : Symbol) (left right : Term) : Term :=
  app s [left, right]

/-- The number of arguments of the root. -/
def arity (t : Term) : Nat :=
  t.args.length

def isLeaf (t : Term) : Bool :=
  t.args.isEmpty

/-! ## Equality -/

mutual

/-- Equality of terms is decided node by node. -/
def decEq : (s t : Term) → Decidable (s = t)
  | app f as, app g bs =>
    match decEqList as bs with
    | isTrue h =>
      if hf : f = g then isTrue (by rw [hf, h]) else isFalse fun e => hf (by cases e; rfl)
    | isFalse h => isFalse fun e => h (by cases e; rfl)

def decEqList : (ss ts : List Term) → Decidable (ss = ts)
  | [], [] => isTrue rfl
  | [], _ :: _ => isFalse nofun
  | _ :: _, [] => isFalse nofun
  | s :: ss, t :: ts =>
    match decEq s t with
    | isTrue h =>
      match decEqList ss ts with
      | isTrue hs => isTrue (by rw [h, hs])
      | isFalse hs => isFalse fun e => hs (by cases e; rfl)
    | isFalse h => isFalse fun e => h (by cases e; rfl)

end

instance : DecidableEq Term :=
  decEq

/-! ## Symbols and measures -/

mutual

/-- The symbols of the term, root first and then the arguments from left to right. -/
def symbols : Term → List Symbol
  | app h as => h :: symbolsList as

def symbolsList : List Term → List Symbol
  | [] => []
  | t :: ts => t.symbols ++ symbolsList ts

end

/-- Whether the term holds neither a variable nor a hole. -/
def isConstant (t : Term) : Bool :=
  t.symbols.all Symbol.isOp

/-- The number of nodes labelled with the hole. -/
def holeCount (t : Term) : Nat :=
  t.symbols.count .hole

/-- The different variables of the term, in order of first occurrence. -/
def vars (t : Term) : List Serial :=
  (t.symbols.filterMap Symbol.varId?).eraseDups

mutual

/-- The number of nodes on the longest path down from the root. -/
def depth : Term → Nat
  | app _ as => maxDepth as + 1

/-- The depth of the deepest term, zero if there is none. -/
def maxDepth : List Term → Nat
  | [] => 0
  | t :: ts => max t.depth (maxDepth ts)

end

/-- The variable, when it is the only one of the term. -/
def soleVar? (t : Term) : Option Serial :=
  match t.vars with
  | [v] => some v
  | _ => none

/-- The variable, when the term is just that. -/
def bareVar? (t : Term) : Option Serial :=
  if t.isLeaf then t.head.varId? else none

end Term

end Lemmata
