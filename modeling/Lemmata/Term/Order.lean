import Lemmata.Term.Basic

/-!
# The order of terms

Variables come before operators and operators before the hole; two of a sort are ordered by number.
Terms are ordered by their roots first and then by their arguments, like words in a dictionary: the
first difference decides, and a list that ends early is the smaller one.
-/

namespace Lemmata

namespace Symbol

/-- The place of the symbol's sort. -/
def rank : Symbol → Nat
  | var _ => 0
  | op _ => 1
  | hole => 2

/-- The number of the symbol within its sort. -/
def number : Symbol → Nat
  | var i => i.val
  | op i => i.val
  | hole => 0

def order (s t : Symbol) : Ordering :=
  (compare s.rank t.rank).then (compare s.number t.number)

instance : Ord Symbol :=
  ⟨order⟩

end Symbol

namespace Term

mutual

def order : Term → Term → Ordering
  | app f as, app g bs => (compare f g).then (orderList as bs)

/-- The first difference decides, and a proper beginning is smaller. -/
def orderList : List Term → List Term → Ordering
  | [], [] => .eq
  | [], _ :: _ => .lt
  | _ :: _, [] => .gt
  | s :: ss, t :: ts => (s.order t).then (orderList ss ts)

end

instance : Ord Term :=
  ⟨order⟩

/-- The terms in increasing order; equal terms keep their places. -/
def sort (ts : List Term) : List Term :=
  ts.mergeSort fun s t => (compare s t).isLE

end Term

end Lemmata
