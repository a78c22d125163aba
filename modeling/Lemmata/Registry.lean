import Std.Data.TreeMap

/-!
# Registries

A registry files values under keys in the order in which they come, and the first value under a key
keeps it. Every entry has a position, counted from zero, that never changes. The signature's names,
a theory's assertions, the rules of a catalog and the steps of a worksheet are all kept this way.

Entries stand in an array in order of registration, and a search tree leads from a key to its
position.
-/

namespace Lemmata

/-- Values filed under keys in order of registration, the first one under a key for good. -/
structure Registry (κ ν : Type) [Ord κ] where
  /-- The entries, in order of registration. -/
  entries : Array (κ × ν) := #[]
  /-- Where the entry of a key stands. -/
  positions : Std.TreeMap κ Nat := {}

namespace Registry

variable {κ ν : Type} [Ord κ]

/-- The registry without entries. -/
def empty : Registry κ ν :=
  {}

/-- The number of entries. -/
def size (r : Registry κ ν) : Nat :=
  r.entries.size

/-- The entries, in order of registration. -/
def toList (r : Registry κ ν) : List (κ × ν) :=
  r.entries.toList

/-- The keys, in order of registration. -/
def keys (r : Registry κ ν) : List κ :=
  r.toList.map (·.1)

/-- The values, in order of registration. -/
def values (r : Registry κ ν) : List ν :=
  r.toList.map (·.2)

/-- The position of a key. -/
def find? (r : Registry κ ν) (k : κ) : Option Nat :=
  r.positions[k]?

/-- The entry at a position. -/
def at? (r : Registry κ ν) (i : Nat) : Option (κ × ν) :=
  r.entries[i]?

/-- The value under a key. -/
def get? (r : Registry κ ν) (k : κ) : Option ν :=
  (r.find? k).bind fun i => (r.at? i).map (·.2)

def contains (r : Registry κ ν) (k : κ) : Bool :=
  (r.find? k).isSome

/-- The registry with one more entry at the end. The key must be new. -/
def push : Registry κ ν → κ → ν → Registry κ ν
  | ⟨es, ps⟩, k, v =>
    let i := es.size
    ⟨es.push (k, v), ps.insert k i⟩

/-- Files the value under the key, unless the key is taken. -/
def add (r : Registry κ ν) (k : κ) (v : ν) : Registry κ ν :=
  if r.contains k then r else r.push k v

/-- Files the entries one after the other. -/
def ofList (es : List (κ × ν)) : Registry κ ν :=
  es.foldl (fun r e => r.add e.1 e.2) empty

/-- The entries in the order of their keys. -/
def sorted (r : Registry κ ν) : List (κ × ν) :=
  r.toList.mergeSort fun a b => (compare a.1 b.1).isLE

end Registry

end Lemmata
