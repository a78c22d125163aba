import Lemmata.Proofs.Registry
import Lemmata.Proofs.Spelling.Printer
import Lemmata.Theory.Signature

/-!
# Signatures over whole histories

A signature comes about by declarations, one after the other, of which any may be refused. Each of
them keeps the signature lawful: a name is found at the place of its declaration, no name is declared
twice, be it once as a variable and once as an operator, and every declared name can be read as one
token (`Lawful.after`). In a lawful signature the name of a symbol stands for that symbol
(`Lawful.symbolNamed?_of_name?`).

So a term over the declared symbols and the hole, written with their names, is read back as it was,
whatever was declared and refused before (`read_written_back`).
-/

namespace Lemmata

namespace Signature

/-- A declaration, with all that it is given. -/
inductive Declaration where
  | type (name : String)
  | symbol (role : Role) (name : String) (type : TypeId)

/-- The signature after a declaration, whether it was accepted or refused. -/
def after (sig : Signature) : Declaration → Signature
  | .type name => (declareType name sig).2
  | .symbol role name type => (declare role name type sig).2

/-- The signature after the declarations, one after the other. -/
def afterAll (sig : Signature) (ds : List Declaration) : Signature :=
  ds.foldl after sig

/-- What declarations keep. -/
structure Lawful (sig : Signature) : Prop where
  types : sig.types.Valid
  types_le : sig.types.size ≤ 65536
  table : ∀ role, (sig.table role).Valid
  table_le : ∀ role, (sig.table role).size ≤ 65536
  usable : ∀ role name, (sig.table role).contains name → usable name
  apart : ∀ role role' name, (sig.table role).contains name → (sig.table role').contains name →
    role = role'

/-! ## Look-up -/

variable {sig : Signature}

/-- Every symbol but the hole is a variable or an operator with a number. -/
theorem exists_role_symbol {s : Symbol} (hs : s ≠ .hole) : ∃ role i, s = Role.symbol role i := by
  cases s with
  | var i => exact ⟨.var, i, rfl⟩
  | op i => exact ⟨.op, i, rfl⟩
  | hole => exact absurd rfl hs

/-- The name of a symbol is the one that was filed at its number. -/
theorem name?_symbol (sig : Signature) (role : Role) (i : Serial) :
    sig.name? (role.symbol i) = ((sig.table role).at? i.val).map (·.1) := by
  cases role <;> rfl

theorem types_file (sig : Signature) (name : String) (type : TypeId) (role : Role) :
    (sig.file name type role).types = sig.types := by
  cases role <;> rfl

/-- A symbol is filed in the table of its sort, and the other table stays as it is. -/
theorem table_file (sig : Signature) (name : String) (type : TypeId) (role role' : Role) :
    (sig.file name type role).table role' =
      if role' = role then (sig.table role).push name type else sig.table role' := by
  cases role <;> cases role' <;> rfl

/-- One name more is declared, in the table of its sort. -/
theorem contains_table_file {name n : String} {type : TypeId} {role role' : Role} :
    ((sig.file name type role).table role').contains n ↔
      (sig.table role').contains n ∨ role' = role ∧ name = n := by
  rw [table_file]
  by_cases hrole : role' = role
  · simp [hrole, Registry.contains_push_iff]
  · simp [hrole]

/-- A position in a registry with no more entries than there are numbers is a number. -/
theorem ofNat?_of_find? {ν : Type} {r : Registry String ν} (hr : r.Valid) (hle : r.size ≤ 65536)
    {name : String} {k : Nat} (hk : r.find? name = some k) :
    ∃ i : Serial, Serial.ofNat? k = some i ∧ i.val = k := by
  obtain ⟨e, he, -⟩ := Option.map_eq_some_iff.mp ((hr name k).mp hk)
  have hlt : k < 65536 := Nat.lt_of_lt_of_le (Registry.at?_lt_size he) hle
  exact ⟨⟨k, hlt⟩, by simp [Serial.ofNat?, hlt], rfl⟩

namespace Lawful

/-- The name of a symbol leads back to it within its sort. -/
theorem findIn?_symbol (h : sig.Lawful) {role : Role} {i : Serial} {name : String}
    (hname : sig.name? (role.symbol i) = some name) :
    sig.findIn? role name = some (role.symbol i) := by
  rw [name?_symbol] at hname
  rw [findIn?, (h.table role name i.val).mpr hname, Option.bind_some, Serial.ofNat?_val]
  rfl

/-- A name is found among the symbols of a sort exactly if it was declared for this sort. -/
theorem isSome_findIn?_iff (h : sig.Lawful) {role : Role} {name : String} :
    (sig.findIn? role name).isSome ↔ (sig.table role).contains name := by
  cases hk : (sig.table role).find? name with
  | none => simp [findIn?, Registry.contains, hk]
  | some k =>
    obtain ⟨i, hi, -⟩ := ofNat?_of_find? (h.table role) (h.table_le role) hk
    simp [findIn?, Registry.contains, hk, hi]

/-- The name of a symbol was declared. -/
theorem contains_of_name? (h : sig.Lawful) {role : Role} {i : Serial} {name : String}
    (hname : sig.name? (role.symbol i) = some name) : (sig.table role).contains name := by
  rw [← h.isSome_findIn?_iff, h.findIn?_symbol hname]
  rfl

/-- The name of a symbol stands for it. -/
theorem symbolNamed?_of_name? (h : sig.Lawful) {s : Symbol} {name : String}
    (hname : sig.name? s = some name) : sig.symbolNamed? name = some s := by
  by_cases hs : s = .hole
  · subst hs
    cases hname
    rfl
  · obtain ⟨role, i, rfl⟩ := exists_role_symbol hs
    have hcontains := h.contains_of_name? hname
    have hhole : name ≠ holeName := by
      have husable := h.usable role name hcontains
      simp only [Signature.usable, Bool.and_eq_true, decide_eq_true_eq] at husable
      exact husable.1.1
    rw [symbolNamed?, if_neg hhole]
    cases role with
    | var => rw [h.findIn?_symbol hname, Option.some_or]
    | op =>
      -- A variable of this name would have kept the operator from being declared.
      have hvar : sig.findIn? .var name = none := by
        rw [Option.eq_none_iff_forall_ne_some]
        intro s hs
        have hvars := h.isSome_findIn?_iff.mp (Option.isSome_of_eq_some hs)
        cases h.apart .var .op name hvars hcontains
      rw [hvar, Option.none_or, h.findIn?_symbol hname]

/-- The names of symbols can be read as single tokens, also that of the hole. -/
theorem isName_of_name? (h : sig.Lawful) {s : Symbol} {name : String}
    (hname : sig.name? s = some name) : Spelling.IsName name.toList := by
  by_cases hs : s = .hole
  · subst hs
    cases hname
    exact Symbol.isName_write .hole
  · obtain ⟨role, i, rfl⟩ := exists_role_symbol hs
    have husable := h.usable role name (h.contains_of_name? hname)
    simp only [Signature.usable, Bool.and_eq_true, decide_eq_true_eq, List.all_eq_true] at husable
    exact Spelling.isName_iff.mpr ⟨by simpa using husable.1.2, husable.2⟩

/-! ## What declarations keep -/

theorem empty : Lawful {} := by
  have htable : ∀ role, Signature.table {} role = .empty := by
    intro role
    cases role <;> rfl
  refine ⟨Registry.valid_empty, by decide, ?_, ?_, ?_, ?_⟩
  · intro role
    rw [htable]
    exact Registry.valid_empty
  · intro role
    rw [htable]
    decide
  · intro role name hname
    rw [htable, Registry.contains_empty] at hname
    cases hname
  · intro role role' name hname
    rw [htable, Registry.contains_empty] at hname
    cases hname

/-- A type is declared under a new name. -/
theorem declareType (h : sig.Lawful) (name : String) :
    (Signature.declareType name sig).2.Lawful := by
  rw [Signature.declareType]
  cases hnamed : sig.typeNamed? name with
  | some t => exact h
  | none =>
    cases hsize : Serial.ofNat? sig.types.size with
    | none => exact h
    | some i =>
      have hnew : sig.types.find? name = none := by
        cases hk : sig.types.find? name with
        | none => rfl
        | some k =>
          obtain ⟨j, hj, -⟩ := ofNat?_of_find? h.types h.types_le hk
          simp [typeNamed?, hk, hj] at hnamed
      refine ⟨h.types.push hnew (), ?_, h.table, h.table_le, h.usable, h.apart⟩
      rw [Registry.size_push]
      exact Serial.lt_of_ofNat? hsize

/-- A symbol may be filed under a usable name that is new to both sorts. -/
theorem file (h : sig.Lawful) {role : Role} {name : String}
    (hnew : ∀ role', (sig.table role').contains name = false)
    (hlt : (sig.table role).size < 65536) (husable : Signature.usable name) (type : TypeId) :
    (sig.file name type role).Lawful := by
  refine ⟨?_, ?_, ?_, ?_, ?_, ?_⟩
  · rw [types_file]
    exact h.types
  · rw [types_file]
    exact h.types_le
  · intro role'
    rw [table_file]
    split
    · exact (h.table role).push (by simpa [Registry.contains] using hnew role) type
    · exact h.table role'
  · intro role'
    rw [table_file]
    split
    · rw [Registry.size_push]
      exact hlt
    · exact h.table_le role'
  · intro role' n hn
    rcases contains_table_file.mp hn with hn | ⟨-, rfl⟩
    · exact h.usable role' n hn
    · exact husable
  · intro role₁ role₂ n h₁ h₂
    -- The new name was in neither table, so it is in one only.
    rcases contains_table_file.mp h₁ with h₁ | ⟨rfl, rfl⟩
    · rcases contains_table_file.mp h₂ with h₂ | ⟨-, rfl⟩
      · exact h.apart role₁ role₂ n h₁ h₂
      · simp [hnew role₁] at h₁
    · rcases contains_table_file.mp h₂ with h₂ | ⟨rfl, -⟩
      · simp [hnew role₂] at h₂
      · rfl

/-- Where a name stands for no symbol, no symbol has been filed under it. -/
theorem contains_eq_false (h : sig.Lawful) {name : String} (hname : sig.symbolNamed? name = none)
    (role : Role) : (sig.table role).contains name = false := by
  rw [symbolNamed?] at hname
  split at hname
  next => cases hname
  next =>
    obtain ⟨hvar, hop⟩ := Option.or_eq_none_iff.mp hname
    rw [← Bool.not_eq_true, ← h.isSome_findIn?_iff]
    cases role with
    | var => simp [hvar]
    | op => simp [hop]

/-- Declaring a symbol keeps a signature lawful, also when it is refused. -/
theorem declare (h : sig.Lawful) (role : Role) (name : String) (type : TypeId) :
    (Signature.declare role name type sig).2.Lawful := by
  rw [Signature.declare]
  cases hsize : Serial.ofNat? (sig.table role).size with
  | none => exact h
  | some i =>
    by_cases husable : Signature.usable name = true
    · cases hnamed : sig.symbolNamed? name with
      | some s => simpa [husable] using h
      | none =>
        simpa [husable] using
          h.file (h.contains_eq_false hnamed) (Serial.lt_of_ofNat? hsize) husable type
    · simpa [husable] using h

/-- Every declaration keeps a signature lawful, be it accepted or refused. -/
theorem after (h : sig.Lawful) (d : Declaration) : (sig.after d).Lawful := by
  cases d with
  | type name => exact h.declareType name
  | symbol role name type => exact h.declare role name type

/-- Any sequence of declarations keeps a signature lawful. -/
theorem afterAll (h : sig.Lawful) (ds : List Declaration) : (sig.afterAll ds).Lawful := by
  induction ds generalizing sig with
  | nil => exact h
  | cons d ds ih => exact ih (h.after d)

end Lawful

/-! ## Reading back what was written -/

/-- The name that a signature writes for a symbol stands for it. -/
theorem Lawful.names (h : sig.Lawful) {s : Symbol} (hs : (sig.name? s).isSome) :
    Spelling.Names (fun s => (sig.name? s).getD "") sig.symbolNamed? s := by
  obtain ⟨name, hname⟩ := Option.isSome_iff_exists.mp hs
  refine ⟨?_, ?_⟩
  · simpa [hname] using h.isName_of_name? hname
  · simpa [hname] using h.symbolNamed?_of_name? hname

/-- The symbols with names are the declared ones and the hole. -/
theorem isSome_name?_iff {s : Symbol} :
    (sig.name? s).isSome ↔ s = .hole ∨ (sig.declared? s).isSome := by
  cases s with
  | var i => simp [name?]
  | op i => simp [name?]
  | hole => simp [name?]

/-- Whatever was declared and refused before, a term over the declared symbols and the hole is
written in the named spelling and read back as it was. In the numbered spelling this holds of every
term. -/
theorem read_written_back (ds : List Declaration) {t : Term}
    (ht : ∀ s ∈ t.symbols, s = .hole ∨ ((afterAll {} ds).declared? s).isSome) (u : Term) :
    (∃ text, (afterAll {} ds).write? t = some text ∧ (afterAll {} ds).read text = .ok t) ∧
      Term.read u.write = .ok u := by
  have hlawful : (afterAll {} ds).Lawful := Lawful.empty.afterAll ds
  have hnamed : ∀ s ∈ t.symbols, ((afterAll {} ds).name? s).isSome :=
    fun s hs => isSome_name?_iff.mpr (ht s hs)
  refine ⟨⟨_, if_pos (List.all_eq_true.mpr hnamed), ?_⟩, u.read_write⟩
  exact Spelling.read_eq_ok_iff.mpr (Spelling.spells_write t fun s hs => hlawful.names (hnamed s hs))

/-- A variable with an argument, the hole and an operator with two arguments and with none, after
declarations of which the last three are refused. -/
theorem applied_variable_read_back :
    ∃ (ds : List Declaration) (t : Term),
      (∀ s ∈ t.symbols, s = .hole ∨ ((afterAll {} ds).declared? s).isSome) ∧
      (afterAll {} ds).write? t = some "plus(A(_), plus)" ∧
      (afterAll {} ds).read "plus(A(_), plus)" = .ok t ∧ Term.read "s0(x0(_), s0)" = .ok t := by
  let ds : List Declaration :=
    [.type "class", .symbol .var "A" ⟨0⟩, .symbol .op "plus" ⟨0⟩, .symbol .op "A" ⟨0⟩,
      .symbol .op "_" ⟨0⟩, .symbol .var "f(x)" ⟨0⟩]
  let t : Term := .binary (.op 0) (.app (.var 0) [.leaf .hole]) (.leaf (.op 0))
  have ht : ∀ s ∈ t.symbols, s = .hole ∨ ((afterAll {} ds).declared? s).isSome := by decide +kernel
  have hnamed : (afterAll {} ds).write? t = some "plus(A(_), plus)" := by decide +kernel
  have hnumbered : t.write = "s0(x0(_), s0)" := by decide +kernel
  obtain ⟨⟨text, htext, hread⟩, hread'⟩ := read_written_back ds ht t
  obtain rfl : text = "plus(A(_), plus)" := Option.some.inj (htext.symm.trans hnamed)
  rw [hnumbered] at hread'
  exact ⟨ds, t, ht, hnamed, hread, hread'⟩

end Signature

end Lemmata
