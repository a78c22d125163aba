import Lemmata.Proofs.Theory.Declarations
import Lemmata.Proofs.Theory.Reachable

/-!
# Theories over whole histories

What is true of a theory after any history, that is, after any operations, accepted or refused.

An operation either lets the signature grow or adds one assertion that was read in the signature as
it is then (`Lawful.after_cases`). Growing leaves everything declared as it is, so an assertion stays
readable for good. `orderly_afterAll` puts together what follows for every history.
-/

namespace Lemmata

/-! ## Growing signatures -/

namespace Signature

/-- The second signature comes from the first by declarations, of which those of symbols have a type
that is declared. -/
inductive Grows (sig : Signature) : Signature → Prop
  | refl : Grows sig sig
  | type {sig' : Signature} (name : String) : Grows sig sig' → Grows sig (sig'.after (.type name))
  | symbol {sig' : Signature} {t : TypeId} (role : Role) (name : String) :
    Grows sig sig' → (sig'.typeName? t).isSome → Grows sig (sig'.after (.symbol role name t))

/-- Every declared symbol has a type that is declared. -/
def Typed (sig : Signature) : Prop :=
  ∀ role, ∀ e ∈ sig.listing.symbols role, (sig.typeName? e.2).isSome

theorem typed_empty : Typed {} := by
  intro role e he
  cases role <;> cases he

variable {sig sig' : Signature}

/-- A declared type stays declared. -/
theorem KeptBy.isSome_typeName? (h : sig.KeptBy sig') {t : TypeId} (ht : (sig.typeName? t).isSome) :
    (sig'.typeName? t).isSome := by
  obtain ⟨name, hname⟩ := Option.isSome_iff_exists.mp ht
  exact Option.isSome_of_eq_some (h.typeName? t name hname)

/-- A declaration leaves everything that was declared as it was. -/
theorem Lawful.keptBy_after (h : sig.Lawful) (d : Declaration) : sig.KeptBy (sig.after d) := by
  refine h.keptBy (h.after d) ?_
  rw [h.listing_after]
  exact sig.listing.extends_after d

namespace Grows

theorem trans {sig'' : Signature} (h : sig.Grows sig') (h' : sig'.Grows sig'') :
    sig.Grows sig'' := by
  induction h' with
  | refl => exact h
  | type name _ ih => exact ih.type name
  | symbol role name _ ht ih => exact ih.symbol role name ht

/-- Growing keeps a signature lawful. -/
theorem lawful (hg : sig.Grows sig') (h : sig.Lawful) : sig'.Lawful := by
  induction hg with
  | refl => exact h
  | type name _ ih => exact ih.after _
  | symbol role name _ _ ih => exact ih.after _

/-- Growing only adds to what is listed. -/
theorem listing_extends (hg : sig.Grows sig') (h : sig.Lawful) :
    sig.listing.Extends sig'.listing := by
  induction hg with
  | refl => exact .rfl
  | type name hg ih =>
    rw [(hg.lawful h).listing_after]
    exact ih.trans (Listing.extends_after _ _)
  | symbol role name hg _ ih =>
    rw [(hg.lawful h).listing_after]
    exact ih.trans (Listing.extends_after _ _)

/-- Growing leaves everything as it is. -/
theorem keptBy (hg : sig.Grows sig') (h : sig.Lawful) : sig.KeptBy sig' :=
  h.keptBy (hg.lawful h) (hg.listing_extends h)

/-- Growing keeps the types of symbols declared: a new symbol comes with a declared type, and no
type is ever lost. -/
theorem typed (hg : sig.Grows sig') (h : sig.Lawful) (htyped : sig.Typed) : sig'.Typed := by
  induction hg with
  | refl => exact htyped
  | @type sig' name hg ih =>
    have h' := hg.lawful h
    intro role e he
    rw [h'.listing_after, Listing.after] at he
    have hold : e ∈ sig'.listing.symbols role := by
      split at he
      · exact he
      · exact he
    exact (h'.keptBy_after _).isSome_typeName? (ih role e hold)
  | @symbol sig' t role name hg ht ih =>
    have h' := hg.lawful h
    intro role' e he
    -- Whether the symbol is new or not, its type was declared before.
    refine (h'.keptBy_after _).isSome_typeName? ?_
    rw [h'.listing_after, Listing.after] at he
    split at he
    · by_cases hrole : role' = role
      · simp only [Listing.add, hrole, if_true, List.mem_append, List.mem_singleton] at he
        rcases he with he | he
        · exact ih role e he
        · rw [he]
          exact ht
      · simp only [Listing.add, hrole, if_false] at he
        exact ih role' e he
    · exact ih role' e he

end Grows

/-- A type that has just been declared has its name. -/
theorem Lawful.typeName?_of_declareType (h : sig.Lawful) {name : String} {t : TypeId}
    (ht : Signature.declareType name sig = (.ok t, sig')) : sig'.typeName? t = some name := by
  rcases h.declareType_cases name with ⟨u, hu, heq⟩ | ⟨-, i, hi, heq⟩ | ⟨-, -, e, heq⟩
  · rw [ht] at heq
    cases heq
    exact hu
  · rw [ht] at heq
    cases heq
    rw [typeName?_eq, listing_types_push]
    simp [hi]
  · rw [ht] at heq
    cases heq

/-- Symbols of a declared type are declared one after the other, up to the first refused one. -/
theorem grows_declareAll (h : sig.Lawful) (role : Role) {t : TypeId}
    (ht : (sig.typeName? t).isSome) (names : List String) :
    sig.Grows (declareAll role t names sig).2 := by
  induction names generalizing sig with
  | nil => exact .refl
  | cons name names ih =>
    have hstep : sig.Grows (sig.after (.symbol role name t)) := .symbol role name .refl ht
    rw [declareAll]
    cases hd : Signature.declare role name t sig with
    | mk r sig' =>
      have hafter : sig.after (.symbol role name t) = sig' := congrArg Prod.snd hd
      rw [hafter] at hstep
      cases r with
      | error e =>
        rw [Sequence.bind_of_error hd]
        exact hstep
      | ok s =>
        rw [Sequence.bind_of_ok hd]
        have ht' := (hstep.keptBy h).isSome_typeName? ht
        exact hstep.trans (ih (hstep.lawful h) ht')

/-- A group of symbols is declared with its type. -/
theorem grows_declareGroup (h : sig.Lawful) (role : Role) (names : List String) (type : String) :
    sig.Grows ((do let t ← declareType type; declareAll role t names : Declaring Unit) sig).2 := by
  have hstep : sig.Grows (sig.after (.type type)) := .type type .refl
  cases hd : declareType type sig with
  | mk r sig' =>
    have hafter : sig.after (.type type) = sig' := congrArg Prod.snd hd
    rw [hafter] at hstep
    cases r with
    | error e =>
      rw [Sequence.bind_of_error hd]
      exact hstep
    | ok t =>
      rw [Sequence.bind_of_ok hd]
      have ht := Option.isSome_of_eq_some (h.typeName?_of_declareType hd)
      exact hstep.trans (grows_declareAll (hstep.lawful h) role ht names)

/-! ## Terms over the declared symbols -/

/-- All symbols of the term are declared. -/
def Declares (sig : Signature) (t : Term) : Prop :=
  ∀ s ∈ t.symbols, (sig.declared? s).isSome

/-- A declared symbol has the name it was declared with. -/
theorem name?_of_declared? {s : Symbol} {e : String × TypeId} (h : sig.declared? s = some e) :
    sig.name? s = some e.1 := by
  cases s with
  | var i => simp [name?, h]
  | op i => simp [name?, h]
  | hole => cases h

/-- The hole is never declared. -/
theorem Declares.holeFree {t : Term} (ht : sig.Declares t) : t.HoleFree := by
  intro hhole
  cases ht .hole hhole

/-- Terms over the declared symbols stay so. -/
theorem Declares.kept {t : Term} (ht : sig.Declares t) (h : sig.KeptBy sig') : sig'.Declares t := by
  intro s hs
  obtain ⟨e, he⟩ := Option.isSome_iff_exists.mp (ht s hs)
  exact Option.isSome_of_eq_some (h.declared? s e he)

/-- A term whose symbols have names is written and read back as it was. -/
theorem Lawful.read_write (h : sig.Lawful) {t : Term} (ht : ∀ s ∈ t.symbols, (sig.name? s).isSome) :
    ∃ text, sig.write? t = some text ∧ sig.read text = .ok t :=
  ⟨_, if_pos (List.all_eq_true.mpr ht), Spelling.read_eq_ok_iff.mpr
    (Spelling.spells_write t fun s hs => h.names (ht s hs))⟩

/-- A name that is read stands for a symbol with this name. -/
theorem Lawful.isSome_name?_of_read (h : sig.Lawful) {text : String} {t : Term}
    (ht : sig.read text = .ok t) : ∀ s ∈ t.symbols, (sig.name? s).isSome := by
  intro s hs
  obtain ⟨name, hname⟩ := (Spelling.read_eq_ok_iff.mp ht).resolved s hs
  exact Option.isSome_of_eq_some (h.symbolNamed?_eq_some_iff.mp hname)

end Signature

/-! ## Reading statements -/

namespace Theory

variable {T : Theory}

/-- What is read is a term over the declared symbols. -/
theorem declares_of_read (h : T.signature.Lawful) {text : String} {t : Term}
    (ht : T.read text = .ok t) : T.signature.Declares t := by
  obtain ⟨hread, hfree⟩ := read_eq_ok_iff.mp ht
  intro s hs
  have hname := h.isSome_name?_of_read hread s hs
  refine (Signature.isSome_name?_iff.mp hname).resolve_left fun hhole => ?_
  exact hfree (hhole ▸ hs)

/-! ## What operations keep -/

/-- What operations keep. -/
structure Lawful (T : Theory) : Prop where
  signature : T.signature.Lawful
  typed : T.signature.Typed
  assertions : T.assertions.Valid
  labelled : ∀ e ∈ T.assertions.toList, e.2.label = e.1
  declared : ∀ a ∈ T.assertions.values, ∀ t ∈ a.formulas, T.signature.Declares t

namespace Lawful

theorem empty : Lawful {} where
  signature := .empty
  typed := Signature.typed_empty
  assertions := Registry.valid_empty
  labelled := List.forall_mem_nil _
  declared := List.forall_mem_nil _

/-- An operation lets the signature grow, or adds an assertion that can be read. -/
theorem after_cases (h : T.Lawful) (op : Operation) :
    (∃ sig, T.signature.Grows sig ∧ T.after op = { T with signature := sig }) ∨
      ∃ label hypotheses conclusion a, T.readAssertion label hypotheses conclusion = .ok a ∧
        T.after op = { T with assertions := T.assertions.push label a } := by
  cases op with
  | type name => exact .inl ⟨_, .type name .refl, rfl⟩
  | symbols role names type =>
    exact .inl ⟨_, Signature.grows_declareGroup h.signature role names type, rfl⟩
  | statement label hypotheses conclusion =>
    rw [Theory.after, state]
    cases hread : T.readAssertion label hypotheses conclusion with
    | error e => exact .inl ⟨T.signature, .refl, rfl⟩
    | ok a => exact .inr ⟨label, hypotheses, conclusion, a, hread, rfl⟩

/-- A larger signature changes nothing about the assertions. -/
theorem grow (h : T.Lawful) {sig : Signature} (hg : T.signature.Grows sig) :
    Lawful { T with signature := sig } where
  signature := hg.lawful h.signature
  typed := hg.typed h.signature h.typed
  assertions := h.assertions
  labelled := h.labelled
  declared a ha t ht := (h.declared a ha t ht).kept (hg.keptBy h.signature)

/-- An assertion that was read can be filed: its label is new, and its formulas are over the
declared symbols. -/
theorem push (h : T.Lawful) {label : String} {hypotheses : List String} {conclusion : String}
    {a : Assertion} (ha : T.readAssertion label hypotheses conclusion = .ok a) :
    Lawful { T with assertions := T.assertions.push label a } := by
  obtain ⟨hnew, hlabel, -⟩ := readAssertion_eq_ok_iff.mp ha
  refine ⟨h.signature, h.typed, ?_, ?_, ?_⟩
  · exact h.assertions.push (by simpa [Registry.contains] using hnew) a
  · intro e he
    rw [Registry.toList_push, List.mem_append, List.mem_singleton] at he
    rcases he with he | he
    · exact h.labelled e he
    · rw [he]
      exact hlabel
  · intro b hb t ht
    rw [Registry.values_push, List.mem_append, List.mem_singleton] at hb
    rcases hb with hb | rfl
    · exact h.declared b hb t ht
    · obtain ⟨text, htext⟩ := exists_read_of_mem_formulas ha ht
      exact declares_of_read h.signature htext

/-- Every operation keeps a theory lawful, whether it is accepted or refused. -/
theorem after (h : T.Lawful) (op : Operation) : (T.after op).Lawful := by
  rcases h.after_cases op with ⟨sig, hg, heq⟩ | ⟨label, hypotheses, conclusion, a, ha, heq⟩
  · rw [heq]
    exact h.grow hg
  · rw [heq]
    exact h.push ha

/-- Every history keeps a theory lawful. -/
theorem afterAll (h : T.Lawful) (ops : List Operation) : (T.afterAll ops).Lawful := by
  induction ops generalizing T with
  | nil => exact h
  | cons op ops ih => exact ih (h.after op)

/-- The assertions that are there stay as they are, at the beginning. -/
theorem values_prefix (h : T.Lawful) (ops : List Operation) :
    T.assertions.values <+: (T.afterAll ops).assertions.values := by
  induction ops generalizing T with
  | nil => exact List.prefix_rfl
  | cons op ops ih =>
    refine List.IsPrefix.trans ?_ (ih (h.after op))
    rcases h.after_cases op with ⟨sig, -, heq⟩ | ⟨label, -, -, a, -, heq⟩
    · simp only [heq, List.prefix_rfl]
    · rw [heq, Registry.values_push]
      exact List.prefix_append _ _

end Lawful

/-! ## Every history -/

/-- What a theory is at any time. -/
structure Orderly (T : Theory) : Prop where
  /-- No two assertions have the same label, -/
  nodup_labels : (T.assertions.values.map (·.label)).Nodup
  /-- and a label leads to the assertion that has it. -/
  assertion? : ∀ label a,
    T.assertion? label = some a ↔ a ∈ T.assertions.values ∧ a.label = label
  /-- What is stated is without the hole, -/
  holeFree : ∀ a ∈ T.assertions.values, ∀ t ∈ a.formulas, t.HoleFree
  /-- all its symbols are declared, -/
  declared : ∀ a ∈ T.assertions.values, ∀ t ∈ a.formulas, ∀ s ∈ t.symbols,
    (T.signature.declared? s).isSome
  /-- and it can be written with their names and read back as it was. -/
  readBack : ∀ a ∈ T.assertions.values, ∀ t ∈ a.formulas,
    ∃ text, T.signature.write? t = some text ∧ T.read text = .ok t
  /-- The mandatory variables are listed in increasing order, -/
  increasing : ∀ a ∈ T.assertions.values, a.mandatoryVars.Pairwise (· < ·)
  /-- and they are the variables of the hypotheses and the conclusion. -/
  mandatory : ∀ a ∈ T.assertions.values, ∀ v,
    v ∈ a.mandatoryVars ↔ ∃ t ∈ a.formulas, .var v ∈ t.symbols
  /-- A statement that is refused changes nothing. -/
  refused : ∀ label hypotheses conclusion e,
    (state label hypotheses conclusion T).1 = .error e →
      (state label hypotheses conclusion T).2 = T

namespace Lawful

/-- The labels of the assertions are the keys that they are filed under. -/
theorem map_label_values (h : T.Lawful) :
    T.assertions.values.map (·.label) = T.assertions.keys := by
  rw [Registry.values, Registry.keys, List.map_map]
  exact List.map_congr_left h.labelled

/-- A label leads to the assertion that has it. -/
theorem assertion?_eq_some_iff (h : T.Lawful) {label : String} {a : Assertion} :
    T.assertion? label = some a ↔ a ∈ T.assertions.values ∧ a.label = label := by
  rw [assertion?, h.assertions.get?_eq_some_iff, Registry.values, List.mem_map]
  constructor
  · intro hmem
    exact ⟨⟨(label, a), hmem, rfl⟩, h.labelled _ hmem⟩
  · intro ha
    obtain ⟨⟨e, he, rfl⟩, hlabel⟩ := ha
    rw [← hlabel, h.labelled e he]
    exact he

/-- A term over the declared symbols is written with their names and read back as it was. -/
theorem readBack (h : T.Lawful) {t : Term} (ht : T.signature.Declares t) :
    ∃ text, T.signature.write? t = some text ∧ T.read text = .ok t := by
  obtain ⟨text, hwrite, hread⟩ :=
    h.signature.read_write fun s hs => Signature.isSome_name?_iff.mpr (.inr (ht s hs))
  exact ⟨text, hwrite, read_eq_ok_iff.mpr ⟨hread, ht.holeFree⟩⟩

end Lawful

/-- Whatever was declared and stated, accepted or refused, the theory is orderly: a label leads to
its one assertion, and every formula is without the hole, over the declared symbols, and can be
written and read back. Whatever operations follow, the assertions that are there stay as they are at
the beginning. -/
theorem orderly_afterAll (ops : List Operation) :
    (afterAll {} ops).Orderly ∧ ∀ more, (afterAll {} ops).assertions.values <+:
      (afterAll {} (ops ++ more)).assertions.values := by
  have h : (afterAll {} ops).Lawful := Lawful.empty.afterAll ops
  have hfree := (Reachable.empty.afterAll ops).holeFree
  refine ⟨⟨?_, fun label a => h.assertion?_eq_some_iff,
    fun a ha => Assertion.holeFree_iff.mp (hfree a ha), h.declared,
    fun a ha t ht => h.readBack (h.declared a ha t ht),
    fun a _ => a.pairwise_mandatoryVars, ?_, ?_⟩, ?_⟩
  · rw [h.map_label_values]
    exact h.assertions.nodup_keys
  · intro a _ v
    simp only [Assertion.mem_mandatoryVars, Assertion.formulas, List.mem_cons, exists_eq_or_imp]
  · intro label hypotheses conclusion e he
    rw [state] at he ⊢
    cases hread : (afterAll {} ops).readAssertion label hypotheses conclusion with
    | error e' => rfl
    | ok a =>
      rw [hread] at he
      cases he
  · intro more
    rw [afterAll_append]
    exact h.values_prefix more

end Theory

end Lemmata
