import Lemmata.Proofs.Theory.Statements
import Mathlib.Data.List.Forall2

/-!
# Which files describe a theory

A file is well-formed if its names can all be declared together and its statements can be read with
them. Every operation of building is accepted exactly if what the file says up to there is
well-formed, so the file as a whole is accepted exactly if it is well-formed
(`ofFile_accepts_wellFormed`), and the theory has just what the file says: symbols with their numbers
and types, and the assertions in order.

What is declared so far is kept as an inventory, which is a list of names for every sort. The
signature shows the inventory step by step (`Shows.declareType`, `Shows.declare`).
-/

namespace Lemmata

open Lemmata.Sequence

/-! ## Inventories -/

/-- Names to be declared: different types, and symbols of each sort with the names of their types. -/
structure Inventory where
  types : List String := []
  symbols : Role → List (String × String) := fun _ => []

namespace Inventory

/-- The names of all symbols. -/
def names (v : Inventory) : List String :=
  (v.symbols .var ++ v.symbols .op).map (·.1)

/-- All the names can be declared, none of them twice, and there are enough numbers. -/
structure WellFormed (v : Inventory) : Prop where
  declarable : ∀ name ∈ v.names, Signature.Declarable name
  nodup_names : v.names.Nodup
  symbols_le : ∀ role, (v.symbols role).length ≤ 65536
  types_le : v.types.length ≤ 65536

/-- The symbol of this sort with this name: its number is its position. -/
def findIn? (v : Inventory) (role : Role) (name : String) : Option Symbol :=
  ((((v.symbols role).map (·.1)).idxOf? name).bind Serial.ofNat?).map role.symbol

/-- The symbol with this name. -/
def symbolNamed? (v : Inventory) (name : String) : Option Symbol :=
  if name = "_" then some .hole
  else (v.findIn? .var name).or (v.findIn? .op name)

/-- The inventory with one more type, if it is new. -/
def addType (v : Inventory) (name : String) : Inventory :=
  if name ∈ v.types then v else { v with types := v.types ++ [name] }

/-- The inventory with one more symbol. -/
def add (v : Inventory) (role : Role) (type name : String) : Inventory where
  types := v.types
  symbols role' := if role' = role then v.symbols role ++ [(name, type)] else v.symbols role'

/-- The inventory with more symbols of one type. -/
def addAll (v : Inventory) (role : Role) (type : String) (names : List String) : Inventory :=
  names.foldl (fun v name => v.add role type name) v

/-- The inventory with more groups of symbols. -/
def addGroups (v : Inventory) (role : Role) (gs : List SymbolGroup) : Inventory :=
  gs.foldl (fun v g => (v.addType g.type).addAll role g.type g.names) v

variable {v : Inventory}

theorem addAll_cons (v : Inventory) (role : Role) (type name : String) (names : List String) :
    v.addAll role type (name :: names) = (v.add role type name).addAll role type names :=
  rfl

theorem addGroups_cons (v : Inventory) (role : Role) (g : SymbolGroup) (gs : List SymbolGroup) :
    v.addGroups role (g :: gs) =
      ((v.addType g.type).addAll role g.type g.names).addGroups role gs :=
  rfl

/-- Symbols of one type are listed in their order after those of their sort that are there. -/
theorem addAll_eq (v : Inventory) (role : Role) (type : String) (names : List String) :
    v.addAll role type names =
      { v with symbols := fun role' =>
          if role' = role then v.symbols role ++ names.map (·, type) else v.symbols role' } := by
  induction names generalizing v with
  | nil =>
    rw [addAll, List.foldl_nil, mk.injEq]
    refine ⟨rfl, funext fun role' => ?_⟩
    by_cases hrole : role' = role <;> simp [hrole]
  | cons name names ih =>
    rw [addAll_cons, ih, mk.injEq]
    refine ⟨rfl, funext fun role' => ?_⟩
    by_cases hrole : role' = role <;> simp [add, hrole]

theorem symbols_addType (v : Inventory) (name : String) : (v.addType name).symbols = v.symbols := by
  rw [addType]
  split <;> rfl

/-- Groups of symbols are listed one after the other, each symbol with the type of its group. -/
theorem symbols_addGroups (v : Inventory) (role role' : Role) (gs : List SymbolGroup) :
    (v.addGroups role gs).symbols role' =
      if role' = role then v.symbols role ++ gs.flatMap fun g => g.names.map (·, g.type)
      else v.symbols role' := by
  induction gs generalizing v with
  | nil => by_cases hrole : role' = role <;> simp [addGroups, hrole]
  | cons g gs ih =>
    rw [addGroups_cons, ih, addAll_eq, symbols_addType]
    by_cases hrole : role' = role <;> simp [hrole]

/-- Types are listed where they come first. -/
theorem types_addGroups {v : Inventory} {ts : List String} (hv : v.types = ts.eraseDups)
    (role : Role) (gs : List SymbolGroup) :
    (v.addGroups role gs).types = (ts ++ gs.map (·.type)).eraseDups := by
  induction gs generalizing v ts with
  | nil => simpa [addGroups] using hv
  | cons g gs ih =>
    have hstep : ((v.addType g.type).addAll role g.type g.names).types =
        (ts ++ [g.type]).eraseDups := by
      rw [addAll_eq, addType]
      by_cases hmem : g.type ∈ ts
      · rw [if_pos (by rwa [hv, List.mem_eraseDups]), hv]
        exact (List.eraseDups_append_of_mem (List.forall_mem_singleton.mpr hmem)).symm
      · rw [if_neg (by rwa [hv, List.mem_eraseDups]), List.eraseDups_concat_of_not_mem hmem, hv]
    rw [addGroups_cons, ih hstep, List.append_assoc]
    rfl

/-- A new symbol adds its name to the names. -/
theorem names_add (role : Role) (type name : String) :
    (v.add role type name).names.Perm (name :: v.names) := by
  cases role with
  | var =>
    simp only [names, add, List.map_append, if_true, reduceCtorEq, if_false, List.map_cons,
      List.map_nil, List.append_assoc]
    exact List.perm_middle
  | op =>
    simp only [names, add, List.map_append, if_true, reduceCtorEq, if_false, List.map_cons,
      List.map_nil]
    rw [← List.append_assoc]
    exact List.perm_append_singleton _ _

/-- What is well-formed with one more symbol was so before, and the symbol could be added. -/
theorem wellFormed_add_iff {role : Role} {type name : String} :
    (v.add role type name).WellFormed ↔ v.WellFormed ∧ Signature.Declarable name ∧
      name ∉ v.names ∧ (v.symbols role).length < 65536 := by
  -- Conditions on names depend on the list up to order only, those on numbers on its lengths.
  have hperm := v.names_add role type name
  have hlength : ∀ role', ((v.add role type name).symbols role').length =
      if role' = role then (v.symbols role).length + 1 else (v.symbols role').length := by
    intro role'
    by_cases hrole : role' = role <;> simp [add, hrole]
  constructor
  · intro h
    have hdeclarable := h.declarable
    have hnodup := h.nodup_names
    have hsymbols := h.symbols_le
    rw [hperm.nodup_iff, List.nodup_cons] at hnodup
    simp only [hperm.mem_iff, List.forall_mem_cons] at hdeclarable
    have hlt := hsymbols role
    rw [hlength, if_pos rfl] at hlt
    refine ⟨⟨hdeclarable.2, hnodup.2, fun role' => ?_, h.types_le⟩, hdeclarable.1, hnodup.1, hlt⟩
    have hle := hsymbols role'
    rw [hlength] at hle
    split at hle
    next hrole =>
      rw [hrole]
      omega
    next => exact hle
  · intro h
    obtain ⟨h, hname, hnew, hlt⟩ := h
    refine ⟨?_, ?_, fun role' => ?_, h.types_le⟩
    · simp only [hperm.mem_iff, List.forall_mem_cons]
      exact ⟨hname, h.declarable⟩
    · rw [hperm.nodup_iff, List.nodup_cons]
      exact ⟨hnew, h.nodup_names⟩
    · rw [hlength]
      split
      · exact hlt
      · exact h.symbols_le role'

/-- Types can be declared as long as there are numbers for the new ones. -/
theorem wellFormed_addType_iff {name : String} :
    (v.addType name).WellFormed ↔
      v.WellFormed ∧ (name ∈ v.types ∨ v.types.length < 65536) := by
  rw [addType]
  split
  next hold => simp [hold]
  next hnew =>
    constructor
    · intro h
      have hlt := h.types_le
      rw [List.length_append, List.length_singleton] at hlt
      exact ⟨⟨h.declarable, h.nodup_names, h.symbols_le, by omega⟩, .inr hlt⟩
    · intro h
      obtain ⟨h, hlt⟩ := h
      refine ⟨h.declarable, h.nodup_names, h.symbols_le, ?_⟩
      rw [List.length_append, List.length_singleton]
      exact hlt.resolve_left hnew

/-- What is listed before some symbols is well-formed if all of it is. -/
theorem WellFormed.of_addAll {role : Role} {type : String} {names : List String}
    (h : (v.addAll role type names).WellFormed) : v.WellFormed := by
  induction names generalizing v with
  | nil => exact h
  | cons name names ih => exact (wellFormed_add_iff.mp (ih h)).1

/-- What is listed before some groups is well-formed if all of it is. -/
theorem WellFormed.of_addGroups {role : Role} {gs : List SymbolGroup}
    (h : (v.addGroups role gs).WellFormed) : v.WellFormed := by
  induction gs generalizing v with
  | nil => exact h
  | cons g gs ih => exact (wellFormed_addType_iff.mp (ih h).of_addAll).1

end Inventory

/-! ## Signatures show inventories -/

namespace Signature

/-- The signature has the names of the inventory, in order, and the types that they should have. -/
structure Shows (sig : Signature) (v : Inventory) : Prop where
  lawful : sig.Lawful
  types : sig.listing.types = v.types
  symbols : ∀ role, (sig.listing.symbols role).map (fun e => (e.1, sig.typeName? e.2)) =
    (v.symbols role).map fun e => (e.1, some e.2)

namespace Shows

variable {sig sig' : Signature} {v : Inventory}

/-- The symbols of a sort have the listed names, in this order. -/
theorem map_symbols (h : sig.Shows v) (role : Role) :
    (sig.listing.symbols role).map (·.1) = (v.symbols role).map (·.1) := by
  have hfst := congrArg (List.map (·.1)) (h.symbols role)
  rwa [List.map_map, List.map_map] at hfst

theorem names (h : sig.Shows v) : sig.listing.names = v.names := by
  rw [Listing.names, Inventory.names, List.map_append, List.map_append, h.map_symbols,
    h.map_symbols]

theorem length_symbols (h : sig.Shows v) (role : Role) :
    (sig.listing.symbols role).length = (v.symbols role).length := by
  simpa using congrArg List.length (h.symbols role)

/-- Every symbol that is shown has a declared type. -/
theorem typed (h : sig.Shows v) : sig.Typed := by
  intro role e he
  have hmem : (e.1, sig.typeName? e.2) ∈ (v.symbols role).map fun e => (e.1, some e.2) := by
    rw [← h.symbols role]
    exact List.mem_map_of_mem he
  obtain ⟨d, -, hd⟩ := List.mem_map.mp hmem
  exact Option.isSome_of_eq_some (congrArg Prod.snd hd).symm

/-- What a lawful signature shows is well-formed. -/
theorem wellFormed (h : sig.Shows v) : v.WellFormed := by
  have hanswers := h.lawful.answers
  refine ⟨?_, ?_, fun role => ?_, ?_⟩
  · rw [← h.names]
    exact hanswers.declarable
  · rw [← h.names]
    exact hanswers.nodup_names
  · rw [← h.length_symbols]
    exact hanswers.length_symbols role
  · rw [← h.types]
    exact hanswers.length_types

theorem empty : Shows {} {} where
  lawful := .empty
  types := rfl
  symbols role := by cases role <;> rfl

/-- A name is found where the inventory has it. -/
theorem symbolNamed?_eq (h : sig.Shows v) : sig.symbolNamed? = v.symbolNamed? := by
  have hfind : ∀ role name, sig.findIn? role name = v.findIn? role name := by
    intro role name
    rw [findIn?, Inventory.findIn?, ← h.map_symbols, (h.lawful.table role).find?_eq_idxOf?]
    rfl
  funext name
  rw [Signature.symbolNamed?, Inventory.symbolNamed?, hfind, hfind]
  rfl

/-- A type is declared if there is a number for it. -/
theorem declareType (h : sig.Shows v) (name : String) :
    Accepts (Signature.declareType name) sig (v.addType name).WellFormed fun t sig' =>
      sig'.Shows (v.addType name) ∧ sig'.typeName? t = some name := by
  have hv := h.wellFormed
  rcases h.lawful.declareType_cases name with ⟨t, ht, heq⟩ | ⟨hnew, i, hi, heq⟩ |
    ⟨hnew, hfull, e, heq⟩
  · have hold : name ∈ v.types := h.types ▸ h.lawful.mem_types_iff.mpr ⟨t, ht⟩
    rw [Inventory.addType, if_pos hold]
    exact .inl ⟨hv, t, sig, heq, h, ht⟩
  · have hlt : v.types.length < 65536 := by
      rw [← h.types, ← hi]
      exact i.isLt
    have hafter : sig.after (.type name) = { sig with types := sig.types.push name () } :=
      congrArg Prod.snd heq
    have hlawful := hafter ▸ h.lawful.after (.type name)
    have hkept := hafter ▸ h.lawful.keptBy_after (.type name)
    refine .inl ⟨Inventory.wellFormed_addType_iff.mpr ⟨hv, .inr hlt⟩, ⟨i⟩, _, heq, ⟨hlawful, ?_, ?_⟩,
      h.lawful.typeName?_of_declareType heq⟩
    · rw [listing_types_push, Inventory.addType, if_neg (h.types ▸ hnew), h.types]
    · intro role
      rw [listing_types_push, Inventory.addType, if_neg (h.types ▸ hnew), ← h.symbols role]
      refine List.map_congr_left fun e he => ?_
      obtain ⟨type, htype⟩ := Option.isSome_iff_exists.mp (h.typed role e he)
      rw [htype, hkept.typeName? e.2 type htype]
  · refine .inr ⟨fun hwell => ?_, e, sig, heq⟩
    rw [h.types] at hnew hfull
    have hlt := (Inventory.wellFormed_addType_iff.mp hwell).2.resolve_left hnew
    omega

/-- A symbol is declared if the inventory can be extended by it. -/
theorem declare (h : sig.Shows v) (role : Role) {t : TypeId} {type : String}
    (ht : sig.typeName? t = some type) (name : String) :
    Accepts (Signature.declare role name t) sig (v.add role type name).WellFormed fun _ sig' =>
      sig'.Shows (v.add role type name) ∧ sig'.typeName? t = some type := by
  have hadmits : (v.add role type name).WellFormed ↔ sig.listing.Admits role name := by
    rw [Inventory.wellFormed_add_iff, Listing.Admits, h.names, h.length_symbols]
    exact and_iff_right h.wellFormed
  refine Accepts.congr ?_ hadmits.symm
  rcases h.lawful.declare_cases role name t with ⟨hfree, i, -, heq⟩ | ⟨hrefuse, e, heq⟩
  · have htypeName : ∀ t, (sig.file name t role).typeName? = sig.typeName? := by
      intro t
      funext u
      rw [Signature.typeName?, Signature.typeName?, types_file]
    have hlawful := h.lawful.declare role name t
    rw [heq] at hlawful
    refine .inl ⟨hfree, _, _, heq, ⟨hlawful, ?_, ?_⟩, by rw [htypeName, ht]⟩
    · rw [listing_file]
      exact h.types
    · intro role'
      rw [listing_file, htypeName]
      by_cases hrole : role' = role
      · simp [Listing.add, Inventory.add, hrole, h.symbols role, ht]
      · simp [Listing.add, Inventory.add, hrole, h.symbols role']
  · exact .inr ⟨hrefuse, e, sig, heq⟩

/-- Symbols of one type are accepted exactly if the inventory with all of them is well-formed. -/
theorem declareAll (h : sig.Shows v) (role : Role) {t : TypeId} {type : String}
    (ht : sig.typeName? t = some type) (names : List String) :
    Accepts (Signature.declareAll role t names) sig (v.addAll role type names).WellFormed
      fun _ sig' => sig'.Shows (v.addAll role type names) := by
  induction names generalizing sig v with
  | nil => exact .pure h.wellFormed h
  | cons name names ih =>
    rw [Signature.declareAll, Inventory.addAll_cons]
    refine (h.declare role ht name).bind (fun hwell => hwell.of_addAll) fun _ sig' hsig' => ?_
    exact ih hsig'.1 hsig'.2

end Shows

end Signature

/-! ## Well-formed files -/

namespace TheoryFile

/-- The groups of symbols of a sort. -/
def groups (f : TheoryFile) : Role → List SymbolGroup
  | .var => f.vars
  | .op => f.operators

/-- The names that the file declares, in order. -/
def inventory (f : TheoryFile) : Inventory where
  types := ((f.vars ++ f.operators).map (·.type)).eraseDups
  symbols role := (f.groups role).flatMap fun g => g.names.map (·, g.type)

/-- The text is a formula, spelled with the names of the file. -/
def Reads (f : TheoryFile) (text : String) (t : Term) : Prop :=
  Spelling.Spells f.inventory.symbolNamed? t text.toList ∧ t.HoleFree

/-- The names can be declared together, no label is used twice, and all formulas can be read. -/
structure WellFormed (f : TheoryFile) : Prop where
  inventory : f.inventory.WellFormed
  nodup_labels : (f.statements.map (·.label)).Nodup
  readable : ∀ st ∈ f.statements, ∀ text ∈ st.conclusion :: st.hypotheses, ∃ t, f.Reads text t

/-- The assertion is the one that the statement writes down. -/
structure States (f : TheoryFile) (st : Statement) (a : Assertion) : Prop where
  label : a.label = st.label
  hypotheses : List.Forall₂ f.Reads st.hypotheses a.hypotheses
  conclusion : f.Reads st.conclusion a.conclusion
  /-- Hypotheses are labelled with their places, counted from one. -/
  labels : a.labelledHypotheses.map (·.1) =
    (List.range st.hypotheses.length).map fun i => st.label ++ "." ++ toString (i + 1)

/-- The theory has the symbols and the assertions of the file, and no others. -/
structure Describes (f : TheoryFile) (T : Theory) : Prop where
  /-- A name stands for the symbol whose number is its place in the file, and this has its type. -/
  symbols : ∀ role (k : Nat) name type, (f.inventory.symbols role)[k]? = some (name, type) →
    ∃ i : Serial, i.val = k ∧ T.signature.symbolNamed? name = some (role.symbol i) ∧
      (T.signature.typeOf? (role.symbol i)).bind T.signature.typeName? = some type
  size : ∀ role, (T.signature.table role).size = (f.inventory.symbols role).length
  types : T.signature.types.keys = f.inventory.types
  assertions : List.Forall₂ f.States f.statements T.assertions.values

/-- The texts of a statement are read as the formulas of the assertion that it states. -/
theorem States.readable {f : TheoryFile} {st : Statement} {a : Assertion} (h : f.States st a) :
    ∀ text ∈ st.conclusion :: st.hypotheses, ∃ t, f.Reads text t :=
  List.forall_mem_cons.mpr
    ⟨⟨a.conclusion, h.conclusion⟩, fun _ ht => h.hypotheses.exists_of_mem ht⟩

/-- The first statements of a well-formed file make a well-formed file. -/
theorem WellFormed.of_append {f : TheoryFile} {ss ss' : List Statement}
    (h : ({ f with statements := ss ++ ss' } : TheoryFile).WellFormed) :
    ({ f with statements := ss } : TheoryFile).WellFormed := by
  refine ⟨h.inventory, ?_, fun st hst => h.readable st (List.mem_append_left _ hst)⟩
  have hnodup := h.nodup_labels
  rw [List.map_append] at hnodup
  exact (List.nodup_append.mp hnodup).1

/-- What a file lists is put together group by group, first the variables and then the operators. -/
theorem inventory_eq (f : TheoryFile) :
    f.inventory = (Inventory.addGroups {} .var f.vars).addGroups .op f.operators := by
  have hnone : ({} : Inventory).types = [].eraseDups := rfl
  have htypes := Inventory.types_addGroups hnone .var f.vars
  rw [inventory, Inventory.mk.injEq, Inventory.types_addGroups htypes, List.map_append]
  refine ⟨rfl, funext fun role => ?_⟩
  rw [Inventory.symbols_addGroups, Inventory.symbols_addGroups, Inventory.symbols_addGroups]
  cases role <;> rfl

end TheoryFile

/-! ## Declaring the groups of a file -/

namespace Theory

variable {T : Theory} {v : Inventory}

/-- A declaration in the signature of a theory is accepted as in the signature alone. -/
theorem accepts_declaring {α : Type} {act : Signature.Declaring α} {P : Prop}
    {Q : α → Signature → Prop} (h : Accepts act T.signature P Q) :
    Accepts (declaring act) T P fun a T' => ∃ sig, T' = { T with signature := sig } ∧ Q a sig := by
  obtain ⟨sig, as⟩ := T
  rcases h with ⟨hP, a, sig', heq, hQ⟩ | ⟨hP, e, sig', heq⟩
  · refine .inl ⟨hP, a, ⟨sig', as⟩, ?_, sig', rfl, hQ⟩
    simp only [declaring, heq]
    rfl
  · refine .inr ⟨hP, .declaration e, ⟨sig', as⟩, ?_⟩
    simp only [declaring, heq]
    rfl

/-- A group of symbols is declared if the inventory can be extended by it. -/
theorem accepts_declareSymbols (h : T.signature.Shows v) (role : Role) (g : SymbolGroup) :
    Accepts (declareSymbols role g.names g.type) T
      ((v.addType g.type).addAll role g.type g.names).WellFormed fun _ T' =>
        ∃ sig, T' = { T with signature := sig } ∧
          sig.Shows ((v.addType g.type).addAll role g.type g.names) := by
  refine accepts_declaring ?_
  refine (h.declareType g.type).bind (fun hwell => hwell.of_addAll) fun t sig' hsig' => ?_
  exact hsig'.1.declareAll role hsig'.2 g.names

/-- Groups are accepted exactly if the inventory with all of them is well-formed. -/
theorem accepts_declareGroups (h : T.signature.Shows v) (role : Role) (gs : List SymbolGroup) :
    Accepts (declareGroups role gs) T (v.addGroups role gs).WellFormed fun _ T' =>
      ∃ sig, T' = { T with signature := sig } ∧ sig.Shows (v.addGroups role gs) := by
  induction gs generalizing T v with
  | nil => exact .pure h.wellFormed ⟨T.signature, rfl, h⟩
  | cons g gs ih =>
    rw [declareGroups, Inventory.addGroups_cons]
    refine (accepts_declareSymbols h role g).bind (fun hwell => hwell.of_addGroups) fun _ T' hT' => ?_
    obtain ⟨sig, rfl, hsig⟩ := hT'
    exact ih hsig

/-! ## Stating the assertions of a file -/

variable {f : TheoryFile}

/-- The theory has the symbols of the file, and the assertions of the statements made so far. -/
structure Holds (f : TheoryFile) (done : List Statement) (T : Theory) : Prop where
  lawful : T.Lawful
  inventory : T.signature.Shows f.inventory
  assertions : List.Forall₂ f.States done T.assertions.values

namespace Holds

variable {done : List Statement}

/-- Once all names are declared, a text is read in the theory as in the file. -/
theorem read_iff (h : Holds f done T) {text : String} {t : Term} :
    T.read text = .ok t ↔ f.Reads text t := by
  rw [read_eq_ok_iff, Signature.read, h.inventory.symbolNamed?_eq, Spelling.read_eq_ok_iff]
  rfl

/-- The labels so far are those of the statements so far. -/
theorem map_label (h : Holds f done T) : done.map (·.label) = T.assertions.keys := by
  rw [← h.lawful.map_label_values, ← List.forall₂_eq_eq_eq, List.forall₂_map_left_iff,
    List.forall₂_map_right_iff]
  exact h.assertions.imp fun _ _ hst => hst.label.symm

/-- An assertion that is read from a statement is what the file states there. -/
theorem states_of_readAssertion (h : Holds f done T) {st : Statement} {a : Assertion}
    (ha : T.readAssertion st.label st.hypotheses st.conclusion = .ok a) : f.States st a := by
  obtain ⟨-, hlabel, hhyps, hconcl⟩ := readAssertion_eq_ok_iff.mp ha
  have hreads : List.Forall₂ f.Reads st.hypotheses a.hypotheses := by
    rw [← List.forall₂_eq_eq_eq, List.forall₂_map_left_iff, List.forall₂_map_right_iff] at hhyps
    exact hhyps.imp fun _ _ hread => h.read_iff.mp hread
  refine ⟨hlabel, hreads, h.read_iff.mp hconcl, ?_⟩
  rw [hreads.length_eq, ← hlabel]
  exact a.map_fst_labelledHypotheses

/-- The file up to a statement is well-formed if the theory holds what it says up to there. -/
theorem wellFormed (h : Holds f done T) :
    ({ f with statements := done } : TheoryFile).WellFormed := by
  refine ⟨h.inventory.wellFormed, ?_, fun st hst => ?_⟩
  · change (done.map (·.label)).Nodup
    rw [h.map_label]
    exact h.lawful.assertions.nodup_keys
  · obtain ⟨a, ha⟩ := h.assertions.exists_of_mem hst
    exact ha.readable

/-- A statement can be made if the file is well-formed up to it. -/
theorem exists_readAssertion_iff (h : Holds f done T) (st : Statement) :
    (∃ a, T.readAssertion st.label st.hypotheses st.conclusion = .ok a) ↔
      ({ f with statements := done ++ [st] } : TheoryFile).WellFormed := by
  have hlabels : ((done ++ [st]).map (·.label)).Nodup ↔ T.assertions.contains st.label = false := by
    have hold := h.lawful.assertions.nodup_keys
    rw [List.map_append, h.map_label, List.map_cons, List.map_nil,
      List.nodup_append_comm, List.singleton_append, List.nodup_cons, and_iff_left hold,
      h.lawful.assertions.mem_keys_iff, ← h.lawful.assertions.contains_iff, Bool.not_eq_true]
  constructor
  · intro ha
    obtain ⟨a, ha⟩ := ha
    refine ⟨h.inventory.wellFormed, hlabels.mpr (readAssertion_eq_ok_iff.mp ha).1, ?_⟩
    intro st' hst'
    rcases List.mem_append.mp hst' with hst' | hst'
    · obtain ⟨b, hb⟩ := h.assertions.exists_of_mem hst'
      exact hb.readable
    · obtain rfl := List.mem_singleton.mp hst'
      exact (h.states_of_readAssertion ha).readable
  · intro hwell
    have hreadable : ∀ text ∈ st.conclusion :: st.hypotheses,
        ∃ t, T.read text = pure t ∧ f.Reads text t := by
      intro text htext
      obtain ⟨t, ht⟩ := hwell.readable st (List.mem_append_right _ List.mem_cons_self) text htext
      exact ⟨t, h.read_iff.mpr ht, ht⟩
    obtain ⟨⟨c, hc, -⟩, hhyps⟩ := List.forall_mem_cons.mp hreadable
    obtain ⟨ts, hts, -⟩ := List.exists_mapM_eq_pure hhyps
    refine ⟨⟨st.label, ts, c⟩, readAssertion_eq_ok_iff.mpr ⟨?_, rfl, List.mapM_eq_ok_iff.mp hts, hc⟩⟩
    exact hlabels.mp hwell.nodup_labels

/-- Another statement is accepted exactly if the file is well-formed up to it. -/
theorem accepts_state (h : Holds f done T) (st : Statement) :
    Accepts (state st.label st.hypotheses st.conclusion) T
      ({ f with statements := done ++ [st] } : TheoryFile).WellFormed fun _ T' =>
        Holds f (done ++ [st]) T' := by
  refine Accepts.congr ?_ (h.exists_readAssertion_iff st)
  cases ha : T.readAssertion st.label st.hypotheses st.conclusion with
  | error e =>
    have hstate : state st.label st.hypotheses st.conclusion T = (.error e, T) := by
      simp only [state, ha]
    refine .inr ⟨fun hok => ?_, e, T, hstate⟩
    obtain ⟨a, heq⟩ := hok
    cases heq
  | ok a =>
    have hstate : state st.label st.hypotheses st.conclusion T =
        (.ok a, { T with assertions := T.assertions.push st.label a }) := by
      simp only [state, ha]
    have hvalues : (T.assertions.push st.label a).values = T.assertions.values ++ [a] := by
      simp [Registry.values]
    refine .inl ⟨⟨a, rfl⟩, a, _, hstate, ⟨h.lawful.push ha, h.inventory, ?_⟩⟩
    rw [hvalues]
    exact List.rel_append h.assertions (.cons (h.states_of_readAssertion ha) .nil)

/-- Statements are accepted exactly if the file up to the last of them is well-formed. -/
theorem accepts_stateAll (h : Holds f done T) (ss : List Statement) :
    Accepts (stateAll ss) T ({ f with statements := done ++ ss } : TheoryFile).WellFormed
      fun _ T' => Holds f (done ++ ss) T' := by
  induction ss generalizing T done with
  | nil =>
    rw [List.append_nil]
    exact .pure h.wellFormed h
  | cons st ss ih =>
    rw [stateAll, List.append_cons]
    exact (h.accepts_state st).bind (fun hwell => hwell.of_append) fun _ T' hT' => ih hT'

end Holds

/-- A file is built exactly if it is well-formed. -/
theorem accepts_build (f : TheoryFile) :
    Accepts (build f) {} f.WellFormed fun _ T => Holds f f.statements T := by
  rw [build]
  refine (accepts_declareGroups .empty .var f.vars).bind (fun hwell => ?_) fun _ T hT => ?_
  · have hinventory := hwell.inventory
    rw [f.inventory_eq] at hinventory
    exact hinventory.of_addGroups
  obtain ⟨sig, rfl, hsig⟩ := hT
  refine (accepts_declareGroups hsig .op f.operators).bind (fun hwell => ?_) fun _ T hT => ?_
  · rw [← f.inventory_eq]
    exact hwell.inventory
  obtain ⟨sig', rfl, hsig'⟩ := hT
  rw [← f.inventory_eq] at hsig'
  have hholds : Holds f [] { ({} : Theory) with signature := sig' } := by
    refine ⟨?_, hsig', .nil⟩
    exact ⟨hsig'.lawful, hsig'.typed, Registry.valid_empty, List.forall_mem_nil _,
      List.forall_mem_nil _⟩
  exact hholds.accepts_stateAll f.statements

/-- The theory of a file holds all that the file says. -/
theorem holds_of_ofFile {f : TheoryFile} {T : Theory} (h : ofFile f = .ok T) :
    Holds f f.statements T := by
  rw [ofFile] at h
  rcases accepts_build f with ⟨-, u, T', hrun, hholds⟩ | ⟨-, e, T', hrun⟩
  · rw [hrun] at h
    cases h
    exact hholds
  · rw [hrun] at h
    cases h

/-- A file describes a theory exactly if it is well-formed. -/
theorem exists_ofFile_iff (f : TheoryFile) : (∃ T, ofFile f = .ok T) ↔ f.WellFormed := by
  rw [ofFile]
  rcases accepts_build f with ⟨hwell, u, T, hrun, -⟩ | ⟨hnot, e, T, hrun⟩
  · exact iff_of_true ⟨T, by rw [hrun]⟩ hwell
  · refine iff_of_false (fun hok => ?_) hnot
    obtain ⟨T', hT'⟩ := hok
    rw [hrun] at hT'
    cases hT'

/-- What was declared has its number and its type. -/
theorem Holds.describes {f : TheoryFile} {T : Theory} (h : Holds f f.statements T) :
    f.Describes T := by
  refine ⟨fun role k name type hk => ?_, fun role => ?_, h.inventory.types, h.assertions⟩
  · have hat := congrArg (fun l : List (String × Option String) => l[k]?) (h.inventory.symbols role)
    simp only [List.getElem?_map, hk, Option.map_some] at hat
    obtain ⟨e, he, hname⟩ := Option.map_eq_some_iff.mp hat
    obtain ⟨hname, htype⟩ := Prod.mk.inj hname
    have hlt : k < 65536 := Nat.lt_of_lt_of_le (List.getElem?_eq_some_iff.mp hk).1
      (h.inventory.wellFormed.symbols_le role)
    have hdeclared : T.signature.declared? (role.symbol ⟨k, hlt⟩) = some e := by
      rw [Signature.declared?_symbol, he]
    refine ⟨⟨k, hlt⟩, rfl, h.inventory.lawful.symbolNamed?_of_name? ?_, ?_⟩
    · rw [Signature.name?_of_declared? hdeclared, hname]
    · rw [Signature.typeOf?, hdeclared, Option.map_some, Option.bind_some, htype]
  · rw [← h.inventory.length_symbols, Signature.length_symbols]

/-- A file is accepted exactly if it is well-formed: its names can be declared together, its labels
are different and its statements can be read with its names. The theory is then the one that it
describes, with the symbols in their order, with their types, and with the stated assertions. -/
theorem ofFile_accepts_wellFormed (f : TheoryFile) :
    ((∃ T, ofFile f = .ok T) ↔ f.WellFormed) ∧ ∀ T, ofFile f = .ok T → f.Describes T :=
  ⟨exists_ofFile_iff f, fun _ hT => (holds_of_ofFile hT).describes⟩

/-- Types that come up again for other sorts, and a formula with a variable over an argument. -/
theorem sampleFile_accepted :
    sampleFile.WellFormed ∧ ∃ T, ofFile sampleFile = .ok T ∧
      sampleFile.Describes T := by
  have hok : (ofFile sampleFile).toOption.isSome := by decide +kernel
  obtain ⟨T, hT⟩ := Option.isSome_iff_exists.mp hok
  rw [Except.toOption_eq_some_iff] at hT
  obtain ⟨hiff, hdescribes⟩ := ofFile_accepts_wellFormed sampleFile
  exact ⟨hiff.mp ⟨T, hT⟩, T, hT, hdescribes T hT⟩

end Theory

end Lemmata
