import Lemmata.Proofs.Theory.Signature

/-!
# What a signature lists

A signature has its names in several places: in the order of declaration, to name a symbol by its
number, and in search trees, to find the number of a name. All that can be learnt from it is what a
plain list for each sort would tell, to which a declaration adds a line at the end or nothing
(`Listing.after`). The signature follows the lists step by step (`Lawful.listing_after`), and so
along every sequence of declarations, accepted and refused ones in any order.

What the lists tell is put together in `declarations_listed`: numbers are positions in the lists and
keep their meaning, since lists only grow at the end; names and numbers determine each other; and
numbers do not run over, since a list that has used them all takes no more lines.
-/

namespace Lemmata

theorem Role.exists_iff {P : Role → Prop} : (∃ role, P role) ↔ P .var ∨ P .op := by
  constructor
  · intro ⟨role, h⟩
    cases role with
    | var => exact .inl h
    | op => exact .inr h
  · intro h
    exact h.elim (fun h => ⟨.var, h⟩) fun h => ⟨.op, h⟩

namespace Signature

/-! ## The lists -/

/-- What a name must be to be declared for a symbol. -/
def Declarable (name : String) : Prop :=
  name ≠ "" ∧ name ≠ "_" ∧
    ∀ c ∈ name.toList, c ≠ '(' ∧ c ≠ ')' ∧ c ≠ ',' ∧ Text.isBlank c = false

/-- The check on names decides which names can be declared. -/
theorem usable_iff {name : String} : usable name ↔ Declarable name := by
  simp only [usable, holeName, Declarable, Bool.and_eq_true, decide_eq_true_eq, List.all_eq_true,
    Spelling.isNameChar_iff]
  grind

/-- The declared names of each sort, in order of declaration. -/
structure Listing where
  types : List String := []
  symbols : Role → List (String × TypeId) := fun _ => []

namespace Listing

/-- The names of all symbols. -/
def names (l : Listing) : List String :=
  (l.symbols .var ++ l.symbols .op).map (·.1)

/-- A symbol can be added: its name may be declared and is not in use, and there is a number left
for it. -/
def Admits (l : Listing) (role : Role) (name : String) : Prop :=
  Declarable name ∧ name ∉ l.names ∧ (l.symbols role).length < 65536

instance (l : Listing) (role : Role) (name : String) : Decidable (l.Admits role name) :=
  inferInstanceAs (Decidable ((_ ∧ _ ∧ _) ∧ _ ∧ _))

/-- The listing with one more symbol at the end of its sort. -/
def add (l : Listing) (role : Role) (name : String) (type : TypeId) : Listing where
  types := l.types
  symbols role' := if role' = role then l.symbols role ++ [(name, type)] else l.symbols role'

/-- The listing after a declaration. -/
def after (l : Listing) : Declaration → Listing
  | .type name =>
    if name ∈ l.types ∨ 65536 ≤ l.types.length then l
    else { l with types := l.types ++ [name] }
  | .symbol role name type => if l.Admits role name then l.add role name type else l

/-- What has been declared, of all that was to be. -/
def ofDeclarations (ds : List Declaration) : Listing :=
  ds.foldl after {}

/-- Each list of the second listing continues that of the first. -/
structure Extends (l l' : Listing) : Prop where
  types : l.types <+: l'.types
  symbols : ∀ role, l.symbols role <+: l'.symbols role

theorem Extends.rfl {l : Listing} : l.Extends l :=
  ⟨List.prefix_rfl, fun _ => List.prefix_rfl⟩

theorem Extends.trans {l l' l'' : Listing} (h : l.Extends l') (h' : l'.Extends l'') :
    l.Extends l'' :=
  ⟨h.types.trans h'.types, fun role => (h.symbols role).trans (h'.symbols role)⟩

/-- A declaration changes nothing of what is listed; at most it adds one line. -/
theorem extends_after (l : Listing) (d : Declaration) : l.Extends (l.after d) := by
  cases d with
  | type name =>
    rw [after]
    split
    · exact .rfl
    · exact ⟨List.prefix_append _ _, fun _ => List.prefix_rfl⟩
  | symbol role name type =>
    rw [after]
    split
    · refine ⟨List.prefix_rfl, fun role' => ?_⟩
      by_cases hrole : role' = role
      · subst hrole
        simp [add]
      · simp [add, hrole]
    · exact .rfl

/-- Many declarations only add lines to what is listed. -/
theorem extends_foldl (l : Listing) (ds : List Declaration) : l.Extends (ds.foldl after l) := by
  induction ds generalizing l with
  | nil => exact .rfl
  | cons d ds ih => exact (l.extends_after d).trans (ih (l.after d))

end Listing

/-! ## One declaration -/

/-- The lists of a signature. -/
def listing (sig : Signature) : Listing where
  types := sig.types.keys
  symbols role := (sig.table role).toList

/-- The answer to a declaration. -/
def answer (sig : Signature) : Declaration → Except DeclError (TypeId ⊕ Symbol)
  | .type name => (declareType name sig).1.map .inl
  | .symbol role name type => (declare role name type sig).1.map .inr

variable {sig : Signature}

/-- A symbol was declared as the line at its number says. -/
theorem declared?_symbol (sig : Signature) (role : Role) (i : Serial) :
    sig.declared? (role.symbol i) = (sig.listing.symbols role)[i.val]? := by
  cases role <;> simp [Role.symbol, declared?, listing, table, Registry.at?, Registry.toList]

/-- A type has the name in the line at its number. -/
theorem typeName?_eq (sig : Signature) (t : TypeId) :
    sig.typeName? t = sig.listing.types[t.serial.val]? := by
  simp [typeName?, listing, Registry.keys, Registry.at?, Registry.toList]

theorem length_symbols (sig : Signature) (role : Role) :
    (sig.listing.symbols role).length = (sig.table role).size :=
  Array.length_toList

theorem length_types (sig : Signature) : sig.listing.types.length = sig.types.size := by
  simp [listing, Registry.keys, Registry.toList, Registry.size]

/-- Filing a symbol adds a line to the list of its sort. -/
theorem listing_file (sig : Signature) (name : String) (type : TypeId) (role : Role) :
    (sig.file name type role).listing = sig.listing.add role name type := by
  have hsymbols : ∀ role', ((sig.file name type role).table role').toList =
      if role' = role then (sig.table role).toList ++ [(name, type)]
      else (sig.table role').toList := by
    intro role'
    rw [table_file]
    by_cases hrole : role' = role
    · simp [hrole]
    · simp [hrole]
  simp only [listing, Listing.add, types_file, hsymbols]

/-- Filing a type adds a line to the list of types. -/
theorem listing_types_push (sig : Signature) (name : String) :
    listing { sig with types := sig.types.push name () } =
      { sig.listing with types := sig.listing.types ++ [name] } := by
  rw [listing, Listing.mk.injEq]
  constructor
  · simp [listing, Registry.keys]
  · funext role
    cases role <;> rfl

namespace Lawful

/-- The listed names are those that were declared for one of the sorts. -/
theorem mem_names_iff (h : sig.Lawful) {name : String} :
    name ∈ sig.listing.names ↔ ∃ role, (sig.table role).contains name := by
  have hrole : ∀ role, name ∈ (sig.table role).toList.map (·.1) ↔
      (sig.table role).contains name := by
    intro role
    rw [(h.table role).contains_iff]
    exact (h.table role).mem_keys_iff
  rw [Listing.names, List.map_append, List.mem_append, Role.exists_iff]
  simp only [listing, hrole]

/-- A name other than that of the hole stands for a symbol exactly if it is listed. -/
theorem isSome_symbolNamed?_iff (h : sig.Lawful) {name : String} (hname : name ≠ holeName) :
    (sig.symbolNamed? name).isSome ↔ name ∈ sig.listing.names := by
  rw [symbolNamed?, if_neg hname, Option.isSome_or, Bool.or_eq_true, h.isSome_findIn?_iff,
    h.isSome_findIn?_iff, h.mem_names_iff, Role.exists_iff]

/-- A symbol that can be added to the lists gets the next number of its sort. Any other is refused
and changes nothing. -/
theorem declare_cases (h : sig.Lawful) (role : Role) (name : String) (type : TypeId) :
    (sig.listing.Admits role name ∧ ∃ i : Serial, i.val = (sig.listing.symbols role).length ∧
      Signature.declare role name type sig = (.ok (role.symbol i), sig.file name type role)) ∨
    (¬ sig.listing.Admits role name ∧
      ∃ e, Signature.declare role name type sig = (.error e, sig)) := by
  rw [Listing.Admits, ← usable_iff, length_symbols, Signature.declare]
  cases hsize : Serial.ofNat? (sig.table role).size with
  | none =>
    have hfull := Serial.ofNat?_eq_none_iff.mp hsize
    exact .inr ⟨fun hadmits => by omega, _, rfl⟩
  | some i =>
    have hlt := Serial.lt_of_ofNat? hsize
    by_cases husable : Signature.usable name = true
    · have hname : name ≠ holeName := (usable_iff.mp husable).2.1
      rw [← h.isSome_symbolNamed?_iff hname]
      by_cases htaken : (sig.symbolNamed? name).isSome = true
      · refine .inr ⟨fun hadmits => hadmits.2.1 htaken, .taken name, ?_⟩
        simp only [husable, htaken, if_true]
      · refine .inl ⟨⟨husable, htaken, hlt⟩, i, Serial.ofNat?_eq_some_iff.mp hsize, ?_⟩
        simp only [husable, htaken, if_true, Bool.false_eq_true, if_false]
    · refine .inr ⟨fun hadmits => husable hadmits.1, .unusable name, ?_⟩
      simp only [husable, Bool.false_eq_true, if_false]

/-- Looking a type up by its name is the converse of reading its name. -/
theorem typeNamed?_eq_some_iff (h : sig.Lawful) {name : String} {t : TypeId} :
    sig.typeNamed? name = some t ↔ sig.typeName? t = some name := by
  rw [typeNamed?, Option.map_eq_some_iff]
  constructor
  · intro ht
    obtain ⟨i, hi, hmk⟩ := ht
    obtain ⟨k, hk, hik⟩ := Option.bind_eq_some_iff.mp hi
    subst hmk
    rw [← Serial.ofNat?_eq_some_iff.mp hik] at hk
    exact (h.types name i.val).mp hk
  · intro hname
    have hk : sig.types.find? name = some t.serial.val := (h.types name t.serial.val).mpr hname
    exact ⟨t.serial, by rw [hk, Option.bind_some, Serial.ofNat?_val], rfl⟩

/-- A listed type has a number, since there are enough of them. -/
theorem mem_types_iff (h : sig.Lawful) {name : String} :
    name ∈ sig.listing.types ↔ ∃ t, sig.typeName? t = some name := by
  simp only [typeName?_eq, List.mem_iff_getElem?]
  constructor
  · intro ⟨k, hk⟩
    have hlt : k < sig.listing.types.length := (List.getElem?_eq_some_iff.mp hk).1
    rw [length_types] at hlt
    exact ⟨⟨⟨k, Nat.lt_of_lt_of_le hlt h.types_le⟩⟩, hk⟩
  · intro ⟨t, ht⟩
    exact ⟨t.serial.val, ht⟩

/-- A type that is listed is found, a new one gets the next number, and when there is none left the
declaration is refused and changes nothing. -/
theorem declareType_cases (h : sig.Lawful) (name : String) :
    (∃ t, sig.typeName? t = some name ∧ Signature.declareType name sig = (.ok t, sig)) ∨
    (name ∉ sig.listing.types ∧ ∃ i : Serial, i.val = sig.listing.types.length ∧
      Signature.declareType name sig =
        (.ok ⟨i⟩, { sig with types := sig.types.push name () })) ∨
    (name ∉ sig.listing.types ∧ 65536 ≤ sig.listing.types.length ∧
      ∃ e, Signature.declareType name sig = (.error e, sig)) := by
  rw [Signature.declareType]
  cases hnamed : sig.typeNamed? name with
  | some t => exact .inl ⟨t, h.typeNamed?_eq_some_iff.mp hnamed, rfl⟩
  | none =>
    have hnew : name ∉ sig.listing.types := by
      intro hmem
      obtain ⟨t, ht⟩ := h.mem_types_iff.mp hmem
      rw [h.typeNamed?_eq_some_iff.mpr ht] at hnamed
      cases hnamed
    rw [length_types]
    cases hsize : Serial.ofNat? sig.types.size with
    | some i => exact .inr (.inl ⟨hnew, i, Serial.ofNat?_eq_some_iff.mp hsize, rfl⟩)
    | none => exact .inr (.inr ⟨hnew, Serial.ofNat?_eq_none_iff.mp hsize, _, rfl⟩)

/-- The lists follow a declaration. -/
theorem listing_after (h : sig.Lawful) (d : Declaration) :
    (sig.after d).listing = sig.listing.after d := by
  cases d with
  | type name =>
    rw [Signature.after, Listing.after]
    rcases h.declareType_cases name with ⟨t, ht, heq⟩ | ⟨hnew, i, hi, heq⟩ | ⟨-, hfull, e, heq⟩
    · rw [heq, if_pos (.inl (h.mem_types_iff.mpr ⟨t, ht⟩))]
    · have hlt : ¬ 65536 ≤ sig.listing.types.length := by omega
      rw [heq, if_neg (not_or.mpr ⟨hnew, hlt⟩), listing_types_push]
    · rw [heq, if_pos (.inr hfull)]
  | symbol role name type =>
    rw [Signature.after, Listing.after]
    rcases h.declare_cases role name type with ⟨hadmits, i, -, heq⟩ | ⟨hrefuses, e, heq⟩
    · rw [heq, if_pos hadmits, listing_file]
    · rw [heq, if_neg hrefuses]

end Lawful

/-! ## Any number of declarations -/

/-- The listing of a signature can be read off its history. -/
theorem listing_afterAll (ds : List Declaration) :
    (afterAll {} ds).listing = .ofDeclarations ds := by
  have hrun : ∀ sig : Signature, sig.Lawful →
      (sig.afterAll ds).listing = ds.foldl Listing.after sig.listing := by
    induction ds with
    | nil => exact fun sig _ => rfl
    | cons d ds ih =>
      intro sig h
      rw [afterAll, List.foldl_cons, List.foldl_cons, ← h.listing_after d]
      exact ih (sig.after d) (h.after d)
  have hempty : listing {} = {} := by
    rw [listing, Listing.mk.injEq]
    refine ⟨rfl, ?_⟩
    funext role
    cases role <;> rfl
  rw [hrun {} .empty, hempty]
  rfl

/-- A name that is found is the name of what is found. -/
theorem Lawful.symbolNamed?_eq_some_iff (h : sig.Lawful) {name : String} {s : Symbol} :
    sig.symbolNamed? name = some s ↔ sig.name? s = some name := by
  refine ⟨fun hs => ?_, h.symbolNamed?_of_name?⟩
  have hfound : ∀ role, sig.findIn? role name = some s → sig.name? s = some name := by
    intro role hrole
    obtain ⟨i, hi, hsymbol⟩ := Option.map_eq_some_iff.mp hrole
    obtain ⟨k, hk, hik⟩ := Option.bind_eq_some_iff.mp hi
    subst hsymbol
    rw [← Serial.ofNat?_eq_some_iff.mp hik] at hk
    rw [name?_symbol]
    exact (h.table role name i.val).mp hk
  rw [symbolNamed?] at hs
  split at hs
  next hhole =>
    cases hs
    rw [hhole]
    rfl
  next =>
    rcases Option.or_eq_some_iff.mp hs with hvar | ⟨-, hop⟩
    · exact hfound .var hvar
    · exact hfound .op hop

/-- No name is listed twice, be it in one sort or in both. -/
theorem Lawful.nodup_names (h : sig.Lawful) : sig.listing.names.Nodup := by
  rw [Listing.names, List.map_append, List.nodup_append]
  refine ⟨(h.table .var).nodup_keys, (h.table .op).nodup_keys, ?_⟩
  intro name hvar name' hop heq
  subst heq
  have hcontains : ∀ role, name ∈ (sig.table role).keys → (sig.table role).contains name :=
    fun role hname => (h.table role).contains_iff.mpr ((h.table role).mem_keys_iff.mp hname)
  cases h.apart .var .op name (hcontains .var hvar) (hcontains .op hop)

/-- The signature answers as the lists do, and takes declarations as far as the lists do. -/
structure Answers (sig : Signature) (l : Listing) : Prop where
  /-- The numbers of types are positions in the list of types. -/
  typeName? : ∀ t, sig.typeName? t = l.types[t.serial.val]?
  /-- The numbers of symbols are positions in the list of their sort. -/
  declared? : ∀ role i, sig.declared? (Role.symbol role i) = (l.symbols role)[i.val]?
  length_types : l.types.length ≤ 65536
  length_symbols : ∀ role, (l.symbols role).length ≤ 65536
  /-- Names and types determine each other. -/
  typeNamed? : ∀ name t, sig.typeNamed? name = some t ↔ sig.typeName? t = some name
  /-- Names and symbols determine each other. -/
  symbolNamed? : ∀ name s, sig.symbolNamed? name = some s ↔ sig.name? s = some name
  nodup_names : l.names.Nodup
  declarable : ∀ name ∈ l.names, Declarable name
  /-- A type is declared with the number it has, or with the next one. -/
  declareType : ∀ name t, (declareType name sig).1 = .ok t ↔
    sig.typeName? t = some name ∨ name ∉ l.types ∧ t.serial.val = l.types.length
  /-- A symbol is declared with the next number, if the lists admit it. -/
  declare : ∀ role name type s, (declare role name type sig).1 = .ok s ↔
    l.Admits role name ∧ ∃ i : Serial, i.val = (l.symbols role).length ∧ s = role.symbol i
  /-- A declaration that is refused changes nothing. -/
  refused : ∀ d e, sig.answer d = .error e → sig.after d = sig
  /-- A type that was declared is found when it is declared again, and this changes nothing. -/
  redeclared : ∀ name t, (Signature.declareType name sig).1 = .ok t →
    Signature.declareType name (sig.after (.type name)) = (.ok t, sig.after (.type name))

/-- Whatever stands for something still stands for it in the second signature. -/
structure KeptBy (sig sig' : Signature) : Prop where
  typeName? : ∀ t name, sig.typeName? t = some name → sig'.typeName? t = some name
  typeNamed? : ∀ name t, sig.typeNamed? name = some t → sig'.typeNamed? name = some t
  declared? : ∀ s e, sig.declared? s = some e → sig'.declared? s = some e
  symbolNamed? : ∀ name s, sig.symbolNamed? name = some s → sig'.symbolNamed? name = some s

namespace Lawful

/-- A type is declared exactly if it has its name already, or is new and gets the next number. -/
theorem declareType_eq_ok_iff (h : sig.Lawful) {name : String} {t : TypeId} :
    (Signature.declareType name sig).1 = .ok t ↔ sig.typeName? t = some name ∨
      name ∉ sig.listing.types ∧ t.serial.val = sig.listing.types.length := by
  rcases h.declareType_cases name with ⟨u, hu, heq⟩ | ⟨hnew, i, hi, heq⟩ | ⟨hnew, hfull, e, heq⟩
  · have hlisted := h.mem_types_iff.mpr ⟨u, hu⟩
    have hnamed := h.typeNamed?_eq_some_iff.mpr hu
    rw [heq, ← h.typeNamed?_eq_some_iff, hnamed]
    simp [hlisted]
  · have hnone : sig.typeName? t ≠ some name := fun ht => hnew (h.mem_types_iff.mpr ⟨t, ht⟩)
    obtain ⟨k⟩ := t
    rw [heq]
    simp [hnone, hnew, ← hi, Fin.ext_iff, eq_comm]
  · have hnone : sig.typeName? t ≠ some name := fun ht => hnew (h.mem_types_iff.mpr ⟨t, ht⟩)
    have hlt := t.serial.isLt
    rw [heq]
    simp only [reduceCtorEq, hnone, false_or, false_iff, not_and]
    omega

/-- A symbol is declared exactly if the listing admits its name, and then it gets the next number of
its sort. -/
theorem declare_eq_ok_iff (h : sig.Lawful) {role : Role} {name : String} {type : TypeId}
    {s : Symbol} :
    (Signature.declare role name type sig).1 = .ok s ↔ sig.listing.Admits role name ∧
      ∃ i : Serial, i.val = (sig.listing.symbols role).length ∧ s = role.symbol i := by
  rcases h.declare_cases role name type with ⟨hadmits, i, hi, heq⟩ | ⟨hrefuses, e, heq⟩
  · rw [heq]
    simp only [hadmits, true_and, Except.ok.injEq, ← hi]
    constructor
    · intro hs
      exact ⟨i, rfl, hs.symm⟩
    · intro ⟨j, hj, hs⟩
      rw [hs, Fin.ext hj]
  · rw [heq]
    simp [hrefuses]

/-- A refused declaration changes nothing. -/
theorem after_of_error (h : sig.Lawful) {d : Declaration} {e : DeclError}
    (he : sig.answer d = .error e) : sig.after d = sig := by
  cases d with
  | type name =>
    rw [answer] at he
    rw [Signature.after]
    rcases h.declareType_cases name with ⟨_, -, heq⟩ | ⟨-, i, -, heq⟩ | ⟨-, -, _, heq⟩
    · rw [heq] at he
      cases he
    · rw [heq] at he
      cases he
    · rw [heq]
  | symbol role name type =>
    rw [answer] at he
    rw [Signature.after]
    rcases h.declare_cases role name type with ⟨-, i, -, heq⟩ | ⟨-, _, heq⟩
    · rw [heq] at he
      cases he
    · rw [heq]

/-- Once a type has a name, to declare it changes nothing. -/
theorem declareType_of_typeName? (h : sig.Lawful) {name : String} {t : TypeId}
    (ht : sig.typeName? t = some name) : Signature.declareType name sig = (.ok t, sig) := by
  rw [Signature.declareType, h.typeNamed?_eq_some_iff.mpr ht]

/-- Declaring a type again gives the same type and changes nothing. -/
theorem declareType_again (h : sig.Lawful) {name : String} {t : TypeId}
    (ht : (Signature.declareType name sig).1 = .ok t) :
    Signature.declareType name (sig.after (.type name)) = (.ok t, sig.after (.type name)) := by
  refine (h.after _).declareType_of_typeName? ?_
  rw [typeName?_eq, h.listing_after, Listing.after]
  rcases h.declareType_eq_ok_iff.mp ht with hname | ⟨hnew, hnext⟩
  · rw [if_pos (.inl (h.mem_types_iff.mpr ⟨t, hname⟩)), ← typeName?_eq, hname]
  · have hlt : ¬ 65536 ≤ sig.listing.types.length := by omega
    rw [if_neg (not_or.mpr ⟨hnew, hlt⟩), hnext]
    simp

/-- A lawful signature answers every question as its listing says. -/
theorem answers (h : sig.Lawful) : sig.Answers sig.listing where
  typeName? := sig.typeName?_eq
  declared? := sig.declared?_symbol
  length_types := sig.length_types ▸ h.types_le
  length_symbols role := sig.length_symbols role ▸ h.table_le role
  typeNamed? _ _ := h.typeNamed?_eq_some_iff
  symbolNamed? _ _ := h.symbolNamed?_eq_some_iff
  nodup_names := h.nodup_names
  declarable name hname := by
    obtain ⟨role, hrole⟩ := h.mem_names_iff.mp hname
    exact usable_iff.mp (h.usable role name hrole)
  declareType _ _ := h.declareType_eq_ok_iff
  declare _ _ _ _ := h.declare_eq_ok_iff
  refused _ _ := h.after_of_error
  redeclared _ _ := h.declareType_again

/-- Longer lists leave everything as it is. -/
theorem keptBy (h : sig.Lawful) {sig' : Signature} (h' : sig'.Lawful)
    (hlists : sig.listing.Extends sig'.listing) : sig.KeptBy sig' := by
  -- Types and symbols are read off the lists by number, and longer lists agree where there was a line.
  have hat : ∀ {α : Type} {as bs : List α} {i : Nat} {a : α}, as <+: bs → as[i]? = some a →
      bs[i]? = some a := by
    intro α as bs i a ⟨cs, hbs⟩ ha
    rw [← hbs, List.getElem?_append_left (List.getElem?_eq_some_iff.mp ha).1, ha]
  have htype : ∀ t name, sig.typeName? t = some name → sig'.typeName? t = some name := by
    intro t name ht
    rw [typeName?_eq] at ht ⊢
    exact hat hlists.types ht
  have hdeclared : ∀ s e, sig.declared? s = some e → sig'.declared? s = some e := by
    intro s e hs
    by_cases hhole : s = .hole
    · subst hhole
      cases hs
    · obtain ⟨role, i, rfl⟩ := exists_role_symbol hhole
      rw [declared?_symbol] at hs ⊢
      exact hat (hlists.symbols role) hs
  refine ⟨htype, ?_, hdeclared, ?_⟩
  · intro name t ht
    rw [h.typeNamed?_eq_some_iff] at ht
    exact h'.typeNamed?_eq_some_iff.mpr (htype t name ht)
  · intro name s hs
    rw [h.symbolNamed?_eq_some_iff] at hs
    refine h'.symbolNamed?_of_name? ?_
    cases s with
    | hole => exact hs
    | var i =>
      obtain ⟨e, he, hname⟩ := Option.map_eq_some_iff.mp hs
      exact Option.map_eq_some_iff.mpr ⟨e, hdeclared _ e he, hname⟩
    | op i =>
      obtain ⟨e, he, hname⟩ := Option.map_eq_some_iff.mp hs
      exact Option.map_eq_some_iff.mpr ⟨e, hdeclared _ e he, hname⟩

end Lawful

/-- After any declarations, accepted and refused ones in any order, the signature answers as the
lists of what was declared, and whatever is declared later leaves these answers as they are. -/
theorem declarations_listed (ds : List Declaration) :
    (afterAll {} ds).Answers (.ofDeclarations ds) ∧
      ∀ ds', (afterAll {} ds).KeptBy (afterAll {} (ds ++ ds')) := by
  have h : (afterAll {} ds).Lawful := Lawful.empty.afterAll ds
  constructor
  · rw [← listing_afterAll]
    exact h.answers
  · intro ds'
    refine h.keptBy (Lawful.empty.afterAll (ds ++ ds')) ?_
    rw [listing_afterAll, listing_afterAll, Listing.ofDeclarations, Listing.ofDeclarations,
      List.foldl_append]
    exact Listing.extends_foldl _ ds'

end Signature

end Lemmata
