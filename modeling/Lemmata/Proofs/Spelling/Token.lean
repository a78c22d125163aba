import Lemmata.Spelling.Token

/-!
# Texts and their tokens

A token is written as its characters, with any blanks before and after them (`Written`). Scanning a
text yields the tokens whose written forms, one after the other, make up the text (`lexed_scan`).
The other way round, what scanning finds in two texts it finds in their concatenation, unless a name
runs on from the one into the other (`scan_append`). Punctuation keeps names apart, so around a
punctuation mark a text can be cut and scanned in parts (`scan_around`).
-/

namespace Lemmata.Spelling

/-! ## Written tokens -/

/-- Nothing but blanks. -/
def Blank (cs : List Char) : Prop :=
  ∀ c ∈ cs, Text.isBlank c = true

theorem blank_nil : Blank [] :=
  List.forall_mem_nil _

/-- Blanks after blanks are blanks. -/
theorem Blank.append {cs ds : List Char} (hcs : Blank cs) (hds : Blank ds) : Blank (cs ++ ds) :=
  List.forall_mem_append.mpr ⟨hcs, hds⟩

/-- The characters, with blanks before and after them. -/
def Padded (w cs : List Char) : Prop :=
  ∃ before after, Blank before ∧ Blank after ∧ cs = before ++ w ++ after

theorem padded_self (w : List Char) : Padded w w :=
  ⟨[], [], blank_nil, blank_nil, by simp⟩

/-- What a name is made of: one character or more, none of them blank and none punctuation. -/
structure IsName (w : List Char) : Prop where
  ne_nil : w ≠ []
  plain : ∀ c ∈ w, Text.isBlank c = false ∧ c ≠ '(' ∧ c ≠ ')' ∧ c ≠ ','

/-- The ways to write a token. -/
def Written : Token → List Char → Prop
  | .name n, cs => IsName n.toList ∧ Padded n.toList cs
  | .opening, cs => Padded ['('] cs
  | .closing, cs => Padded [')'] cs
  | .comma, cs => Padded [','] cs

/-- More blanks around a padded word leave it padded. -/
theorem Padded.pad {w cs before after : List Char} (h : Padded w cs) (hbefore : Blank before)
    (hafter : Blank after) : Padded w (before ++ cs ++ after) := by
  obtain ⟨b, a, hb, ha, rfl⟩ := h
  exact ⟨before ++ b, a ++ after, hbefore.append hb, ha.append hafter, by simp⟩

/-- Blanks around a written token do not matter. -/
theorem Written.pad {t : Token} {cs before after : List Char} (h : Written t cs)
    (hbefore : Blank before) (hafter : Blank after) : Written t (before ++ cs ++ after) := by
  cases t with
  | name n => exact ⟨h.1, h.2.pad hbefore hafter⟩
  | opening => exact Padded.pad h hbefore hafter
  | closing => exact Padded.pad h hbefore hafter
  | comma => exact Padded.pad h hbefore hafter

/-! ## Characters -/

theorem punctuation?_eq_none_iff {c : Char} :
    punctuation? c = none ↔ c ≠ '(' ∧ c ≠ ')' ∧ c ≠ ',' := by
  unfold punctuation?
  split <;> simp_all

/-- Blanks are no punctuation. -/
theorem punctuation?_eq_none_of_isBlank {c : Char} (hc : Text.isBlank c = true) :
    punctuation? c = none := by
  have hopening : Text.isBlank '(' = false := by decide
  have hclosing : Text.isBlank ')' = false := by decide
  have hcomma : Text.isBlank ',' = false := by decide
  rw [punctuation?_eq_none_iff]
  refine ⟨?_, ?_, ?_⟩ <;> intro h <;> simp_all

/-- The characters of names are all but blanks, brackets and commas. -/
theorem isNameChar_iff {c : Char} :
    isNameChar c = true ↔ Text.isBlank c = false ∧ c ≠ '(' ∧ c ≠ ')' ∧ c ≠ ',' := by
  simp [isNameChar, punctuation?_eq_none_iff, and_comm]

/-- A name is not empty and has characters of names only. -/
theorem isName_iff {w : List Char} : IsName w ↔ w ≠ [] ∧ ∀ c ∈ w, isNameChar c = true := by
  simp only [isNameChar_iff]
  exact ⟨fun h => ⟨h.ne_nil, h.plain⟩, fun h => ⟨h.1, h.2⟩⟩

/-- A punctuation mark alone is a way to write its token. -/
theorem written_of_punctuation? {c : Char} {t : Token} (h : punctuation? c = some t) :
    Written t [c] := by
  unfold punctuation? at h
  split at h
  · cases h
    exact padded_self _
  · cases h
    exact padded_self _
  · cases h
    exact padded_self _
  · cases h

/-! ## Scanning joined texts -/

/-- Punctuation ends the name before it and is a token itself. -/
theorem scan_cons_punctuation {c : Char} {t : Token} (h : punctuation? c = some t)
    (pending cs : List Char) :
    scan pending (c :: cs) = nameOf pending ++ t :: scan [] cs := by
  rw [scan, h]

/-- A blank ends the name before it. -/
theorem scan_cons_blank {c : Char} (h : Text.isBlank c = true) (pending cs : List Char) :
    scan pending (c :: cs) = nameOf pending ++ scan [] cs := by
  rw [scan, punctuation?_eq_none_of_isBlank h]
  simp [h]

/-- A character of a name goes on with the name. -/
theorem scan_cons_name {c : Char} (h : isNameChar c = true) (pending cs : List Char) :
    scan pending (c :: cs) = scan (c :: pending) cs := by
  obtain ⟨hblank, hplain⟩ := isNameChar_iff.mp h
  rw [scan, punctuation?_eq_none_iff.mpr hplain]
  simp [hblank]

/-- The text does not go on with a name. -/
def Delimited (cs : List Char) : Prop :=
  ∀ c ∈ cs.head?, isNameChar c = false

/-- Where no name goes on, the one that is pending is complete. -/
theorem scan_of_delimited {cs : List Char} (hcs : Delimited cs) (pending : List Char) :
    scan pending cs = nameOf pending ++ scan [] cs := by
  cases cs with
  | nil => simp [scan, nameOf]
  | cons c cs =>
    have hc : isNameChar c = false := hcs c (by simp)
    cases hp : punctuation? c with
    | some t => rw [scan_cons_punctuation hp, scan_cons_punctuation hp]; rfl
    | none =>
      have hblank : Text.isBlank c = true := by simpa [isNameChar, hp] using hc
      rw [scan_cons_blank hblank, scan_cons_blank hblank]
      rfl

/-- Two texts are scanned one after the other if no name runs on from the one into the other. -/
theorem scan_append {ds : List Char} (hds : Delimited ds) (pending cs : List Char) :
    scan pending (cs ++ ds) = scan pending cs ++ scan [] ds := by
  induction cs generalizing pending with
  | nil => exact scan_of_delimited hds pending
  | cons c cs ih =>
    rw [List.cons_append, scan, scan]
    cases punctuation? c with
    | some t => simp [ih]
    | none => by_cases hblank : Text.isBlank c <;> simp [hblank, ih]

theorem Blank.delimited {cs : List Char} (hcs : Blank cs) : Delimited cs := by
  intro c hc
  have hblank := hcs c (List.mem_of_mem_head? hc)
  simp [isNameChar, hblank]

/-- Leading blanks are skipped. -/
theorem scan_blank_append {b : List Char} (hb : Blank b) (cs : List Char) :
    scan [] (b ++ cs) = scan [] cs := by
  induction b with
  | nil => rfl
  | cons c b ih =>
    obtain ⟨hc, hb⟩ := List.forall_mem_cons.mp hb
    rw [List.cons_append, scan_cons_blank hc, ih hb]
    rfl

theorem scan_blank {b : List Char} (hb : Blank b) : scan [] b = [] := by
  have h := scan_blank_append hb []
  rwa [List.append_nil] at h

/-- Characters of names pile up until the name ends. -/
theorem scan_name_append {w : List Char} (hw : ∀ c ∈ w, isNameChar c = true)
    (pending cs : List Char) :
    scan pending (w ++ cs) = scan (w.reverse ++ pending) cs := by
  induction w generalizing pending with
  | nil => rfl
  | cons c w ih =>
    obtain ⟨hc, hw⟩ := List.forall_mem_cons.mp hw
    rw [List.cons_append, scan_cons_name hc, ih hw]
    simp

/-- A written name is scanned as that name. -/
theorem scan_of_written_name {n : String} {cs : List Char} (h : Written (.name n) cs) :
    scan [] cs = [.name n] := by
  obtain ⟨hn, before, after, hbefore, hafter, rfl⟩ := h
  obtain ⟨hne, hplain⟩ := isName_iff.mp hn
  obtain ⟨c, w, hw⟩ := List.exists_cons_of_ne_nil (mt List.reverse_eq_nil_iff.mp hne)
  have hname : nameOf n.toList.reverse = [.name n] := by
    rw [hw, nameOf, ← hw, List.reverse_reverse, String.ofList_toList]
    simp
  rw [List.append_assoc, scan_blank_append hbefore, scan_name_append hplain, List.append_nil,
    scan_of_delimited hafter.delimited, scan_blank hafter, hname]
  rfl

/-- Around a punctuation mark a text is scanned in parts. -/
theorem scan_append_punctuation {c : Char} {t : Token} (h : punctuation? c = some t)
    {m : List Char} (hm : Padded [c] m) (cs ds : List Char) :
    scan [] (cs ++ m ++ ds) = scan [] cs ++ t :: scan [] ds := by
  obtain ⟨before, after, hbefore, hafter, rfl⟩ := hm
  have hmark : Delimited (c :: (after ++ ds)) := by
    intro d hd
    obtain rfl : c = d := by simpa using hd
    simp [isNameChar, h]
  have hcut : cs ++ (before ++ [c] ++ after) ++ ds = (cs ++ before) ++ c :: (after ++ ds) := by simp
  rw [hcut, scan_append hmark, scan_append hbefore.delimited, scan_blank hbefore,
    scan_cons_punctuation h, scan_blank_append hafter]
  simp [nameOf]

/-- Punctuation divides a text into two parts that are scanned apart. -/
theorem scan_around {t : Token} {m : List Char} (hm : Written t m) (ht : ∀ n, t ≠ .name n)
    (cs ds : List Char) : scan [] (cs ++ m ++ ds) = scan [] cs ++ t :: scan [] ds := by
  cases t with
  | name n => exact absurd rfl (ht n)
  | opening => exact scan_append_punctuation rfl hm cs ds
  | closing => exact scan_append_punctuation rfl hm cs ds
  | comma => exact scan_append_punctuation rfl hm cs ds

/-! ## What a text is made of -/

/-- The text is made up of the written tokens. -/
inductive Lexed : List Token → List Char → Prop
  | nil {cs : List Char} : Blank cs → Lexed [] cs
  | cons {t : Token} {ts : List Token} {cs ds : List Char} :
    Written t cs → Lexed ts ds → Lexed (t :: ts) (cs ++ ds)

namespace Lexed

/-- Blanks in front change no tokens. -/
theorem blank_append {ts : List Token} {b cs : List Char} (hb : Blank b) (h : Lexed ts cs) :
    Lexed ts (b ++ cs) := by
  cases h with
  | nil hcs => exact .nil (hb.append hcs)
  | cons hw hrest =>
    rw [← List.append_assoc]
    refine .cons ?_ hrest
    simpa using hw.pad hb blank_nil

/-- A text with a single token is written as this token. -/
theorem written {t : Token} {cs : List Char} (h : Lexed [t] cs) : Written t cs := by
  cases h with
  | cons hw hrest =>
    cases hrest with
    | nil hblank => simpa using hw.pad blank_nil hblank

/-- A text of two lists of tokens is made up of a text for each. -/
theorem exists_append {ts us : List Token} {cs : List Char} (h : Lexed (ts ++ us) cs) :
    ∃ ds es, cs = ds ++ es ∧ Lexed ts ds ∧ Lexed us es := by
  induction ts generalizing cs with
  | nil => exact ⟨[], cs, rfl, .nil blank_nil, h⟩
  | cons t ts ih =>
    cases h with
    | @cons _ _ c _ hw hrest =>
      obtain ⟨ds, es, rfl, hds, hes⟩ := ih hrest
      exact ⟨c ++ ds, es, (List.append_assoc _ _ _).symm, .cons hw hds, hes⟩

/-- A pending name comes before the tokens that follow. -/
theorem nameOf_append {pending : List Char} (hpending : ∀ c ∈ pending, isNameChar c = true)
    {ts : List Token} {cs : List Char} (h : Lexed ts cs) :
    Lexed (nameOf pending ++ ts) (pending.reverse ++ cs) := by
  cases pending with
  | nil => exact h
  | cons c pending =>
    refine .cons ⟨?_, ?_⟩ h
    · rw [String.toList_ofList, isName_iff]
      exact ⟨by simp, fun d hd => hpending d (List.mem_reverse.mp hd)⟩
    · rw [String.toList_ofList]
      exact padded_self _

end Lexed

/-- A text is made up of the tokens that scanning finds, after the pending characters of a name. -/
theorem lexed_scan (pending cs : List Char) (hpending : ∀ c ∈ pending, isNameChar c = true) :
    Lexed (scan pending cs) (pending.reverse ++ cs) := by
  induction cs generalizing pending with
  | nil =>
    have h := (Lexed.nil blank_nil).nameOf_append hpending
    rwa [List.append_nil] at h
  | cons c cs ih =>
    have hrest : Lexed (scan [] cs) cs := ih [] (List.forall_mem_nil _)
    cases hp : punctuation? c with
    | some t =>
      rw [scan_cons_punctuation hp]
      exact (Lexed.cons (written_of_punctuation? hp) hrest).nameOf_append hpending
    | none =>
      by_cases hblank : Text.isBlank c = true
      · rw [scan_cons_blank hblank]
        have hb : Blank [c] := by simpa [Blank] using hblank
        exact (hrest.blank_append hb).nameOf_append hpending
      · have hname : isNameChar c = true := by simp [isNameChar, hp, hblank]
        rw [scan_cons_name hname]
        have h := ih (c :: pending) (List.forall_mem_cons.mpr ⟨hname, hpending⟩)
        simpa using h

end Lemmata.Spelling
