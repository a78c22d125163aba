import Lemmata.Proofs.Spelling.Reader
import Lemmata.Proofs.Term.Basic
import Lemmata.Spelling.Numbered

/-!
# Written terms spell themselves

A term is written in one of the ways to spell it, provided that the names used are names and stand
for the symbols they were used for (`spells_write`). So whatever is written with such names is read
back as it was.

The numbered spelling has such names: a letter and decimal digits, which are read back as the number
they were made from (`Symbol.read?_write`).
-/

namespace Lemmata

namespace Spelling

variable {name : Symbol → String} {resolve : String → Option Symbol}

/-- The symbol has a name, and this name stands for it. -/
structure Names (name : Symbol → String) (resolve : String → Option Symbol) (s : Symbol) :
    Prop where
  isName : IsName (name s).toList
  resolves : resolve (name s) = some s

/-- A name that stands for a symbol is written as itself. -/
theorem Names.written {s : Symbol} (h : Names name resolve s) :
    Written (.name (name s)) (name s).toList :=
  ⟨h.isName, padded_self _⟩

mutual

/-- What is written for a term spells the term. -/
theorem spells_write : (t : Term) → (∀ s ∈ t.symbols, Names name resolve s) →
    Spells resolve t (write name t).toList
  | .app h [], hnames => by
    have hh := hnames h (by simp)
    rw [write]
    exact .leaf hh.resolves hh.written
  | .app h (t :: ts), hnames => by
    have hh := hnames h (by simp)
    have ht := spells_write t fun s hs => hnames s (by simp [hs])
    have hts := phrases_writeRest ts (fun s hs => hnames s (by simp [hs])) ht
    have htext : (write name (.app h (t :: ts))).toList =
        (name h).toList ++ ['('] ++ ((write name t).toList ++ (writeRest name ts).toList) ++ [')'] := by
      simp [write]
    rw [htext]
    exact .app hh.resolves hh.written (padded_self _) hts (padded_self _)

/-- What is written for the arguments after the first continues a list of arguments. -/
theorem phrases_writeRest : (ts : List Term) → (∀ s ∈ ts.flatMap Term.symbols, Names name resolve s) →
    ∀ {t : Term} {cs : List Char}, Spells resolve t cs →
      Phrases Written resolve (t :: ts) (cs ++ (writeRest name ts).toList)
  | [], _, t, cs, ht => by
    rw [writeRest]
    simpa using Phrases.last ht
  | u :: us, hnames, t, cs, ht => by
    have hu := spells_write u fun s hs => hnames s (by simp [hs])
    have hus := phrases_writeRest us (fun s hs => hnames s (by simp [hs])) hu
    have htext : cs ++ (writeRest name (u :: us)).toList =
        cs ++ [',', ' '] ++ ((write name u).toList ++ (writeRest name us).toList) := by
      simp [writeRest]
    have hblank : Blank [' '] := List.forall_mem_singleton.mpr (by decide)
    have hcomma : Written .comma [',', ' '] := ⟨[], [' '], blank_nil, hblank, rfl⟩
    rw [htext]
    exact .cons ht hcomma hus

end

end Spelling

/-! ## The numbered spelling -/

namespace Serial

theorem ofNat?_val (i : Serial) : ofNat? i.val = some i := by
  simp [ofNat?, i.isLt]

theorem lt_of_ofNat? {n : Nat} {i : Serial} (h : ofNat? n = some i) : n < 65536 := by
  rw [ofNat?] at h
  split at h
  next hlt => exact hlt
  next => cases h

/-- A number is a serial number exactly if it is below the bound, and then it is its own. -/
theorem ofNat?_eq_some_iff {n : Nat} {i : Serial} : ofNat? n = some i ↔ i.val = n := by
  unfold ofNat?
  by_cases hn : n < 65536
  · simp [hn, Fin.ext_iff, eq_comm]
  · simp only [hn, dite_false, reduceCtorEq, false_iff]
    omega

/-- The numbers from the bound on are refused. -/
theorem ofNat?_eq_none_iff {n : Nat} : ofNat? n = none ↔ 65536 ≤ n := by
  simp [ofNat?]

theorem toList_write (i : Serial) : i.write.toList = Nat.toDigits 10 i.val := by
  simp [write]

/-- Serial numbers are written in digits. -/
theorem isDigit_of_mem_write {i : Serial} {c : Char} (hc : c ∈ i.write.toList) :
    isDigit c = true := by
  rw [toList_write] at hc
  have h := Nat.isDigit_of_mem_toDigits (by decide) (by decide) hc
  simpa [isDigit, Char.isDigit, Char.le_def] using h

/-- A digit is neither blank nor punctuation. -/
theorem isNameChar_of_isDigit {c : Char} (hc : isDigit c = true) : Spelling.isNameChar c = true := by
  obtain ⟨hlow, hhigh⟩ : 48 ≤ c.toNat ∧ c.toNat ≤ 57 := by
    simpa [isDigit, Char.le_def, UInt32.le_iff_toNat_le] using hc
  rw [Spelling.isNameChar_iff]
  refine ⟨?_, ?_, ?_, ?_⟩
  · simp only [Text.isBlank, Text.blankRanges, List.any_cons, List.any_nil, Bool.or_false,
      Bool.or_eq_false_iff, Bool.and_eq_false_imp, decide_eq_true_eq, decide_eq_false_iff_not,
      Nat.not_le]
    omega
  · rintro rfl
    contradiction
  · rintro rfl
    contradiction
  · rintro rfl
    contradiction

/-- The digits of a number are read as that number. -/
theorem read?_write (i : Serial) : read? i.write.toList = some i := by
  have hdigits : i.write.toList.all isDigit = true :=
    List.all_eq_true.mpr fun c hc => isDigit_of_mem_write hc
  have hread : readDigits? i.write.toList = some i := by
    have hne : i.write.toList ≠ [] := by simp [toList_write]
    rw [readDigits?, if_pos ⟨hne, hdigits⟩, toList_write,
      Nat.ofDigitChars_toDigits (by decide) (by decide), ofNat?_val]
  unfold read?
  split
  next cs hplus =>
    -- A plus sign is no digit.
    simp [hplus, isDigit] at hdigits
  next => exact hread

end Serial

/-- Without blanks there is nothing to strip. -/
theorem Text.trim_eq_self {cs : List Char} (hcs : ∀ c ∈ cs, isBlank c = false) :
    trim cs = cs := by
  have hdrop : ∀ ds : List Char, (∀ c ∈ ds, isBlank c = false) → ds.dropWhile isBlank = ds := by
    intro ds hds
    cases ds with
    | nil => rfl
    | cons d ds => simp [hds d]
  have hrev : ∀ c ∈ cs.reverse, isBlank c = false := fun c hc => hcs c (List.mem_reverse.mp hc)
  rw [trim, hdrop cs hcs, hdrop _ hrev, List.reverse_reverse]

namespace Symbol

/-- A symbol is written as one name. -/
theorem isName_write (s : Symbol) : Spelling.IsName s.write.toList := by
  have hdigits : ∀ (i : Serial), ∀ c ∈ i.write.toList, Spelling.isNameChar c = true :=
    fun i c hc => Serial.isNameChar_of_isDigit (Serial.isDigit_of_mem_write hc)
  rw [Spelling.isName_iff]
  cases s with
  | var i => simpa [write] using ⟨by decide, hdigits i⟩
  | op i => simpa [write] using ⟨by decide, hdigits i⟩
  | hole => exact ⟨by decide, List.all_eq_true.mp (by decide)⟩

/-- The numbered spelling of a symbol is read as that symbol. -/
theorem read?_write (s : Symbol) : read? s.write = some s := by
  rw [read?, Text.trim_eq_self fun c hc => (s.isName_write.plain c hc).1]
  cases s with
  | var i => simp [write, Serial.read?_write]
  | op i => simp [write, Serial.read?_write]
  | hole => rfl

end Symbol

/-- The numbered spelling of a term is read as that term. -/
theorem Term.read_write (t : Term) : Term.read t.write = .ok t :=
  Spelling.read_eq_ok_iff.mpr
    (Spelling.spells_write t fun s _ => ⟨s.isName_write, s.read?_write⟩)

end Lemmata
