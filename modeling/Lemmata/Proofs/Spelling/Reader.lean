import Lemmata.Proofs.Spelling.Token
import Lemmata.Spelling.Reader

/-!
# The grammar of written terms

A term is spelled as a name that stands for its root and, exactly if it has arguments, their
spellings between parentheses with single commas between them. The grammar is stated once, for any
way to write tokens (`Phrase`): with tokens written as characters and blanks it says which texts
spell a term (`Spells`), and with tokens standing for themselves it says which sequences of tokens
do.

The reader accepts exactly the sequences of tokens that spell a term. What it has read so far is
always the beginning of a spelling, with the open applications on its stack (`Reading.Begun`), so
that what it accepts in the end is a spelling; and over the tokens of a spelling it goes from any
place where a term may begin to the place behind that term (`Phrase.run`). Scanning carries this
over from tokens to texts (`read_eq_ok_iff`).
-/

namespace Lemmata.Spelling

/-! ## The grammar -/

mutual

/-- The spellings of a term, where `Lex` says how a token is written. -/
inductive Phrase {α : Type} (Lex : Token → List α → Prop) (resolve : String → Option Symbol) :
    Term → List α → Prop
  | leaf {n : String} {s : Symbol} {cs : List α} :
    resolve n = some s → Lex (.name n) cs → Phrase Lex resolve (.leaf s) cs
  | app {n : String} {s : Symbol} {ts : List Term} {ns os cs es : List α} :
    resolve n = some s → Lex (.name n) ns → Lex .opening os → Phrases Lex resolve ts cs →
      Lex .closing es → Phrase Lex resolve (.app s ts) (ns ++ os ++ cs ++ es)

/-- The spellings of one or more terms with commas between them. -/
inductive Phrases {α : Type} (Lex : Token → List α → Prop) (resolve : String → Option Symbol) :
    List Term → List α → Prop
  | last {t : Term} {cs : List α} : Phrase Lex resolve t cs → Phrases Lex resolve [t] cs
  | cons {t : Term} {ts : List Term} {cs ms ds : List α} :
    Phrase Lex resolve t cs → Lex .comma ms → Phrases Lex resolve ts ds →
      Phrases Lex resolve (t :: ts) (cs ++ ms ++ ds)

end

/-- The text spells the term. A name in it is as long as it can be, since only a blank, punctuation
or nothing at all may follow. -/
def Spells (resolve : String → Option Symbol) (t : Term) (cs : List Char) : Prop :=
  Phrase Written resolve t cs

/-- Among tokens, a token stands for itself. -/
def Single (t : Token) (us : List Token) : Prop :=
  us = [t]

variable {resolve : String → Option Symbol}

mutual

/-- Every symbol of a spelled term is what some name stands for. -/
theorem Phrase.resolved {α : Type} {Lex : Token → List α → Prop} : {t : Term} → {cs : List α} →
    Phrase Lex resolve t cs → ∀ s ∈ t.symbols, ∃ n, resolve n = some s
  | _, _, @Phrase.leaf _ _ _ n s _ hn _, s', hs' => by
    rw [Term.leaf, Term.symbols, Term.symbolsList, List.mem_singleton] at hs'
    exact ⟨n, hs' ▸ hn⟩
  | _, _, @Phrase.app _ _ _ n s ts _ _ _ _ hn _ _ hargs _, s', hs' => by
    rw [Term.symbols, List.mem_cons] at hs'
    rcases hs' with hs' | hs'
    · exact ⟨n, hs' ▸ hn⟩
    · exact hargs.resolved s' hs'

theorem Phrases.resolved {α : Type} {Lex : Token → List α → Prop} : {ts : List Term} →
    {cs : List α} → Phrases Lex resolve ts cs →
      ∀ s ∈ Term.symbolsList ts, ∃ n, resolve n = some s
  | _, _, .last ht, s, hs => by
    rw [Term.symbolsList, Term.symbolsList, List.append_nil] at hs
    exact ht.resolved s hs
  | _, _, .cons ht _ hts, s, hs => by
    rw [Term.symbolsList, List.mem_append] at hs
    exact hs.elim (ht.resolved s) (hts.resolved s)

end

/-! ## From texts to tokens and back -/

mutual

/-- A written phrase is scanned to the tokens of the phrase. -/
theorem Phrase.scan : {t : Term} → {cs : List Char} → Phrase Written resolve t cs →
    Phrase Single resolve t (scan [] cs)
  | _, _, .leaf hn hname => by
    rw [scan_of_written_name hname]
    exact .leaf hn rfl
  | _, _, @Phrase.app _ _ _ n _ _ ns os cs es hn hname hopen hargs hclose => by
    have hcut : Spelling.scan [] (ns ++ os ++ cs ++ es) =
        [.name n] ++ [.opening] ++ Spelling.scan [] cs ++ [.closing] := by
      have hend := scan_around hclose nofun (ns ++ os ++ cs) []
      rw [List.append_nil] at hend
      rw [hend, scan_around hopen nofun, scan_of_written_name hname]
      simp [Spelling.scan, nameOf]
    rw [hcut]
    exact .app hn rfl rfl hargs.scan rfl

theorem Phrases.scan : {ts : List Term} → {cs : List Char} → Phrases Written resolve ts cs →
    Phrases Single resolve ts (scan [] cs)
  | _, _, .last ht => .last ht.scan
  | _, _, .cons ht hcomma hts => by
    rw [scan_around hcomma nofun, List.append_cons]
    exact .cons ht.scan rfl hts.scan

end

mutual

/-- A phrase of tokens is a written phrase of every text that has these tokens. -/
theorem Phrase.of_lexed : {t : Term} → {us : List Token} → {cs : List Char} →
    Phrase Single resolve t us → Lexed us cs → Phrase Written resolve t cs
  | _, _, _, .leaf hn rfl, hcs => .leaf hn hcs.written
  | _, _, _, .app hn rfl rfl hargs rfl, hcs => by
    obtain ⟨cs, es, rfl, hcs, hes⟩ := hcs.exists_append
    obtain ⟨cs, as, rfl, hcs, has⟩ := hcs.exists_append
    obtain ⟨ns, os, rfl, hns, hos⟩ := hcs.exists_append
    exact .app hn hns.written hos.written (hargs.of_lexed has) hes.written

theorem Phrases.of_lexed : {ts : List Term} → {us : List Token} → {cs : List Char} →
    Phrases Single resolve ts us → Lexed us cs → Phrases Written resolve ts cs
  | _, _, _, .last ht, hcs => .last (ht.of_lexed hcs)
  | _, _, _, .cons ht rfl hts, hcs => by
    obtain ⟨cs, ds, rfl, hcs, hds⟩ := hcs.exists_append
    obtain ⟨cs, ms, rfl, hcs, hms⟩ := hcs.exists_append
    exact .cons (ht.of_lexed hcs) hms.written (hts.of_lexed hds)

end

/-- A text spells what its tokens spell. -/
theorem spells_iff {t : Term} {text : String} :
    Spells resolve t text.toList ↔ Phrase Single resolve t (tokens text) :=
  ⟨fun h => h.scan, fun h => h.of_lexed (lexed_scan [] text.toList (List.forall_mem_nil _))⟩

/-! ## Reading the tokens of a spelling -/

namespace Reading

/-- Reads tokens one after the other. -/
def run (resolve : String → Option Symbol) (r : Reading) (us : List Token) :
    Except ReadError Reading :=
  us.foldlM (step resolve) r

/-- A token that is accepted leads on from the state after it. -/
theorem run_cons_of_ok {r r' : Reading} {u : Token} (h : step resolve r u = .ok r')
    (us : List Token) : run resolve r (u :: us) = run resolve r' us := by
  rw [run, List.foldlM_cons, h]
  rfl

/-- What is accepted in part leads on from the state after this part. -/
theorem run_append_of_ok {r r' : Reading} {us : List Token} (h : run resolve r us = .ok r')
    (vs : List Token) : run resolve r (us ++ vs) = run resolve r' vs := by
  rw [run] at h
  rw [run, List.foldlM_append, h]
  rfl

/-- At the start of a term any declared name is accepted. -/
theorem step_start_name {n : String} {s : Symbol} (hn : resolve n = some s) (fs : List Frame) :
    step resolve ⟨fs, .start⟩ (.name n) = .ok ⟨fs, .named n s⟩ := by
  simp [step, hn]

/-- The reading is behind a whole term, inside of the open applications. -/
inductive Holds (fs : List Frame) : Term → Reading → Prop
  | named (n : String) (s : Symbol) : Holds fs (.leaf s) ⟨fs, .named n s⟩
  | complete (t : Term) : Holds fs t ⟨fs, .complete t⟩

variable {fs : List Frame} {t : Term} {r : Reading}

/-- After a complete term every token but an opening bracket closes it. -/
theorem Holds.step_eq_close (h : Holds fs t r) {u : Token} (hu : u ≠ .opening) :
    step resolve r u = close t fs u := by
  cases h with
  | named n s =>
    cases u with
    | opening => exact absurd rfl hu
    | closing => rfl
    | comma => rfl
    | name m => rfl
  | complete t => cases u <;> rfl

/-- With no brackets open a complete term is the answer. -/
theorem Holds.finish_eq_ok (h : Holds [] t r) : r.finish = .ok t := by
  cases h <;> rfl

end Reading

open Lemmata.Spelling.Reading

mutual

/-- Over the tokens of a spelling the reader goes to the place behind the term. -/
theorem Phrase.run : {t : Term} → {us : List Token} → Phrase Single resolve t us →
    ∀ fs : List Frame, ∃ r, Reading.run resolve ⟨fs, .start⟩ us = .ok r ∧ Holds fs t r
  | _, _, @Phrase.leaf _ _ _ n s _ hn rfl, fs => by
    refine ⟨⟨fs, .named n s⟩, ?_, .named n s⟩
    rw [run_cons_of_ok (step_start_name hn fs)]
    rfl
  | _, _, @Phrase.app _ _ _ n s ts _ _ _ _ hn rfl rfl hargs rfl, fs => by
    refine ⟨⟨fs, .complete (.app s ts)⟩, ?_, .complete _⟩
    have hname := step_start_name hn fs
    have hopen : step resolve ⟨fs, .named n s⟩ .opening = .ok ⟨⟨n, s, []⟩ :: fs, .start⟩ := rfl
    have hrest := hargs.run ⟨n, s, []⟩ fs
    rw [List.append_assoc, List.append_assoc]
    exact (run_cons_of_ok hname _).trans ((run_cons_of_ok hopen _).trans hrest)

/-- Over the tokens of the rest of its arguments and the closing parenthesis the reader completes an
application. -/
theorem Phrases.run : {ts : List Term} → {us : List Token} → Phrases Single resolve ts us →
    ∀ (f : Frame) (fs : List Frame),
      Reading.run resolve ⟨f :: fs, .start⟩ (us ++ [.closing]) =
        .ok ⟨fs, .complete (.app f.symbol (f.args.reverse ++ ts))⟩
  | _, _, @Phrases.last _ _ _ t _ ht, f, fs => by
    obtain ⟨r, hrun, hr⟩ := ht.run (f :: fs)
    have hclose : step resolve r .closing =
        .ok ⟨fs, .complete (.app f.symbol (t :: f.args).reverse)⟩ :=
      hr.step_eq_close nofun
    rw [run_append_of_ok hrun, run_cons_of_ok hclose, List.reverse_cons]
    rfl
  | _, _, @Phrases.cons _ _ _ t _ _ _ _ ht rfl hts, f, fs => by
    obtain ⟨r, hrun, hr⟩ := ht.run (f :: fs)
    have hcomma : step resolve r .comma = .ok ⟨{ f with args := t :: f.args } :: fs, .start⟩ :=
      hr.step_eq_close nofun
    have hrest := hts.run { f with args := t :: f.args } fs
    rw [List.append_assoc, List.append_assoc, run_append_of_ok hrun]
    refine (run_cons_of_ok hcomma _).trans (hrest.trans ?_)
    simp

end

/-! ## What has been read -/

/-- The tokens of the arguments that an open application has so far, the last one first, each with
the comma behind it. -/
inductive Collected (resolve : String → Option Symbol) : List Term → List Token → Prop
  | nil : Collected resolve [] []
  | cons {t : Term} {ts : List Term} {us vs : List Token} :
    Collected resolve ts us → Phrase Single resolve t vs →
      Collected resolve (t :: ts) (us ++ vs ++ [.comma])

/-- With more arguments behind them, the collected arguments make a full list of arguments. -/
theorem Collected.phrases {args : List Term} {us : List Token} (h : Collected resolve args us) :
    ∀ {ts : List Term} {vs : List Token}, Phrases Single resolve ts vs →
      Phrases Single resolve (args.reverse ++ ts) (us ++ vs) := by
  induction h with
  | nil => exact fun hts => hts
  | cons _ ht ih =>
    intro ts vs hts
    have hmore := ih (.cons ht rfl hts)
    simpa using hmore

/-- The tokens of the open applications, innermost last. -/
inductive Opened (resolve : String → Option Symbol) : List Frame → List Token → Prop
  | nil : Opened resolve [] []
  | cons {f : Frame} {fs : List Frame} {us vs : List Token} :
    Opened resolve fs us → resolve f.name = some f.symbol → Collected resolve f.args vs →
      Opened resolve (f :: fs) (us ++ .name f.name :: .opening :: vs)

/-- The tokens are those that lead to the reading. -/
inductive Reading.Begun (resolve : String → Option Symbol) : Reading → List Token → Prop
  | start {fs : List Frame} {us : List Token} : Opened resolve fs us → Begun resolve ⟨fs, .start⟩ us
  | named {fs : List Frame} {us : List Token} {n : String} {s : Symbol} :
    Opened resolve fs us → resolve n = some s →
      Begun resolve ⟨fs, .named n s⟩ (us ++ [.name n])
  | complete {fs : List Frame} {us vs : List Token} {t : Term} :
    Opened resolve fs us → Phrase Single resolve t vs →
      Begun resolve ⟨fs, .complete t⟩ (us ++ vs)

/-- A term and the token behind it continue what has been read. -/
theorem Opened.close {fs : List Frame} {us vs : List Token} {t : Term} {u : Token} {r : Reading}
    (hfs : Opened resolve fs us) (ht : Phrase Single resolve t vs)
    (h : Reading.close t fs u = .ok r) : r.Begun resolve (us ++ vs ++ [u]) := by
  cases hfs with
  | nil => cases h
  | @cons f fs us ws hfs hf hargs =>
    cases u with
    | name m => cases h
    | opening => cases h
    | comma =>
      cases h
      have hmore : Opened resolve ({ f with args := t :: f.args } :: fs)
          (us ++ .name f.name :: .opening :: (ws ++ vs ++ [.comma])) :=
        .cons hfs hf (hargs.cons ht)
      simpa using Begun.start hmore
    | closing =>
      cases h
      have happ : Phrase Single resolve (.app f.symbol (t :: f.args).reverse)
          ([.name f.name] ++ [.opening] ++ (ws ++ vs) ++ [.closing]) := by
        rw [List.reverse_cons]
        exact .app hf rfl rfl (hargs.phrases (.last ht)) rfl
      simpa using Begun.complete hfs happ

/-- One more token continues what has been read. -/
theorem Reading.Begun.step {r r' : Reading} {us : List Token} {u : Token}
    (hr : r.Begun resolve us) (h : step resolve r u = .ok r') : r'.Begun resolve (us ++ [u]) := by
  cases hr with
  | start hfs =>
    cases u with
    | name n =>
      cases hn : resolve n with
      | none => simp [Reading.step, hn] at h
      | some s =>
        simp only [Reading.step, hn] at h
        cases h
        exact .named hfs hn
    | opening => cases h
    | closing => cases h
    | comma => cases h
  | @named fs us n s hfs hn =>
    cases u with
    | opening =>
      cases h
      have hmore : Opened resolve (⟨n, s, []⟩ :: fs) (us ++ [.name n, .opening]) :=
        .cons hfs hn .nil
      simpa using Begun.start hmore
    -- Any other token ends the name, which is then a term without arguments.
    | name m => exact hfs.close (.leaf hn rfl) h
    | closing => exact hfs.close (.leaf hn rfl) h
    | comma => exact hfs.close (.leaf hn rfl) h
  | complete hfs ht => cases u <;> exact hfs.close ht h

/-- Over a whole run, what has been read is the beginning of a spelling. -/
theorem Reading.Begun.run {r r' : Reading} {us : List Token} (hr : r.Begun resolve us)
    {vs : List Token} (h : Reading.run resolve r vs = .ok r') : r'.Begun resolve (us ++ vs) := by
  induction vs generalizing r us with
  | nil =>
    cases h
    rwa [List.append_nil]
  | cons v vs ih =>
    cases hv : Reading.step resolve r v with
    | error e =>
      rw [Reading.run, List.foldlM_cons, hv] at h
      cases h
    | ok r₁ =>
      rw [run_cons_of_ok hv] at h
      have hmore := ih (hr.step hv) h
      rwa [List.append_assoc] at hmore

/-- What is read at the end is a phrase of all tokens. -/
theorem Reading.Begun.finish {r : Reading} {us : List Token} {t : Term}
    (hr : r.Begun resolve us) (h : r.finish = .ok t) : Phrase Single resolve t us := by
  cases hr with
  | start _ => cases h
  | named hfs hn =>
    cases hfs with
    | nil =>
      cases h
      exact .leaf hn rfl
    | cons => cases h
  | complete hfs ht =>
    cases hfs with
    | nil =>
      cases h
      exact ht
    | cons => cases h

/-! ## The reader -/

/-- The tokens are read as a term exactly if they are a phrase of it. -/
theorem readTokens_eq_ok_iff {us : List Token} {t : Term} :
    readTokens resolve us = .ok t ↔ Phrase Single resolve t us := by
  constructor
  · intro h
    rw [readTokens] at h
    cases hrun : us.foldlM (Reading.step resolve) {} with
    | error e =>
      rw [hrun] at h
      cases h
    | ok r =>
      rw [hrun] at h
      have hbegun : Begun resolve {} [] := .start .nil
      exact (hbegun.run hrun).finish h
  · intro h
    obtain ⟨r, hrun, hr⟩ := h.run []
    rw [Reading.run] at hrun
    rw [readTokens, hrun]
    exact hr.finish_eq_ok

/-- A text is read as the term that it spells. -/
theorem read_eq_ok_iff {text : String} {t : Term} :
    read resolve text = .ok t ↔ Spells resolve t text.toList := by
  rw [read, readTokens_eq_ok_iff, spells_iff]

/-- A fault among the tokens stays one, whatever may come behind them. -/
theorem readTokens_append_of_error {us : List Token} {e : ReadError}
    (h : Reading.run resolve {} us = .error e) (vs : List Token) :
    readTokens resolve (us ++ vs) = .error e := by
  rw [Reading.run] at h
  rw [readTokens, List.foldlM_append, h]
  rfl

/-- The reader accepts exactly the texts that spell a term, and reads each as the term that it
spells. All other texts it refuses. It does so by the tokens of the text alone: either it reads them
all and the place where it then is decides, or it stops at a fault among them that nothing behind
them could mend. -/
theorem read_accepts_exactly_spelled (resolve : String → Option Symbol) (text : String) :
    (∀ t, read resolve text = .ok t ↔ Spells resolve t text.toList) ∧
      ((∃ e, read resolve text = .error e) ↔ ∀ t, ¬ Spells resolve t text.toList) ∧
      ((∃ r, Reading.run resolve {} (tokens text) = .ok r ∧ read resolve text = r.finish) ∨
        ∀ us, readTokens resolve (tokens text ++ us) = read resolve text) := by
  refine ⟨fun t => read_eq_ok_iff, ?_, ?_⟩
  · simp only [← read_eq_ok_iff]
    cases read resolve text with
    | error e => simp
    | ok t => simp
  · cases hrun : Reading.run resolve {} (tokens text) with
    | error e =>
      right
      intro us
      have hnone := readTokens_append_of_error hrun []
      rw [List.append_nil] at hnone
      rw [readTokens_append_of_error hrun, read, hnone]
    | ok r =>
      left
      rw [Reading.run] at hrun
      exact ⟨r, rfl, by rw [read, readTokens, hrun]; rfl⟩

/-- Blanks are free, and every other deviation from the grammar is a fault. -/
example :
    ["f ( x ,\tf )", "", "f()", "f(x,,x)", "f(x x)", "f(x", "f(x))", "f(x) x", "f(y)"].map (fun text =>
        read (fun n => if n = "f" then some (.op 0) else if n = "x" then some (.var 0) else none) text) =
      [.ok (.binary (.op 0) (.leaf (.var 0)) (.leaf (.op 0))), .error .endOfText,
        .error (.notAName .closing), .error (.notAName .comma), .error (.unclosed "f"),
        .error (.unclosed "f"), .error .trailing, .error .trailing, .error (.unknownName "y")] := by
  rfl

end Lemmata.Spelling
