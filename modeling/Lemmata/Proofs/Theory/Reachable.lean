import Lemmata.Proofs.Lists
import Lemmata.Proofs.Registry
import Lemmata.Proofs.Sequence
import Lemmata.Proofs.Theory.Assertion
import Lemmata.Theory.File

/-!
# Theories and their histories

A theory comes about by operations, one after the other: types and groups of symbols are declared and
assertions are stated. Any of them may be refused; of a group the symbols before a refused one stay,
and a refused statement changes nothing. A history is the list of the operations (`afterAll`), and to
build what a file describes is a history, whether or not it goes through (`exists_build_eq_afterAll`).

A theory is reachable if it comes about by statements and by declarations of any kind, so every
history leads to a reachable one (`Reachable.afterAll`), and so does every file that describes a theory
(`reachable_of_ofFile`). What all reachable theories have in common is that the hole occurs in none of
their assertions, as a statement with a hole is refused (`Reachable.holeFree`).
-/

namespace Lemmata

namespace Theory

variable {T : Theory}

/-! ## Reading statements -/

/-- A text is read as a formula if the signature reads it as this term and the term is without
holes. -/
theorem read_eq_ok_iff {text : String} {t : Term} :
    T.read text = .ok t ↔ T.signature.read text = .ok t ∧ t.HoleFree := by
  rw [Term.holeFree_iff_holeCount, read]
  cases hread : T.signature.read text with
  | error e => simp
  | ok u =>
    by_cases hcount : u.holeCount = 0
    · simp only [hcount, if_true, Except.ok.injEq, iff_self_and]
      intro hu
      rw [← hu, hcount]
    · simp only [hcount, if_false, reduceCtorEq, Except.ok.injEq, false_iff, not_and]
      intro hu
      rwa [← hu]

/-- An assertion is read if its label is new and its parts are read. -/
theorem readAssertion_eq_ok_iff {label : String} {hypotheses : List String} {conclusion : String}
    {a : Assertion} :
    T.readAssertion label hypotheses conclusion = .ok a ↔
      T.assertions.contains label = false ∧ a.label = label ∧
        hypotheses.map T.read = a.hypotheses.map .ok ∧
        T.read conclusion = .ok a.conclusion := by
  obtain ⟨l, hs, c⟩ := a
  rw [readAssertion, ← List.mapM_eq_ok_iff]
  cases htaken : T.assertions.contains label with
  | true => simp
  | false =>
    cases hhyps : hypotheses.mapM T.read with
    | error e => simp [bind, Except.bind]
    | ok ts =>
      cases hconcl : T.read conclusion with
      | error e => simp [bind, Except.bind]
      | ok t => simp [bind, Except.bind, pure, Except.pure, eq_comm]

/-- Every formula of an assertion that was read was read itself. -/
theorem exists_read_of_mem_formulas {label : String} {hypotheses : List String} {conclusion : String}
    {a : Assertion} (h : T.readAssertion label hypotheses conclusion = .ok a) {t : Term}
    (ht : t ∈ a.formulas) : ∃ text, T.read text = .ok t := by
  obtain ⟨-, -, hhyps, hconcl⟩ := readAssertion_eq_ok_iff.mp h
  rcases List.mem_cons.mp ht with rfl | ht
  · exact ⟨conclusion, hconcl⟩
  · have hmem : Except.ok t ∈ hypotheses.map T.read := hhyps ▸ List.mem_map_of_mem ht
    obtain ⟨text, -, hread⟩ := List.mem_map.mp hmem
    exact ⟨text, hread⟩

/-! ## Histories -/

/-- An operation on a theory, with all that it is given. -/
inductive Operation where
  | type (name : String)
  | symbols (role : Role) (names : List String) (type : String)
  | statement (label : String) (hypotheses : List String) (conclusion : String)

/-- The theory after an operation, whether it was accepted or refused. -/
def after (T : Theory) : Operation → Theory
  | .type name => (declareType name T).2
  | .symbols role names type => (declareSymbols role names type T).2
  | .statement label hypotheses conclusion => (state label hypotheses conclusion T).2

/-- The theory after the operations, one after the other. -/
def afterAll (T : Theory) (ops : List Operation) : Theory :=
  ops.foldl after T

/-- A history can be cut anywhere. -/
theorem afterAll_append (T : Theory) (ops more : List Operation) :
    T.afterAll (ops ++ more) = (T.afterAll ops).afterAll more :=
  List.foldl_append

/-! ## Reachable theories -/

/-- The theories that come about by declarations, of any kind, and statements. What a refused one
changed before it was refused stays. -/
inductive Reachable : Theory → Prop
  | empty : Reachable {}
  | declaring {T : Theory} {α : Type} (act : Signature.Declaring α) :
    Reachable T → Reachable (declaring act T).2
  | state {T : Theory} (label : String) (hypotheses : List String) (conclusion : String) :
    Reachable T → Reachable (state label hypotheses conclusion T).2

namespace Reachable

/-- An operation is a declaration or a statement. -/
theorem after (hT : T.Reachable) (op : Operation) : (T.after op).Reachable := by
  cases op with
  | type name => exact .declaring _ hT
  | symbols role names type => exact .declaring _ hT
  | statement label hypotheses conclusion => exact .state label hypotheses conclusion hT

/-- Every history leads from a reachable theory to a reachable theory. -/
theorem afterAll (hT : T.Reachable) (ops : List Operation) : (T.afterAll ops).Reachable := by
  induction ops generalizing T with
  | nil => exact hT
  | cons op ops ih => exact ih (hT.after op)

/-- No assertion of a theory mentions the hole: declarations leave the assertions as they are, and a
statement adds one whose formulas were read as terms without holes. -/
theorem holeFree (hT : T.Reachable) : ∀ a ∈ T.assertions.values, a.HoleFree := by
  induction hT with
  | empty => exact List.forall_mem_nil _
  | declaring act _ ih => exact ih
  | @state T label hypotheses conclusion _ ih =>
    rw [Theory.state]
    cases hread : T.readAssertion label hypotheses conclusion with
    | error e => exact ih
    | ok a =>
      intro b hb
      rw [Registry.values_push, List.mem_append, List.mem_singleton] at hb
      rcases hb with hb | rfl
      · exact ih b hb
      · refine Assertion.holeFree_iff.mpr fun t ht => ?_
        obtain ⟨text, htext⟩ := exists_read_of_mem_formulas hread ht
        exact (read_eq_ok_iff.mp htext).2

end Reachable

/-! ## First of its kind -/

/-- The assertion is the first one of the theory that has the property. -/
def First (T : Theory) (P : Assertion → Prop) (a : Assertion) : Prop :=
  ∃ before after, T.assertions.values = before ++ a :: after ∧ P a ∧ ∀ b ∈ before, ¬ P b

/-- To look for an assertion by a check is to look for the first one with the property checked. -/
theorem find?_eq_some_iff_first {T : Theory} {p : Assertion → Bool} {P : Assertion → Prop}
    (hp : ∀ a, p a ↔ P a) {a : Assertion} :
    T.assertions.values.find? p = some a ↔ T.First P a := by
  rw [List.find?_eq_some_iff_append, First]
  constructor
  · rintro ⟨ha, before, after, heq, hbefore⟩
    refine ⟨before, after, heq, (hp a).mp ha, fun b hb hP => ?_⟩
    have hnot := hbefore b hb
    rw [(hp b).mpr hP] at hnot
    cases hnot
  · rintro ⟨before, after, heq, ha, hbefore⟩
    refine ⟨(hp a).mpr ha, before, after, heq, fun b hb => ?_⟩
    rw [Bool.not_eq_true', Bool.eq_false_iff]
    exact fun h => hbefore b hb ((hp b).mp h)

/-- The first assertion with a property is an assertion of the theory. -/
theorem First.mem {T : Theory} {P : Assertion → Prop} {a : Assertion} (h : T.First P a) :
    a ∈ T.assertions.values := by
  obtain ⟨before, after, heq, -⟩ := h
  simp [heq]

/-- The first assertion with a property has the property. -/
theorem First.holds {T : Theory} {P : Assertion → Prop} {a : Assertion} (h : T.First P a) : P a := by
  obtain ⟨-, -, -, ha, -⟩ := h
  exact ha

/-- If some assertion has a property, then there is a first one that has it. -/
theorem exists_first {T : Theory} (P : Assertion → Prop) {a : Assertion}
    (ha : a ∈ T.assertions.values) (hP : P a) : ∃ b, T.First P b := by
  classical
  have hsome : (T.assertions.values.find? fun b => decide (P b)).isSome :=
    List.find?_isSome.mpr ⟨a, ha, decide_eq_true hP⟩
  obtain ⟨b, hb⟩ := Option.isSome_iff_exists.mp hsome
  exact ⟨b, (find?_eq_some_iff_first fun c => decide_eq_true_iff).mp hb⟩

/-- There is a first assertion with a property exactly if there is one. -/
theorem exists_first_iff {T : Theory} {P : Assertion → Prop} :
    (∃ a, T.First P a) ↔ ∃ a ∈ T.assertions.values, P a :=
  ⟨fun ⟨a, ha⟩ => ⟨a, ha.mem, ha.holds⟩, fun ⟨_, ha, hP⟩ => exists_first P ha hP⟩

/-! ## Theories of files -/

section Building

variable {α β : Type}

/-- Whatever theory the sequence starts from, the theory it leaves has come about by a history. -/
def Building.IsHistory (m : Building α) : Prop :=
  ∀ T : Theory, ∃ ops, (m T).2 = T.afterAll ops

/-- To do nothing is the empty history. -/
theorem Building.IsHistory.pure (a : α) : IsHistory (Pure.pure a) :=
  fun _ => ⟨[], rfl⟩

/-- Histories are put together, and if the first part is refused the history ends with it. -/
theorem Building.IsHistory.bind {m : Building α} {f : α → Building β} (hm : IsHistory m)
    (hf : ∀ a, IsHistory (f a)) : IsHistory (m >>= f) := by
  intro T
  obtain ⟨ops, hops⟩ := hm T
  cases hrun : m T with
  | mk r T' =>
    rw [hrun] at hops
    cases r with
    | error e =>
      rw [Sequence.bind_of_error hrun]
      exact ⟨ops, hops⟩
    | ok a =>
      obtain ⟨more, hmore⟩ := hf a T'
      refine ⟨ops ++ more, ?_⟩
      rw [Sequence.bind_of_ok hrun, hmore, afterAll_append, ← hops]

/-- Every group is an operation. -/
theorem isHistory_declareGroups (role : Role) (gs : List SymbolGroup) :
    Building.IsHistory (declareGroups role gs) := by
  induction gs with
  | nil => exact .pure ()
  | cons g gs ih => exact .bind (fun _ => ⟨[.symbols role g.names g.type], rfl⟩) fun _ => ih

/-- Every statement is an operation. -/
theorem isHistory_stateAll (ss : List Statement) : Building.IsHistory (stateAll ss) := by
  induction ss with
  | nil => exact .pure ()
  | cons s ss ih =>
    exact .bind (fun _ => ⟨[.statement s.label s.hypotheses s.conclusion], rfl⟩) fun _ => ih

/-- To build what a file describes is a history, also if something in the file is refused. -/
theorem exists_build_eq_afterAll (file : TheoryFile) (T : Theory) :
    ∃ ops, (build file T).2 = T.afterAll ops :=
  Building.IsHistory.bind (isHistory_declareGroups .var file.vars) (fun _ =>
    .bind (isHistory_declareGroups .op file.operators) fun _ => isHistory_stateAll file.statements) T

end Building

/-- What is left of building a file is a reachable theory. -/
theorem reachable_build (file : TheoryFile) : (build file {}).2.Reachable := by
  obtain ⟨ops, hops⟩ := exists_build_eq_afterAll file {}
  rw [hops]
  exact Reachable.empty.afterAll ops

/-- The theory that a file describes is reachable. -/
theorem reachable_of_ofFile {file : TheoryFile} {T : Theory} (h : ofFile file = .ok T) :
    T.Reachable := by
  have hbuild := reachable_build file
  rw [ofFile] at h
  split at h
  next T' hrun =>
    cases h
    rw [hrun] at hbuild
    exact hbuild
  · cases h

end Theory

/-! ### A sample

The theory below states the pure rule `x ∈ c, y ∈ c ⊢ f(x, c, y) ∈ c` in canonical form, the pure
rule `x ∈ c ⊢ f(x(c)) ∈ c`, modus ponens, and the implication rule `x ∈ c → g(x) ∈ c`. -/

def sampleFile : TheoryFile where
  vars := [⟨"class", ["x", "y"]⟩, ⟨"wff", ["p", "q"]⟩]
  operators := [⟨"class", ["c", "f", "g"]⟩, ⟨"wff", ["e", "i"]⟩]
  statements := [
    ⟨"plain", ["e(x, c)", "e(y, c)"], "e(f(x, c, y), c)"⟩,
    ⟨"applied", ["e(x, c)"], "e(f(x(c)), c)"⟩,
    ⟨"ponens", ["p", "i(p, q)"], "q"⟩,
    ⟨"implied", [], "i(e(x, c), e(g(x), c))"⟩]

def sampleTheory : Theory :=
  (Theory.build sampleFile {}).2

theorem reachable_sampleTheory : sampleTheory.Reachable :=
  Theory.reachable_build sampleFile

end Lemmata
