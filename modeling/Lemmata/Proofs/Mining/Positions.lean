import Lemmata.Proofs.Closure.Canonical
import Lemmata.Proofs.Closure.Catalog
import Lemmata.Proofs.Equivalence.Catalog

/-!
# Mining by position

Assertions are recognised by patterns. The same can be done with less: numbers of arguments and
hypotheses are checked, and then arguments, hypotheses, variables and marks are read at their
positions. Reading beyond the end of a list breaks the whole run off.

This never happens. Each recogniser by position comes to the answer of the recogniser by patterns
(`answers_ofPure`, `answers_ofImplication` and the equations for the others), for whatever assertion it
is given. The checks are what the positions rest on: two arguments are read after their number was
found to be two, a condition has a variable because each one yields one, and a mark belongs to a
variable that was found among as many.
-/

namespace Lemmata.ByPosition

/-! ## Readings -/

/-- A computation that can skip an assertion and can break off. -/
abbrev Reading (α : Type) : Type :=
  ExceptT Skip Option α

/-- The element at a position, where the reading breaks off if there is none. -/
def item {α : Type} (as : List α) (i : Nat) : Reading α :=
  ExceptT.lift as[i]?

/-- The reading does not break off and comes to the answer. -/
def Answers {α : Type} (m : Reading α) (r : Except Skip α) : Prop :=
  m.run = some r

namespace Answers

variable {α β : Type}

theorem ok (a : α) : Answers (pure a) (.ok a) :=
  rfl

theorem skip (e : Skip) : Answers (throw e : Reading α) (.error e) :=
  rfl

/-- Reading inside the bounds gives the element. -/
theorem item {as : List α} {i : Nat} {a : α} (h : as[i]? = some a) : Answers (item as i) (.ok a) := by
  rw [Answers, ByPosition.item, ExceptT.run_lift, h]
  rfl

/-- If both parts are answered, then so is the sequence. -/
theorem bind {m : Reading α} {r : Except Skip α} {f : α → Reading β} {g : α → Except Skip β}
    (hm : Answers m r) (hf : ∀ a, r = .ok a → Answers (f a) (g a)) :
    Answers (m >>= f) (r >>= g) := by
  rw [Answers, ExceptT.run_bind, hm]
  cases r with
  | error e => rfl
  | ok a => exact hf a rfl

/-- What an element is used for goes through if the element is there. -/
theorem item_bind {as : List α} {i : Nat} {a : α} {f : α → Reading β} {r : Except Skip β}
    (h : as[i]? = some a) (hf : Answers (f a) r) : Answers (ByPosition.item as i >>= f) r :=
  (item h).bind (g := fun _ => r) fun _ hb => by
    cases hb
    exact hf

/-- What is made of an answer is the answer to what is made of it. -/
theorem map {m : Reading α} {r : Except Skip α} (hm : Answers m r) (f : α → β) :
    Answers (do let a ← m; return f a) (r.map f) := by
  have h := hm.bind (g := fun a => .ok (f a)) fun a _ => .ok (f a)
  cases r <;> exact h

end Answers

/-! ## Connectives and equivalences -/

/-- The two arguments of a term, if there are two. -/
def operands (t : Term) : Option (Option (Term × Term)) :=
  if t.arity ≠ 2 then some none
  else do
    let l ← t.args[0]?
    let r ← t.args[1]?
    return some (l, r)

theorem operands_of_two (s : Symbol) (l r : Term) : operands (.app s [l, r]) = some (some (l, r)) :=
  rfl

/-- The operator of which the assertion is the modus ponens. -/
def modusPonens (a : Assertion) : Option (Option Symbol) :=
  match a.hypotheses with
  | [minor, major] => do
    match ← operands major with
    | some (l, r) =>
      return do
        let φ ← minor.bareVar?
        let ψ ← a.conclusion.bareVar?
        if φ ≠ ψ ∧ major.head.isOp ∧ l.bareVar? = some φ ∧ r.bareVar? = some ψ then some major.head
        else none
    | none => return none
  | _ => some none

/-- The check for modus ponens reads by position what the patterns find. -/
theorem modusPonens_eq (a : Assertion) : modusPonens a = some a.modusPonens? := by
  obtain ⟨label, hyps, conclusion⟩ := a
  rcases hyps with _ | ⟨minor, _ | ⟨⟨s, args⟩, rest⟩⟩
  · rfl
  · rfl
  · rcases args with _ | ⟨l, _ | ⟨r, _ | ⟨third, others⟩⟩⟩
    · cases s <;> cases rest <;> rfl
    · cases s <;> cases rest <;> rfl
    · cases rest with
      | nil =>
        cases s <;>
          simp [modusPonens, operands_of_two, Assertion.modusPonens?, Term.head, Symbol.isOp]
      | cons => cases s <;> rfl
    · cases s <;> cases rest <;> rfl

/-- Operator and variables of an operator between two different variables. -/
def betweenVars (t : Term) : Option (Option (Symbol × Serial × Serial)) := do
  match ← operands t with
  | some (l, r) =>
    return if t.head.isOp ∧ t.depth = 2 then do
        let a ← l.head.varId?
        let b ← r.head.varId?
        if a ≠ b then some (t.head, a, b) else none
      else none
  | none => return none

/-- A term with two arguments has depth two if the arguments are leaves. -/
theorem depth_eq_two_iff (s : Symbol) (l r : Term) :
    (Term.app s [l, r]).depth = 2 ↔ l.isLeaf ∧ r.isLeaf := by
  have hleaf : ∀ t : Term, t.isLeaf ↔ t.depth = 1 := by
    intro t
    obtain ⟨h, _ | ⟨u, us⟩⟩ := t
    · exact iff_of_true rfl rfl
    · refine iff_of_false nofun fun h => ?_
      have hpos := u.depth_pos
      rw [Term.depth, Term.maxDepth] at h
      omega
  have hl := l.depth_pos
  have hr := r.depth_pos
  rw [hleaf, hleaf, Term.depth, Term.maxDepth, Term.maxDepth, Term.maxDepth]
  omega

/-- A relation between variables is found by position as by pattern. -/
theorem betweenVars_eq (t : Term) : betweenVars t = some t.betweenVars? := by
  obtain ⟨s, args⟩ := t
  rcases args with _ | ⟨l, _ | ⟨r, _ | ⟨third, rest⟩⟩⟩
  · cases s <;> rfl
  · cases s <;> rfl
  · rw [betweenVars, operands_of_two]
    change some _ = _
    have hdepth := depth_eq_two_iff s l r
    cases s with
    | op f =>
      by_cases hleaves : l.isLeaf ∧ r.isLeaf
      · rw [if_pos ⟨rfl, hdepth.mpr hleaves⟩, Term.betweenVars?, Term.bareVar?, Term.bareVar?,
          if_pos hleaves.1, if_pos hleaves.2]
        rfl
      · rw [if_neg fun h => hleaves (hdepth.mp h.2), Term.betweenVars?, Term.bareVar?, Term.bareVar?]
        by_cases hl : l.isLeaf
        · rw [if_neg fun hr => hleaves ⟨hl, hr⟩]
          simp
        · rw [if_neg hl]
          rfl
    | var i => rfl
    | hole => rfl
  · cases s <;> rfl

/-- The relation that the assertion turns around. -/
def commutes (a : Assertion) : Option (Except Skip Symbol) :=
  match a.hypotheses with
  | [h] =>
    if a.mandatoryVars.length ≠ 2 then some (.error .notEquivalenceLemma)
    else do
      match ← betweenVars h, ← betweenVars a.conclusion with
      | some (r, x, y), some s =>
        return if s = (r, y, x) then .ok r else .error .notEquivalenceLemma
      | _, _ => return .error .notEquivalenceLemma
  | _ => some (.error .notEquivalenceLemma)

/-- The relation that the assertion chains. -/
def chains (a : Assertion) : Option (Except Skip Symbol) :=
  match a.hypotheses with
  | [h, h'] =>
    if a.mandatoryVars.length ≠ 3 then some (.error .notEquivalenceLemma)
    else do
      match ← betweenVars h, ← betweenVars h', ← betweenVars a.conclusion with
      | some (r, x, y), some (s, y', z), some t =>
        return if s = r ∧ y' = y ∧ t = (r, x, z) then .ok r else .error .notEquivalenceLemma
      | _, _, _ => return .error .notEquivalenceLemma
  | _ => some (.error .notEquivalenceLemma)

/-- The variables of a relation between two variables are these two. -/
theorem var_mem_symbols_binary {f v x y : Serial} :
    .var v ∈ (Term.binary (.op f) (.leaf (.var x)) (.leaf (.var y))).symbols ↔ v = x ∨ v = y := by
  simp [Term.binary]

/-- The mandatory variables are as many as different variables that are the same. -/
theorem length_mandatoryVars {a : Assertion} {vs : List Serial} (hvs : vs.Nodup)
    (h : ∀ v, (.var v ∈ a.conclusion.symbols ∨ ∃ t ∈ a.hypotheses, .var v ∈ t.symbols) ↔ v ∈ vs) :
    a.mandatoryVars.length = vs.length := by
  refine ((List.perm_ext_iff_of_nodup a.nodup_mandatoryVars hvs).mpr fun v => ?_).length_eq
  rw [Assertion.mem_mandatoryVars, h]

/-- A lemma that turns a relation around has two variables. -/
theorem length_mandatoryVars_of_commutes {a : Assertion} {r : Symbol} (h : a.commutes = .ok r) :
    a.mandatoryVars.length = 2 := by
  obtain ⟨⟨f, rfl⟩, x, y, hne, hhyps, hconcl⟩ := Assertion.commutes_eq_ok_iff.mp h
  have hvs : [x, y].Nodup := by simpa using hne
  refine length_mandatoryVars hvs fun v => ?_
  simp only [hhyps, hconcl, var_mem_symbols_binary, List.mem_cons, List.not_mem_nil, or_false,
    exists_eq_left]
  grind

/-- A lemma that chains a relation has three variables. -/
theorem length_mandatoryVars_of_chains {a : Assertion} {r : Symbol} (h : a.chains = .ok r) :
    a.mandatoryVars.length = 3 := by
  obtain ⟨⟨f, rfl⟩, x, y, z, hvs, hhyps, hconcl⟩ := Assertion.chains_eq_ok_iff.mp h
  refine length_mandatoryVars hvs fun v => ?_
  simp only [hhyps, hconcl, var_mem_symbols_binary, List.mem_cons, List.not_mem_nil, or_false,
    exists_eq_or_imp, exists_eq_left]
  grind

/-- There is only one reason for not turning a relation around. -/
theorem commutes_eq_error {a : Assertion} (h : ∀ r, a.commutes ≠ .ok r) :
    a.commutes = .error .notEquivalenceLemma := by
  cases hc : a.commutes with
  | ok r => exact absurd hc (h r)
  | error e =>
    rw [Assertion.commutes] at hc
    split at hc
    · split at hc
      · cases hc
      · rw [← hc]
    · rw [← hc]

/-- There is only one reason for not chaining a relation. -/
theorem chains_eq_error {a : Assertion} (h : ∀ r, a.chains ≠ .ok r) :
    a.chains = .error .notEquivalenceLemma := by
  cases hc : a.chains with
  | ok r => exact absurd hc (h r)
  | error e =>
    rw [Assertion.chains] at hc
    split at hc
    · split at hc
      · cases hc
      · rw [← hc]
    · rw [← hc]

/-- Counting variables first makes no difference to which lemmas turn a relation around. -/
theorem commutes_eq (a : Assertion) : commutes a = some a.commutes := by
  rw [commutes]
  split
  next h hhyps =>
    split
    next hlen => rw [commutes_eq_error fun r hr => hlen (length_mandatoryVars_of_commutes hr)]
    next =>
      rw [Assertion.commutes, hhyps, betweenVars_eq, betweenVars_eq, List.map_cons,
        List.map_nil]
      cases h.betweenVars? <;> cases a.conclusion.betweenVars? <;> rfl
  next hhyps =>
    rw [commutes_eq_error fun r hr => ?_]
    obtain ⟨-, x, y, -, heq, -⟩ := Assertion.commutes_eq_ok_iff.mp hr
    exact hhyps _ heq

/-- Counting variables first makes no difference to which lemmas chain a relation. -/
theorem chains_eq (a : Assertion) : chains a = some a.chains := by
  rw [chains]
  split
  next h h' hhyps =>
    split
    next hlen => rw [chains_eq_error fun r hr => hlen (length_mandatoryVars_of_chains hr)]
    next =>
      rw [Assertion.chains, hhyps, betweenVars_eq, betweenVars_eq, betweenVars_eq, List.map_cons,
        List.map_cons, List.map_nil]
      cases h.betweenVars? <;> cases h'.betweenVars? <;> cases a.conclusion.betweenVars? <;> rfl
  next hhyps =>
    rw [chains_eq_error fun r hr => ?_]
    obtain ⟨-, x, y, z, -, heq, -⟩ := Assertion.chains_eq_ok_iff.mp hr
    exact hhyps _ _ heq

/-! ## Closure rules -/

/-- Checks the conditions at the positions against their variables. -/
def checkConditions (p : Template) (ts : List Term) (vs : List Serial) : List Nat → Reading Unit
  | [] => pure ()
  | i :: is => do
    let t ← item ts i
    match p.capture? t with
    | none => throw (.inconsistentHypothesis i)
    | some u => do
      let v ← item vs i
      if u.head = .var v then checkConditions p ts vs is else throw (.inconsistentHypothesis i)

/-- Goes through the arguments. A variable is looked for only while there are conditions that are not
used, and a condition is used only if it is not marked; then it is marked. -/
def readArguments (vars : List Serial) :
    (i : Nat) → (used : List Nat) → (marks : List Bool) → (slots : Slots) → List Term →
      Reading (List Nat × Slots)
  | _, used, _, slots, [] => pure (used, slots)
  | i, used, marks, slots, t :: ts =>
    match t.head.varId? with
    | some v =>
      if vars.length ≤ used.length then throw (.unmatchedVariable i)
      else
        match vars.idxOf? v with
        | none => throw (.unmatchedVariable i)
        | some k => do
          let marked ← item marks k
          if marked then throw (.unmatchedVariable i)
          else readArguments vars (i + 1) (used ++ [k]) (marks.set k true) (slots ++ [none]) ts
    | none =>
      if t.isConstant then readArguments vars (i + 1) used marks (slots ++ [some t]) ts
      else throw (.nestedVariable i)

/-- The marks of the conditions that are used. -/
def marksOf (n : Nat) (used : List Nat) : List Bool :=
  (List.range n).map fun k => decide (k ∈ used)

/-- The operator and the slots of the application that a conclusion is about. -/
def readConclusion (p : Template) (vars : List Serial) (conclusion : Term) :
    Reading (Symbol × Slots) :=
  match p.capture? conclusion with
  | none => throw .conclusionMismatch
  | some t =>
    if ¬ t.head.isOp ∨ t.isLeaf then throw .conclusionMismatch
    else do
      let (used, slots) ← readArguments vars 0 [] (List.replicate vars.length false) [] t.args
      if used.length ≠ vars.length then throw .unusedHypothesis
      if used ≠ List.range vars.length then throw .incorrectOrder
      return (t.head, slots)

/-- The schema that is stated by a conclusion under conditions, of which there must be one. -/
def readSchema (conditions : List Term) (conclusion : Term) : Reading Schema :=
  match conditions.mapM Term.soleVar? with
  | none => throw .hypothesisVariables
  | some vars => do
    let t ← item conditions 0
    let v ← item vars 0
    match Template.abstracting? t v with
    | none => throw .noTemplate
    | some p => do
      checkConditions p conditions vars (List.range' 1 (conditions.length - 1))
      let (f, slots) ← readConclusion p vars conclusion
      return ⟨f, slots, p⟩

/-- Recognises a pure closure rule. -/
def ofPure (a : Assertion) : Reading ClosureRule :=
  let h := a.hypotheses.length
  let v := a.mandatoryVars.length
  if h = 0 then throw .noHypotheses
  else if h ≠ v then throw (.hypothesisCount h v)
  else do
    let s ← readSchema a.hypotheses a.conclusion
    return ⟨.pure, s, a⟩

/-- Recognises an implication closure rule. -/
def ofImplication (isImplication : Symbol → Bool) (conjuncts : Term → List Term) (a : Assertion) :
    Reading ClosureRule :=
  if a.hypotheses ≠ [] then throw .hasHypotheses
  else if a.conclusion.depth ≠ ClosureRule.implicationDepth then throw (.depth a.conclusion.depth)
  else if ¬ isImplication a.conclusion.head ∨ a.conclusion.arity ≠ 2 then throw .notImplication
  else do
    let antecedent ← item a.conclusion.args 0
    if (conjuncts antecedent).isEmpty then throw .noHypotheses
    else do
      let consequent ← item a.conclusion.args 1
      let s ← readSchema (conjuncts antecedent) consequent
      return ⟨.implication, s, a⟩

/-- The conditions are checked by their positions as they are one after the other. -/
theorem answers_checkConditions (p : Template) {ts : List Term} {vs : List Serial}
    (hlen : ts.length = vs.length) {i n : Nat} (hn : i + n = ts.length) :
    Answers (checkConditions p ts vs (List.range' i n))
      (ClosureRule.checkConditions p i (ts.drop i) (vs.drop i)) := by
  induction n generalizing i with
  | zero =>
    have hend : ts.length ≤ i := Nat.le_of_eq hn.symm
    rw [List.drop_of_length_le hend]
    exact .ok ()
  | succ n ih =>
    have hi : i < ts.length := by omega
    have hi' : i < vs.length := by omega
    rw [List.range'_succ, checkConditions, List.drop_eq_getElem_cons hi,
      List.drop_eq_getElem_cons hi', ClosureRule.checkConditions]
    refine .item_bind (List.getElem?_eq_getElem hi) ?_
    cases hcapture : p.capture? ts[i] with
    | none => exact .skip _
    | some u =>
      refine .item_bind (List.getElem?_eq_getElem hi') ?_
      by_cases hvar : u.head = .var vs[i]
      · rw [if_pos hvar, Option.map_some, if_pos (congrArg some hvar)]
        exact ih (by omega)
      · rw [if_neg hvar, Option.map_some, if_neg fun h => hvar (Option.some.inj h)]
        exact .skip _

/-- A mark is set exactly if its place is used. -/
theorem getElem?_marksOf {n k : Nat} (hk : k < n) (used : List Nat) :
    (marksOf n used)[k]? = some (decide (k ∈ used)) := by
  simp [marksOf, hk]

theorem marksOf_nil (n : Nat) : marksOf n [] = List.replicate n false := by
  simp [marksOf]

/-- To use a place sets its mark. -/
theorem set_marksOf (n k : Nat) (used : List Nat) :
    (marksOf n used).set k true = marksOf n (used ++ [k]) := by
  refine List.ext_getElem (by simp [marksOf]) fun i _ _ => ?_
  by_cases hik : i = k
  · simp [marksOf, hik]
  · simp [marksOf, List.getElem_set_ne (Ne.symm hik), hik]

/-- Marks are set as conditions are used, and slots are collected. -/
theorem answers_readArguments (vars : List Serial) (i : Nat) {used : List Nat} (slots : Slots)
    (ts : List Term) (hnodup : used.Nodup) (hlt : ∀ k ∈ used, k < vars.length) :
    Answers (readArguments vars i used (marksOf vars.length used) slots ts)
      ((ClosureRule.readArguments vars i used ts).map fun o => (o.1, slots ++ o.2)) := by
  induction ts generalizing i used slots with
  | nil =>
    rw [readArguments, ClosureRule.readArguments, Except.map, List.append_nil]
    exact .ok _
  | cons t ts ih =>
    -- A slot is put at the end of those before it, or at the beginning of those after it.
    have hslot : ∀ (slot : Option Term) (r : Except Skip (List Nat × Slots)),
        ((do let o ← r; return (o.1, slot :: o.2)) : Except Skip _).map
            (fun o => (o.1, slots ++ o.2)) =
          r.map fun o => (o.1, (slots ++ [slot]) ++ o.2) := by
      intro slot r
      cases r with
      | error e => rfl
      | ok o => simp [bind, Except.bind, pure, Except.pure, Except.map]
    rw [readArguments, ClosureRule.readArguments]
    cases t.head.varId? with
    | none =>
      by_cases hconst : t.isConstant
      · rw [if_pos hconst, if_pos hconst]
        exact hslot (some t) _ ▸ ih (i + 1) (slots ++ [some t]) hnodup hlt
      · rw [if_neg hconst, if_neg hconst]
        exact .skip _
    | some v =>
      dsimp only
      cases hidx : vars.idxOf? v with
      | none =>
        by_cases hfull : vars.length ≤ used.length
        · rw [if_pos hfull]
          exact .skip _
        · rw [if_neg hfull]
          exact .skip _
      | some k =>
        have hk : k < vars.length := (List.idxOf?_eq_some_iff.mp hidx).1
        by_cases hfull : vars.length ≤ used.length
        · have hused := List.mem_of_nodup_of_length_le hnodup hlt hfull hk
          rw [if_pos hfull]
          dsimp only
          rw [if_pos hused]
          exact .skip _
        · rw [if_neg hfull]
          refine .item_bind (getElem?_marksOf hk used) ?_
          by_cases hused : k ∈ used
          · rw [if_pos (decide_eq_true hused)]
            dsimp only
            rw [if_pos hused]
            exact .skip _
          · rw [if_neg (by simpa using hused), set_marksOf]
            dsimp only
            rw [if_neg hused]
            have hnodup' : (used ++ [k]).Nodup :=
              List.nodup_append.mpr ⟨hnodup, List.nodup_singleton k, by grind⟩
            have hlt' : ∀ l ∈ used ++ [k], l < vars.length := by grind
            exact hslot none _ ▸ ih (i + 1) (slots ++ [none]) hnodup' hlt'

/-- At first no condition is used. -/
theorem answers_readArguments_all (vars : List Serial) (ts : List Term) :
    Answers (readArguments vars 0 [] (List.replicate vars.length false) [] ts)
      (ClosureRule.readArguments vars 0 [] ts) := by
  have h := answers_readArguments vars 0 [] ts List.nodup_nil (List.forall_mem_nil _)
  rw [marksOf_nil] at h
  cases hr : ClosureRule.readArguments vars 0 [] ts <;> rw [hr] at h <;> exact h

/-- The conclusion is read by position as by pattern. -/
theorem answers_readConclusion (p : Template) (vars : List Serial) (conclusion : Term) :
    Answers (readConclusion p vars conclusion) (ClosureRule.readConclusion p vars conclusion) := by
  rw [readConclusion, ClosureRule.readConclusion]
  cases p.capture? conclusion with
  | none => exact .skip _
  | some t =>
    obtain ⟨s, _ | ⟨u, us⟩⟩ := t
    · cases s <;> exact .skip _
    · cases s with
      | var i => exact .skip _
      | hole => exact .skip _
      | op f =>
        dsimp only
        rw [if_neg (by simp [Term.head, Term.isLeaf, Term.args, Symbol.isOp])]
        refine (answers_readArguments_all vars (u :: us)).bind fun o _ => ?_
        by_cases hlen : o.1.length ≠ vars.length
        · rw [if_pos hlen, if_pos hlen]
          exact .skip _
        · rw [if_neg hlen, if_neg hlen]
          by_cases horder : o.1 ≠ List.range vars.length
          · rw [if_pos horder, if_pos horder]
            exact .skip _
          · rw [if_neg horder, if_neg horder]
            exact .ok _

/-- Conditions that are not empty are read by position as by pattern. -/
theorem answers_readSchema {conditions : List Term} (hne : conditions ≠ []) (conclusion : Term) :
    Answers (readSchema conditions conclusion) (ClosureRule.readSchema conditions conclusion) := by
  obtain ⟨t, ts, rfl⟩ := List.exists_cons_of_ne_nil hne
  simp only [readSchema, ClosureRule.readSchema]
  cases hvars : (t :: ts).mapM Term.soleVar? with
  | none => exact .skip _
  | some vars =>
    -- There is a variable for each condition.
    have hlen : (t :: ts).length = vars.length := by
      simpa using congrArg List.length (List.mapM_eq_some_iff.mp hvars)
    cases vars with
    | nil => cases hlen
    | cons v vs =>
      refine .item_bind rfl (.item_bind rfl ?_)
      dsimp only
      cases Template.abstracting? t v with
      | none => exact .skip _
      | some p =>
        refine (answers_checkConditions p hlen (Nat.add_comm 1 ts.length)).bind fun _ _ => ?_
        exact (answers_readConclusion p (v :: vs) conclusion).bind fun o _ => .ok _

/-- Recognising a pure rule reads nothing outside the bounds. -/
theorem answers_ofPure (a : Assertion) : Answers (ofPure a) (ClosureRule.ofPure a) := by
  rw [ofPure, ClosureRule.ofPure]
  split
  · exact .skip _
  next hnil =>
    split
    · exact .skip _
    · have hne : a.hypotheses ≠ [] := fun h => hnil (h ▸ rfl)
      exact (answers_readSchema hne a.conclusion).map _

/-- Recognising an implication rule reads nothing outside the bounds. -/
theorem answers_ofImplication (isImplication : Symbol → Bool) (conjuncts : Term → List Term)
    (a : Assertion) :
    Answers (ofImplication isImplication conjuncts a)
      (ClosureRule.ofImplication isImplication conjuncts a) := by
  obtain ⟨label, hyps, conclusion⟩ := a
  rw [ofImplication, ClosureRule.ofImplication]
  split
  · exact .skip _
  · split
    · exact .skip _
    · obtain ⟨s, _ | ⟨p, _ | ⟨q, _ | ⟨third, rest⟩⟩⟩⟩ := conclusion
      · rw [if_pos (.inr (by simp [Term.arity, Term.args]))]
        exact .skip _
      · rw [if_pos (.inr (by simp [Term.arity, Term.args]))]
        exact .skip _
      · by_cases himp : isImplication s
        · rw [if_neg (by simp [Term.head, Term.arity, Term.args, himp])]
          dsimp only
          rw [if_pos himp]
          refine .item_bind rfl ?_
          by_cases hempty : (conjuncts p).isEmpty
          · rw [if_pos hempty, List.isEmpty_iff.mp hempty]
            exact .skip _
          · rw [if_neg hempty]
            refine .item_bind rfl ?_
            exact (answers_readSchema (by simpa using hempty) q).map _
        · rw [if_pos (.inl himp)]
          dsimp only
          rw [if_neg himp]
          exact .skip _
      · rw [if_pos (.inr (by simp [Term.arity, Term.args]))]
        exact .skip _

end Lemmata.ByPosition
