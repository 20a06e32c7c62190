import ImpToC.Proofs.Parsing.Words

/-!
# The tree that a pass builds

Reading the words of a program builds that program, up to locations and numbers.
-/

namespace ImpToC.Parser

open Grammar

theorem complete_of_settled {reach : Reach} {frames : List Frame} (h : Settled reach frames)
    (n : Nat) (value : Expr) : complete reach n frames value = (n, frames, value) := by
  cases frames with
  | nil => rfl
  | cons frame frames => simp [complete, h frame rfl]

/-- Nothing is complete in front of an operator of the level of an expression that
fits. -/
theorem Fits.settled_product {frames : List Frame} (h : Fits .product frames) :
    Settled .product frames := by
  cases frames with
  | nil => simp [Settled]
  | cons frame frames =>
      cases frame with
      | product => exact False.elim h
      | _ => simp [Settled, Frame.completeAt]

theorem Fits.settled_sum {frames : List Frame} (h : Fits .sum frames) : Settled .sum frames := by
  cases frames with
  | nil => simp [Settled]
  | cons frame frames =>
      cases frame with
      | product | sum => exact False.elim h
      | _ => simp [Settled, Frame.completeAt]

theorem Fits.product_of_sum {frames : List Frame} (h : Fits .sum frames) :
    Fits .product frames := by
  cases frames with
  | nil => trivial
  | cons frame frames => cases frame <;> trivial

theorem count_group_of_complete {reach : Reach} {n n' : Nat} {frames frames' : List Frame}
    {value value' : Expr} (h : complete reach n frames value = (n', frames', value')) :
    frames'.count .group = frames.count .group := by
  induction frames generalizing n value with
  | nil =>
      cases h
      rfl
  | cons frame frames ih =>
      rw [complete] at h
      split at h
      next hcomplete =>
        have hframe : frame ≠ .group := by
          rintro rfl
          cases hcomplete
        rw [ih h, List.count_cons_of_ne hframe]
      next =>
        cases h
        rfl

theorem exists_of_map_lexeme_eq_cons {tokens : List Token} {word : Lexeme} {words : List Lexeme}
    (h : tokens.map Token.lexeme = word :: words) :
    ∃ location rest, tokens = ⟨word, location⟩ :: rest ∧ rest.map Token.lexeme = words := by
  obtain ⟨t, rest, rfl, rfl, hrest⟩ := List.map_eq_cons_iff.mp h
  exact ⟨t.location, rest, rfl, hrest⟩

/-- A word is an atom with any mark. -/
theorem exists_atom_of_mark {e : Expr} {word : Lexeme} (h : Expr.Atom e word) (mark : Mark) :
    ∃ e', Expr.Atom e' word ∧ e'.mark = mark ∧ e'.bare = e.bare := by
  cases h with
  | name _ text => exact ⟨_, .name mark text, rfl, rfl⟩
  | int _ hvalue => exact ⟨_, .int mark hvalue, rfl, rfl⟩
  | float _ hvalue => exact ⟨_, .float mark hvalue, rfl, rfl⟩
  | string _ text => exact ⟨_, .string mark text, rfl, rfl⟩

/-- Reading the words of an expression in front of some frames leads behind an
operand. What is complete there in front of a token that can follow these words is
the expression, once all that its own words have opened is complete. -/
theorem exists_moves_of_written {level : Level} {ends : Bool} {e : Expr} {words : List Lexeme}
    (h : Expr.Written level ends e words) {tokens : List Token}
    (htokens : tokens.map Token.lexeme = words) {s : State} {purpose : Purpose}
    {frames : List Frame} (hphase : s.phase = .operand purpose frames)
    (hfits : Fits level frames) :
    ∃ nextId frames' value n' e',
      Moves s tokens { s with phase := .operator purpose frames' value, nextId := nextId } ∧
      e'.bare = e.bare ∧
      ∀ reach, (ends = true → reach = .closer) → (level = .sum → reach ≠ .product) →
        complete reach nextId frames' value = complete reach n' frames e' := by
  induction h generalizing tokens s frames with
  | @atom e word hatom =>
      obtain ⟨t, rfl, rfl⟩ := List.map_eq_singleton_iff.mp htokens
      obtain ⟨e', hatom', hmark, hbare⟩ := exists_atom_of_mark hatom ⟨s.nextId, t.location⟩
      exact ⟨s.nextId + 1, frames, e', s.nextId + 1, e',
        .single (.atom t.location hphase hatom' hmark), hbare, fun _ _ _ => rfl⟩
  | group _ ih =>
      obtain ⟨first, tail, rfl, hfirst, htail⟩ := List.map_eq_append_iff.mp htokens
      obtain ⟨t, inner, rfl, ht, hinner⟩ := List.map_eq_cons_iff.mp hfirst
      obtain ⟨t', rfl, ht'⟩ := List.map_eq_singleton_iff.mp htail
      have hopen : Move s t { s with phase := .operand purpose (.group :: frames) } := by
        cases t
        cases ht
        exact .group _ hphase
      obtain ⟨nextId, frames', value, n', e', hmoves, hbare, hcomplete⟩ :=
        ih hinner (s := { s with phase := .operand purpose (.group :: frames) }) rfl trivial
      have hclose : Move { s with phase := .operator purpose frames' value, nextId := nextId } t'
          { s with phase := .operator purpose frames e', nextId := n' } := by
        cases t'
        cases ht'
        exact .groupEnd _ rfl (hcomplete .closer (fun _ => rfl) (by simp))
      exact ⟨n', frames, e', n', e', (Moves.cons hopen hmoves).append (.single hclose), hbare,
        fun _ _ _ => rfl⟩
  | negate mark _ ih =>
      obtain ⟨t, inner, rfl, ht, hinner⟩ := List.map_eq_cons_iff.mp htokens
      have hopen :
          Move s t { s with phase := .operand purpose (.negate t.location :: frames) } := by
        cases t
        cases ht
        exact .negate _ hphase
      obtain ⟨nextId, frames', value, n', e', hmoves, hbare, hcomplete⟩ :=
        ih hinner (s := { s with phase := .operand purpose (.negate t.location :: frames) }) rfl
          trivial
      refine ⟨nextId, frames', value, n' + 1, .negate ⟨n', t.location⟩ e', .cons hopen hmoves,
        by simp [Expr.bare, hbare], fun reach hreach _ => ?_⟩
      -- Words that end in a negation are followed by a closer, and that completes it.
      obtain rfl := hreach rfl
      exact hcomplete .closer (fun _ => rfl) (by simp)
  | factor _ ih =>
      obtain ⟨nextId, frames', value, n', e', hmoves, hbare, hcomplete⟩ :=
        ih htokens hphase (fits_factor frames)
      exact ⟨nextId, frames', value, n', e', hmoves, hbare,
        fun reach hends _ => hcomplete reach hends (by simp)⟩
  | @times mark op ends left right first rest hop _ _ ihleft ihright =>
      obtain ⟨leftTokens, tail, rfl, hleft, htail⟩ := List.map_eq_append_iff.mp htokens
      obtain ⟨t, rightTokens, rfl, ht, hright⟩ := List.map_eq_cons_iff.mp htail
      obtain ⟨n₁, frames₁, value₁, m, left', hleftMoves, hleftBare, hleftComplete⟩ :=
        ihleft hleft hphase hfits
      -- The left words are complete in front of the operator, and nothing around them is.
      have hdone : complete .product n₁ frames₁ value₁ = (m, frames, left') := by
        rw [hleftComplete .product (by simp) (by simp), complete_of_settled hfits.settled_product]
      have hsign : Move { s with phase := .operator purpose frames₁ value₁, nextId := n₁ } t
          { s with phase := .operand purpose (.product op left' :: frames), nextId := m } := by
        cases t
        cases ht
        exact .times _ rfl hop hdone
      obtain ⟨n₂, frames₂, value₂, m', right', hrightMoves, hrightBare, hrightComplete⟩ :=
        ihright hright
          (s := { s with phase := .operand purpose (.product op left' :: frames), nextId := m })
          rfl (fits_factor _)
      exact ⟨n₂, frames₂, value₂, m' + 1, .binary ⟨m', left'.location⟩ op left' right',
        hleftMoves.append (.cons hsign hrightMoves), by simp [Expr.bare, hleftBare, hrightBare],
        fun reach hends _ => hrightComplete reach hends (by simp)⟩
  | product _ ih =>
      obtain ⟨nextId, frames', value, n', e', hmoves, hbare, hcomplete⟩ :=
        ih htokens hphase hfits.product_of_sum
      exact ⟨nextId, frames', value, n', e', hmoves, hbare,
        fun reach hends _ => hcomplete reach hends (by simp)⟩
  | @plus mark op ends left right first rest hop _ _ ihleft ihright =>
      obtain ⟨leftTokens, tail, rfl, hleft, htail⟩ := List.map_eq_append_iff.mp htokens
      obtain ⟨t, rightTokens, rfl, ht, hright⟩ := List.map_eq_cons_iff.mp htail
      obtain ⟨n₁, frames₁, value₁, m, left', hleftMoves, hleftBare, hleftComplete⟩ :=
        ihleft hleft hphase hfits
      have hdone : complete .sum n₁ frames₁ value₁ = (m, frames, left') := by
        rw [hleftComplete .sum (by simp) (by simp), complete_of_settled hfits.settled_sum]
      have hsign : Move { s with phase := .operator purpose frames₁ value₁, nextId := n₁ } t
          { s with phase := .operand purpose (.sum op left' :: frames), nextId := m } := by
        cases t
        cases ht
        exact .plus _ rfl hop hdone
      obtain ⟨n₂, frames₂, value₂, m', right', hrightMoves, hrightBare, hrightComplete⟩ :=
        ihright hright
          (s := { s with phase := .operand purpose (.sum op left' :: frames), nextId := m })
          rfl trivial
      refine ⟨n₂, frames₂, value₂, m' + 1, .binary ⟨m', left'.location⟩ op left' right',
        hleftMoves.append (.cons hsign hrightMoves), by simp [Expr.bare, hleftBare, hrightBare],
        fun reach hends hreach => ?_⟩
      rw [hrightComplete reach hends (by simp)]
      simp [complete, Frame.completeAt, hreach rfl, Frame.apply]

/-- Reading an expression and the word that closes it. -/
theorem exists_moves_of_expr {ends : Bool} {e : Expr} {words : List Lexeme}
    (h : Expr.Written .sum ends e words) {tokens : List Token}
    (htokens : tokens.map Token.lexeme = words) {s : State} {purpose : Purpose}
    (hphase : s.phase = .operand purpose []) :
    ∃ nextId frames value n' e',
      Moves s tokens { s with phase := .operator purpose frames value, nextId := nextId } ∧
      complete .closer nextId frames value = (n', [], e') ∧ e'.bare = e.bare := by
  obtain ⟨nextId, frames, value, n', e', hmoves, hbare, hcomplete⟩ :=
    exists_moves_of_written h htokens hphase trivial
  exact ⟨nextId, frames, value, n', e', hmoves, hcomplete .closer (fun _ => rfl) (by simp), hbare⟩

/-! ## Statements -/

/-- Read between two statements, wherever that is, some words add statements to the block
at hand, up to locations and numbers. -/
def Builds (statements : List Stmt) (words : List Lexeme) : Prop :=
  ∀ tokens : List Token, tokens.map Token.lexeme = words → ∀ s : State, s.phase = .fresh →
    ∃ statements' nextId,
      Moves s tokens { s with before := statements'.reverse ++ s.before, nextId := nextId } ∧
      Stmt.bareAll statements' = Stmt.bareAll statements

namespace Builds

theorem nil : Builds [] [] := by
  intro tokens htokens s _
  obtain rfl := List.map_eq_nil_iff.mp htokens
  exact ⟨[], s.nextId, .nil s, rfl⟩

theorem append {first second : List Stmt} {words words' : List Lexeme} (h : Builds first words)
    (h' : Builds second words') : Builds (first ++ second) (words ++ words') := by
  intro tokens htokens s hphase
  obtain ⟨front, back, rfl, hfront, hback⟩ := List.map_eq_append_iff.mp htokens
  obtain ⟨first', n, hmoves, hbare⟩ := h front hfront s hphase
  obtain ⟨second', n', hmoves', hbare'⟩ :=
    h' back hback { s with before := first'.reverse ++ s.before, nextId := n } hphase
  refine ⟨first' ++ second', n', ?_, ?_⟩
  · simpa using hmoves.append hmoves'
  · rw [Stmt.bareAll_append, Stmt.bareAll_append, hbare, hbare']

/-- One statement, which the last of some words adds. -/
theorem single {statement : Stmt} {words : List Lexeme}
    (h : ∀ tokens : List Token, tokens.map Token.lexeme = words → ∀ s : State,
      s.phase = .fresh → ∃ statement' nextId,
        Moves s tokens (s.push nextId statement') ∧ statement'.bare = statement.bare) :
    Builds [statement] words := by
  intro tokens htokens s hphase
  obtain ⟨statement', nextId, hmoves, hbare⟩ := h tokens htokens s hphase
  refine ⟨[statement'], nextId, ?_, by simp [Stmt.bareAll, hbare]⟩
  simpa [State.push, hphase] using hmoves

theorem read (location : Location) (name : String) :
    Builds [.read location name] [.symbol .readWord, .name name, .symbol .semicolon] := by
  refine .single fun tokens htokens s hphase => ?_
  obtain ⟨l₁, tokens₁, rfl, h₁⟩ := exists_of_map_lexeme_eq_cons htokens
  obtain ⟨l₂, tokens₂, rfl, h₂⟩ := exists_of_map_lexeme_eq_cons h₁
  obtain ⟨l₃, tokens₃, rfl, h₃⟩ := exists_of_map_lexeme_eq_cons h₂
  obtain rfl := List.map_eq_nil_iff.mp h₃
  exact ⟨.read l₁ name, s.nextId, .cons (.read l₁ hphase)
    (.cons (.readName name l₂ rfl) (.single (.readEnd l₃ rfl))), rfl⟩

theorem print (location : Location) {ends : Bool} {value : Expr} {words : List Lexeme}
    (hvalue : Expr.Written .sum ends value words) :
    Builds [.print location value] (.symbol .printWord :: words ++ [.symbol .semicolon]) := by
  refine .single fun tokens htokens s hphase => ?_
  obtain ⟨l₁, tokens₁, rfl, h₁⟩ := exists_of_map_lexeme_eq_cons htokens
  obtain ⟨valueTokens, tokens₂, rfl, hvalueTokens, h₂⟩ := List.map_eq_append_iff.mp h₁
  obtain ⟨l₂, tokens₃, rfl, h₃⟩ := exists_of_map_lexeme_eq_cons h₂
  obtain rfl := List.map_eq_nil_iff.mp h₃
  obtain ⟨n, frames, operand, n', value', hmoves, hcomplete, hbare⟩ :=
    exists_moves_of_expr hvalue hvalueTokens
      (s := { s with phase := .operand (.print l₁) [] }) rfl
  refine ⟨.print l₁ value', n', .cons (.print l₁ hphase) (hmoves.append ?_),
    by simp [Stmt.bare, hbare]⟩
  exact .single (.printEnd l₂ rfl hcomplete)

theorem assign (location : Location) (target : String) {ends : Bool} {value : Expr}
    {words : List Lexeme} (hvalue : Expr.Written .sum ends value words) :
    Builds [.assign location target value]
      (.name target :: .symbol .equals :: words ++ [.symbol .semicolon]) := by
  refine .single fun tokens htokens s hphase => ?_
  obtain ⟨l₁, tokens₁, rfl, h₁⟩ := exists_of_map_lexeme_eq_cons htokens
  obtain ⟨l₂, tokens₂, rfl, h₂⟩ := exists_of_map_lexeme_eq_cons h₁
  obtain ⟨valueTokens, tokens₃, rfl, hvalueTokens, h₃⟩ := List.map_eq_append_iff.mp h₂
  obtain ⟨l₃, tokens₄, rfl, h₄⟩ := exists_of_map_lexeme_eq_cons h₃
  obtain rfl := List.map_eq_nil_iff.mp h₄
  obtain ⟨n, frames, operand, n', value', hmoves, hcomplete, hbare⟩ :=
    exists_moves_of_expr hvalue hvalueTokens
      (s := { s with phase := .operand (.assign l₁ target) [] }) rfl
  refine ⟨.assign l₁ target value', n',
    .cons (.target target l₁ hphase) (.cons (.equals l₂ rfl) (hmoves.append ?_)),
    by simp [Stmt.bare, hbare]⟩
  exact .single (.assignEnd l₃ rfl hcomplete)

theorem branch (location : Location) {ends : Bool} {condition : Expr} {words : List Lexeme}
    {yes : List Stmt} {yesWords : List Lexeme}
    (hcondition : Expr.Written .sum ends condition words) (hyes : Builds yes yesWords) :
    Builds [.branch location condition yes []]
      (.symbol .ifWord :: words ++ .symbol .thenWord :: yesWords ++ [.symbol .endWord]) := by
  refine .single fun tokens htokens s hphase => ?_
  obtain ⟨l₁, tokens₁, rfl, h₁⟩ := exists_of_map_lexeme_eq_cons htokens
  obtain ⟨front, tokens₂, rfl, hfront, h₂⟩ := List.map_eq_append_iff.mp h₁
  obtain ⟨conditionTokens, tokens₃, rfl, hconditionTokens, h₃⟩ :=
    List.map_eq_append_iff.mp hfront
  obtain ⟨l₂, yesTokens, rfl, hyesTokens⟩ := exists_of_map_lexeme_eq_cons h₃
  obtain ⟨l₃, tokens₄, rfl, h₄⟩ := exists_of_map_lexeme_eq_cons h₂
  obtain rfl := List.map_eq_nil_iff.mp h₄
  obtain ⟨n, frames, operand, n', condition', hmoves, hcomplete, hbare⟩ :=
    exists_moves_of_expr hcondition hconditionTokens
      (s := { s with phase := .operand (.branch l₁) [] }) rfl
  obtain ⟨yes', n'', hyesMoves, hyesBare⟩ :=
    hyes yesTokens hyesTokens (s.enter n' (.yes l₁ condition' s.before)) rfl
  refine ⟨.branch l₁ condition' yes' [], n'', ?_, by simp [Stmt.bare, hbare, hyesBare]⟩
  refine .cons (.branch l₁ hphase) ((hmoves.append
    (.cons (.thenWord l₂ rfl hcomplete) hyesMoves)).append (.cons (.yesEnd l₃ rfl rfl) ?_))
  simpa [State.push, State.leave, State.enter] using Moves.nil _

theorem choice (location : Location) {ends : Bool} {condition : Expr} {words : List Lexeme}
    {yes no : List Stmt} {yesWords noWords : List Lexeme}
    (hcondition : Expr.Written .sum ends condition words) (hyes : Builds yes yesWords)
    (hno : Builds no noWords) :
    Builds [.branch location condition yes no]
      (.symbol .ifWord :: words ++ .symbol .thenWord :: yesWords ++
        .symbol .elseWord :: noWords ++ [.symbol .endWord]) := by
  refine .single fun tokens htokens s hphase => ?_
  obtain ⟨l₁, tokens₁, rfl, h₁⟩ := exists_of_map_lexeme_eq_cons htokens
  obtain ⟨front, tokens₂, rfl, hfront, h₂⟩ := List.map_eq_append_iff.mp h₁
  obtain ⟨front', tokens₃, rfl, hfront', h₃⟩ := List.map_eq_append_iff.mp hfront
  obtain ⟨conditionTokens, tokens₄, rfl, hconditionTokens, h₄⟩ :=
    List.map_eq_append_iff.mp hfront'
  obtain ⟨l₂, yesTokens, rfl, hyesTokens⟩ := exists_of_map_lexeme_eq_cons h₄
  obtain ⟨l₃, noTokens, rfl, hnoTokens⟩ := exists_of_map_lexeme_eq_cons h₃
  obtain ⟨l₄, tokens₅, rfl, h₅⟩ := exists_of_map_lexeme_eq_cons h₂
  obtain rfl := List.map_eq_nil_iff.mp h₅
  obtain ⟨n, frames, operand, n', condition', hmoves, hcomplete, hbare⟩ :=
    exists_moves_of_expr hcondition hconditionTokens
      (s := { s with phase := .operand (.branch l₁) [] }) rfl
  obtain ⟨yes', n₁, hyesMoves, hyesBare⟩ :=
    hyes yesTokens hyesTokens (s.enter n' (.yes l₁ condition' s.before)) rfl
  obtain ⟨no', n₂, hnoMoves, hnoBare⟩ :=
    hno noTokens hnoTokens (s.enter n₁ (.no l₁ condition' yes' s.before)) rfl
  refine ⟨.branch l₁ condition' yes' no', n₂, ?_, by simp [Stmt.bare, hbare, hyesBare, hnoBare]⟩
  have hotherwise : Move
      { s.enter n₁ (.yes l₁ condition' s.before) with before := yes'.reverse ++ [] }
      ⟨.symbol .elseWord, l₃⟩ (s.enter n₁ (.no l₁ condition' yes' s.before)) := by
    simpa [State.enter] using Move.otherwise
      (s := { s.enter n₁ (.yes l₁ condition' s.before) with before := yes'.reverse }) l₃ rfl rfl
  refine .cons (.branch l₁ hphase) (((hmoves.append
    (.cons (.thenWord l₂ rfl hcomplete) hyesMoves)).append (.cons hotherwise hnoMoves)).append
      (.cons (.noEnd l₄ rfl rfl) ?_))
  simpa [State.push, State.leave, State.enter] using Moves.nil _

theorem loop (location : Location) {ends : Bool} {condition : Expr} {words : List Lexeme}
    {body : List Stmt} {bodyWords : List Lexeme}
    (hcondition : Expr.Written .sum ends condition words) (hbody : Builds body bodyWords) :
    Builds [.loop location condition body]
      (.symbol .whileWord :: words ++ .symbol .doWord :: bodyWords ++ [.symbol .doneWord]) := by
  refine .single fun tokens htokens s hphase => ?_
  obtain ⟨l₁, tokens₁, rfl, h₁⟩ := exists_of_map_lexeme_eq_cons htokens
  obtain ⟨front, tokens₂, rfl, hfront, h₂⟩ := List.map_eq_append_iff.mp h₁
  obtain ⟨conditionTokens, tokens₃, rfl, hconditionTokens, h₃⟩ :=
    List.map_eq_append_iff.mp hfront
  obtain ⟨l₂, bodyTokens, rfl, hbodyTokens⟩ := exists_of_map_lexeme_eq_cons h₃
  obtain ⟨l₃, tokens₄, rfl, h₄⟩ := exists_of_map_lexeme_eq_cons h₂
  obtain rfl := List.map_eq_nil_iff.mp h₄
  obtain ⟨n, frames, operand, n', condition', hmoves, hcomplete, hbare⟩ :=
    exists_moves_of_expr hcondition hconditionTokens
      (s := { s with phase := .operand (.loop l₁) [] }) rfl
  obtain ⟨body', n'', hbodyMoves, hbodyBare⟩ :=
    hbody bodyTokens hbodyTokens (s.enter n' (.body l₁ condition' s.before)) rfl
  refine ⟨.loop l₁ condition' body', n'', ?_, by simp [Stmt.bare, hbare, hbodyBare]⟩
  refine .cons (.loop l₁ hphase) ((hmoves.append
    (.cons (.doWord l₂ rfl hcomplete) hbodyMoves)).append (.cons (.bodyEnd l₃ rfl rfl) ?_))
  simpa [State.push, State.leave, State.enter] using Moves.nil _

/-- The words of some statements build them. -/
theorem of_written {statements : List Stmt} {words : List Lexeme}
    (h : Stmt.Written statements words) : Builds statements words := by
  induction h with
  | nil => exact .nil
  | read location name _ ih => exact (Builds.read location name).append ih
  | print location hvalue _ ih => simpa using (Builds.print location hvalue).append ih
  | assign location target hvalue _ ih =>
      simpa using (Builds.assign location target hvalue).append ih
  | branch location hcondition _ _ ihyes ih =>
      simpa using (Builds.branch location hcondition ihyes).append ih
  | choice location hcondition _ _ _ ihyes ihno ih =>
      simpa using (Builds.choice location hcondition ihyes ihno).append ih
  | loop location hcondition _ _ ihbody ih =>
      simpa using (Builds.loop location hcondition ihbody).append ih

end Builds

/-- Reading the words of some declarations adds them to the others. -/
theorem exists_moves_of_declarations (declarations : List Declaration) {tokens : List Token}
    (htokens : tokens.map Token.lexeme = declarations.flatMap Declaration.words) {s : State}
    (hphase : s.phase = .fresh) (hblocks : s.blocks = []) (hbefore : s.before = []) :
    ∃ declarations' : List Declaration,
      Moves s tokens { s with declarations := declarations'.reverse ++ s.declarations } ∧
      declarations'.map Declaration.bare = declarations.map Declaration.bare := by
  induction declarations generalizing tokens s with
  | nil =>
      obtain rfl := List.map_eq_nil_iff.mp htokens
      exact ⟨[], .nil s, rfl⟩
  | cons d rest ih =>
      rw [List.flatMap_cons] at htokens
      obtain ⟨l₁, tokens₁, rfl, h₁⟩ := exists_of_map_lexeme_eq_cons htokens
      obtain ⟨l₂, tokens₂, rfl, h₂⟩ := exists_of_map_lexeme_eq_cons h₁
      obtain ⟨l₃, tokens₃, rfl, h₃⟩ := exists_of_map_lexeme_eq_cons h₂
      obtain ⟨l₄, tokens₄, rfl, h₄⟩ := exists_of_map_lexeme_eq_cons h₃
      obtain ⟨l₅, tokens₅, rfl, h₅⟩ := exists_of_map_lexeme_eq_cons h₄
      obtain ⟨rest', hrest, hrestBare⟩ :=
        ih h₅ (s := { s with declarations := ⟨l₁, d.name, d.type⟩ :: s.declarations })
          hphase hblocks hbefore
      refine ⟨⟨l₁, d.name, d.type⟩ :: rest', ?_, by simp [Declaration.bare, hrestBare]⟩
      refine .cons (.declare l₁ hphase hblocks hbefore) (.cons (.declaredName d.name l₂ rfl)
        (.cons (.colon l₃ rfl) (.cons (.declaredType d.type l₄ rfl) (.cons (.declared l₅ rfl) ?_))))
      simpa [hphase] using hrest

/-- Reading the words of a program comes to that program, up to locations and numbers. -/
theorem exists_moves_of_written_program {tokens : List Token} {p : Program}
    (h : p.Written (tokens.map Token.lexeme)) :
    ∃ m, Moves .start tokens m ∧ m.phase = .fresh ∧ m.blocks = [] ∧
      Program.bare ⟨m.declarations.reverse, m.before.reverse⟩ = p.bare := by
  obtain ⟨after, hstatements, hwords⟩ := h
  obtain ⟨first, second, rfl, hfirst, hsecond⟩ := List.map_eq_append_iff.mp hwords
  obtain ⟨declarations, hmoves, hdeclarationsBare⟩ :=
    exists_moves_of_declarations p.declarations hfirst (s := .start) rfl rfl rfl
  obtain ⟨statements, n, hmoves', hstatementsBare⟩ :=
    Builds.of_written hstatements second hsecond
      { State.start with declarations := declarations.reverse } rfl
  simp only [State.start, List.append_nil] at hmoves hmoves'
  refine ⟨_, hmoves.append hmoves', rfl, rfl, ?_⟩
  simp [Program.bare, hdeclarationsBare, hstatementsBare]

/-- Every program that a sentence has the words of is what a pass over it comes to, up to locations
and numbers. -/
theorem exists_pass_of_written {s : Sentence} {p : Program}
    (h : p.Written (s.words.map Token.lexeme)) : ∃ q, pass s = .ok q ∧ q.bare = p.bare := by
  obtain ⟨m, hmoves, hphase, hblocks, hbare⟩ := exists_moves_of_written_program h
  exact ⟨_, pass_eq_ok_iff.mpr ⟨m, hmoves, finish_eq_ok_iff.mpr ⟨hphase, hblocks, rfl⟩⟩, hbare⟩

end ImpToC.Parser
