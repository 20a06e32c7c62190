import ImpToC.Proofs.Parsing.Moves

/-!
# What a pass has read

The words that were read so far are the words of what stands on the stacks of a
state: of the declarations, of the open blocks and the statements in them, and of
the expression at hand. Every move keeps this up, so the program at the end of a
sentence is written by the words of the sentence.
-/

namespace ImpToC.Parser

open Grammar

/-- An expression of a level can be the operand of the innermost frame. -/
def Fits : Level → List Frame → Prop
  | .product, .product .. :: _ | .sum, .product .. :: _ | .sum, .sum .. :: _ => False
  | _, _ => True

theorem fits_factor (frames : List Frame) : Fits .factor frames := by
  cases frames <;> trivial

/-- The words to the left of an operand. -/
inductive Pending : List Frame → List Lexeme → Prop
  | nil : Pending [] []
  | group {frames : List Frame} {words : List Lexeme} :
      Pending frames words → Pending (.group :: frames) (words ++ [.symbol .openParen])
  | negate (location : Location) {frames : List Frame} {words : List Lexeme} :
      Pending frames words → Pending (.negate location :: frames) (words ++ [.symbol .minus])
  | sum {frames : List Frame} {words leftWords : List Lexeme} {op : BinOp} {left : Expr} :
      Pending frames words → Fits .sum frames → op.level = .sum →
      Expr.Written .sum false left leftWords →
      Pending (.sum op left :: frames) (words ++ leftWords ++ [.symbol op.symbol])
  | product {frames : List Frame} {words leftWords : List Lexeme} {op : BinOp} {left : Expr} :
      Pending frames words → Fits .product frames → op.level = .product →
      Expr.Written .product false left leftWords →
      Pending (.product op left :: frames) (words ++ leftWords ++ [.symbol op.symbol])

/-- The level of an expression that is complete in front of a token. -/
def Reach.level : Reach → Level
  | .product => .product
  | .sum | .closer => .sum

/-- No more frames are complete in front of a token. -/
def Settled (reach : Reach) (frames : List Frame) : Prop :=
  ∀ frame ∈ frames.head?, frame.completeAt reach = false

theorem Settled.fits {reach : Reach} {frames : List Frame} (h : Settled reach frames) :
    Fits reach.level frames := by
  cases frames with
  | nil => cases reach <;> trivial
  | cons frame frames =>
      have hframe := h frame rfl
      cases reach <;> cases frame <;> trivial

/-- Completing frames moves words from the left of an operand into the operand. -/
theorem complete_written (reach : Reach) {frames : List Frame} {words : List Lexeme}
    (hpending : Pending frames words) {level : Level} {ends : Bool} {value : Expr}
    {valueWords : List Lexeme} (n : Nat) (hfits : Fits level frames)
    (hvalue : Expr.Written level ends value valueWords)
    (hlevel : level = .sum → reach ≠ .product) (hends : ends = true → reach = .closer) :
    ∃ n' frames' value' words' valueWords' ends',
      complete reach n frames value = (n', frames', value') ∧
      Pending frames' words' ∧ Settled reach frames' ∧
      Expr.Written reach.level ends' value' valueWords' ∧ (ends' = true → reach = .closer) ∧
      words' ++ valueWords' = words ++ valueWords := by
  have hraise : Expr.Written reach.level ends value valueWords := by
    cases reach with
    | product =>
        cases level with
        | factor => exact .factor hvalue
        | product => exact hvalue
        | sum => exact absurd rfl (hlevel rfl)
    | _ => exact hvalue.toSum
  induction hpending generalizing level ends value valueWords n with
  | nil =>
      exact ⟨n, [], value, [], valueWords, ends, rfl, .nil, by simp [Settled], hraise, hends, rfl⟩
  | @group frames words hpending _ =>
      exact ⟨n, .group :: frames, value, _, valueWords, ends, rfl, .group hpending,
        by simp [Settled, Frame.completeAt], hraise, hends, rfl⟩
  | @negate location frames words hpending ih =>
      -- Only a closer ends a negation: in front of an operator it stays and goes on.
      by_cases hreach : reach = .closer
      · subst hreach
        have hnegate := Expr.Written.negate ⟨n, location⟩ hraise
        obtain ⟨n', frames', value', words', valueWords', ends', hcomplete, h⟩ :=
          ih (n + 1) (fits_factor _) hnegate (by simp) (by simp) hnegate.toSum
        exact ⟨n', frames', value', words', valueWords', ends', hcomplete, by simpa using h⟩
      · refine ⟨n, .negate location :: frames, value, _, valueWords, ends, ?_, .negate _ hpending,
          by simpa [Settled, Frame.completeAt] using hreach, hraise, hends, rfl⟩
        simp [complete, Frame.completeAt, hreach]
  | @sum frames words leftWords op left hpending hroom hop hleft ih =>
      -- An operator of products takes the operand away from the sum that it is in.
      by_cases hreach : reach = .product
      · subst hreach
        exact ⟨n, .sum op left :: frames, value, _, valueWords, ends, rfl,
          .sum hpending hroom hop hleft, by simp [Settled, Frame.completeAt], hraise, hends, rfl⟩
      · have hright : Expr.Written .product ends value valueWords := by
          cases level with
          | factor => exact .factor hvalue
          | product => exact hvalue
          | sum => exact absurd hfits (by simp [Fits])
        have hsum := Expr.Written.plus ⟨n, left.location⟩ hop hleft hright
        obtain ⟨n', frames', value', words', valueWords', ends', hcomplete, h⟩ :=
          ih (n + 1) hroom hsum (fun _ => hreach) hends
            (by cases reach <;> first | exact absurd rfl hreach | exact hsum)
        refine ⟨n', frames', value', words', valueWords', ends', ?_, by simpa using h⟩
        simpa [complete, Frame.completeAt, hreach, Frame.apply] using hcomplete
  | @product frames words leftWords op left hpending hroom hop hleft ih =>
      have hright : Expr.Written .factor ends value valueWords := by
        cases level with
        | factor => exact hvalue
        | _ => exact absurd hfits (by simp [Fits])
      have hproduct := Expr.Written.times ⟨n, left.location⟩ hop hleft hright
      obtain ⟨n', frames', value', words', valueWords', ends', hcomplete, h⟩ :=
        ih (n + 1) hroom hproduct (by simp) hends
          (by cases reach <;> first | exact hproduct | exact hproduct.toSum)
      refine ⟨n', frames', value', words', valueWords', ends', ?_, by simpa using h⟩
      simpa [complete, Frame.completeAt, Frame.apply] using hcomplete

/-! ## States -/

/-- The words in front of the statement at hand. -/
inductive Enclosing : List Block → List Stmt → List Declaration → List Lexeme → Prop
  | top {before : List Stmt} {declarations : List Declaration} {words : List Lexeme} :
      Stmt.Written before.reverse words →
      Enclosing [] before declarations (declarations.reverse.flatMap Declaration.words ++ words)
  | yes (location : Location) {blocks : List Block} {before inner : List Stmt}
      {declarations : List Declaration} {words conditionWords innerWords : List Lexeme}
      {ends : Bool} {condition : Expr} :
      Enclosing blocks before declarations words →
      Expr.Written .sum ends condition conditionWords → Stmt.Written inner.reverse innerWords →
      Enclosing (.yes location condition before :: blocks) inner declarations
        (words ++ .symbol .ifWord :: conditionWords ++ .symbol .thenWord :: innerWords)
  | no (location : Location) {blocks : List Block} {before yes inner : List Stmt}
      {declarations : List Declaration} {words conditionWords yesWords innerWords : List Lexeme}
      {ends : Bool} {condition : Expr} :
      Enclosing blocks before declarations words →
      Expr.Written .sum ends condition conditionWords → Stmt.Written yes yesWords →
      Stmt.Written inner.reverse innerWords →
      Enclosing (.no location condition yes before :: blocks) inner declarations
        (words ++ .symbol .ifWord :: conditionWords ++ .symbol .thenWord :: yesWords ++
          .symbol .elseWord :: innerWords)
  | body (location : Location) {blocks : List Block} {before inner : List Stmt}
      {declarations : List Declaration} {words conditionWords innerWords : List Lexeme}
      {ends : Bool} {condition : Expr} :
      Enclosing blocks before declarations words →
      Expr.Written .sum ends condition conditionWords → Stmt.Written inner.reverse innerWords →
      Enclosing (.body location condition before :: blocks) inner declarations
        (words ++ .symbol .whileWord :: conditionWords ++ .symbol .doWord :: innerWords)

/-- A statement more goes to the end of the block at hand. -/
theorem Enclosing.push {blocks : List Block} {before : List Stmt} {declarations : List Declaration}
    {words added : List Lexeme} {statement : Stmt}
    (h : Enclosing blocks before declarations words) (hadded : Stmt.Written [statement] added) :
    Enclosing blocks (statement :: before) declarations (words ++ added) := by
  cases h with
  | top hbefore =>
      have hnext := hbefore.append hadded
      rw [← List.reverse_cons] at hnext
      simpa using Enclosing.top hnext
  | yes location houter hcondition hinner =>
      have hnext := hinner.append hadded
      rw [← List.reverse_cons] at hnext
      simpa using Enclosing.yes location houter hcondition hnext
  | no location houter hcondition hyes hinner =>
      have hnext := hinner.append hadded
      rw [← List.reverse_cons] at hnext
      simpa using Enclosing.no location houter hcondition hyes hnext
  | body location houter hcondition hinner =>
      have hnext := hinner.append hadded
      rw [← List.reverse_cons] at hnext
      simpa using Enclosing.body location houter hcondition hnext

/-- At the start of a block there are no statements before. -/
theorem written_reverse_nil : Stmt.Written (List.reverse []) [] := .nil

/-- The words in front of an expression. -/
def Purpose.words : Purpose → List Lexeme
  | .print _ => [.symbol .printWord]
  | .assign _ target => [.name target, .symbol .equals]
  | .branch _ => [.symbol .ifWord]
  | .loop _ => [.symbol .whileWord]

/-- The words of the declaration or statement at hand. -/
inductive PhaseWords : Phase → List Lexeme → Prop
  | fresh : PhaseWords .fresh []
  | declared (location : Location) : PhaseWords (.declared location) [.symbol .varWord]
  | named (location : Location) (name : String) :
      PhaseWords (.named location name) [.symbol .varWord, .name name]
  | typing (location : Location) (name : String) :
      PhaseWords (.typing location name) [.symbol .varWord, .name name, .symbol .colon]
  | typed (declaration : Declaration) :
      PhaseWords (.typed declaration)
        [.symbol .varWord, .name declaration.name, .symbol .colon,
          .symbol declaration.type.symbol]
  | reading (location : Location) : PhaseWords (.reading location) [.symbol .readWord]
  | filling (location : Location) (name : String) :
      PhaseWords (.filling location name) [.symbol .readWord, .name name]
  | target (location : Location) (name : String) : PhaseWords (.target location name) [.name name]
  | operand (purpose : Purpose) {frames : List Frame} {words : List Lexeme} :
      Pending frames words → PhaseWords (.operand purpose frames) (purpose.words ++ words)
  | operator (purpose : Purpose) {frames : List Frame} {value : Expr}
      {words valueWords : List Lexeme} :
      Pending frames words → Expr.Written .factor false value valueWords →
      PhaseWords (.operator purpose frames value) (purpose.words ++ words ++ valueWords)

/-- Part of a declaration has been read. -/
def Phase.declares : Phase → Bool
  | .declared _ | .named .. | .typing .. | .typed _ => true
  | _ => false

/-- The words that lead to a state. -/
inductive Follows (s : State) : List Lexeme → Prop
  | intro {outer inner : List Lexeme} :
      Enclosing s.blocks s.before s.declarations outer → PhaseWords s.phase inner →
      (s.phase.declares → s.blocks = [] ∧ s.before = []) → Follows s (outer ++ inner)

/-- Between two statements only the words of complete ones are asked for. -/
theorem Follows.fresh {s : State} {words : List Lexeme}
    (henclosing : Enclosing s.blocks s.before s.declarations words) (hphase : s.phase = .fresh) :
    Follows s words := by
  rw [← List.append_nil words]
  refine .intro henclosing ?_ ?_
  · rw [hphase]
    exact .fresh
  · intro hdeclares
    rw [hphase] at hdeclares
    cases hdeclares

theorem Follows.start : Follows .start [] := .fresh (.top written_reverse_nil) rfl

/-- Between two statements there are only the words of complete ones. -/
theorem Follows.enclosing {s : State} {words : List Lexeme} (h : Follows s words)
    (hphase : s.phase = .fresh) : Enclosing s.blocks s.before s.declarations words := by
  obtain ⟨henclosing, hinner, _⟩ := h
  rw [hphase] at hinner
  cases hinner
  simpa using henclosing

/-- Behind an operand, the words of the frames that a token completes belong to the
value that they are completed to. -/
theorem PhaseWords.complete {purpose : Purpose} {frames frames' : List Frame}
    {value value' : Expr} {words : List Lexeme} {reach : Reach} {n n' : Nat}
    (h : PhaseWords (.operator purpose frames value) words)
    (hcomplete : complete reach n frames value = (n', frames', value')) :
    ∃ frameWords valueWords ends, Pending frames' frameWords ∧ Settled reach frames' ∧
      Expr.Written reach.level ends value' valueWords ∧ (ends = true → reach = .closer) ∧
      words = purpose.words ++ frameWords ++ valueWords := by
  cases h with
  | operator purpose hpending hvalue =>
      obtain ⟨_, _, _, frameWords, valueWords, ends, heq, hpending', hsettled, hvalue', hends,
        hwords⟩ := complete_written reach hpending n (fits_factor frames) hvalue (by simp) (by simp)
      rw [heq] at hcomplete
      cases hcomplete
      refine ⟨frameWords, valueWords, ends, hpending', hsettled, hvalue', hends, ?_⟩
      rw [List.append_assoc, List.append_assoc, hwords]

namespace PhaseWords

variable {purpose : Purpose} {frames frames' : List Frame} {value value' : Expr}
  {words : List Lexeme} {op : BinOp} {n n' : Nat}

theorem atom {word : Lexeme} (h : PhaseWords (.operand purpose frames) words)
    (hatom : Expr.Atom value word) :
    PhaseWords (.operator purpose frames value) (words ++ [word]) := by
  cases h with
  | operand _ hpending => exact .operator purpose hpending (.atom hatom)

theorem group (h : PhaseWords (.operand purpose frames) words) :
    PhaseWords (.operand purpose (.group :: frames)) (words ++ [.symbol .openParen]) := by
  cases h with
  | operand _ hpending =>
      rw [List.append_assoc]
      exact .operand purpose hpending.group

theorem negate (h : PhaseWords (.operand purpose frames) words) (location : Location) :
    PhaseWords (.operand purpose (.negate location :: frames)) (words ++ [.symbol .minus]) := by
  cases h with
  | operand _ hpending =>
      rw [List.append_assoc]
      exact .operand purpose (hpending.negate location)

theorem times (h : PhaseWords (.operator purpose frames value) words)
    (hlevel : op.level = .product)
    (hcomplete : Parser.complete .product n frames value = (n', frames', value')) :
    PhaseWords (.operand purpose (.product op value' :: frames'))
      (words ++ [.symbol op.symbol]) := by
  obtain ⟨_, _, ends, hpending, hsettled, hvalue, hends, rfl⟩ := h.complete hcomplete
  -- A negation would have to end in front of the operator, but only closers end it.
  cases ends with
  | true => cases hends rfl
  | false =>
      have hproduct := hpending.product hsettled.fits hlevel hvalue
      simpa using PhaseWords.operand purpose hproduct

theorem plus (h : PhaseWords (.operator purpose frames value) words)
    (hlevel : op.level = .sum)
    (hcomplete : Parser.complete .sum n frames value = (n', frames', value')) :
    PhaseWords (.operand purpose (.sum op value' :: frames'))
      (words ++ [.symbol op.symbol]) := by
  obtain ⟨_, _, ends, hpending, hsettled, hvalue, hends, rfl⟩ := h.complete hcomplete
  cases ends with
  | true => cases hends rfl
  | false =>
      have hsum := hpending.sum hsettled.fits hlevel hvalue
      simpa using PhaseWords.operand purpose hsum

theorem groupEnd {frame : Frame} (h : PhaseWords (.operator purpose frames value) words)
    (hcomplete : Parser.complete .closer n frames value = (n', frame :: frames', value')) :
    PhaseWords (.operator purpose frames' value') (words ++ [.symbol .closeParen]) := by
  obtain rfl := eq_group_of_complete_closer hcomplete
  obtain ⟨_, _, _, hpending, _, hvalue, _, rfl⟩ := h.complete hcomplete
  cases hpending with
  | group hpending => simpa using PhaseWords.operator purpose hpending (.group hvalue)

end PhaseWords

/-- A statement that an expression ends. -/
theorem Follows.pushed {s : State} {purpose : Purpose} {frames : List Frame}
    {value value' : Expr} {words : List Lexeme} {n' : Nat} (h : Follows s words)
    (hphase : s.phase = .operator purpose frames value)
    (hcomplete : complete .closer s.nextId frames value = (n', [], value')) :
    ∃ outer valueWords ends, Enclosing s.blocks s.before s.declarations outer ∧
      Expr.Written .sum ends value' valueWords ∧
        words = outer ++ (purpose.words ++ valueWords) := by
  obtain ⟨henclosing, hinner, _⟩ := h
  rw [hphase] at hinner
  obtain ⟨_, valueWords, ends, hpending, _, hvalue, _, rfl⟩ := hinner.complete hcomplete
  cases hpending
  exact ⟨_, valueWords, ends, henclosing, hvalue, by simp⟩

/-- A word that belongs to the declaration or statement at hand. -/
theorem Follows.extend {s : State} {phase phase' : Phase} {nextId : Nat} {words : List Lexeme}
    {word : Lexeme} (h : Follows s words) (hphase : s.phase = phase)
    (htop : phase'.declares → phase.declares ∨ s.blocks = [] ∧ s.before = [])
    (hwords : ∀ inner, PhaseWords phase inner → PhaseWords phase' (inner ++ [word])) :
    Follows { s with phase := phase', nextId := nextId } (words ++ [word]) := by
  obtain ⟨henclosing, hinner, hdeclares⟩ := h
  rw [hphase] at hinner hdeclares
  rw [List.append_assoc]
  exact .intro henclosing (hwords _ hinner) fun hd => (htop hd).elim hdeclares id

/-- A word that belongs to the statement at hand. -/
theorem Follows.extend_statement {s : State} {phase phase' : Phase} {nextId : Nat}
    {words : List Lexeme} {word : Lexeme} (h : Follows s words) (hphase : s.phase = phase)
    (hdeclares : phase'.declares = false)
    (hwords : ∀ inner, PhaseWords phase inner → PhaseWords phase' (inner ++ [word])) :
    Follows { s with phase := phase', nextId := nextId } (words ++ [word]) := by
  refine h.extend hphase (fun htrue => ?_) hwords
  rw [hdeclares] at htrue
  cases htrue

/-- A word that ends the statement at hand. -/
theorem Follows.ended {s : State} {outer inner : List Lexeme} {word : Lexeme} {statement : Stmt}
    {nextId : Nat} (henclosing : Enclosing s.blocks s.before s.declarations outer)
    (hstatement : Stmt.Written [statement] (inner ++ [word])) :
    Follows (s.push nextId statement) (outer ++ inner ++ [word]) := by
  have hpushed := henclosing.push hstatement
  rw [← List.append_assoc] at hpushed
  exact .fresh hpushed rfl

/-- A word that ends a block, and with it the statement that the block is in. -/
theorem Follows.left {s : State} {blocks : List Block} {before : List Stmt}
    {outer inner : List Lexeme} {statement : Stmt}
    (henclosing : Enclosing blocks before s.declarations outer)
    (hstatement : Stmt.Written [statement] inner) :
    Follows (s.leave blocks before statement) (outer ++ inner) :=
  .fresh (henclosing.push hstatement) rfl

/-- A word that opens a block. -/
theorem Follows.entered {s : State} {block : Block} {nextId : Nat} {words : List Lexeme}
    (henclosing : Enclosing (block :: s.blocks) [] s.declarations words) :
    Follows (s.enter nextId block) words :=
  .fresh henclosing rfl

/-- A move adds its word. -/
theorem Follows.move {s s' : State} {t : Token} {words : List Lexeme} (h : Follows s words)
    (hmove : Move s t s') : Follows s' (words ++ [t.lexeme]) := by
  cases hmove with
  | declare location hphase hblocks hbefore =>
      refine h.extend hphase (fun _ => .inr ⟨hblocks, hbefore⟩) fun inner hinner => ?_
      cases hinner
      exact .declared location
  | declaredName name location hphase =>
      refine h.extend hphase (fun _ => .inl rfl) fun inner hinner => ?_
      cases hinner
      exact .named _ name
  | colon location hphase =>
      refine h.extend hphase (fun _ => .inl rfl) fun inner hinner => ?_
      cases hinner
      exact .typing _ _
  | declaredType type location hphase =>
      refine h.extend hphase (fun _ => .inl rfl) fun inner hinner => ?_
      cases hinner
      exact .typed _
  | @declared declaration location hphase =>
      obtain ⟨henclosing, hinner, htop⟩ := h
      rw [hphase] at hinner htop
      -- There are no statements yet, so the words belong behind the other declarations.
      obtain ⟨hblocks, hbefore⟩ := htop rfl
      rw [hblocks, hbefore] at henclosing
      cases hinner
      cases henclosing with
      | top hnone =>
          cases hnone
          have htop' : Enclosing [] [] (declaration :: s.declarations) _ :=
            .top written_reverse_nil
          rw [← hblocks, ← hbefore] at htop'
          have hfollows : Follows
              { s with phase := .fresh, declarations := declaration :: s.declarations } _ :=
            .fresh htop' rfl
          simpa [Declaration.words] using hfollows
  | read location hphase =>
      refine h.extend_statement hphase rfl fun inner hinner => ?_
      cases hinner
      exact .reading location
  | readName name location hphase =>
      refine h.extend_statement hphase rfl fun inner hinner => ?_
      cases hinner
      exact .filling _ name
  | readEnd location hphase =>
      obtain ⟨henclosing, hinner, _⟩ := h
      rw [hphase] at hinner
      cases hinner
      exact .ended henclosing (.read _ _ .nil)
  | target name location hphase =>
      refine h.extend_statement hphase rfl fun inner hinner => ?_
      cases hinner
      exact .target location name
  | equals location hphase =>
      refine h.extend_statement hphase rfl fun inner hinner => ?_
      cases hinner
      exact .operand (.assign _ _) .nil
  | print location hphase =>
      refine h.extend_statement hphase rfl fun inner hinner => ?_
      cases hinner
      exact .operand (.print location) .nil
  | branch location hphase =>
      refine h.extend_statement hphase rfl fun inner hinner => ?_
      cases hinner
      exact .operand (.branch location) .nil
  | loop location hphase =>
      refine h.extend_statement hphase rfl fun inner hinner => ?_
      cases hinner
      exact .operand (.loop location) .nil
  | @otherwise start condition before blocks location hphase hblocks =>
      have henclosing := h.enclosing hphase
      rw [hblocks] at henclosing
      cases henclosing with
      | yes _ houter hcondition hinner =>
          have hno := Enclosing.no start houter hcondition hinner written_reverse_nil
          have hfollows : Follows
              { s with
                phase := .fresh, blocks := .no start condition s.before.reverse before :: blocks,
                before := [] } _ :=
            .fresh hno rfl
          simpa [hphase] using hfollows
  | yesEnd location hphase hblocks =>
      have henclosing := h.enclosing hphase
      rw [hblocks] at henclosing
      cases henclosing with
      | yes _ houter hcondition hinner =>
          simpa using Follows.left houter (.branch _ hcondition hinner .nil)
  | noEnd location hphase hblocks =>
      have henclosing := h.enclosing hphase
      rw [hblocks] at henclosing
      cases henclosing with
      | no _ houter hcondition hyes hinner =>
          simpa using Follows.left houter (.choice _ hcondition hyes hinner .nil)
  | bodyEnd location hphase hblocks =>
      have henclosing := h.enclosing hphase
      rw [hblocks] at henclosing
      cases henclosing with
      | body _ houter hcondition hinner =>
          simpa using Follows.left houter (.loop _ hcondition hinner .nil)
  | atom location hphase hatom hmark =>
      exact h.extend_statement hphase rfl fun _ hinner => hinner.atom hatom
  | group location hphase =>
      exact h.extend_statement hphase rfl fun _ hinner => hinner.group
  | negate location hphase =>
      exact h.extend_statement hphase rfl fun _ hinner => hinner.negate location
  | times location hphase hlevel hcomplete =>
      exact h.extend_statement hphase rfl fun _ hinner => hinner.times hlevel hcomplete
  | plus location hphase hlevel hcomplete =>
      exact h.extend_statement hphase rfl fun _ hinner => hinner.plus hlevel hcomplete
  | groupEnd location hphase hcomplete =>
      exact h.extend_statement hphase rfl fun _ hinner => hinner.groupEnd hcomplete
  | printEnd location hphase hcomplete =>
      obtain ⟨_, _, _, henclosing, hvalue, rfl⟩ := h.pushed hphase hcomplete
      exact .ended henclosing (.print _ hvalue .nil)
  | assignEnd location hphase hcomplete =>
      obtain ⟨_, _, _, henclosing, hvalue, rfl⟩ := h.pushed hphase hcomplete
      exact .ended henclosing (.assign _ _ hvalue .nil)
  | thenWord location hphase hcomplete =>
      obtain ⟨_, _, _, henclosing, hvalue, rfl⟩ := h.pushed hphase hcomplete
      simpa [Purpose.words] using Follows.entered (henclosing.yes _ hvalue written_reverse_nil)
  | doWord location hphase hcomplete =>
      obtain ⟨_, _, _, henclosing, hvalue, rfl⟩ := h.pushed hphase hcomplete
      simpa [Purpose.words] using Follows.entered (henclosing.body _ hvalue written_reverse_nil)

theorem Follows.moves {s s' : State} {tokens : List Token} {words : List Lexeme}
    (h : Follows s words) (hmoves : Moves s tokens s') :
    Follows s' (words ++ tokens.map Token.lexeme) := by
  induction hmoves generalizing words with
  | nil => simpa using h
  | cons hmove _ ih => simpa using ih (h.move hmove)

/-- Outside all blocks there are only complete declarations and statements. -/
theorem Enclosing.written {before : List Stmt} {declarations : List Declaration}
    {words : List Lexeme} (h : Enclosing [] before declarations words) :
    Program.Written ⟨declarations.reverse, before.reverse⟩ words := by
  cases h with
  | top hbefore => exact ⟨_, hbefore, rfl⟩

/-- The words of a sentence are words of its program. -/
theorem written_of_pass {s : Sentence} {p : Program} (h : pass s = .ok p) :
    p.Written (s.words.map Token.lexeme) := by
  obtain ⟨state, hmoves, hfinish⟩ := pass_eq_ok_iff.mp h
  obtain ⟨hphase, hblocks, rfl⟩ := finish_eq_ok_iff.mp hfinish
  have henclosing := (Follows.start.moves hmoves).enclosing hphase
  rw [hblocks] at henclosing
  exact henclosing.written

end ImpToC.Parser
