import ImpToC.Proofs.Effects
import ImpToC.Proofs.Grammar.Trees
import ImpToC.Proofs.Parsing.Passes

/-!
# The moves of a pass

What one token can do to the state of a pass, as a relation with one rule for each
place and word. It says when a step succeeds, and where it leads.
-/

namespace ImpToC.Parser

open Grammar

/-- What one token does. -/
inductive Move : State → Token → State → Prop
  | declare {s : State} (location : Location) :
      s.phase = .fresh → s.blocks = [] → s.before = [] →
      Move s ⟨.symbol .varWord, location⟩ { s with phase := .declared location }
  | declaredName {s : State} {start : Location} (name : String) (location : Location) :
      s.phase = .declared start →
      Move s ⟨.name name, location⟩ { s with phase := .named start name }
  | colon {s : State} {start : Location} {name : String} (location : Location) :
      s.phase = .named start name →
      Move s ⟨.symbol .colon, location⟩ { s with phase := .typing start name }
  | declaredType {s : State} {start : Location} {name : String} (type : Ty) (location : Location) :
      s.phase = .typing start name →
      Move s ⟨.symbol type.symbol, location⟩ { s with phase := .typed ⟨start, name, type⟩ }
  | declared {s : State} {declaration : Declaration} (location : Location) :
      s.phase = .typed declaration →
      Move s ⟨.symbol .semicolon, location⟩
        { s with phase := .fresh, declarations := declaration :: s.declarations }
  | read {s : State} (location : Location) :
      s.phase = .fresh → Move s ⟨.symbol .readWord, location⟩ { s with phase := .reading location }
  | readName {s : State} {start : Location} (name : String) (location : Location) :
      s.phase = .reading start →
      Move s ⟨.name name, location⟩ { s with phase := .filling start name }
  | readEnd {s : State} {start : Location} {name : String} (location : Location) :
      s.phase = .filling start name →
      Move s ⟨.symbol .semicolon, location⟩ (s.push s.nextId (.read start name))
  | target {s : State} (name : String) (location : Location) :
      s.phase = .fresh → Move s ⟨.name name, location⟩ { s with phase := .target location name }
  | equals {s : State} {start : Location} {name : String} (location : Location) :
      s.phase = .target start name →
      Move s ⟨.symbol .equals, location⟩ { s with phase := .operand (.assign start name) [] }
  | print {s : State} (location : Location) :
      s.phase = .fresh →
      Move s ⟨.symbol .printWord, location⟩ { s with phase := .operand (.print location) [] }
  | branch {s : State} (location : Location) :
      s.phase = .fresh →
      Move s ⟨.symbol .ifWord, location⟩ { s with phase := .operand (.branch location) [] }
  | loop {s : State} (location : Location) :
      s.phase = .fresh →
      Move s ⟨.symbol .whileWord, location⟩ { s with phase := .operand (.loop location) [] }
  | otherwise {s : State} {start : Location} {condition : Expr} {before : List Stmt}
      {blocks : List Block} (location : Location) :
      s.phase = .fresh → s.blocks = .yes start condition before :: blocks →
      Move s ⟨.symbol .elseWord, location⟩
        { s with blocks := .no start condition s.before.reverse before :: blocks, before := [] }
  | yesEnd {s : State} {start : Location} {condition : Expr} {before : List Stmt}
      {blocks : List Block} (location : Location) :
      s.phase = .fresh → s.blocks = .yes start condition before :: blocks →
      Move s ⟨.symbol .endWord, location⟩
        (s.leave blocks before (.branch start condition s.before.reverse []))
  | noEnd {s : State} {start : Location} {condition : Expr} {yes before : List Stmt}
      {blocks : List Block} (location : Location) :
      s.phase = .fresh → s.blocks = .no start condition yes before :: blocks →
      Move s ⟨.symbol .endWord, location⟩
        (s.leave blocks before (.branch start condition yes s.before.reverse))
  | bodyEnd {s : State} {start : Location} {condition : Expr} {before : List Stmt}
      {blocks : List Block} (location : Location) :
      s.phase = .fresh → s.blocks = .body start condition before :: blocks →
      Move s ⟨.symbol .doneWord, location⟩
        (s.leave blocks before (.loop start condition s.before.reverse))
  | atom {s : State} {purpose : Purpose} {frames : List Frame} {value : Expr} {word : Lexeme}
      (location : Location) :
      s.phase = .operand purpose frames → Expr.Atom value word →
      value.mark = ⟨s.nextId, location⟩ →
      Move s ⟨word, location⟩ (s.operandDone purpose frames value)
  | group {s : State} {purpose : Purpose} {frames : List Frame} (location : Location) :
      s.phase = .operand purpose frames →
      Move s ⟨.symbol .openParen, location⟩
        { s with phase := .operand purpose (.group :: frames) }
  | negate {s : State} {purpose : Purpose} {frames : List Frame} (location : Location) :
      s.phase = .operand purpose frames →
      Move s ⟨.symbol .minus, location⟩
        { s with phase := .operand purpose (.negate location :: frames) }
  | times {s : State} {purpose : Purpose} {frames frames' : List Frame} {value value' : Expr}
      {op : BinOp} {nextId : Nat} (location : Location) :
      s.phase = .operator purpose frames value → op.level = .product →
      complete .product s.nextId frames value = (nextId, frames', value') →
      Move s ⟨.symbol op.symbol, location⟩
        { s with phase := .operand purpose (.product op value' :: frames'), nextId := nextId }
  | plus {s : State} {purpose : Purpose} {frames frames' : List Frame} {value value' : Expr}
      {op : BinOp} {nextId : Nat} (location : Location) :
      s.phase = .operator purpose frames value → op.level = .sum →
      complete .sum s.nextId frames value = (nextId, frames', value') →
      Move s ⟨.symbol op.symbol, location⟩
        { s with phase := .operand purpose (.sum op value' :: frames'), nextId := nextId }
  | groupEnd {s : State} {purpose : Purpose} {frame : Frame} {frames frames' : List Frame}
      {value value' : Expr} {nextId : Nat} (location : Location) :
      s.phase = .operator purpose frames value →
      complete .closer s.nextId frames value = (nextId, frame :: frames', value') →
      Move s ⟨.symbol .closeParen, location⟩
        { s with phase := .operator purpose frames' value', nextId := nextId }
  | printEnd {s : State} {start : Location} {frames : List Frame} {value value' : Expr}
      {nextId : Nat} (location : Location) :
      s.phase = .operator (.print start) frames value →
      complete .closer s.nextId frames value = (nextId, [], value') →
      Move s ⟨.symbol .semicolon, location⟩ (s.push nextId (.print start value'))
  | assignEnd {s : State} {start : Location} {name : String} {frames : List Frame}
      {value value' : Expr} {nextId : Nat} (location : Location) :
      s.phase = .operator (.assign start name) frames value →
      complete .closer s.nextId frames value = (nextId, [], value') →
      Move s ⟨.symbol .semicolon, location⟩ (s.push nextId (.assign start name value'))
  | thenWord {s : State} {start : Location} {frames : List Frame} {value value' : Expr}
      {nextId : Nat} (location : Location) :
      s.phase = .operator (.branch start) frames value →
      complete .closer s.nextId frames value = (nextId, [], value') →
      Move s ⟨.symbol .thenWord, location⟩ (s.enter nextId (.yes start value' s.before))
  | doWord {s : State} {start : Location} {frames : List Frame} {value value' : Expr}
      {nextId : Nat} (location : Location) :
      s.phase = .operator (.loop start) frames value →
      complete .closer s.nextId frames value = (nextId, [], value') →
      Move s ⟨.symbol .doWord, location⟩ (s.enter nextId (.body start value' s.before))

/-! ## Words that the tables list -/

theorem type?_eq_some_iff {symbol : Symbol} {type : Ty} :
    type? symbol = some type ↔ type.symbol = symbol := by
  cases symbol <;> cases type <;> simp [type?, Ty.symbol]

theorem product?_eq_some_iff {symbol : Symbol} {op : BinOp} :
    product? symbol = some op ↔ op.level = .product ∧ op.symbol = symbol := by
  cases symbol <;> cases op <;> simp [product?, BinOp.level, BinOp.symbol]

theorem sum?_eq_some_iff {symbol : Symbol} {op : BinOp} :
    sum? symbol = some op ↔ op.level = .sum ∧ op.symbol = symbol := by
  cases symbol <;> cases op <;> simp [sum?, BinOp.level, BinOp.symbol]

/-! ## Steps and moves -/

/-- Only a parenthesis stays open in front of a closer. -/
theorem eq_group_of_complete_closer {n n' : Nat} {frame : Frame} {frames frames' : List Frame}
    {value value' : Expr} (h : complete .closer n frames value = (n', frame :: frames', value')) :
    frame = .group := by
  induction frames generalizing n value with
  | nil => cases h
  | cons first frames ih =>
      cases first with
      | group =>
          cases h
          rfl
      | negate | sum | product => exact ih h

namespace Move

theorem of_stepFresh {s s' : State} {t : Token} (hphase : s.phase = .fresh)
    (h : s.stepFresh t = .ok s') : Move s t s' := by
  obtain ⟨lexeme, location⟩ := t
  unfold State.stepFresh at h
  split at h
  next name heq => cases heq; cases h; exact .target name location hphase
  next heq => cases heq; cases h; exact .read location hphase
  next heq => cases heq; cases h; exact .print location hphase
  next heq => cases heq; cases h; exact .branch location hphase
  next heq => cases heq; cases h; exact .loop location hphase
  next heq hblocks =>
    cases heq
    split at h
    next hbefore => cases h; exact .declare location hphase hblocks (by simpa using hbefore)
    next => cases h
  next heq hblocks => cases heq; cases h; exact .otherwise location hphase hblocks
  next heq hblocks => cases heq; cases h; exact .yesEnd location hphase hblocks
  next heq hblocks => cases heq; cases h; exact .noEnd location hphase hblocks
  next heq hblocks => cases heq; cases h; exact .bodyEnd location hphase hblocks
  next => cases h

theorem of_stepOperand {s s' : State} {t : Token} {purpose : Purpose} {frames : List Frame}
    (hphase : s.phase = .operand purpose frames)
    (h : s.stepOperand purpose frames t = .ok s') : Move s t s' := by
  obtain ⟨lexeme, location⟩ := t
  unfold State.stepOperand at h
  dsimp only at h
  split at h
  next text =>
    split at h
    next value hvalue => cases h; exact .atom location hphase (.int _ hvalue) rfl
    next => cases h
  next text =>
    split at h
    next value hvalue => cases h; exact .atom location hphase (.float _ hvalue) rfl
    next => cases h
  next text => cases h; exact .atom location hphase (.string _ text) rfl
  next text => cases h; exact .atom location hphase (.name _ text) rfl
  next => cases h; exact .group location hphase
  next => cases h; exact .negate location hphase
  next => cases h

/-- An expression ends at its closer. -/
theorem close {s : State} {purpose : Purpose} {nextId : Nat} {frames : List Frame}
    {value value' : Expr} (location : Location) (hphase : s.phase = .operator purpose frames value)
    (hcomplete : complete .closer s.nextId frames value = (nextId, [], value')) :
    Move s ⟨.symbol purpose.closer, location⟩ (s.close purpose nextId value') := by
  cases purpose with
  | print start => exact .printEnd location hphase hcomplete
  | assign start name => exact .assignEnd location hphase hcomplete
  | branch start => exact .thenWord location hphase hcomplete
  | loop start => exact .doWord location hphase hcomplete

theorem of_stepOperator {s s' : State} {t : Token} {purpose : Purpose} {frames : List Frame}
    {value : Expr} (hphase : s.phase = .operator purpose frames value)
    (h : s.stepOperator purpose frames value t = .ok s') : Move s t s' := by
  obtain ⟨lexeme, location⟩ := t
  unfold State.stepOperator at h
  split at h
  next symbol heq =>
    cases heq
    split at h
    next op _ hop =>
      obtain ⟨hlevel, rfl⟩ := product?_eq_some_iff.mp hop
      cases h
      exact .times location hphase hlevel rfl
    next op _ hop =>
      obtain ⟨hlevel, rfl⟩ := sum?_eq_some_iff.mp hop
      cases h
      exact .plus location hphase hlevel rfl
    next =>
      split at h
      next nextId value' hcomplete =>
        split at h
        next heq =>
          subst heq
          cases h
          exact .close location hphase hcomplete
        next => cases h
      next nextId frame frames' value' hcomplete =>
        split at h
        next heq =>
          subst heq
          cases h
          exact .groupEnd location hphase hcomplete
        next => cases h
  next => cases h

/-- Whatever a step does is a move. -/
theorem of_step {s s' : State} {t : Token} (h : s.step t = .ok s') : Move s t s' := by
  obtain ⟨lexeme, location⟩ := t
  unfold State.step at h
  split at h
  next hphase => exact of_stepFresh hphase h
  next start hphase =>
    split at h
    next name heq => cases heq; cases h; exact .declaredName name location hphase
    next => cases h
  next start name hphase =>
    split at h
    next heq => cases heq; cases h; exact .colon location hphase
    next => cases h
  next start name hphase =>
    split at h
    next symbol heq =>
      cases heq
      split at h
      next type htype =>
        obtain rfl := type?_eq_some_iff.mp htype
        cases h
        exact .declaredType type location hphase
      next => cases h
    next => cases h
  next declaration hphase =>
    split at h
    next heq => cases heq; cases h; exact .declared location hphase
    next => cases h
  next start hphase =>
    split at h
    next name heq => cases heq; cases h; exact .readName name location hphase
    next => cases h
  next start name hphase =>
    split at h
    next heq => cases heq; cases h; exact .readEnd location hphase
    next => cases h
  next start name hphase =>
    split at h
    next heq => cases heq; cases h; exact .equals location hphase
    next => cases h
  next purpose frames hphase => exact of_stepOperand hphase h
  next purpose frames value hphase => exact of_stepOperator hphase h

/-- Every move is a step. -/
theorem step {s s' : State} {t : Token} (h : Move s t s') : s.step t = .ok s' := by
  cases h with
  | declare location hphase hblocks hbefore =>
      simp [State.step, State.stepFresh, hphase, hblocks, hbefore]
  | declaredName name location hphase => simp [State.step, hphase]
  | colon location hphase => simp [State.step, hphase]
  | declaredType type location hphase =>
      simp [State.step, hphase, type?_eq_some_iff.mpr rfl]
  | declared location hphase => simp [State.step, hphase]
  | read location hphase => simp [State.step, State.stepFresh, hphase]
  | readName name location hphase => simp [State.step, hphase]
  | readEnd location hphase => simp [State.step, hphase]
  | target name location hphase => simp [State.step, State.stepFresh, hphase]
  | equals location hphase => simp [State.step, hphase]
  | print location hphase => simp [State.step, State.stepFresh, hphase]
  | branch location hphase => simp [State.step, State.stepFresh, hphase]
  | loop location hphase => simp [State.step, State.stepFresh, hphase]
  | otherwise location hphase hblocks | yesEnd location hphase hblocks
  | noEnd location hphase hblocks | bodyEnd location hphase hblocks =>
      simp [State.step, State.stepFresh, hphase, hblocks]
  | atom location hphase hatom hmark =>
      simp only [State.step, hphase, State.stepOperand, ← hmark]
      cases hatom with
      | name | string => rfl
      | int mark hvalue | float mark hvalue => simp only [hvalue, Expr.mark]
  | group location hphase | negate location hphase =>
      simp only [State.step, hphase, State.stepOperand]
  | times location hphase hlevel hcomplete =>
      simp [State.step, State.stepOperator, hphase, product?_eq_some_iff.mpr ⟨hlevel, rfl⟩,
        hcomplete]
  | @plus _ _ _ _ _ op _ location hphase hlevel hcomplete =>
      have hproduct : product? op.symbol = none := by
        cases op <;> first | rfl | cases hlevel
      simp [State.step, State.stepOperator, hphase, hproduct, sum?_eq_some_iff.mpr ⟨hlevel, rfl⟩,
        hcomplete]
  | groupEnd location hphase hcomplete =>
      simp [State.step, State.stepOperator, hphase, product?, sum?, hcomplete]
  | printEnd location hphase hcomplete | assignEnd location hphase hcomplete
  | thenWord location hphase hcomplete | doWord location hphase hcomplete =>
      simp [State.step, State.stepOperator, hphase, product?, sum?, hcomplete, Purpose.closer,
        State.close]

end Move

theorem Move.lexeme_ne_finish {s s' : State} {t : Token} (h : Move s t s') :
    t.lexeme ≠ .finish := by
  cases h with
  | atom location hphase hatom hmark => cases hatom <;> exact nofun
  | _ => exact nofun

/-! ## Runs -/

/-- What some tokens in turn do. -/
inductive Moves : State → List Token → State → Prop
  | nil (s : State) : Moves s [] s
  | cons {s m s' : State} {t : Token} {rest : List Token} :
      Move s t m → Moves m rest s' → Moves s (t :: rest) s'

theorem foldlM_step_cons_eq_ok_iff {s s' : State} {t : Token} {rest : List Token} :
    (t :: rest).foldlM State.step s = .ok s' ↔
      ∃ m, s.step t = .ok m ∧ rest.foldlM State.step m = .ok s' := by
  rw [List.foldlM_cons]
  cases s.step t with
  | error fault => simp [bind, Except.bind]
  | ok m => simp [bind, Except.bind]

namespace Moves

theorem single {s s' : State} {t : Token} (h : Move s t s') : Moves s [t] s' := .cons h (.nil s')

theorem append {s m s' : State} {first second : List Token} (h : Moves s first m)
    (h' : Moves m second s') : Moves s (first ++ second) s' := by
  induction h with
  | nil => exact h'
  | cons hmove _ ih => exact .cons hmove (ih h')

theorem of_foldlM {s s' : State} {words : List Token} (h : words.foldlM State.step s = .ok s') :
    Moves s words s' := by
  induction words generalizing s with
  | nil =>
      cases h
      exact .nil _
  | cons t rest ih =>
      obtain ⟨m, hstep, hrest⟩ := foldlM_step_cons_eq_ok_iff.mp h
      exact .cons (.of_step hstep) (ih hrest)

theorem foldlM {s s' : State} {words : List Token} (h : Moves s words s') :
    words.foldlM State.step s = .ok s' := by
  induction h with
  | nil => rfl
  | cons hmove _ ih => exact foldlM_step_cons_eq_ok_iff.mpr ⟨_, hmove.step, ih⟩

end Moves

theorem Moves.lexeme_ne_finish {s s' : State} {tokens : List Token} (h : Moves s tokens s') :
    ∀ t ∈ tokens, t.lexeme ≠ .finish := by
  induction h with
  | nil => exact List.forall_mem_nil _
  | cons hmove _ ih => exact List.forall_mem_cons.mpr ⟨hmove.lexeme_ne_finish, ih⟩

theorem foldlM_step_eq_ok_iff {s s' : State} {words : List Token} :
    words.foldlM State.step s = .ok s' ↔ Moves s words s' :=
  ⟨Moves.of_foldlM, Moves.foldlM⟩

/-- A run that fails does so at one of its tokens. -/
theorem exists_of_foldlM_eq_error {words : List Token} {s : State} {f : Fault}
    (h : words.foldlM State.step s = .error f) :
    ∃ before t after m, words = before ++ t :: after ∧
      before.foldlM State.step s = .ok m ∧ m.step t = .error f := by
  induction words generalizing s with
  | nil => cases h
  | cons first rest ih =>
      rw [List.foldlM_cons] at h
      cases hstep : s.step first with
      | error fault =>
          rw [hstep] at h
          cases h
          exact ⟨[], first, rest, s, rfl, rfl, hstep⟩
      | ok next =>
          rw [hstep] at h
          obtain ⟨before, t, after, m, rfl, hbefore, ht⟩ := ih h
          refine ⟨first :: before, t, after, m, rfl, ?_, ht⟩
          rw [List.foldlM_cons, hstep]
          exact hbefore

/-! ## Whole sentences -/

theorem finish_eq_ok_iff {s : State} {location : Location} {p : Program} :
    s.finish location = .ok p ↔
      s.phase = .fresh ∧ s.blocks = [] ∧ p = ⟨s.declarations.reverse, s.before.reverse⟩ := by
  unfold State.finish
  split
  next hphase hblocks => simp [hphase, hblocks, eq_comm]
  next hnot =>
    simp only [reduceCtorEq, false_iff, not_and]
    exact fun hphase hblocks => absurd hblocks (hnot hphase)

theorem finish_eq_error_iff {s : State} {location : Location} {f : Fault} :
    s.finish location = .error f ↔
      ¬(s.phase = .fresh ∧ s.blocks = []) ∧ f = s.unexpected ⟨.finish, location⟩ := by
  unfold State.finish
  split
  next hphase hblocks => simp [hphase, hblocks]
  next hnot =>
    rw [Except.error.injEq, and_iff_right fun h => hnot h.1 h.2]
    exact eq_comm

theorem pass_eq_ok_iff {s : Sentence} {p : Program} :
    pass s = .ok p ↔
      ∃ state, Moves .start s.words state ∧ state.finish s.finish = .ok p := by
  simp only [pass, ← foldlM_step_eq_ok_iff]
  cases s.words.foldlM State.step .start with
  | error fault => simp [bind, Except.bind]
  | ok state => simp [bind, Except.bind]

/-- A pass reads the words of a sentence before the one with the given index and turns that one
down, or it reads all words and turns the end down. -/
inductive StopsAt (s : Sentence) : Nat → Fault → Prop
  | word {before after : List Token} {t : Token} {m : State} {fault : Fault}
      (words : s.words = before ++ t :: after) (moves : Moves .start before m)
      (step : m.step t = .error fault) : StopsAt s before.length fault
  | finish {m : State} {fault : Fault} (moves : Moves .start s.words m)
      (finish : m.finish s.finish = .error fault) : StopsAt s s.words.length fault

theorem StopsAt.pass_eq {s : Sentence} {index : Nat} {fault : Fault} (h : StopsAt s index fault) :
    pass s = .error fault := by
  unfold pass
  cases h with
  | word words moves step =>
      rw [words, List.foldlM_append, moves.foldlM, ok_bind, List.foldlM_cons, step]
      rfl
  | finish moves finish => rw [moves.foldlM]; exact finish

/-- A pass that turns a sentence down stops at one of its tokens. -/
theorem exists_stopsAt {s : Sentence} {fault : Fault} (h : pass s = .error fault) :
    ∃ index, StopsAt s index fault := by
  unfold pass at h
  cases hwords : s.words.foldlM State.step .start with
  | error fault' =>
      rw [hwords] at h
      cases h
      obtain ⟨before, t, after, m, heq, hrun, hstep⟩ := exists_of_foldlM_eq_error hwords
      exact ⟨before.length, .word heq (.of_foldlM hrun) hstep⟩
  | ok m =>
      rw [hwords] at h
      exact ⟨s.words.length, .finish (.of_foldlM hwords) h⟩

end ImpToC.Parser
