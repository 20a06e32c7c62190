import Mathlib.Data.List.Forall2
import ImpToC.Proofs.Parsing.Hosts
import ImpToC.Proofs.Syntax.Preorder

/-!
# Landmarks

A program keeps the places of some of its words: of the first word of a declaration or a
statement, of an operand that is one word, and of the sign of a negation. Read in the order of
the text, these landmarks are among the tokens that the program was read from.
-/

namespace ImpToC

/-- A place that a program keeps, and the words that can stand there. -/
structure Landmark where
  location : Location
  Shows : Lexeme → Prop

namespace Landmark

/-- The place of one certain word. -/
def word (location : Location) (word : Lexeme) : Landmark := ⟨location, (· = word)⟩

/-- A token stands at a landmark. -/
structure At (m : Landmark) (t : Token) : Prop where
  location : m.location = t.location
  shows : m.Shows t.lexeme

theorem word_at (location : Location) (lexeme : Lexeme) :
    (word location lexeme).At ⟨lexeme, location⟩ := ⟨rfl, rfl⟩

theorem map_location_of_at {marks : List Landmark} {seen : List Token}
    (h : List.Forall₂ At marks seen) : marks.map location = seen.map Token.location := by
  induction h with
  | nil => rfl
  | cons hat _ ih => rw [List.map_cons, List.map_cons, hat.location, ih]

theorem exists_mem_of_at {marks : List Landmark} {seen : List Token}
    (h : List.Forall₂ At marks seen) : ∀ m ∈ marks, ∃ t ∈ seen, m.At t := by
  induction h with
  | nil => exact nofun
  | @cons m t _ rest hat _ ih =>
      intro m' hm'
      rcases List.mem_cons.mp hm' with rfl | hrest
      · exact ⟨t, List.mem_cons_self, hat⟩
      · obtain ⟨t', ht', hat'⟩ := ih m' hrest
        exact ⟨t', List.mem_cons_of_mem t ht', hat'⟩

end Landmark

def Declaration.landmark (d : Declaration) : Landmark := .word d.location (.symbol .varWord)

/-- The landmark of an expression. An operation between two operands has none of its own. -/
def Expr.landmark? : Expr → Option Landmark
  | e@(.name ..) | e@(.int ..) | e@(.float ..) | e@(.string ..) =>
    some ⟨e.location, Expr.Atom e⟩
  | .negate mark _ => some (.word mark.location (.symbol .minus))
  | .binary .. => none

/-- The landmarks in an expression. -/
def Expr.landmarks (e : Expr) : List Landmark := e.preorder.filterMap Expr.landmark?

/-- The first word of a statement. -/
def Stmt.firstWord : Stmt → Lexeme
  | .read .. => .symbol .readWord
  | .print .. => .symbol .printWord
  | .assign _ target _ => .name target
  | .branch .. => .symbol .ifWord
  | .loop .. => .symbol .whileWord

/-- The landmark of a statement. -/
def Stmt.landmark (s : Stmt) : Landmark := .word s.location s.firstWord

mutual

/-- The landmarks in a statement. -/
def Stmt.landmarks : Stmt → List Landmark
  | s@(.read ..) => [s.landmark]
  | s@(.print _ value) | s@(.assign _ _ value) => s.landmark :: value.landmarks
  | s@(.branch _ condition yes no) =>
    s.landmark :: condition.landmarks ++ (Stmt.landmarksAll yes ++ Stmt.landmarksAll no)
  | s@(.loop _ condition body) => s.landmark :: condition.landmarks ++ Stmt.landmarksAll body

/-- The landmarks in some statements. -/
def Stmt.landmarksAll : List Stmt → List Landmark
  | [] => []
  | s :: rest => Stmt.landmarks s ++ Stmt.landmarksAll rest

end

/-- The landmarks of a program. -/
def Program.landmarks (p : Program) : List Landmark :=
  p.declarations.map Declaration.landmark ++ Stmt.landmarksAll p.statements

@[simp] theorem Stmt.landmarksAll_append (first second : List Stmt) :
    Stmt.landmarksAll (first ++ second) =
      Stmt.landmarksAll first ++ Stmt.landmarksAll second := by
  induction first with
  | nil => rfl
  | cons s rest ih => simp [Stmt.landmarksAll, ih]

namespace Expr

@[simp] theorem landmarks_negate (mark : Mark) (operand : Expr) :
    (negate mark operand).landmarks =
      .word mark.location (.symbol .minus) :: operand.landmarks := by
  rw [landmarks, preorder, List.filterMap_cons]
  rfl

@[simp] theorem landmarks_binary (mark : Mark) (op : BinOp) (left right : Expr) :
    (binary mark op left right).landmarks = left.landmarks ++ right.landmarks := by
  rw [landmarks, preorder, List.filterMap_cons, List.filterMap_append]
  rfl

theorem landmarks_of_atom {e : Expr} {lexeme : Lexeme} (h : Atom e lexeme) :
    e.landmarks = [⟨e.location, Atom e⟩] := by
  cases h <;> rfl

end Expr

namespace Parser

/-! ## The landmarks of a state -/

/-- The landmark of the statement that an expression is part of. -/
def Purpose.landmark : Purpose → Landmark
  | .print location => .word location (.symbol .printWord)
  | .assign location target => .word location (.name target)
  | .branch location => .word location (.symbol .ifWord)
  | .loop location => .word location (.symbol .whileWord)

/-- The landmarks to the left of an operand. -/
def pendingLandmarks : List Frame → List Landmark
  | [] => []
  | .group :: frames => pendingLandmarks frames
  | .negate location :: frames => pendingLandmarks frames ++ [.word location (.symbol .minus)]
  | .sum _ left :: frames | .product _ left :: frames =>
    pendingLandmarks frames ++ left.landmarks

/-- The landmarks in front of the statement at hand. -/
def enclosingLandmarks : List Block → List Stmt → List Landmark
  | [], before => Stmt.landmarksAll before.reverse
  | .yes location condition outer :: blocks, before =>
    enclosingLandmarks blocks outer ++ .word location (.symbol .ifWord) :: condition.landmarks ++
      Stmt.landmarksAll before.reverse
  | .no location condition yes outer :: blocks, before =>
    enclosingLandmarks blocks outer ++ .word location (.symbol .ifWord) :: condition.landmarks ++
      Stmt.landmarksAll yes ++ Stmt.landmarksAll before.reverse
  | .body location condition outer :: blocks, before =>
    enclosingLandmarks blocks outer ++
      .word location (.symbol .whileWord) :: condition.landmarks ++
      Stmt.landmarksAll before.reverse

/-- The landmark of the declaration at hand. -/
def Phase.declarationLandmarks : Phase → List Landmark
  | .declared location | .named location _ | .typing location _ =>
    [.word location (.symbol .varWord)]
  | .typed declaration => [declaration.landmark]
  | _ => []

/-- The landmarks of the statement at hand. -/
def Phase.landmarks : Phase → List Landmark
  | .reading location | .filling location _ => [.word location (.symbol .readWord)]
  | .target location name => [.word location (.name name)]
  | .operand purpose frames => purpose.landmark :: pendingLandmarks frames
  | .operator purpose frames value =>
    purpose.landmark :: (pendingLandmarks frames ++ value.landmarks)
  | _ => []

/-- The landmarks of all that has been read. -/
def State.landmarks (s : State) : List Landmark :=
  s.declarations.reverse.map Declaration.landmark ++ s.phase.declarationLandmarks ++
    (enclosingLandmarks s.blocks s.before ++ s.phase.landmarks)

theorem enclosingLandmarks_cons (blocks : List Block) (before : List Stmt) (statement : Stmt) :
    enclosingLandmarks blocks (statement :: before) =
      enclosingLandmarks blocks before ++ statement.landmarks := by
  cases blocks with
  | nil => simp [enclosingLandmarks, Stmt.landmarksAll]
  | cons block blocks => cases block <;> simp [enclosingLandmarks, Stmt.landmarksAll]

/-- Completing frames leaves the landmarks as they are. -/
theorem landmarks_of_complete {reach : Reach} {n n' : Nat} {frames frames' : List Frame}
    {value value' : Expr} (h : complete reach n frames value = (n', frames', value')) :
    pendingLandmarks frames' ++ value'.landmarks = pendingLandmarks frames ++ value.landmarks := by
  induction frames generalizing n value with
  | nil =>
      cases h
      rfl
  | cons frame frames ih =>
      rw [complete] at h
      split at h
      next hcomplete =>
        rw [ih h]
        cases frame with
        | group => cases hcomplete
        | negate | sum | product => simp [Frame.apply, pendingLandmarks]
      next =>
        cases h
        rfl

/-- A token makes no landmark, or it stands at the one that it makes. -/
theorem Move.landmarks {s s' : State} {t : Token} (h : Move s t s') :
    s'.landmarks = s.landmarks ∨
      ∃ m : Landmark, m.At t ∧ s'.landmarks = s.landmarks ++ [m] := by
  cases h with
  | declare location hphase hblocks hbefore =>
      refine .inr ⟨_, Landmark.word_at location _, ?_⟩
      simp [State.landmarks, hphase, hblocks, hbefore, Phase.declarationLandmarks,
        Phase.landmarks, enclosingLandmarks, Stmt.landmarksAll]
  | declaredName name location hphase | colon location hphase
  | declaredType type location hphase =>
      left
      simp [State.landmarks, hphase, Phase.declarationLandmarks, Phase.landmarks,
        Declaration.landmark]
  | declared location hphase =>
      left
      simp [State.landmarks, hphase, Phase.declarationLandmarks, Phase.landmarks]
  | read location hphase | target name location hphase | print location hphase
  | branch location hphase | loop location hphase | negate location hphase =>
      refine .inr ⟨_, Landmark.word_at location _, ?_⟩
      simp [State.landmarks, hphase, Phase.declarationLandmarks, Phase.landmarks,
        Purpose.landmark, pendingLandmarks]
  | readName name location hphase | equals location hphase | group location hphase =>
      left
      simp [State.landmarks, hphase, Phase.declarationLandmarks, Phase.landmarks,
        Purpose.landmark, pendingLandmarks]
  | readEnd location hphase =>
      left
      simp [State.landmarks, State.push, hphase, Phase.declarationLandmarks, Phase.landmarks,
        enclosingLandmarks_cons, Stmt.landmarks, Stmt.landmark, Stmt.firstWord, Stmt.location]
  | otherwise location hphase hblocks =>
      left
      simp [State.landmarks, hphase, hblocks, enclosingLandmarks, Stmt.landmarksAll]
  | yesEnd location hphase hblocks | noEnd location hphase hblocks
  | bodyEnd location hphase hblocks =>
      left
      simp [State.landmarks, State.leave, hphase, hblocks, Phase.declarationLandmarks,
        Phase.landmarks, enclosingLandmarks, enclosingLandmarks_cons, Stmt.landmarks,
        Stmt.landmark, Stmt.firstWord, Stmt.location, Stmt.landmarksAll]
  | atom location hphase hatom hmark =>
      refine .inr ⟨⟨_, Expr.Atom _⟩, ⟨congrArg Mark.location hmark, hatom⟩, ?_⟩
      simp [State.landmarks, State.operandDone, hphase, Phase.declarationLandmarks,
        Phase.landmarks, Expr.landmarks_of_atom hatom, Expr.location]
  | times location hphase hlevel hcomplete | plus location hphase hlevel hcomplete =>
      left
      have hsame := landmarks_of_complete hcomplete
      simp [State.landmarks, hphase, Phase.declarationLandmarks, Phase.landmarks,
        pendingLandmarks, hsame]
  | groupEnd location hphase hcomplete =>
      left
      obtain rfl := eq_group_of_complete_closer hcomplete
      have hsame := landmarks_of_complete hcomplete
      rw [pendingLandmarks] at hsame
      simp [State.landmarks, hphase, Phase.declarationLandmarks, Phase.landmarks, hsame]
  | printEnd location hphase hcomplete | assignEnd location hphase hcomplete =>
      left
      have hsame := landmarks_of_complete hcomplete
      rw [pendingLandmarks, List.nil_append] at hsame
      simp [State.landmarks, State.push, hphase, Phase.declarationLandmarks, Phase.landmarks,
        enclosingLandmarks_cons, Stmt.landmarks, Stmt.landmark, Stmt.firstWord, Stmt.location,
        Purpose.landmark, hsame]
  | thenWord location hphase hcomplete | doWord location hphase hcomplete =>
      left
      have hsame := landmarks_of_complete hcomplete
      rw [pendingLandmarks, List.nil_append] at hsame
      simp [State.landmarks, State.enter, hphase, Phase.declarationLandmarks, Phase.landmarks,
        enclosingLandmarks, Stmt.landmarksAll, Purpose.landmark, hsame]

/-- Some tokens in turn make landmarks that they stand at, in their order. -/
theorem Moves.landmarks {s s' : State} {tokens : List Token} (h : Moves s tokens s') :
    ∃ added seen, s'.landmarks = s.landmarks ++ added ∧ seen.Sublist tokens ∧
      List.Forall₂ Landmark.At added seen := by
  induction h with
  | nil => exact ⟨[], [], (List.append_nil _).symm, .slnil, .nil⟩
  | @cons s m s' t rest hmove _ ih =>
      obtain ⟨added, seen, hadded, hseen, hat⟩ := ih
      rcases hmove.landmarks with hsame | ⟨mark, hmark, hnew⟩
      · exact ⟨added, seen, by rw [hadded, hsame], hseen.cons t, hat⟩
      · exact ⟨mark :: added, t :: seen, by simp [hadded, hnew], hseen.cons_cons t,
          .cons hmark hat⟩

/-- The landmarks of a program are among the tokens that it was read from. -/
theorem exists_seen_of_parse {host : Host} {s : Sentence} {p : Program}
    (h : parse host s = .ok p) :
    ∃ seen, seen.Sublist s.words ∧ List.Forall₂ Landmark.At p.landmarks seen := by
  obtain ⟨state, hmoves, hfinish⟩ := pass_eq_ok_iff.mp (pass_of_parse h)
  obtain ⟨hphase, hblocks, rfl⟩ := finish_eq_ok_iff.mp hfinish
  obtain ⟨added, seen, hadded, hseen, hat⟩ := hmoves.landmarks
  refine ⟨seen, hseen, ?_⟩
  have hall : state.landmarks = added := hadded
  rw [State.landmarks, hphase, hblocks] at hall
  simpa [Program.landmarks, Phase.declarationLandmarks, Phase.landmarks, enclosingLandmarks,
    ← hall] using hat

end Parser

end ImpToC
