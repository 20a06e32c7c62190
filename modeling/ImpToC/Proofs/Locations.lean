import Mathlib.Data.List.Forall2
import ImpToC.Proofs.Number.Digits
import ImpToC.Proofs.Parsing.Landmarks
import ImpToC.Proofs.Parsing.Numbers
import ImpToC.Proofs.Scanning.Places
import ImpToC.Proofs.Stages

/-!
# Locations in a source

Reading a source where a part of its program is located finds the first word of that part.
Parts that begin with a word of their own are located in the order of the text.
-/

namespace ImpToC

/-! ## Blocks -/

mutual

/-- The blocks in a statement, outer ones first. -/
def Stmt.blocks : Stmt → List (List Stmt)
  | .read .. | .print .. | .assign .. => []
  | .branch _ _ yes no => yes :: Stmt.blocksAll yes ++ no :: Stmt.blocksAll no
  | .loop _ _ body => body :: Stmt.blocksAll body

/-- The blocks in some statements, outer ones first. -/
def Stmt.blocksAll : List Stmt → List (List Stmt)
  | [] => []
  | s :: rest => Stmt.blocks s ++ Stmt.blocksAll rest

end

/-- The blocks of a program: its statements, and the blocks in them. -/
def Program.blocks (p : Program) : List (List Stmt) := p.statements :: Stmt.blocksAll p.statements

/-! ## Landmarks of parts -/

namespace Stmt

theorem landmarks_eq_cons (s : Stmt) : ∃ inner, s.landmarks = s.landmark :: inner := by
  cases s <;> exact ⟨_, rfl⟩

theorem map_landmark_sublist (block : List Stmt) :
    (block.map landmark).Sublist (landmarksAll block) := by
  induction block with
  | nil => exact .slnil
  | cons s rest ih =>
      obtain ⟨inner, hinner⟩ := s.landmarks_eq_cons
      rw [landmarksAll, hinner]
      exact (ih.trans (List.sublist_append_right inner _)).cons_cons s.landmark

end Stmt

mutual

theorem Stmt.landmarksAll_sublist_of_mem_blocks : ∀ (s : Stmt), ∀ block ∈ s.blocks,
    (Stmt.landmarksAll block).Sublist s.landmarks
  | .read .. | .print .. | .assign .. => nofun
  | .branch location condition yes no => by
      intro block hblock
      rw [Stmt.blocks, List.mem_append, List.mem_cons, List.mem_cons] at hblock
      rw [Stmt.landmarks]
      apply List.Sublist.trans _ (List.sublist_append_right _ _)
      rcases hblock with (rfl | hyes) | (rfl | hno)
      · exact List.sublist_append_left _ _
      · exact (Stmt.landmarksAll_sublist_of_mem_blocksAll yes block hyes).trans
          (List.sublist_append_left _ _)
      · exact List.sublist_append_right _ _
      · exact (Stmt.landmarksAll_sublist_of_mem_blocksAll no block hno).trans
          (List.sublist_append_right _ _)
  | .loop location condition body => by
      intro block hblock
      rw [Stmt.landmarks]
      apply List.Sublist.trans _ (List.sublist_append_right _ _)
      rcases List.mem_cons.mp hblock with rfl | hbody
      · exact .refl _
      · exact Stmt.landmarksAll_sublist_of_mem_blocksAll body block hbody

theorem Stmt.landmarksAll_sublist_of_mem_blocksAll : ∀ (statements : List Stmt),
    ∀ block ∈ Stmt.blocksAll statements,
      (Stmt.landmarksAll block).Sublist (Stmt.landmarksAll statements)
  | [] => nofun
  | s :: rest => by
      intro block hblock
      rcases List.mem_append.mp hblock with hfirst | hrest
      · exact (Stmt.landmarksAll_sublist_of_mem_blocks s block hfirst).trans
          (List.sublist_append_left _ _)
      · exact (Stmt.landmarksAll_sublist_of_mem_blocksAll rest block hrest).trans
          (List.sublist_append_right _ _)

end

mutual

theorem Stmt.filterMap_preorder_sublist : ∀ s : Stmt,
    (s.preorder.filterMap Expr.landmark?).Sublist s.landmarks
  | .read .. => List.nil_sublist _
  | .print .. | .assign .. => List.sublist_cons_self _ _
  | .branch _ condition yes no => by
      rw [Stmt.preorder, Stmt.landmarks, List.filterMap_append, List.filterMap_append]
      exact ((List.sublist_cons_self _ _).append
        ((Stmt.filterMap_preorderAll_sublist yes).append (Stmt.filterMap_preorderAll_sublist no)))
  | .loop _ condition body => by
      rw [Stmt.preorder, Stmt.landmarks, List.filterMap_append]
      exact (List.sublist_cons_self _ _).append (Stmt.filterMap_preorderAll_sublist body)

theorem Stmt.filterMap_preorderAll_sublist : ∀ statements : List Stmt,
    ((Stmt.preorderAll statements).filterMap Expr.landmark?).Sublist
      (Stmt.landmarksAll statements)
  | [] => .slnil
  | s :: rest => by
      rw [Stmt.preorderAll, Stmt.landmarksAll, List.filterMap_append]
      exact (Stmt.filterMap_preorder_sublist s).append (Stmt.filterMap_preorderAll_sublist rest)

end

namespace Program

variable (p : Program)

theorem declarations_sublist_landmarks :
    (p.declarations.map Declaration.landmark).Sublist p.landmarks :=
  List.sublist_append_left _ _

theorem block_sublist_landmarks {block : List Stmt} (h : block ∈ p.blocks) :
    (block.map Stmt.landmark).Sublist p.landmarks := by
  apply (Stmt.map_landmark_sublist block).trans
  apply List.Sublist.trans _ (List.sublist_append_right _ _)
  rcases List.mem_cons.mp h with rfl | hinner
  · exact .refl _
  · exact Stmt.landmarksAll_sublist_of_mem_blocksAll p.statements block hinner

theorem expressions_sublist_landmarks :
    (p.expressions.filterMap Expr.landmark?).Sublist p.landmarks := by
  rw [p.expressions_eq_preorderAll]
  exact (Stmt.filterMap_preorderAll_sublist p.statements).trans (List.sublist_append_right _ _)

end Program

namespace Expr

/-- The expression begins with a word of its own: it is one word or a negation. -/
def isLeading : Expr → Bool
  | .name .. | .int .. | .float .. | .string .. | .negate .. => true
  | .binary .. => false

theorem map_location_landmark? (e : Expr) :
    e.landmark?.map Landmark.location = if e.isLeading then some e.location else none := by
  cases e <;> rfl

theorem map_location_filter (es : List Expr) :
    (es.filter isLeading).map location = (es.filterMap landmark?).map Landmark.location := by
  rw [List.map_filterMap]
  induction es with
  | nil => rfl
  | cons e rest ih =>
      rw [List.filterMap_cons, map_location_landmark?, ← ih, List.filter_cons]
      cases e.isLeading <;> rfl

/-- What is found where an expression is located. -/
def FoundIn (source : Source) : Expr → Prop
  | .name m x => source.Shows m.location (.name x)
  | .int m value => ∃ digits, source.ShowsNumber m.location digits ∧ digits ≠ [] ∧
      (∀ c ∈ digits, isDigit c = true) ∧ Number.ofDigits digits = value
  | .float m value => ∃ whole fraction,
      source.ShowsNumber m.location (whole ++ '.' :: fraction) ∧ whole ≠ [] ∧ fraction ≠ [] ∧
      (∀ c ∈ whole ++ fraction, isDigit c = true) ∧
      (Number.Decimal.ofPlain (whole ++ '.' :: fraction)).nearest? = some value
  | .string m text => source.Shows m.location (.string text)
  | .negate m _ => source.Shows m.location (.symbol .minus)
  | .binary m _ left _ => m.location = left.location

end Expr

/-! ## Words and values -/

theorem Literal.ofDigits_of_int? {digits : IntText} {value : Nat} (h : int? digits = some value) :
    Number.ofDigits digits.text.toList = value := by
  unfold int? at h
  dsimp only at h
  split at h
  next =>
    cases h
    exact (Number.ofDigits_dropZeros digits.text.toList).symm
  next => cases h

namespace Source

variable {source : Source} {l : Location}

/-- A whole number is the value of all the digits at its place. -/
theorem Shows.int {literal : IntText} {value : Nat} (h : source.Shows l (.int literal))
    (hvalue : Literal.int? literal = some value) :
    ∃ digits, source.ShowsNumber l digits ∧ digits ≠ [] ∧
      (∀ c ∈ digits, isDigit c = true) ∧ Number.ofDigits digits = value := by
  have hword := h.word
  cases hword with
  | @int digits hne hdigits =>
      refine ⟨digits, ?_, hne, hdigits, ?_⟩
      · exact h.number String.toList_ofList (List.head?_eq_some_head hne)
          (hdigits _ (List.head_mem hne)) (List.getLast?_eq_some_getLast hne)
          (hdigits _ (List.getLast_mem hne))
      · rw [← Literal.ofDigits_of_int? hvalue, IntText.ofDigits_text, String.toList_ofList]

/-- A number with a point is the value of all the digits around the point at its place. -/
theorem Shows.float {literal : FloatText} {value : Number.Magnitude}
    (h : source.Shows l (.float literal)) (hvalue : Literal.float? literal = some value) :
    ∃ whole fraction, source.ShowsNumber l (whole ++ '.' :: fraction) ∧ whole ≠ [] ∧
      fraction ≠ [] ∧ (∀ c ∈ whole ++ fraction, isDigit c = true) ∧
      (Number.Decimal.ofPlain (whole ++ '.' :: fraction)).nearest? = some value := by
  have hword := h.word
  cases hword with
  | @float whole fraction hwhole hdigits hfraction =>
      unfold Literal.float? at hvalue
      rw [FloatText.ofParts_text, String.toList_ofList] at hvalue
      split at hvalue
      next => cases hvalue
      next hpoint =>
        have hne : fraction ≠ [] := by
          rintro rfl
          exact hpoint List.getLast?_concat
        refine ⟨whole, fraction, ?_, hwhole, hne, List.forall_mem_append.mpr ⟨hdigits, hfraction⟩,
          hvalue⟩
        apply h.number String.toList_ofList _ (hdigits _ (List.head_mem hwhole)) _
          (hfraction _ (List.getLast_mem hne))
        · rw [List.head?_append_of_ne_nil _ hwhole]
          exact List.head?_eq_some_head hwhole
        · rw [List.append_cons, List.getLast?_append_of_ne_nil _ hne]
          exact List.getLast?_eq_some_getLast hne

end Source

/-- What makes an expression is found at its landmark, if it has one of its own. -/
theorem Expr.foundIn_of_landmark? {source : Source} {e : Expr} (hanchored : e.Anchored)
    (h : ∀ m ∈ e.landmark?, ∃ w, m.Shows w ∧ source.Shows m.location w) : e.FoundIn source := by
  cases e with
  | name | string =>
      obtain ⟨_, hatom, hfound⟩ := h _ rfl
      cases hatom
      exact hfound
  | int =>
      obtain ⟨_, hatom, hfound⟩ := h _ rfl
      cases hatom with
      | int _ hvalue => exact hfound.int hvalue
  | float =>
      obtain ⟨_, hatom, hfound⟩ := h _ rfl
      cases hatom with
      | float _ hvalue => exact hfound.float hvalue
  | negate =>
      obtain ⟨_, rfl, hfound⟩ := h _ rfl
      exact hfound
  | binary => exact hanchored

namespace Source

variable {source : Source} {s : Sentence} {p : Program}

/-- A word stands at each landmark of a program, and the landmarks follow the text. -/
theorem shows_landmarks {host : Host} (hscan : source.scan = .ok s)
    (hparse : Parser.parse host s = .ok p) :
    (∀ m ∈ p.landmarks, ∃ w, m.Shows w ∧ source.Shows m.location w) ∧
      (p.landmarks.map Landmark.location).Pairwise Location.Before := by
  obtain ⟨seen, hseen, hat⟩ := Parser.exists_seen_of_parse hparse
  constructor
  · intro m hm
    obtain ⟨t, ht, hmark⟩ := Landmark.exists_mem_of_at hat m hm
    refine ⟨t.lexeme, hmark.shows, ?_⟩
    rw [hmark.location]
    exact shows_of_scan hscan t (hseen.subset ht)
  · rw [Landmark.map_location_of_at hat, List.pairwise_map]
    exact (Sentence.ofSource_eq_ok_iff.mp hscan).pairwise_before.sublist hseen

/-- Every location of a program that is read from a source points at what it belongs to. There
the word of a declaration is found, the first word of a statement, a name, all the digits that
make a number, a text in its quotes, or the sign of a negation; an operation between two operands
is located where the left one is. Declarations, the statements of a block, and all expressions
but these operations follow each other in the text. -/
theorem locations_of_compile [Host] (h : source.compile .parse = .ok (.parsed s p)) :
    (∀ d ∈ p.declarations, source.Shows d.location (.symbol .varWord)) ∧
      (∀ block ∈ p.blocks, ∀ statement ∈ block,
        source.Shows statement.location statement.firstWord) ∧
      (∀ e ∈ p.expressions, e.FoundIn source) ∧
      ((p.expressions.filter Expr.isLeading).map Expr.location).Pairwise Location.Before ∧
      (p.declarations.map Declaration.location).Pairwise Location.Before ∧
      ∀ block ∈ p.blocks, (block.map Stmt.location).Pairwise Location.Before := by
  obtain ⟨_, _, hscan, hparse, heq⟩ := compile_parse_eq_ok_iff.mp h
  cases heq
  obtain ⟨hshows, hordered⟩ := shows_landmarks hscan hparse
  have hword {l : Location} {w : Lexeme} (hm : .word l w ∈ p.landmarks) : source.Shows l w := by
    obtain ⟨_, rfl, hfound⟩ := hshows _ hm
    exact hfound
  have hordered' {marks : List Landmark} (hmarks : marks.Sublist p.landmarks) :
      (marks.map Landmark.location).Pairwise Location.Before :=
    hordered.sublist (hmarks.map Landmark.location)
  refine ⟨?_, ?_, ?_, ?_, ?_, ?_⟩
  · intro d hd
    exact hword (p.declarations_sublist_landmarks.subset (List.mem_map_of_mem hd))
  · intro block hblock statement hstatement
    exact hword ((p.block_sublist_landmarks hblock).subset (List.mem_map_of_mem hstatement))
  · intro e he
    apply Expr.foundIn_of_landmark?
    · exact Parser.anchored_of_parse hparse e (p.expressions_perm.mem_iff.mp he)
    · intro m hm
      apply hshows
      exact p.expressions_sublist_landmarks.subset (List.mem_filterMap.mpr ⟨e, he, hm⟩)
  · rw [Expr.map_location_filter]
    exact hordered' p.expressions_sublist_landmarks
  · have hmarks := hordered' p.declarations_sublist_landmarks
    rwa [List.map_map] at hmarks
  · intro block hblock
    have hmarks := hordered' (p.block_sublist_landmarks hblock)
    rwa [List.map_map] at hmarks

/-- Neither parentheses nor leading zeros nor a comment are in the way: the sum is located where
`007` is. -/
theorem locations_of_compile_sum :
    let source : Source := ⟨"a", true, "var x : int; # 1\nx = (007 + -x) * 2.50;".toList⟩
    ∃ s p, @source.compile .unlimited .parse = .ok (.parsed s p) ∧
      p.expressions.map Expr.location =
        [⟨2, 6, "a"⟩, ⟨2, 6, "a"⟩, ⟨2, 6, "a"⟩, ⟨2, 12, "a"⟩, ⟨2, 13, "a"⟩, ⟨2, 18, "a"⟩] ∧
      (∀ e ∈ p.expressions, e.FoundIn source) ∧
      ((p.expressions.filter Expr.isLeading).map Expr.location).Pairwise Location.Before := by
  intro source
  let places : List Location :=
    [⟨2, 6, "a"⟩, ⟨2, 6, "a"⟩, ⟨2, 6, "a"⟩, ⟨2, 12, "a"⟩, ⟨2, 13, "a"⟩, ⟨2, 18, "a"⟩]
  have hmade : ((@source.compile .unlimited .parse).toOption.bind Compilation.program?).map
      (fun p => p.expressions.map Expr.location) = some places := by
    decide +kernel
  obtain ⟨p, hp, hplaces⟩ := Option.map_eq_some_iff.mp hmade
  obtain ⟨s, hs⟩ := @exists_parsed_of_program? .unlimited source p hp
  obtain ⟨-, -, hfound, hordered, -⟩ := @locations_of_compile source s p .unlimited hs
  exact ⟨s, p, hs, hplaces, hfound, hordered⟩

end Source

end ImpToC
