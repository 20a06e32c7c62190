import ImpToC.Proofs.Grammar.Nesting
import ImpToC.Proofs.Parsing.Moves

/-!
# Nesting in a pass

What is open in front of a token follows from the tokens before it, and the depth of
a state counts it. So a pass over a sentence comes to no state that is deeper than the
sentence is nested.
-/

namespace ImpToC.Parser

open Grammar

/-- What a frame leaves open. -/
def Frame.opening? : Frame → Option Opening
  | .group => some .group
  | .negate _ => some .negation
  | .sum .. | .product .. => none

/-- What the expression at hand leaves open. -/
def Phase.openings : Phase → List Opening
  | .operand _ frames | .operator _ frames _ => frames.filterMap Frame.opening?
  | _ => []

/-- What is open in a state. -/
def State.openings (s : State) : List Opening :=
  s.phase.openings ++ s.blocks.map fun _ => .block

theorem depth_eq_length_openings (s : State) : s.depth = s.openings.length := by
  have hframes (frames : List Frame) :
      frames.countP Frame.nests = (frames.filterMap Frame.opening?).length := by
    induction frames with
    | nil => rfl
    | cons frame frames ih => cases frame <;>
        simp [Frame.nests, Frame.opening?, List.countP_cons, List.filterMap_cons, ih]
  unfold State.depth State.openings
  cases s.phase <;> simp [Phase.openings, hframes, Nat.add_comm]

/-- In front of an operator, nothing is closed. -/
theorem openings_of_complete {reach : Reach} (hreach : reach ≠ .closer) {n n' : Nat}
    {frames frames' : List Frame} {value value' : Expr}
    (h : complete reach n frames value = (n', frames', value')) :
    frames'.filterMap Frame.opening? = frames.filterMap Frame.opening? := by
  induction frames generalizing n value with
  | nil =>
      cases h
      rfl
  | cons frame frames ih =>
      rw [complete] at h
      split at h
      next hcomplete =>
        have hnone : frame.opening? = none := by
          cases frame with
          | group => cases hcomplete
          | negate => exact absurd (by simpa [Frame.completeAt] using hcomplete) hreach
          | sum | product => rfl
        rw [ih h, List.filterMap_cons_none hnone]
      next =>
        cases h
        rfl

/-- In front of a closer, the negations end that the operand is in. -/
theorem openings_of_complete_closer {n n' : Nat} {frames frames' : List Frame}
    {value value' : Expr} (h : complete .closer n frames value = (n', frames', value'))
    (blocks : List Block) :
    Openings.endNegations (frames.filterMap Frame.opening? ++ blocks.map fun _ => .block) =
      frames'.filterMap Frame.opening? ++ blocks.map fun _ => .block := by
  induction frames generalizing n value with
  | nil =>
      cases h
      cases blocks <;> simp [Openings.endNegations]
  | cons frame frames ih =>
      cases frame with
      | group =>
          cases h
          simp [Openings.endNegations, Frame.opening?]
      | negate | sum | product => exact ih h

/-- Whether an operand has just ended, inside an expression. -/
def Phase.behindOperand? : Phase → Option Bool
  | .operand .. => some false
  | .operator .. => some true
  | _ => none

/-- What is open behind the tokens before a state is what is open in the state. -/
structure Tracks (o : Openings) (s : State) : Prop where
  opened : o.opened = s.openings
  behindOperand : ∀ behind ∈ s.phase.behindOperand?, o.behindOperand = behind

theorem Tracks.outside {o : Openings} {s : State} (hopened : o.opened = s.openings)
    (hnone : s.phase.behindOperand? = none) : Tracks o s :=
  ⟨hopened, by simp [hnone]⟩

theorem Tracks.inside {o : Openings} {s : State} (hopened : o.opened = s.openings)
    (hsome : s.phase.behindOperand? = some o.behindOperand) : Tracks o s :=
  ⟨hopened, by simp [hsome]⟩

theorem Tracks.start : Tracks .start .start := .outside rfl rfl

/-- Outside expressions only blocks are open. -/
theorem endNegations_blocks (blocks : List Block) :
    Openings.endNegations (blocks.map fun _ => .block) = blocks.map fun _ => .block := by
  cases blocks <;> simp [Openings.endNegations]

/-- Behind each token, what is open stays what is open in the state. -/
theorem Tracks.move {o : Openings} {s s' : State} {t : Token} (h : Tracks o s)
    (hmove : Move s t s') : Tracks (o.next t.kind) s' := by
  have hopened := h.opened
  unfold State.openings at hopened
  cases hmove with
  | declare location hphase | declaredName name location hphase | colon location hphase
  | read location hphase | readName name location hphase | target name location hphase =>
      rw [hphase] at hopened
      exact .outside hopened rfl
  | declaredType type location hphase =>
      rw [hphase] at hopened
      cases type <;> exact .outside hopened rfl
  | declared location hphase | readEnd location hphase =>
      rw [hphase] at hopened
      have hended : Openings.endNegations o.opened = s.blocks.map fun _ => Opening.block := by
        rw [hopened]
        exact endNegations_blocks s.blocks
      exact .outside hended rfl
  | equals location hphase | print location hphase | branch location hphase
  | loop location hphase =>
      rw [hphase] at hopened
      exact .inside hopened rfl
  | otherwise location hphase hblocks =>
      rw [hphase, hblocks] at hopened
      refine .outside ?_ (by rw [hphase]; rfl)
      rw [State.openings, hphase]
      exact hopened
  | yesEnd location hphase hblocks | noEnd location hphase hblocks
  | bodyEnd location hphase hblocks =>
      rw [hphase, hblocks] at hopened
      exact .outside (congrArg List.tail hopened) rfl
  | atom location hphase hatom =>
      rw [hphase] at hopened
      cases hatom <;> exact .inside hopened rfl
  | group location hphase =>
      rw [hphase] at hopened
      exact .inside (congrArg (Opening.group :: ·) hopened) rfl
  | negate location hphase =>
      -- The same word is an operator behind an operand, so its place has to be known.
      have hbehind := h.behindOperand false (by rw [hphase]; rfl)
      rw [hphase] at hopened
      have hnext : (o.next (.symbol .minus)).opened = .negation :: o.opened := by
        simp [Openings.next, hbehind]
      exact .inside (hnext.trans (congrArg (Opening.negation :: ·) hopened)) rfl
  | @times purpose frames frames' value value' op nextId location hphase hlevel hcomplete =>
      have hframes := openings_of_complete (by simp) hcomplete
      rw [hphase, Phase.openings, ← hframes] at hopened
      cases op <;> first | exact .inside hopened rfl | cases hlevel
  | @plus purpose frames frames' value value' op nextId location hphase hlevel hcomplete =>
      have hframes := openings_of_complete (by simp) hcomplete
      have hbehind := h.behindOperand true (by rw [hphase]; rfl)
      rw [hphase, Phase.openings, ← hframes] at hopened
      have hnext : o.next (.symbol op.symbol) = ⟨o.opened, false⟩ := by
        cases op with
        | add => rfl
        | sub => simp [Openings.next, BinOp.symbol, hbehind]
        | mul | div => cases hlevel
      have hafter : Tracks (o.next (.symbol op.symbol))
          { s with phase := .operand purpose (.sum op value' :: frames'), nextId := nextId } := by
        rw [hnext]
        exact .inside hopened rfl
      exact hafter
  | groupEnd location hphase hcomplete =>
      have hframes := openings_of_complete_closer hcomplete s.blocks
      rw [hphase, Phase.openings] at hopened
      rw [← hopened, eq_group_of_complete_closer hcomplete] at hframes
      exact .inside (congrArg List.tail hframes) rfl
  | printEnd location hphase hcomplete | assignEnd location hphase hcomplete =>
      have hframes := openings_of_complete_closer hcomplete s.blocks
      rw [hphase, Phase.openings] at hopened
      rw [← hopened] at hframes
      exact .outside hframes rfl
  | thenWord location hphase hcomplete | doWord location hphase hcomplete =>
      have hframes := openings_of_complete_closer hcomplete s.blocks
      rw [hphase, Phase.openings] at hopened
      rw [← hopened] at hframes
      exact .outside (congrArg (Opening.block :: ·) hframes) rfl

/-! ## Bounds -/

theorem depth_le_of_moves {o : Openings} {s s' : State} {words : List Token} (htracks : Tracks o s)
    (h : Moves s words s') : s'.depth ≤ o.deepest (words.map Token.kind) := by
  induction h generalizing o with
  | nil => rw [depth_eq_length_openings, ← htracks.opened]; exact o.length_le_deepest _
  | cons hmove _ ih => exact Nat.le_trans (ih (htracks.move hmove)) (Nat.le_max_right _ _)

/-- A pass reads these tokens at the start of a sentence and comes to the place behind them. -/
def Reaches (s : Sentence) (front : List Token) : Prop :=
  front <+: s.words ∧ ∃ m, Moves .start front m

/-- At no place that is reached in a sentence is more open than a bound allows. -/
def Within (n : Nat) (s : Sentence) : Prop :=
  ∀ front, Reaches s front → nesting (front.map Token.kind) ≤ n

variable {n : Nat} {s : Sentence}

theorem Within.mono {n' : Nat} (h : Within n s) (hle : n ≤ n') : Within n' s :=
  fun front hfront => Nat.le_trans (h front hfront) hle

theorem Within.depth_le {front : List Token} {m : State} (h : Within n s)
    (hfront : front <+: s.words) (hmoves : Moves .start front m) : m.depth ≤ n :=
  Nat.le_trans (depth_le_of_moves .start hmoves) (h front ⟨hfront, m, hmoves⟩)

/-- Every opening takes a token. -/
theorem within_length (s : Sentence) : Within s.words.length s := by
  rintro front ⟨hfront, -⟩
  have hdeepest := Openings.start.deepest_le_length (front.map Token.kind)
  rw [List.length_map] at hdeepest
  have hlength := hfront.length_le
  have hstart : Openings.start.opened.length = 0 := rfl
  unfold nesting
  omega

/-- A sentence reaches no deeper than its words are nested. -/
theorem within_nesting (s : Sentence) : Within (nesting (s.words.map Token.kind)) s := by
  rintro front ⟨⟨rest, hwords⟩, -⟩
  rw [← hwords, List.map_append]
  exact Openings.start.deepest_append_left_le _ _

end ImpToC.Parser
