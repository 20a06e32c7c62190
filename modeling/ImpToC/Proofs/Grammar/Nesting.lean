import ImpToC.Token

/-!
# Nesting

How many parentheses, negations and blocks are open at once in a list of kinds of
token. A negation is open until the expression ends that it is in: at the
parenthesis around it, or at the end of its statement or condition. A block is open
from the condition in front of it to its last word.
-/

namespace ImpToC.Grammar

/-- What can be open. -/
inductive Opening
  | group
  | negation
  | block
  deriving DecidableEq

/-- What is open at a place, the innermost first, and whether an operand ends there:
a minus sign behind an operand is no negation. -/
structure Openings where
  opened : List Opening
  behindOperand : Bool

namespace Openings

/-- The place in front of a list of tokens. -/
def start : Openings := ⟨[], false⟩

/-- The end of the negations that the expression at a place is in. -/
def endNegations (opened : List Opening) : List Opening := opened.dropWhile (· = .negation)

/-- The place behind one token more. -/
def next (o : Openings) : Kind → Openings
  | .symbol .openParen => ⟨.group :: o.opened, false⟩
  | .symbol .closeParen => ⟨(endNegations o.opened).tail, true⟩
  | .symbol .minus =>
    ⟨if o.behindOperand then o.opened else .negation :: o.opened, false⟩
  | .symbol .semicolon => ⟨endNegations o.opened, false⟩
  | .symbol .thenWord | .symbol .doWord => ⟨.block :: endNegations o.opened, false⟩
  | .symbol .endWord | .symbol .doneWord => ⟨o.opened.tail, false⟩
  | .int | .float | .string | .name => ⟨o.opened, true⟩
  | _ => ⟨o.opened, false⟩

/-- The most that is open at once from a place on. -/
def deepest (o : Openings) : List Kind → Nat
  | [] => o.opened.length
  | kind :: rest => max o.opened.length ((o.next kind).deepest rest)

theorem length_le_deepest (o : Openings) (kinds : List Kind) :
    o.opened.length ≤ o.deepest kinds := by
  cases kinds with
  | nil => exact Nat.le_refl _
  | cons kind rest => exact Nat.le_max_left _ _

/-- A token opens at most one construct more. -/
theorem length_opened_next_le (o : Openings) (kind : Kind) :
    (o.next kind).opened.length ≤ o.opened.length + 1 := by
  have hended : (endNegations o.opened).length ≤ o.opened.length :=
    (List.dropWhile_suffix _).length_le
  have htail := (endNegations o.opened).length_tail
  unfold next
  split
  case h_3 => split <;> simp
  all_goals simp only [List.length_cons, List.length_tail] at htail ⊢
  all_goals omega

theorem deepest_le_length (o : Openings) (kinds : List Kind) :
    o.deepest kinds ≤ o.opened.length + kinds.length := by
  induction kinds generalizing o with
  | nil => exact Nat.le_refl _
  | cons kind rest ih =>
      have hnext := o.length_opened_next_le kind
      have hrest := ih (o.next kind)
      rw [deepest, List.length_cons]
      omega

theorem deepest_append_left_le (o : Openings) (front rest : List Kind) :
    o.deepest front ≤ o.deepest (front ++ rest) := by
  induction front generalizing o with
  | nil => exact o.length_le_deepest rest
  | cons kind front ih =>
      have hrest := ih (o.next kind)
      rw [List.cons_append, deepest, deepest]
      omega

end Openings

/-- The most that is open at once in a list of kinds. -/
def nesting (kinds : List Kind) : Nat := Openings.start.deepest kinds

example : nesting [.symbol .printWord, .symbol .minus, .symbol .openParen, .symbol .minus, .int,
    .symbol .minus, .int, .symbol .closeParen, .symbol .semicolon] = 3 := by decide

end ImpToC.Grammar
