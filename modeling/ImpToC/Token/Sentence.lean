import ImpToC.Token

/-!
# Sentences

What a parser reads: some tokens and the place where they end. A list of tokens
makes a sentence if its last token is the end of a text; what follows the first
such token is not looked at.
-/

namespace ImpToC

/-- Tokens up to the end of a text, none of them the end, and the location of that end. -/
structure Sentence where
  words : List Token
  finish : Location
  words_ne_finish : ∀ t ∈ words, t.lexeme ≠ .finish
  deriving DecidableEq, Repr

instance : Inhabited Sentence := ⟨⟨[], default, List.forall_mem_nil _⟩⟩

namespace Sentence

/-- All tokens of a sentence, the end included. -/
def tokens (s : Sentence) : List Token := s.words ++ [⟨.finish, s.finish⟩]

/-- The tokens before the first end, and where that end is. -/
def upToFinish : List Token → Option Sentence
  | [] => none
  | t :: rest =>
    if h : t.lexeme = .finish then some ⟨[], t.location, List.forall_mem_nil _⟩
    else
      (upToFinish rest).map fun s =>
        ⟨t :: s.words, s.finish, List.forall_mem_cons.mpr ⟨h, s.words_ne_finish⟩⟩

/-- The sentence at the start of a list of tokens whose last one is the end of a
text. -/
def ofTokens? (tokens : List Token) : Option Sentence :=
  match tokens.getLast? with
  | some t => if t.lexeme = .finish then upToFinish tokens else none
  | none => none

/-- What is said of a list of tokens that makes no sentence. -/
def endlessMessage : String := "token sequence must end with an EOF token"

end Sentence

end ImpToC
