import ImpToC.Proofs.Grammar.Trees
import ImpToC.Proofs.Scanning.Words

/-!
# Spelt programs

The names and the strings of a program are words of the lexical grammar if all words are that
the program is written with. Any text made from such a program can rely on this.
-/

namespace ImpToC

/-- The names and strings of an expression are words, in the language with strings or in
the one without. -/
def Expr.Spelt (strings : Bool) : Expr → Prop
  | .name _ text => Lexeme.Word strings (.name text)
  | .string _ text => Lexeme.Word strings (.string text)
  | .int .. | .float .. => True
  | .negate _ operand => operand.Spelt strings
  | .binary _ _ left right => left.Spelt strings ∧ right.Spelt strings

mutual

/-- The names and strings of a statement are words. -/
def Stmt.Spelt (strings : Bool) : Stmt → Prop
  | .read _ name => Lexeme.Word strings (.name name)
  | .print _ value => value.Spelt strings
  | .assign _ target value => Lexeme.Word strings (.name target) ∧ value.Spelt strings
  | .branch _ condition yes no =>
    condition.Spelt strings ∧ Stmt.SpeltAll strings yes ∧ Stmt.SpeltAll strings no
  | .loop _ condition body => condition.Spelt strings ∧ Stmt.SpeltAll strings body

/-- The names and strings of some statements are words. -/
def Stmt.SpeltAll (strings : Bool) : List Stmt → Prop
  | [] => True
  | s :: rest => Stmt.Spelt strings s ∧ Stmt.SpeltAll strings rest

end

/-- The names and strings of a program are words. -/
def Program.Spelt (strings : Bool) (p : Program) : Prop :=
  (∀ d ∈ p.declarations, Lexeme.Word strings (.name d.name)) ∧
    Stmt.SpeltAll strings p.statements

variable {strings : Bool} {words : List Lexeme}

theorem Expr.Atom.spelt {e : Expr} {word : Lexeme} (h : Atom e word) (hword : word.Word strings) :
    e.Spelt strings := by
  cases h with
  | name | string => exact hword
  | int | float => trivial

theorem Expr.Written.spelt {level : Grammar.Level} {ends : Bool} {e : Expr}
    (h : Written level ends e words) (hwords : ∀ w ∈ words, w.Word strings) :
    e.Spelt strings := by
  induction h with
  | atom hatom => exact hatom.spelt (hwords _ List.mem_cons_self)
  | group _ ih => exact ih fun w hw => hwords w (by simp [hw])
  | negate _ _ ih => exact ih fun w hw => hwords w (by simp [hw])
  | factor _ ih | product _ ih => exact ih hwords
  | times _ _ _ _ ihleft ihright | plus _ _ _ _ ihleft ihright =>
      exact ⟨ihleft fun w hw => hwords w (by simp [hw]),
        ihright fun w hw => hwords w (by simp [hw])⟩

theorem Stmt.Written.spelt {statements : List Stmt} (h : Stmt.Written statements words)
    (hwords : ∀ w ∈ words, w.Word strings) : Stmt.SpeltAll strings statements := by
  induction h with
  | nil => trivial
  | read _ _ _ ih =>
      exact ⟨hwords _ (by simp), ih fun w hw => hwords w (by simp [hw])⟩
  | print _ hvalue _ ih =>
      exact ⟨hvalue.spelt fun w hw => hwords w (by simp [hw]),
        ih fun w hw => hwords w (by simp [hw])⟩
  | assign _ _ hvalue _ ih =>
      exact ⟨⟨hwords _ (by simp), hvalue.spelt fun w hw => hwords w (by simp [hw])⟩,
        ih fun w hw => hwords w (by simp [hw])⟩
  | branch _ hcondition _ _ ihyes ih =>
      exact ⟨⟨hcondition.spelt fun w hw => hwords w (by simp [hw]),
        ihyes fun w hw => hwords w (by simp [hw]), trivial⟩,
        ih fun w hw => hwords w (by simp [hw])⟩
  | choice _ hcondition _ _ _ ihyes ihno ih =>
      exact ⟨⟨hcondition.spelt fun w hw => hwords w (by simp [hw]),
        ihyes fun w hw => hwords w (by simp [hw]), ihno fun w hw => hwords w (by simp [hw])⟩,
        ih fun w hw => hwords w (by simp [hw])⟩
  | loop _ hcondition _ _ ihbody ih =>
      exact ⟨⟨hcondition.spelt fun w hw => hwords w (by simp [hw]),
        ihbody fun w hw => hwords w (by simp [hw])⟩, ih fun w hw => hwords w (by simp [hw])⟩

theorem Program.Written.name_mem {p : Program} (h : p.Written words) :
    ∀ d ∈ p.declarations, .name d.name ∈ words := by
  intro d hd
  obtain ⟨after, -, rfl⟩ := h
  refine List.mem_append_left _ (List.mem_flatMap.mpr ⟨d, hd, ?_⟩)
  simp [Declaration.words]

/-- A program written with words is spelt with words. -/
theorem Program.Written.spelt {p : Program} (h : p.Written words)
    (hwords : ∀ w ∈ words, w.Word strings) : p.Spelt strings := by
  refine ⟨fun d hd => hwords _ (h.name_mem d hd), ?_⟩
  obtain ⟨after, hstatements, rfl⟩ := h
  exact hstatements.spelt fun w hw => hwords w (List.mem_append_right _ hw)

end ImpToC
