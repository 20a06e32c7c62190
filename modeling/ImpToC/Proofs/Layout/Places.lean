import ImpToC.Compilation
import ImpToC.Proofs.Effects

/-!
# Moving locations

Tokens, trees, faults and records with every location in them moved. What is left
of them when all locations are made one is what does not depend on the layout of a
text: words, trees with the numbers of their expressions, and the causes of faults.
-/

namespace ImpToC

variable (f : Location → Location)

/-! ## Tokens -/

/-- A token at another place. -/
def Token.relocate (t : Token) : Token := ⟨t.lexeme, f t.location⟩

/-- A sentence with its tokens and its end at other places. -/
def Sentence.relocate (s : Sentence) : Sentence :=
  ⟨s.words.map (Token.relocate f), f s.finish, List.forall_mem_map.mpr s.words_ne_finish⟩

@[simp] theorem Token.relocate_lexeme (t : Token) : (t.relocate f).lexeme = t.lexeme := rfl

@[simp] theorem Token.relocate_location (t : Token) : (t.relocate f).location = f t.location := rfl

theorem Sentence.relocate_tokens (s : Sentence) :
    (s.relocate f).tokens = s.tokens.map (Token.relocate f) := by
  simp [tokens, relocate, Token.relocate]

theorem Sentence.upToFinish_relocate (tokens : List Token) :
    upToFinish (tokens.map (Token.relocate f)) = (upToFinish tokens).map (relocate f) := by
  induction tokens with
  | nil => rfl
  | cons t rest ih =>
      rw [List.map_cons, upToFinish, upToFinish, ih]
      by_cases ht : t.lexeme = .finish
      · simp [ht, relocate]
      · cases upToFinish rest <;> simp [ht, relocate]

/-- Whether tokens make a sentence, and how far it goes, does not depend on where they are. -/
theorem Sentence.ofTokens?_relocate (tokens : List Token) :
    ofTokens? (tokens.map (Token.relocate f)) = (ofTokens? tokens).map (relocate f) := by
  unfold ofTokens?
  rw [List.getLast?_map]
  cases tokens.getLast? with
  | none => rfl
  | some t =>
      by_cases ht : t.lexeme = .finish
      · simp [ht, upToFinish_relocate]
      · simp [ht]

/-! ## Trees -/

/-- The number of an expression, which is at another place. -/
def Mark.relocate (m : Mark) : Mark := ⟨m.id, f m.location⟩

/-- An expression with all that is in it at other places. -/
def Expr.relocate : Expr → Expr
  | .name m x => .name (m.relocate f) x
  | .int m value => .int (m.relocate f) value
  | .float m value => .float (m.relocate f) value
  | .string m text => .string (m.relocate f) text
  | .negate m operand => .negate (m.relocate f) operand.relocate
  | .binary m op left right => .binary (m.relocate f) op left.relocate right.relocate

@[simp] theorem Mark.relocate_id (m : Mark) : (m.relocate f).id = m.id := rfl

@[simp] theorem Mark.relocate_location (m : Mark) : (m.relocate f).location = f m.location := rfl

@[simp] theorem Expr.relocate_mark (e : Expr) : (e.relocate f).mark = e.mark.relocate f := by
  cases e <;> rfl

@[simp] theorem Expr.relocate_location (e : Expr) : (e.relocate f).location = f e.location := by
  simp [location]

mutual

/-- A statement with all that is in it at other places. -/
def Stmt.relocate : Stmt → Stmt
  | .read l name => .read (f l) name
  | .print l value => .print (f l) (value.relocate f)
  | .assign l target value => .assign (f l) target (value.relocate f)
  | .branch l condition yes no =>
    .branch (f l) (condition.relocate f) (Stmt.relocateAll yes) (Stmt.relocateAll no)
  | .loop l condition body => .loop (f l) (condition.relocate f) (Stmt.relocateAll body)

/-- Statements with all that is in them at other places. -/
def Stmt.relocateAll : List Stmt → List Stmt
  | [] => []
  | s :: rest => Stmt.relocate s :: Stmt.relocateAll rest

end

@[simp] theorem Stmt.relocateAll_eq_map (statements : List Stmt) :
    Stmt.relocateAll f statements = statements.map (Stmt.relocate f) := by
  induction statements with
  | nil => rfl
  | cons s rest ih => rw [relocateAll, ih, List.map_cons]

/-- A declaration at another place. -/
def Declaration.relocate (d : Declaration) : Declaration := { d with location := f d.location }

@[simp] theorem Declaration.relocate_name (d : Declaration) : (d.relocate f).name = d.name := rfl

/-- A program with all that is in it at other places. -/
def Program.relocate (p : Program) : Program :=
  ⟨p.declarations.map (Declaration.relocate f), p.statements.map (Stmt.relocate f)⟩

/-! ## Faults -/

/-- A cause that names other places. -/
def Cause.relocate : Cause → Cause
  | .unexpectedToken found expected => .unexpectedToken (found.relocate f) expected
  | .duplicateVariable name first => .duplicateVariable name (first.map f)
  | cause => cause

/-- A fault at another place. -/
def Fault.relocate (fault : Fault) : Fault := ⟨fault.cause.relocate f, fault.location.map f⟩

@[simp] theorem Cause.relocate_fault (cause : Cause) (l : Location) :
    (cause.fault l).relocate f = (cause.relocate f).fault (f l) := rfl

@[simp] theorem Fault.relocate_cause (fault : Fault) :
    (fault.relocate f).cause = fault.cause.relocate f := rfl

@[simp] theorem Cause.relocate_family (cause : Cause) :
    (cause.relocate f).family = cause.family := by
  cases cause <;> rfl

/-- No message quotes a location. -/
@[simp] theorem Cause.relocate_message (cause : Cause) :
    (cause.relocate f).message = cause.message := by
  cases cause <;> rfl

/-- The outcome of a stage, a fault or something else, at other places. -/
def Fault.relocateOutcome {α : Type} (move : α → α) : Except Fault α → Except Fault α
  | .ok a => .ok (move a)
  | .error fault => .error (fault.relocate f)

namespace Fault

variable {α : Type} (move : α → α)

@[simp] theorem relocateOutcome_ok (a : α) : relocateOutcome f move (.ok a) = .ok (move a) := rfl

@[simp] theorem relocateOutcome_error (fault : Fault) :
    relocateOutcome f move (.error fault) = .error (fault.relocate f) := rfl

end Fault

/-! ## Nothing moved -/

/-- Keep all locations as they are. -/
def Location.keep (l : Location) : Location := l

theorem Expr.relocate_keep (e : Expr) : e.relocate .keep = e := by
  induction e with
  | name | int | float | string => rfl
  | negate m operand ih => exact congrArg (Expr.negate m) ih
  | binary m op left right ihleft ihright =>
      rw [relocate, ihleft, ihright]
      rfl

mutual

theorem Stmt.relocate_keep : ∀ statement : Stmt, statement.relocate .keep = statement
  | .read .. => rfl
  | .print l value => congrArg (Stmt.print l) value.relocate_keep
  | .assign l target value => congrArg (Stmt.assign l target) value.relocate_keep
  | .branch l condition yes no => by
      rw [relocate, condition.relocate_keep, relocateAll_keep yes, relocateAll_keep no, Location.keep]
  | .loop l condition body => by
      rw [relocate, condition.relocate_keep, relocateAll_keep body, Location.keep]

theorem Stmt.relocateAll_keep : ∀ statements : List Stmt,
    Stmt.relocateAll .keep statements = statements
  | [] => rfl
  | first :: rest => by rw [relocateAll, first.relocate_keep, relocateAll_keep rest]

end

theorem Program.relocate_keep (p : Program) : p.relocate .keep = p := by
  have hdeclarations : p.declarations.map (Declaration.relocate .keep) = p.declarations :=
    List.map_id p.declarations
  have hstatements : p.statements.map (Stmt.relocate .keep) = p.statements := by
    rw [← Stmt.relocateAll_eq_map, Stmt.relocateAll_keep]
  rw [relocate, hdeclarations, hstatements]

theorem Fault.relocate_keep (fault : Fault) : fault.relocate .keep = fault := by
  have hlocation (l : Option Location) : l.map .keep = l := Option.map_id'
  obtain ⟨cause, location⟩ := fault
  cases cause with
  | duplicateVariable name first => rw [relocate, Cause.relocate, hlocation, hlocation]
  | _ => exact congrArg (Fault.mk _) (hlocation location)

/-! ## Records -/

/-- A record of the same variables, declared at other places. -/
def Typing.relocate (t : Typing) : Typing := ⟨t.scope.mapValues (Declaration.relocate f), t.types⟩

@[simp] theorem Typing.relocate_scope (t : Typing) :
    (t.relocate f).scope = t.scope.mapValues (Declaration.relocate f) := rfl

@[simp] theorem Typing.relocate_types (t : Typing) : (t.relocate f).types = t.types := rfl

@[simp] theorem Typing.relocate_symbols (t : Typing) : (t.relocate f).symbols = t.symbols := by
  simp only [symbols, relocate, Table.mapValues, List.map_map, Table.mk.injEq]
  rfl

theorem Typing.relocate_declare (t : Typing) (d : Declaration) :
    Typing.relocate f { t with scope := t.scope.insert d.name d } =
      { t.relocate f with scope := (t.relocate f).scope.insert d.name (d.relocate f) } := by
  simp only [relocate, Table.mapValues_insert]

/-- A compilation that has come as far with the same at other places. -/
def Compilation.relocate : Compilation → Compilation
  | .started => .started
  | .scanned s => .scanned (s.relocate f)
  | .parsed s p => .parsed (s.relocate f) (p.relocate f)
  | .typed s p t => .typed (s.relocate f) (p.relocate f) (t.relocate f)
  | .generated s p t file => .generated (s.relocate f) (p.relocate f) (t.relocate f) file

end ImpToC
