import ImpToC.Proofs.Grammar.Rules
import ImpToC.Syntax
import ImpToC.Syntax.Literal

/-!
# The words of a program

Which words a program is written with. Here the grammar is no longer ambiguous:
products bind tighter than sums, both group to the left, and no operator follows
the words of a negation, so that a negation takes all that follows it. Locations
and numbers play no part, and a program without them is called bare.
-/

namespace ImpToC

/-- The sign of an operator as a word. -/
def BinOp.symbol : BinOp → Symbol
  | .add => .plus
  | .sub => .minus
  | .mul => .star
  | .div => .slash

/-- The keyword of a type. -/
def Ty.symbol : Ty → Symbol
  | .int => .intWord
  | .float => .floatWord
  | .string => .stringWord

namespace Grammar

/-- What an expression is on its outside: a factor, a product or a sum. -/
inductive Level
  | factor
  | product
  | sum
  deriving DecidableEq

end Grammar

open Grammar

/-- The level of the operations of an operator. -/
def BinOp.level : BinOp → Level
  | .add | .sub => .sum
  | .mul | .div => .product

/-- A literal that stands for a number which can be written. -/
def Lexeme.Valid : Lexeme → Prop
  | .int digits => (Literal.int? digits).isSome
  | .float decimal => (Literal.float? decimal).isSome
  | _ => True

namespace Expr

/-- An expression of one word. -/
inductive Atom : Expr → Lexeme → Prop
  | name (mark : Mark) (text : String) : Atom (.name mark text) (.name text)
  | int (mark : Mark) {digits : IntText} {value : Nat} :
      Literal.int? digits = some value → Atom (.int mark value) (.int digits)
  | float (mark : Mark) {decimal : FloatText} {value : Number.Magnitude} :
      Literal.float? decimal = some value → Atom (.float mark value) (.float decimal)
  | string (mark : Mark) (text : String) : Atom (.string mark text) (.string text)

/-- The words of an expression at a level. The flag tells whether the last factor
of these words is a negation: then no operator can follow. -/
inductive Written : Level → Bool → Expr → List Lexeme → Prop
  | atom {e : Expr} {word : Lexeme} : Atom e word → Written .factor false e [word]
  | group {ends : Bool} {e : Expr} {words : List Lexeme} :
      Written .sum ends e words →
      Written .factor false e (.symbol .openParen :: words ++ [.symbol .closeParen])
  | negate (mark : Mark) {ends : Bool} {e : Expr} {words : List Lexeme} :
      Written .sum ends e words → Written .factor true (.negate mark e) (.symbol .minus :: words)
  | factor {ends : Bool} {e : Expr} {words : List Lexeme} :
      Written .factor ends e words → Written .product ends e words
  | times (mark : Mark) {op : BinOp} {ends : Bool} {left right : Expr} {first rest : List Lexeme} :
      op.level = .product → Written .product false left first → Written .factor ends right rest →
      Written .product ends (.binary mark op left right) (first ++ .symbol op.symbol :: rest)
  | product {ends : Bool} {e : Expr} {words : List Lexeme} :
      Written .product ends e words → Written .sum ends e words
  | plus (mark : Mark) {op : BinOp} {ends : Bool} {left right : Expr} {first rest : List Lexeme} :
      op.level = .sum → Written .sum false left first → Written .product ends right rest →
      Written .sum ends (.binary mark op left right) (first ++ .symbol op.symbol :: rest)

end Expr

/-- The words of statements in turn. A branch without an alternative may be written
with or without the keyword for one. -/
inductive Stmt.Written : List Stmt → List Lexeme → Prop
  | nil : Written [] []
  | read (location : Location) (name : String) {rest : List Stmt} {after : List Lexeme} :
      Written rest after →
      Written (.read location name :: rest)
        ([.symbol .readWord, .name name, .symbol .semicolon] ++ after)
  | print (location : Location) {ends : Bool} {value : Expr} {words : List Lexeme}
      {rest : List Stmt} {after : List Lexeme} :
      Expr.Written .sum ends value words → Written rest after →
      Written (.print location value :: rest)
        (.symbol .printWord :: words ++ .symbol .semicolon :: after)
  | assign (location : Location) (target : String) {ends : Bool} {value : Expr}
      {words : List Lexeme} {rest : List Stmt} {after : List Lexeme} :
      Expr.Written .sum ends value words → Written rest after →
      Written (.assign location target value :: rest)
        (.name target :: .symbol .equals :: words ++ .symbol .semicolon :: after)
  | branch (location : Location) {ends : Bool} {condition : Expr} {words : List Lexeme}
      {yes rest : List Stmt} {yesWords after : List Lexeme} :
      Expr.Written .sum ends condition words → Written yes yesWords → Written rest after →
      Written (.branch location condition yes [] :: rest)
        (.symbol .ifWord :: words ++ .symbol .thenWord :: yesWords ++ .symbol .endWord :: after)
  | choice (location : Location) {ends : Bool} {condition : Expr} {words : List Lexeme}
      {yes no rest : List Stmt} {yesWords noWords after : List Lexeme} :
      Expr.Written .sum ends condition words → Written yes yesWords → Written no noWords →
      Written rest after →
      Written (.branch location condition yes no :: rest)
        (.symbol .ifWord :: words ++ .symbol .thenWord :: yesWords ++
          .symbol .elseWord :: noWords ++ .symbol .endWord :: after)
  | loop (location : Location) {ends : Bool} {condition : Expr} {words : List Lexeme}
      {body rest : List Stmt} {bodyWords after : List Lexeme} :
      Expr.Written .sum ends condition words → Written body bodyWords → Written rest after →
      Written (.loop location condition body :: rest)
        (.symbol .whileWord :: words ++ .symbol .doWord :: bodyWords ++
          .symbol .doneWord :: after)

/-- The words of a declaration. -/
def Declaration.words (d : Declaration) : List Lexeme :=
  [.symbol .varWord, .name d.name, .symbol .colon, .symbol d.type.symbol, .symbol .semicolon]

/-- The words of a program: its declarations and then its statements. -/
def Program.Written (p : Program) (words : List Lexeme) : Prop :=
  ∃ after, Stmt.Written p.statements after ∧
    words = p.declarations.flatMap Declaration.words ++ after

/-! ## Bare trees -/

/-- An expression without locations and numbers. -/
def Expr.bare : Expr → Expr
  | .name _ text => .name default text
  | .int _ value => .int default value
  | .float _ value => .float default value
  | .string _ text => .string default text
  | .negate _ operand => .negate default operand.bare
  | .binary _ op left right => .binary default op left.bare right.bare

mutual

/-- A statement without locations and numbers. -/
def Stmt.bare : Stmt → Stmt
  | .read _ name => .read default name
  | .print _ value => .print default value.bare
  | .assign _ target value => .assign default target value.bare
  | .branch _ condition yes no =>
    .branch default condition.bare (Stmt.bareAll yes) (Stmt.bareAll no)
  | .loop _ condition body => .loop default condition.bare (Stmt.bareAll body)

/-- Statements without locations and numbers. -/
def Stmt.bareAll : List Stmt → List Stmt
  | [] => []
  | s :: rest => Stmt.bare s :: Stmt.bareAll rest

end

/-- A declaration without its location. -/
def Declaration.bare (d : Declaration) : Declaration := { d with location := default }

/-- A program without locations and numbers. -/
def Program.bare (p : Program) : Program :=
  ⟨p.declarations.map Declaration.bare, Stmt.bareAll p.statements⟩

theorem Stmt.bareAll_append (first second : List Stmt) :
    Stmt.bareAll (first ++ second) = Stmt.bareAll first ++ Stmt.bareAll second := by
  induction first with
  | nil => rfl
  | cons s rest ih => simp [Stmt.bareAll, ih]

/-! ## Written words -/

namespace Expr

/-- A sum takes in what is written at any level. -/
theorem Written.toSum {level : Level} {ends : Bool} {e : Expr} {words : List Lexeme}
    (h : Written level ends e words) : Written .sum ends e words := by
  cases level with
  | factor => exact .product (.factor h)
  | product => exact .product h
  | sum => exact h

end Expr

theorem Stmt.Written.append {first second : List Stmt} {words words' : List Lexeme}
    (h : Stmt.Written first words) (h' : Stmt.Written second words') :
    Stmt.Written (first ++ second) (words ++ words') := by
  induction h with
  | nil => exact h'
  | read location name _ ih => exact .read location name ih
  | print location hvalue _ ih =>
      simpa [List.append_assoc] using Stmt.Written.print location hvalue ih
  | assign location target hvalue _ ih =>
      simpa [List.append_assoc] using Stmt.Written.assign location target hvalue ih
  | branch location hcondition hyes _ _ ih =>
      simpa [List.append_assoc] using Stmt.Written.branch location hcondition hyes ih
  | choice location hcondition hyes hno _ _ _ ih =>
      simpa [List.append_assoc] using Stmt.Written.choice location hcondition hyes hno ih
  | loop location hcondition hbody _ _ ih =>
      simpa [List.append_assoc] using Stmt.Written.loop location hcondition hbody ih

/-! ## What the grammar allows -/

namespace Grammar

/-- The rule for the expressions of a level. -/
def Level.rule : Level → Rule
  | .factor => .factor
  | .product => .term
  | .sum => .expr

theorem Derives.term {kinds : List Kind} (h : Derives (.rule .factor) kinds) :
    Derives (.rule .term) kinds :=
  derives_term.mpr ⟨kinds, [], h, .stop _, by simp⟩

theorem Derives.expr {kinds : List Kind} (h : Derives (.rule .term) kinds) :
    Derives (.rule .expr) kinds :=
  derives_expr.mpr ⟨kinds, [], h, .stop _, by simp⟩

theorem Derives.times {first rest : List Kind} {op : BinOp} (hop : op.level = .product)
    (hfirst : Derives (.rule .term) first) (hrest : Derives (.rule .factor) rest) :
    Derives (.rule .term) (first ++ .symbol op.symbol :: rest) := by
  obtain ⟨front, back, hfront, hback, rfl⟩ := derives_term.mp hfirst
  have hpiece : Derives (.all [.any [.mark .star, .mark .slash], .rule .factor])
      (.symbol op.symbol :: rest) := by
    refine derives_operation.mpr ⟨op.symbol, ?_, rest, hrest, rfl⟩
    cases op <;> simp [BinOp.symbol, BinOp.level] at hop ⊢
  exact derives_term.mpr ⟨front, _, hfront, hback.many_append hpiece, List.append_assoc ..⟩

theorem Derives.plus {first rest : List Kind} {op : BinOp} (hop : op.level = .sum)
    (hfirst : Derives (.rule .expr) first) (hrest : Derives (.rule .term) rest) :
    Derives (.rule .expr) (first ++ .symbol op.symbol :: rest) := by
  obtain ⟨front, back, hfront, hback, rfl⟩ := derives_expr.mp hfirst
  have hpiece : Derives (.all [.any [.mark .plus, .mark .minus], .rule .term])
      (.symbol op.symbol :: rest) := by
    refine derives_operation.mpr ⟨op.symbol, ?_, rest, hrest, rfl⟩
    cases op <;> simp [BinOp.symbol, BinOp.level] at hop ⊢
  exact derives_expr.mpr ⟨front, _, hfront, hback.many_append hpiece, List.append_assoc ..⟩

end Grammar

theorem Expr.Atom.kind_mem {e : Expr} {word : Lexeme} (h : Atom e word) :
    word.kind ∈ [Kind.int, .float, .string, .name] := by
  cases h <;> simp [Lexeme.kind]

theorem Expr.Written.derives {level : Level} {ends : Bool} {e : Expr} {words : List Lexeme}
    (h : Written level ends e words) : Derives (.rule level.rule) (words.map Lexeme.kind) := by
  induction h with
  | atom hatom => exact derives_factor.mpr (.inl ⟨_, hatom.kind_mem, rfl⟩)
  | group _ ih =>
      exact derives_factor.mpr (.inr (.inl ⟨_, ih, by simp [Lexeme.kind]⟩))
  | negate _ _ ih => exact derives_factor.mpr (.inr (.inr ⟨_, ih, rfl⟩))
  | factor _ ih => exact ih.term
  | times _ hop _ _ ihleft ihright =>
      rw [List.map_append]
      exact ihleft.times hop ihright
  | product _ ih => exact ih.expr
  | plus _ hop _ _ ihleft ihright =>
      rw [List.map_append]
      exact ihleft.plus hop ihright

/-- One statement more at the start. -/
theorem Grammar.Derives.statement (name : Rule) {first rest : List Kind}
    (hname : name ∈ [Rule.read, .print, .assign, .branch, .loop])
    (hfirst : Derives (.rule name) first) (hrest : Derives (.many (.rule .stmt)) rest) :
    Derives (.many (.rule .stmt)) (first ++ rest) :=
  .more (derives_stmt.mpr ⟨name, hname, hfirst⟩) hrest

theorem Stmt.Written.derives {statements : List Stmt} {words : List Lexeme}
    (h : Stmt.Written statements words) :
    Derives (.many (.rule .stmt)) (words.map Lexeme.kind) := by
  induction h with
  | nil => exact .stop _
  | read _ _ _ ih =>
      rw [List.map_append]
      exact .statement .read (by simp) (derives_read.mpr rfl) ih
  | print _ hvalue _ ih =>
      simpa [Lexeme.kind] using
        Derives.statement .print (by simp) (derives_print.mpr ⟨_, hvalue.derives, rfl⟩) ih
  | assign _ _ hvalue _ ih =>
      simpa [Lexeme.kind] using
        Derives.statement .assign (by simp) (derives_assign.mpr ⟨_, hvalue.derives, rfl⟩) ih
  | branch _ hcondition _ _ ihyes ih =>
      simpa [Lexeme.kind] using Derives.statement .branch (by simp)
        (derives_branch.mpr ⟨_, _, [], hcondition.derives, ihyes, .inl rfl, rfl⟩) ih
  | choice _ hcondition _ _ _ ihyes ihno ih =>
      simpa [Lexeme.kind] using Derives.statement .branch (by simp)
        (derives_branch.mpr ⟨_, _, _, hcondition.derives, ihyes, .inr ⟨_, ihno, rfl⟩, rfl⟩) ih
  | loop _ hcondition _ _ ihbody ih =>
      simpa [Lexeme.kind] using Derives.statement .loop (by simp)
        (derives_loop.mpr ⟨_, _, hcondition.derives, ihbody, rfl⟩) ih

theorem Declaration.derives_words (d : Declaration) :
    Derives (.rule .decl) (d.words.map Lexeme.kind) := by
  refine derives_decl.mpr ⟨d.type.symbol, ?_, rfl⟩
  cases d.type <;> simp [Ty.symbol]

/-- What is written follows the rules. -/
theorem Program.Written.derives {p : Program} {words : List Lexeme} (h : p.Written words) :
    Derives (.rule .program) (words.map Lexeme.kind ++ [.finish]) := by
  obtain ⟨after, hstatements, rfl⟩ := h
  refine derives_program.mpr ⟨_, _, by rw [List.map_append], ?_, hstatements.derives⟩
  refine derives_many.mpr ⟨p.declarations.map fun d => d.words.map Lexeme.kind, ?_, ?_⟩
  · rw [List.map_flatMap, List.flatMap_def]
  · intro piece hpiece
    obtain ⟨d, _, rfl⟩ := List.mem_map.mp hpiece
    exact d.derives_words

/-! ## Literals that are written -/

theorem Expr.Written.valid {level : Level} {ends : Bool} {e : Expr} {words : List Lexeme}
    (h : Written level ends e words) : ∀ word ∈ words, word.Valid := by
  induction h with
  | atom hatom =>
      simp only [List.mem_singleton, forall_eq]
      cases hatom with
      | int _ hvalue | float _ hvalue => simp [Lexeme.Valid, hvalue]
      | name | string => trivial
  | group _ ih => simpa [or_imp, forall_and, Lexeme.Valid] using ih
  | negate _ _ ih => simpa [Lexeme.Valid] using ih
  | factor _ ih | product _ ih => exact ih
  | times _ _ _ _ ihleft ihright | plus _ _ _ _ ihleft ihright =>
      simpa [or_imp, forall_and, Lexeme.Valid] using ⟨ihleft, ihright⟩

theorem Stmt.Written.valid {statements : List Stmt} {words : List Lexeme}
    (h : Stmt.Written statements words) : ∀ word ∈ words, word.Valid := by
  induction h with
  | nil => simp
  | read _ _ _ ih => simpa [Lexeme.Valid] using ih
  | print _ hvalue _ ih | assign _ _ hvalue _ ih =>
      simpa [or_imp, forall_and, Lexeme.Valid] using ⟨hvalue.valid, ih⟩
  | branch _ hcondition _ _ ihinner ih | loop _ hcondition _ _ ihinner ih =>
      simpa [or_imp, forall_and, Lexeme.Valid] using ⟨hcondition.valid, ihinner, ih⟩
  | choice _ hcondition _ _ _ ihyes ihno ih =>
      simpa [or_imp, forall_and, Lexeme.Valid] using ⟨hcondition.valid, ihyes, ihno, ih⟩

/-- The literals in what is written stand for numbers. -/
theorem Program.Written.valid {p : Program} {words : List Lexeme} (h : p.Written words) :
    ∀ word ∈ words, word.Valid := by
  obtain ⟨after, hstatements, rfl⟩ := h
  intro word hword
  rcases List.mem_append.mp hword with hword | hword
  · obtain ⟨d, _, hword⟩ := List.mem_flatMap.mp hword
    simp only [Declaration.words, List.mem_cons, List.not_mem_nil, or_false] at hword
    rcases hword with rfl | rfl | rfl | rfl | rfl <;> trivial
  · exact hstatements.valid word hword

end ImpToC
