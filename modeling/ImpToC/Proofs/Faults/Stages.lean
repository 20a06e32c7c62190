import ImpToC.Proofs.Parsing.Sentences
import ImpToC.Proofs.Scanning.Tokenized
import ImpToC.Proofs.Stages

/-!
# What each stage can find wrong

Scanning, parsing and checking turn a text down for causes of their own kind and for no
others.
-/

namespace ImpToC

/-- What a stage can find wrong with a source text. -/
inductive Stage.Finds : Stage → Cause → Prop
  | illegalCharacter (char : Char) : Finds .scan (.illegalCharacter char)
  | unterminatedString : Finds .scan .unterminatedString
  | unexpectedToken (found : Token) (expected : List Kind) :
      Finds .parse (.unexpectedToken found expected)
  | invalidInt (text : String) : Finds .parse (.invalidInt text)
  | invalidFloat (text : String) : Finds .parse (.invalidFloat text)
  | nestingTooDeep : Finds .parse .nestingTooDeep
  | duplicateVariable (name : String) (first : Location) :
      Finds .typecheck (.duplicateVariable name (some first))
  | undeclaredVariable (name : String) (similar : List String) :
      Finds .typecheck (.undeclaredVariable name similar)
  | unexpectedType (expected actual : Ty) : Finds .typecheck (.unexpectedType expected actual)
  | illTypedOperation (op : BinOp) (left right : Ty) :
      Finds .typecheck (.illTypedOperation op left right)
  | negatedString : Finds .codegen .negatedString
  | stringDifference : Finds .codegen (.stringOperator .sub)

/-- The family of all mistakes that a stage can find. -/
def Stage.family : Stage → Family
  | .scan => .lexical
  | .parse => .syntactic
  | .typecheck => .semantic
  | .codegen => .generation

theorem Stage.Finds.family_eq {stage : Stage} {cause : Cause} (h : stage.Finds cause) :
    cause.family = stage.family := by
  cases h <;> rfl

/-! ## Scanning -/

theorem Lexeme.finds_of_readAt {strings : Bool} {text : List Char} {cause : Cause}
    (h : readAt strings text = .error cause) : Stage.scan.Finds cause := by
  cases unreadable_of_readAt h with
  | character => exact .illegalCharacter _
  | string => exact .unterminatedString

theorem Cursor.finds_of_next {strings : Bool} {c c' : Cursor} {d : Diagnostic}
    (h : c.next strings = (.error d, c')) : Stage.scan.Finds d.cause := by
  unfold next at h
  dsimp only at h
  split at h
  next => cases h
  next cause hread =>
    cases h
    exact Lexeme.finds_of_readAt hread

theorem Cursor.finds_of_scan {strings : Bool} {c : Cursor} {d : Diagnostic}
    (h : (c.scan strings).ending = .error d) : Stage.scan.Finds d.cause := by
  induction c using Cursor.scan.induct strings with
  | case1 c d' c' hnext =>
      rw [scan_of_next_error hnext] at h
      cases h
      exact finds_of_next hnext
  | case2 c t c' hnext hfinish =>
      rw [scan_of_next hnext, if_pos hfinish] at h
      cases h
  | case3 c t c' hnext hfinish ih =>
      rw [scan_of_next hnext, if_neg hfinish] at h
      exact ih h

theorem Source.finds_of_scan {source : Source} {d : Diagnostic} (h : source.scan = .error d) :
    Stage.scan.Finds d.cause := by
  rw [scan, Sentence.ofSource, Scan.sentence] at h
  split at h
  next => cases h
  next d' hending =>
    cases h
    exact Cursor.finds_of_scan hending

/-! ## Parsing -/

theorem Parser.TurnsDown.finds {t : Token} {f : Fault} (h : TurnsDown t f) :
    Stage.parse.Finds f.cause := by
  cases h with
  | @refusal s _ h =>
      cases h with
      | unexpected => exact .unexpectedToken t s.expected
      | invalidInt text => exact .invalidInt text
      | invalidFloat text => exact .invalidFloat text
  | nested => exact .nestingTooDeep

/-! ## Checking -/

section Pass

variable {σ α β : Type} {P : Cause → Prop}

/-- Whatever fault a pass finds, its cause is such a one. -/
def FindsOnly (P : Cause → Prop) (x : EStateM Fault σ α) : Prop :=
  ∀ s f s', x s = .error f s' → P f.cause

namespace FindsOnly

theorem of_ok {x : EStateM Fault σ α} (h : ∀ s, ∃ a s', x s = .ok a s') : FindsOnly P x := by
  intro s f s' herror
  obtain ⟨a, s'', hok⟩ := h s
  rw [hok] at herror
  cases herror

theorem ret (a : α) : FindsOnly P (pure a : EStateM Fault σ α) := of_ok fun s => ⟨a, s, rfl⟩

theorem raise {f : Fault} (h : P f.cause) : FindsOnly P (throw f : EStateM Fault σ α) := by
  rintro s _ _ ⟨⟩
  exact h

theorem bind {x : EStateM Fault σ α} {next : α → EStateM Fault σ β} (h : FindsOnly P x)
    (hnext : ∀ a, FindsOnly P (next a)) : FindsOnly P (x >>= next) := by
  intro s f s' herror
  rcases bind_eq_error_iff.mp herror with hx | ⟨a, m, -, ha⟩
  · exact h s f s' hx
  · exact hnext a m f s' ha

theorem read {next : σ → EStateM Fault σ β} (h : ∀ s, FindsOnly P (next s)) :
    FindsOnly P (get >>= next) := bind (of_ok fun s => ⟨s, s, rfl⟩) h

theorem forM {γ : Type} {run : γ → EStateM Fault σ PUnit} (h : ∀ item, FindsOnly P (run item))
    (items : List γ) : FindsOnly P (items.forM run) := by
  induction items with
  | nil => exact ret PUnit.unit
  | cons item rest ih => exact bind (h item) fun _ => ih

end FindsOnly

end Pass

namespace Typing

theorem lookup_finds (name : String) (l : Location) :
    FindsOnly Stage.typecheck.Finds (lookup name l) := by
  refine FindsOnly.read fun t => ?_
  cases t.scope.get? name with
  | some d => exact FindsOnly.ret d.type
  | none => exact FindsOnly.raise (.undeclaredVariable name _)

theorem record_finds (id : Nat) (type : Ty) :
    FindsOnly Stage.typecheck.Finds (record id type) := FindsOnly.of_ok fun _ => ⟨_, _, rfl⟩

theorem require_finds (accepted : Bool) (expected actual : Ty) (l : Location) :
    FindsOnly Stage.typecheck.Finds (require accepted expected actual l) := by
  cases accepted with
  | true => exact FindsOnly.ret ()
  | false => exact FindsOnly.raise (.unexpectedType expected actual)

/-- A variable that is declared again was declared at a known place before. -/
theorem declare_finds (d : Declaration) : FindsOnly Stage.typecheck.Finds (declare d) := by
  refine FindsOnly.read fun t => ?_
  cases t.scope.get? d.name with
  | some first => exact FindsOnly.raise (.duplicateVariable d.name first.location)
  | none => exact FindsOnly.of_ok fun _ => ⟨_, _, rfl⟩

end Typing

open Typing

theorem Expr.check_finds (e : Expr) : FindsOnly Stage.typecheck.Finds e.check := by
  induction e with
  | name m x => exact (lookup_finds x m.location).bind fun type => record_finds m.id type
  | int m | float m | string m => exact record_finds m.id _
  | negate m operand ih => exact ih.bind fun type => record_finds m.id type
  | binary m op left right ihLeft ihRight =>
      refine ihLeft.bind fun leftType => ihRight.bind fun rightType => ?_
      cases op.result? leftType rightType with
      | some type => exact record_finds m.id type
      | none => exact FindsOnly.raise (.illTypedOperation op leftType rightType)

theorem Expr.checkCondition_finds (condition : Expr) (l : Location) :
    FindsOnly Stage.typecheck.Finds (condition.checkCondition l) :=
  condition.check_finds.bind fun _ => require_finds _ _ _ l

mutual

theorem Stmt.check_finds : ∀ s : Stmt, FindsOnly Stage.typecheck.Finds s.check
  | .read l name => (lookup_finds name l).bind fun _ => FindsOnly.ret ()
  | .print _ value => value.check_finds.bind fun _ => FindsOnly.ret ()
  | .assign l target value =>
      value.check_finds.bind fun _ => (lookup_finds target l).bind fun _ =>
        require_finds _ _ _ l
  | .branch l condition yes no =>
      (condition.checkCondition_finds l).bind fun _ => (Stmt.checkAll_finds yes).bind fun _ =>
        Stmt.checkAll_finds no
  | .loop l condition body =>
      (condition.checkCondition_finds l).bind fun _ => Stmt.checkAll_finds body

theorem Stmt.checkAll_finds : ∀ statements : List Stmt,
    FindsOnly Stage.typecheck.Finds (Stmt.checkAll statements)
  | [] => FindsOnly.ret ()
  | s :: rest => (Stmt.check_finds s).bind fun _ => Stmt.checkAll_finds rest

end

theorem Program.check_finds (p : Program) : FindsOnly Stage.typecheck.Finds p.check :=
  (FindsOnly.forM declare_finds p.declarations).bind fun _ => Stmt.checkAll_finds p.statements

theorem Typing.finds_of_extend {t t' : Typing} {p : Program} {f : Fault}
    (h : t.extend p = (some f, t')) : Stage.typecheck.Finds f.cause := by
  unfold extend at h
  split at h
  next => cases h
  next hcheck =>
    cases h
    exact p.check_finds _ _ _ hcheck

end ImpToC
