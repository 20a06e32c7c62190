import ImpToC.Syntax

/-!
# The type system

The types of expressions and the statements that are well typed, as rules over the
declared variables. Nothing is said of how a type is found.
-/

namespace ImpToC

/-- The type of an operation on two numbers. -/
inductive Ty.Promotes : Ty → Ty → Ty → Prop
  | ints : Promotes .int .int .int
  | intFloat : Promotes .int .float .float
  | floatInt : Promotes .float .int .float
  | floats : Promotes .float .float .float

/-- A variable of the first type can take a value of the second. -/
inductive Ty.Assignable : Ty → Ty → Prop
  | int : Assignable .int .int
  | floatInt : Assignable .float .int
  | float : Assignable .float .float
  | string : Assignable .string .string

/-- The type of an operation. Strings only meet strings, under two operators. -/
inductive BinOp.Types : BinOp → Ty → Ty → Ty → Prop
  | numbers (op : BinOp) {left right type : Ty} :
      Ty.Promotes left right type → Types op left right type
  | addStrings : Types .add .string .string .string
  | subStrings : Types .sub .string .string .string

/-- A variable is declared with a type. -/
def Declared (declared : List Declaration) (name : String) (type : Ty) : Prop :=
  ∃ d ∈ declared, d.name = name ∧ d.type = type

/-- The type of an expression over some declared variables. -/
inductive Expr.HasType (declared : List Declaration) : Expr → Ty → Prop
  | name (mark : Mark) {name : String} {type : Ty} :
      Declared declared name type → HasType declared (.name mark name) type
  | int (mark : Mark) (value : Nat) : HasType declared (.int mark value) .int
  | float (mark : Mark) (value : Number.Magnitude) : HasType declared (.float mark value) .float
  | string (mark : Mark) (text : String) : HasType declared (.string mark text) .string
  | negate (mark : Mark) {operand : Expr} {type : Ty} :
      HasType declared operand type → HasType declared (.negate mark operand) type
  | binary (mark : Mark) {op : BinOp} {left right : Expr} {leftType rightType type : Ty} :
      HasType declared left leftType → HasType declared right rightType →
      op.Types leftType rightType type → HasType declared (.binary mark op left right) type

/-- A statement that is well typed over some declared variables. -/
inductive Stmt.WellTyped (declared : List Declaration) : Stmt → Prop
  | read (location : Location) {name : String} {type : Ty} :
      Declared declared name type → WellTyped declared (.read location name)
  | print (location : Location) {value : Expr} {type : Ty} :
      value.HasType declared type → WellTyped declared (.print location value)
  | assign (location : Location) {name : String} {target type : Ty} {value : Expr} :
      Declared declared name target → value.HasType declared type → target.Assignable type →
      WellTyped declared (.assign location name value)
  | branch (location : Location) {condition : Expr} {yes no : List Stmt} :
      condition.HasType declared .int → (∀ s ∈ yes, WellTyped declared s) →
      (∀ s ∈ no, WellTyped declared s) → WellTyped declared (.branch location condition yes no)
  | loop (location : Location) {condition : Expr} {body : List Stmt} :
      condition.HasType declared .int → (∀ s ∈ body, WellTyped declared s) →
      WellTyped declared (.loop location condition body)

/-- A program that is well typed: its names are declared once, and its statements are
well typed over them. -/
structure Program.WellTyped (p : Program) : Prop where
  names : (p.declarations.map Declaration.name).Nodup
  statements : ∀ s ∈ p.statements, s.WellTyped p.declarations

/-! ## The tables -/

theorem Ty.takes_iff {target value : Ty} : target.takes value = true ↔ target.Assignable value := by
  constructor
  · cases target <;> cases value <;> intro h <;> first | constructor | cases h
  · rintro (_ | _ | _ | _) <;> rfl

theorem BinOp.result?_eq_some_iff {op : BinOp} {left right type : Ty} :
    op.result? left right = some type ↔ op.Types left right type := by
  constructor
  · cases left <;> cases right <;> intro h
    · cases h; exact .numbers op .ints
    · cases h; exact .numbers op .intFloat
    · cases h
    · cases h; exact .numbers op .floatInt
    · cases h; exact .numbers op .floats
    · cases h
    · cases h
    · cases h
    · cases op with
      | add => cases h; exact .addStrings
      | sub => cases h; exact .subStrings
      | mul | div => cases h
  · rintro (_ | _ | _)
    next h => cases h <;> rfl
    · rfl
    · rfl

theorem BinOp.result?_eq_none_iff {op : BinOp} {left right : Ty} :
    op.result? left right = none ↔ ∀ type, ¬ op.Types left right type := by
  simp only [← result?_eq_some_iff, Option.eq_none_iff_forall_ne_some, ne_eq]

/-! ## One type for an expression -/

theorem BinOp.Types.unique {op : BinOp} {left right type type' : Ty}
    (h : op.Types left right type) (h' : op.Types left right type') : type' = type := by
  rw [← result?_eq_some_iff] at h h'
  exact Option.some.inj (h'.symm.trans h)

/-- Where no name is declared twice, a variable has one type. -/
theorem Declared.unique {declared : List Declaration}
    (hnodup : (declared.map Declaration.name).Nodup) {name : String} {type type' : Ty}
    (h : Declared declared name type) (h' : Declared declared name type') : type' = type := by
  induction declared with
  | nil =>
      obtain ⟨_, hd, -⟩ := h
      cases hd
  | cons first rest ih =>
      obtain ⟨hfirst, hrest⟩ := List.nodup_cons.mp hnodup
      obtain ⟨d, hd, hname, rfl⟩ := h
      obtain ⟨d', hd', hname', rfl⟩ := h'
      rcases List.mem_cons.mp hd with rfl | htail
      · rcases List.mem_cons.mp hd' with rfl | htail'
        · rfl
        · exact absurd (hname.trans hname'.symm ▸ List.mem_map_of_mem htail') hfirst
      · rcases List.mem_cons.mp hd' with rfl | htail'
        · exact absurd (hname'.trans hname.symm ▸ List.mem_map_of_mem htail) hfirst
        · exact ih hrest ⟨d, htail, hname, rfl⟩ ⟨d', htail', hname', rfl⟩

/-- Where no name is declared twice, an expression has at most one type. -/
theorem Expr.HasType.unique {declared : List Declaration}
    (hnodup : (declared.map Declaration.name).Nodup) {e : Expr} {type type' : Ty}
    (h : e.HasType declared type) (h' : e.HasType declared type') : type' = type := by
  induction h generalizing type' with
  | name _ hd =>
      cases h' with
      | name _ hd' => exact hd.unique hnodup hd'
  | int | float | string =>
      cases h'
      rfl
  | negate _ _ ih =>
      cases h' with
      | negate _ h' => exact ih h'
  | binary _ _ _ hop ihleft ihright =>
      cases h' with
      | binary _ hleft hright hop' =>
          obtain rfl := ihleft hleft
          obtain rfl := ihright hright
          exact hop.unique hop'

end ImpToC
