import ImpToC.C.Text
import ImpToC.Proofs.Lowering.Preservation
import ImpToC.Proofs.Lowering.Temporaries

/-!
# Generated code is well typed

The rules of C for the code that is generated: what type an initializer has, what can be
assigned, and which conversions of a format take a value of which type. The code for a
well-typed program follows them, with every name declared before it is used.
-/

namespace ImpToC.C

/-! ## The rules of C -/

/-- A conversion of a format takes a value of this type. -/
inductive Converts : String → Ty → Prop
  | int : Converts "%d" .int
  | float : Converts "%f" .float
  | string : Converts "%s" .string

section Rules

variable (symbols : List (String × Ty))

/-- The type with which a place is declared, where some temporaries are in scope. -/
inductive Place.HasType (scope : List (Nat × Ty)) : Place → Ty → Prop
  | named {name : String} {type : Ty} :
      symbols.lookup name = some type → HasType scope (.variable name) type
  | numbered {index : Nat} {type : Ty} :
      scope.lookup index = some type → HasType scope (.temporary index) type

/-- The type of an initializer. The operands of an operation are numbers and are brought to
a common type; only strings are joined. -/
inductive Value.HasType (scope : List (Nat × Ty)) : Value → Ty → Prop
  | int (value : Nat) : HasType scope (.int value) .int
  | float (value : Number.Magnitude) : HasType scope (.float value) .float
  | string (text : String) : HasType scope (.string text) .string
  | negate {operand : Place} {type : Ty} :
      operand.HasType symbols scope type → type ≠ .string → HasType scope (.negate operand) type
  | operation (op : BinOp) {left right : Place} {leftType rightType type : Ty} :
      left.HasType symbols scope leftType → right.HasType symbols scope rightType →
      Ty.Promotes leftType rightType type → HasType scope (.operation op left right) type
  | concat {left right : Place} :
      left.HasType symbols scope .string → right.HasType symbols scope .string →
      HasType scope (.concat left right) .string

/-- Code that is well typed behind the definitions of some temporaries, and the temporaries
that are in scope behind it. Those of a block are out of scope behind the block. -/
inductive Typed : List (Nat × Ty) → List Instr → List (Nat × Ty) → Prop
  | nil (scope : List (Nat × Ty)) : Typed scope [] scope
  | define {scope scope' : List (Nat × Ty)} {rest : List Instr} {type : Ty} {index : Nat}
      {value : Value} :
      scope.lookup index = none → value.HasType symbols scope type →
      Typed ((index, type) :: scope) rest scope' →
      Typed scope (.define type index value :: rest) scope'
  | assign {scope scope' : List (Nat × Ty)} {rest : List Instr} {target : String}
      {value : Place} {targetType type : Ty} :
      (Place.variable target).HasType symbols scope targetType →
      value.HasType symbols scope type → targetType.Assignable type →
      Typed scope rest scope' → Typed scope (.assign target value :: rest) scope'
  | print {scope scope' : List (Nat × Ty)} {rest : List Instr} {value : Place}
      {type found : Ty} :
      value.HasType symbols scope found → Converts type.cConversion found →
      Typed scope rest scope' → Typed scope (.print type value :: rest) scope'
  | scan {scope scope' : List (Nat × Ty)} {rest : List Instr} {target : String}
      {type found : Ty} :
      (Place.variable target).HasType symbols scope found → found ≠ .string →
      Converts type.cConversion found →
      Typed scope rest scope' → Typed scope (.scan type target :: rest) scope'
  | scanString {scope scope' : List (Nat × Ty)} {rest : List Instr} {target : String} :
      (Place.variable target).HasType symbols scope .string →
      Typed scope rest scope' → Typed scope (.scanString target :: rest) scope'
  | branch {scope yesScope noScope scope' : List (Nat × Ty)} {rest yes no : List Instr}
      {condition : Place} :
      condition.HasType symbols scope .int → Typed scope yes yesScope → Typed scope no noScope →
      Typed scope rest scope' → Typed scope (.branch condition yes no :: rest) scope'
  | loop {scope inner scope' : List (Nat × Ty)} {rest body : List Instr} :
      Typed scope body inner → Typed scope rest scope' →
      Typed scope (.loop body :: rest) scope'
  | leaveUnless {scope scope' : List (Nat × Ty)} {rest : List Instr} {condition : Place} :
      condition.HasType symbols scope .int →
      Typed scope rest scope' → Typed scope (.leaveUnless condition :: rest) scope'

end Rules

variable {symbols : List (String × Ty)} {scope scope' : List (Nat × Ty)}

theorem converts_self (type : Ty) : Converts type.cConversion type := by
  cases type with
  | int => exact .int
  | float => exact .float
  | string => exact .string

theorem Typed.append {middle : List (Nat × Ty)} {code code' : List Instr}
    (h : Typed symbols scope code middle) (h' : Typed symbols middle code' scope') :
    Typed symbols scope (code ++ code') scope' := by
  induction h with
  | nil => exact h'
  | define hnew hvalue _ ih => exact .define hnew hvalue (ih h')
  | assign htarget hvalue hassignable _ ih => exact .assign htarget hvalue hassignable (ih h')
  | print hvalue hconverts _ ih => exact .print hvalue hconverts (ih h')
  | scan htarget hnumeric hconverts _ ih => exact .scan htarget hnumeric hconverts (ih h')
  | scanString htarget _ ih => exact .scanString htarget (ih h')
  | branch hcondition hyes hno _ _ _ ih => exact .branch hcondition hyes hno (ih h')
  | loop hbody _ _ ih => exact .loop hbody (ih h')
  | leaveUnless hcondition _ ih => exact .leaveUnless hcondition (ih h')

/-! ## Scopes -/

/-- The temporaries in scope are among those that a generator has given out. -/
def Bounded (scope : List (Nat × Ty)) (n : Nat) : Prop := ∀ entry ∈ scope, entry.1 ≤ n

theorem Bounded.mono {n n' : Nat} (h : Bounded scope n) (hle : n ≤ n') : Bounded scope n' :=
  fun entry hentry => Nat.le_trans (h entry hentry) hle

theorem Bounded.lookup_succ {n : Nat} (h : Bounded scope n) : scope.lookup (n + 1) = none := by
  rw [List.lookup_eq_none_iff]
  intro entry hentry
  have hle := h entry hentry
  simp only [bne_iff_ne, ne_eq]
  omega

theorem Bounded.cons {n : Nat} (h : Bounded scope n) (type : Ty) :
    Bounded ((n + 1, type) :: scope) (n + 1) :=
  List.forall_mem_cons.mpr ⟨Nat.le_refl _, h.mono (Nat.le_succ n)⟩

/-- What is in scope stays in scope. -/
def Keeps (scope scope' : List (Nat × Ty)) : Prop :=
  ∀ index type, scope.lookup index = some type → scope'.lookup index = some type

theorem Keeps.refl (scope : List (Nat × Ty)) : Keeps scope scope := fun _ _ h => h

theorem Keeps.trans {middle : List (Nat × Ty)} (h : Keeps scope middle)
    (h' : Keeps middle scope') : Keeps scope scope' :=
  fun index type hindex => h' index type (h index type hindex)

theorem Keeps.place {place : Place} {type : Ty} (h : Keeps scope scope')
    (hplace : place.HasType symbols scope type) : place.HasType symbols scope' type := by
  cases hplace with
  | named hname => exact .named hname
  | numbered hindex => exact .numbered (h _ _ hindex)

theorem keeps_cons {index : Nat} (hnew : scope.lookup index = none) (type : Ty) :
    Keeps scope ((index, type) :: scope) := by
  intro other found hother
  have hne : other ≠ index := by
    rintro rfl
    rw [hnew] at hother
    cases hother
  rw [List.lookup_cons, beq_eq_false_iff_ne.mpr hne]
  exact hother

/-! ## Expressions -/

variable {declared : List Declaration} {g g' : Generator}

/-- The type on record for a typed expression is its type. -/
theorem Recorded.type_eq {types : Table Nat Ty} {e : Expr} {type found : Ty}
    (h : Recorded declared types e.postorder)
    (hnames : (declared.map Declaration.name).Nodup) (htype : e.HasType declared type)
    (hfound : types.get? e.id = some found) : found = type :=
  htype.unique hnames (h.hasType hfound)

/-- Some code is well typed, and behind it a value is in a place of its type. The
temporaries go up to `n`. -/
structure TypedValue (symbols : List (String × Ty)) (n : Nat) (scope scope' : List (Nat × Ty))
    (code : List Instr) (place : Place) (type : Ty) : Prop where
  typed : Typed symbols scope code scope'
  bounded : Bounded scope' n
  keeps : Keeps scope scope'
  hasType : place.HasType symbols scope' type

/-- A temporary for a value. -/
theorem TypedValue.define {n : Nat} {code : List Instr} {value : Value} {type : Ty}
    (hcode : Typed symbols scope code scope') (hbounded : Bounded scope' n)
    (hkeeps : Keeps scope scope') (hvalue : value.HasType symbols scope' type) :
    TypedValue symbols (n + 1) scope ((n + 1, type) :: scope')
      (code ++ [.define type (n + 1) value]) (.temporary (n + 1)) type where
  typed := hcode.append (.define hbounded.lookup_succ hvalue (.nil _))
  bounded := hbounded.cons type
  keeps := hkeeps.trans (keeps_cons hbounded.lookup_succ type)
  hasType := .numbered (by simp)

/-- The initializer of an operation on typed operands. -/
theorem hasType_operation {op : BinOp} {left right : Place} {leftType rightType type : Ty}
    {value : Value} (hop : op.Types leftType rightType type)
    (hvalue : type ≠ .string ∧ value = .operation op left right ∨
      type = .string ∧ op = .add ∧ value = .concat left right)
    (hleft : left.HasType symbols scope leftType)
    (hright : right.HasType symbols scope rightType) : value.HasType symbols scope type := by
  rcases hvalue with ⟨hnumeric, rfl⟩ | ⟨hstring, -, rfl⟩
  · cases hop with
    | numbers _ hpromotes => exact .operation op hleft hright hpromotes
    | addStrings | subStrings => exact absurd rfl hnumeric
  · cases hop with
    | numbers _ hpromotes => subst hstring; cases hpromotes
    | addStrings | subStrings => exact .concat hleft hright

/-- The code for a typed expression is well typed, and its place has its type. -/
theorem lowerExpr_typed (hagree : Agree symbols declared)
    (hnames : (declared.map Declaration.name).Nodup) {e : Expr} {type : Ty}
    {code : List Instr} {place : Place} (hrecorded : Recorded declared g.types e.postorder)
    (htype : e.HasType declared type) (h : lowerExpr e g = .ok (code, place) g')
    (hscope : Bounded scope g.temporaries) :
    ∃ scope', TypedValue symbols g'.temporaries scope scope' code place type := by
  induction htype generalizing g g' code place scope with
  | name mark hdeclared =>
      simp only [lowerExpr, bind_eq_ok_iff, typeOf_eq_ok_iff, pure_eq_ok_iff] at h
      obtain ⟨_, _, ⟨-, rfl⟩, heq, rfl⟩ := h
      cases heq
      exact ⟨scope, .nil scope, hscope, .refl scope, .named (hagree _ _ hdeclared)⟩
  | int mark value =>
      simp only [lowerExpr, bind_eq_ok_iff, typeOf_eq_ok_iff, define_eq_ok_iff] at h
      obtain ⟨found, _, ⟨hfound, rfl⟩, rfl, rfl, rfl⟩ := h
      obtain rfl := hrecorded.type_eq (e := .int mark value) hnames (.int mark value) hfound
      exact ⟨_, .define (.nil scope) hscope (.refl scope) (.int value)⟩
  | float mark value =>
      simp only [lowerExpr, bind_eq_ok_iff, typeOf_eq_ok_iff, define_eq_ok_iff] at h
      obtain ⟨found, _, ⟨hfound, rfl⟩, rfl, rfl, rfl⟩ := h
      obtain rfl := hrecorded.type_eq (e := .float mark value) hnames (.float mark value) hfound
      exact ⟨_, .define (.nil scope) hscope (.refl scope) (.float value)⟩
  | string mark text =>
      simp only [lowerExpr, bind_eq_ok_iff, typeOf_eq_ok_iff, define_eq_ok_iff] at h
      obtain ⟨found, _, ⟨hfound, rfl⟩, rfl, rfl, rfl⟩ := h
      obtain rfl := hrecorded.type_eq (e := .string mark text) hnames (.string mark text) hfound
      exact ⟨_, .define (.nil scope) hscope (.refl scope) (.string text)⟩
  | @negate mark operand type hoperand ih =>
      rw [lowerExpr, bind_eq_ok_iff] at h
      obtain ⟨found, _, htypeOf, h⟩ := h
      obtain ⟨hfound, rfl⟩ := typeOf_eq_ok_iff.mp htypeOf
      obtain rfl := hrecorded.type_eq hnames (.negate mark hoperand) hfound
      split at h
      next => cases h
      next hnumeric =>
        rw [bind_eq_ok_iff] at h
        obtain ⟨⟨inner, operandPlace⟩, m, hlower, h⟩ := h
        obtain ⟨rfl, rfl, rfl⟩ := define_eq_ok_iff.mp h
        obtain ⟨_, hvalue⟩ := ih hrecorded.left hlower hscope
        exact ⟨_, .define hvalue.typed hvalue.bounded hvalue.keeps
          (.negate hvalue.hasType hnumeric)⟩
  | @binary mark op left right leftType rightType type hleft hright hop ihleft ihright =>
      simp only [lowerExpr, bind_eq_ok_iff] at h
      obtain ⟨found, _, htypeOf, ⟨leftCode, leftPlace⟩, m, hlowerLeft, ⟨rightCode, rightPlace⟩, m',
        hlowerRight, initializer, _, hinitializer, hdefine⟩ := h
      obtain ⟨hfound, rfl⟩ := typeOf_eq_ok_iff.mp htypeOf
      obtain ⟨rfl, hvalue⟩ := operation_eq_ok_iff.mp hinitializer
      obtain ⟨rfl, rfl, rfl⟩ := define_eq_ok_iff.mp hdefine
      obtain rfl := hrecorded.type_eq hnames (.binary mark hleft hright hop) hfound
      rw [Expr.postorder] at hrecorded
      have hgrows := (lowerExpr_allots hlowerLeft).grows
      obtain ⟨_, hl⟩ := ihleft hrecorded.left.left hlowerLeft hscope
      obtain ⟨_, hr⟩ := ihright (hgrows.recorded hrecorded.left.right) hlowerRight hl.bounded
      -- The left place is still in scope behind the code for the right operand.
      have hinit := hasType_operation hop hvalue (hr.keeps.place hl.hasType) hr.hasType
      exact ⟨_, .define (hl.typed.append hr.typed) hr.bounded (hl.keeps.trans hr.keeps) hinit⟩

/-! ## Statements -/

theorem lowerRead_typed {location : Location} {name : String} {code : List Instr}
    (hsymbols : g.symbols.entries = symbols) (h : lowerRead location name g = .ok code g')
    (scope : List (Nat × Ty)) : Typed symbols scope code scope := by
  obtain ⟨rfl, found, hfound, rfl⟩ := lowerRead_eq_ok_iff.mp h
  have hlookup : symbols.lookup name = some found := by
    rw [← hsymbols]
    exact hfound
  by_cases hstring : found = .string
  · subst hstring
    exact .scanString (.named hlookup) (.nil scope)
  · rw [if_neg hstring]
    exact .scan (.named hlookup) hstring (converts_self found) (.nil scope)

mutual

/-- The code for a well-typed statement is well typed. -/
theorem lowerStmt_typed (hagree : Agree symbols declared)
    (hnames : (declared.map Declaration.name).Nodup) :
    ∀ (s : Stmt) {g g' : Generator} {code : List Instr} {scope : List (Nat × Ty)},
      g.symbols.entries = symbols → Recorded declared g.types s.postorder →
      s.WellTyped declared → lowerStmt s g = .ok code g' → Bounded scope g.temporaries →
      ∃ scope', Typed symbols scope code scope' ∧ Bounded scope' g'.temporaries
  | .read location name, g, g', code, scope, hsymbols, _, _, h, hscope => by
      have hgrows := (lowerRead_allots h).grows
      exact ⟨scope, lowerRead_typed hsymbols h scope, hscope.mono hgrows.temporaries⟩
  | .print location value, g, g', code, scope, hsymbols, hrecorded, hs, h, hscope => by
      simp only [lowerStmt, bind_eq_ok_iff, typeOf_eq_ok_iff, pure_eq_ok_iff] at h
      obtain ⟨⟨valueCode, place⟩, _, hlower, found, _, ⟨hfound, rfl⟩, rfl, rfl⟩ := h
      rw [(lowerExpr_allots hlower).types] at hfound
      cases hs with
      | print _ htype =>
          obtain rfl := Recorded.type_eq hrecorded hnames htype hfound
          obtain ⟨scope', hvalue⟩ := lowerExpr_typed hagree hnames hrecorded htype hlower hscope
          exact ⟨scope', hvalue.typed.append
            (.print hvalue.hasType (converts_self _) (.nil scope')), hvalue.bounded⟩
  | .assign location target value, g, g', code, scope, hsymbols, hrecorded, hs, h, hscope => by
      simp only [lowerStmt, bind_eq_ok_iff, pure_eq_ok_iff] at h
      obtain ⟨⟨valueCode, place⟩, _, hlower, rfl, rfl⟩ := h
      cases hs with
      | assign _ htarget htype hassignable =>
          obtain ⟨scope', hvalue⟩ := lowerExpr_typed hagree hnames hrecorded htype hlower hscope
          exact ⟨scope', hvalue.typed.append
            (.assign (.named (hagree _ _ htarget)) hvalue.hasType hassignable (.nil scope')),
            hvalue.bounded⟩
  | .branch location condition yes no, g, g', code, scope, hsymbols, hrecorded, hs, h, hscope => by
      simp only [lowerStmt, bind_eq_ok_iff, pure_eq_ok_iff] at h
      obtain ⟨⟨conditionCode, place⟩, m, hlower, yesCode, m', hlowerYes, noCode, _, hlowerNo, rfl,
        rfl⟩ := h
      rw [Stmt.postorder] at hrecorded
      have hgrows := (lowerExpr_allots hlower).grows
      have hgrowsYes := (lowerAll_allots yes hlowerYes).grows
      have hgrowsNo := (lowerAll_allots no hlowerNo).grows
      have hboth := hgrows.trans hgrowsYes
      cases hs with
      | branch _ hcondition hyes hno =>
          obtain ⟨scope', hvalue⟩ :=
            lowerExpr_typed hagree hnames hrecorded.left.left hcondition hlower hscope
          -- Both blocks begin in the scope of the condition, and it is what goes on behind them.
          obtain ⟨_, hyesTyped, -⟩ := lowerAll_typed hagree hnames yes (hgrows.entries hsymbols)
            (hgrows.recorded hrecorded.left.right) hyes hlowerYes hvalue.bounded
          obtain ⟨_, hnoTyped, -⟩ := lowerAll_typed hagree hnames no (hboth.entries hsymbols)
            (hboth.recorded hrecorded.right) hno hlowerNo
            (hvalue.bounded.mono hgrowsYes.temporaries)
          exact ⟨scope', hvalue.typed.append
            (.branch hvalue.hasType hyesTyped hnoTyped (.nil scope')),
            hvalue.bounded.mono (hgrowsYes.trans hgrowsNo).temporaries⟩
  | .loop location condition body, g, g', code, scope, hsymbols, hrecorded, hs, h, hscope => by
      simp only [lowerStmt, bind_eq_ok_iff, pure_eq_ok_iff] at h
      obtain ⟨⟨conditionCode, place⟩, m, hlower, bodyCode, _, hlowerBody, rfl, rfl⟩ := h
      rw [Stmt.postorder] at hrecorded
      have hgrows := (lowerExpr_allots hlower).grows
      have hgrowsBody := (lowerAll_allots body hlowerBody).grows
      cases hs with
      | loop _ hcondition hbody =>
          obtain ⟨scope', hvalue⟩ :=
            lowerExpr_typed hagree hnames hrecorded.left hcondition hlower hscope
          obtain ⟨_, hbodyTyped, -⟩ := lowerAll_typed hagree hnames body (hgrows.entries hsymbols)
            (hgrows.recorded hrecorded.right) hbody hlowerBody hvalue.bounded
          -- The condition is computed inside the block, so all of it is out of scope behind.
          exact ⟨scope, .loop (hvalue.typed.append (.leaveUnless hvalue.hasType hbodyTyped))
            (.nil scope), hscope.mono (hgrows.trans hgrowsBody).temporaries⟩

theorem lowerAll_typed (hagree : Agree symbols declared)
    (hnames : (declared.map Declaration.name).Nodup) :
    ∀ (statements : List Stmt) {g g' : Generator} {code : List Instr} {scope : List (Nat × Ty)},
      g.symbols.entries = symbols → Recorded declared g.types (Stmt.postorderAll statements) →
      (∀ s ∈ statements, s.WellTyped declared) → lowerAll statements g = .ok code g' →
      Bounded scope g.temporaries →
      ∃ scope', Typed symbols scope code scope' ∧ Bounded scope' g'.temporaries
  | [], g, g', code, scope, _, _, _, h, hscope => by
      rw [lowerAll, pure_eq_ok_iff] at h
      obtain ⟨rfl, rfl⟩ := h
      exact ⟨scope, .nil scope, hscope⟩
  | s :: rest, g, g', code, scope, hsymbols, hrecorded, hall, h, hscope => by
      simp only [lowerAll, bind_eq_ok_iff, pure_eq_ok_iff] at h
      obtain ⟨sCode, m, hlower, restCode, _, hlowerRest, rfl, rfl⟩ := h
      obtain ⟨hs, hrest⟩ := List.forall_mem_cons.mp hall
      rw [Stmt.postorderAll] at hrecorded
      have hgrows := (lowerStmt_allots s hlower).grows
      obtain ⟨middle, hsTyped, hbounded⟩ :=
        lowerStmt_typed hagree hnames s hsymbols hrecorded.left hs hlower hscope
      obtain ⟨scope', hrestTyped, hbounded'⟩ := lowerAll_typed hagree hnames rest
        (hgrows.entries hsymbols) (hgrows.recorded hrecorded.right) hrest hlowerRest hbounded
      exact ⟨scope', hsTyped.append hrestTyped, hbounded'⟩

end

/-! ## Files -/

/-- What is known of the file that is made for a program which passes the check. -/
structure Lowered (p : Program) (f : File) (g g' : Generator) : Prop where
  wellTyped : p.WellTyped
  symbols : g.symbols.entries = p.symbols
  recorded : Recorded p.declarations g.types p.postorder
  body : lowerAll p.statements g = .ok f.body g'
  file : f.symbols = p.symbols
  usesStrings : f.usesStrings =
    (g.symbols.values.contains .string || g.types.values.contains .string)

theorem lowered_of_generate {p : Program} (hids : (p.expressions.map Expr.id).Nodup) {t : Typing}
    (hcheck : Typing.empty.extend p = (none, t)) {f : File} {g : Generator}
    (hgenerate : (Generator.ofTables t.symbols t.types).generate p = (.ok f, g)) :
    Lowered p f (.ofTables t.symbols t.types) g := by
  have hnodup : (p.postorder.map Expr.id).Nodup :=
    (p.expressions_perm.map Expr.id).nodup_iff.mp hids
  obtain ⟨hwellTyped, hscoped, -, hrecorded⟩ :=
    Typing.check_sound hnodup (Typing.extend_eq_iff.mp hcheck)
  have hlower := generate_eq_ok_iff.mp hgenerate
  simp only [lowerProgram, bind_eq_ok_iff, modify_eq_ok_iff, get_eq_ok_iff, pure_eq_ok_iff]
    at hlower
  obtain ⟨_, _, rfl, body, m, hbody, _, _, ⟨rfl, rfl⟩, rfl, rfl⟩ := hlower
  have hgrows := (lowerAll_allots p.statements hbody).grows
  refine ⟨hwellTyped, hscoped.symbols_entries, hrecorded, hbody, ?_, ?_⟩
  · exact hgrows.entries hscoped.symbols_entries
  · rw [hgrows.symbols, hgrows.types]

theorem Lowered.typed {p : Program} {f : File} {g g' : Generator} (h : Lowered p f g g') :
    ∃ scope, Typed f.symbols [] f.body scope := by
  have hempty : Bounded [] g.temporaries := nofun
  obtain ⟨scope, htyped, -⟩ := lowerAll_typed (p.agree_symbols h.wellTyped.names)
    h.wellTyped.names p.statements h.symbols h.recorded h.wellTyped.statements h.body hempty
  exact ⟨scope, h.file ▸ htyped⟩

/-- The file for a program that passes the check is well typed: its variables have the types
of their declarations, every temporary has the type of its initializer, only values of a fit
type are assigned, conditions are integers, and the conversions of formats fit their
arguments. If the program is spelt with words, so is whatever code has the text of the file. -/
theorem generate_wellTyped {p : Program} (hids : (p.expressions.map Expr.id).Nodup) {t : Typing}
    (hcheck : Typing.empty.extend p = (none, t)) {f : File} {g : Generator}
    (hgenerate : (Generator.ofTables t.symbols t.types).generate p = (.ok f, g)) :
    f.symbols = p.symbols ∧ (∃ scope, Typed f.symbols [] f.body scope) ∧
      ∀ strings, p.Spelt strings → ∀ f' : File, f'.Legible → f'.text = f.text →
        f'.symbols = p.symbols ∧ ∃ scope, Typed f'.symbols [] f'.body scope := by
  have hlowered := lowered_of_generate hids hcheck hgenerate
  refine ⟨hlowered.file, hlowered.typed, ?_⟩
  intro strings hspelt f' hlegible htext
  obtain ⟨-, hsymbols, hbody⟩ :=
    eq_of_text_of_lower hspelt hlowered.file hlowered.body hlegible htext
  rw [hsymbols, hbody]
  exact ⟨hlowered.file, hlowered.typed⟩

/-- The program `read s; while 1 do print s + "!"; x = 1; done` and its code. -/
theorem generate_wellTyped_greeting :
    let code : List Instr := [.scanString "s", .loop
      [.define .int 1 (.int 1), .leaveUnless (.temporary 1), .define .string 2 (.string "!"),
        .define .string 3 (.concat (.variable "s") (.temporary 2)), .print .string (.temporary 3),
        .define .int 4 (.int 1), .assign "x" (.temporary 4)]]
    ∃ scope, Typed [("s", .string), ("x", .float)] [] code scope := by
  let p : Program := ⟨[⟨default, "s", .string⟩, ⟨default, "x", .float⟩],
    [.read default "s", .loop default (.int ⟨0, default⟩ 1)
      [.print default
          (.binary ⟨3, default⟩ .add (.name ⟨1, default⟩ "s") (.string ⟨2, default⟩ "!")),
        .assign default "x" (.int ⟨4, default⟩ 1)]]⟩
  have hids : (p.expressions.map Expr.id).Nodup := by
    have hexpressions : p.expressions.map Expr.id = [0, 3, 1, 2, 4] := by
      simp [p, Program.expressions, Visit.expressions, Visit.here, Visit.parts, Expr.operands,
        Expr.id, Expr.mark]
    rw [hexpressions]
    decide
  exact (generate_wellTyped hids rfl rfl).2.1

end ImpToC.C
