import ImpToC.Proofs.Outline.Printers
import ImpToC.Proofs.Typing.Sessions

/-!
# Types in outlines

What is printed with the types that a checker has found. Each expression stands there with the
type that the rules give it, and so does all that is in it, so no question mark stands for a type.
-/

namespace ImpToC

/-! ## Texts that show types -/

/-- The text of an expression that shows its type and the types of all that is in it, as the
rules give them over some declared variables. -/
inductive Expr.Shown (declared : List Declaration) : Expr → Ty → String → Prop
  | name (mark : Mark) {name : String} {type : Ty} :
      Declared declared name type → Shown declared (.name mark name) type (type.mark name)
  | int (mark : Mark) (value : Nat) :
      Shown declared (.int mark value) .int (Ty.int.mark (toString value))
  | float (mark : Mark) (value : Number.Magnitude) :
      Shown declared (.float mark value) .float (Ty.float.mark (String.ofList value.text))
  | string (mark : Mark) (text : String) :
      Shown declared (.string mark text) .string (Ty.string.mark ("\"" ++ text ++ "\""))
  | negate (mark : Mark) {operand : Expr} {type : Ty} {text : String} :
      Shown declared operand type text →
      Shown declared (.negate mark operand) type (type.mark ("(-" ++ text ++ ")"))
  | binary (mark : Mark) {op : BinOp} {left right : Expr} {leftType rightType type : Ty}
      {leftText rightText : String} :
      Shown declared left leftType leftText → Shown declared right rightType rightText →
      op.Types leftType rightType type →
      Shown declared (.binary mark op left right) type
        (type.mark ("(" ++ leftText ++ " " ++ op.sign ++ " " ++ rightText ++ ")"))

variable {declared : List Declaration} {table : Table Nat Ty}

/-- A table has the types that the rules give some expressions. -/
def HasTypes (table : Table Nat Ty) (declared : List Declaration) (es : List Expr) : Prop :=
  ∀ e ∈ es, ∃ type, table.get? e.id = some type ∧ e.HasType declared type

theorem HasTypes.left {es es' : List Expr} (h : HasTypes table declared (es ++ es')) :
    HasTypes table declared es :=
  fun e he => h e (List.mem_append_left es' he)

theorem HasTypes.right {es es' : List Expr} (h : HasTypes table declared (es ++ es')) :
    HasTypes table declared es' :=
  fun e he => h e (List.mem_append_right es he)

theorem HasTypes.get? {e : Expr} {type : Ty} (hnames : (declared.map Declaration.name).Nodup)
    (htypes : HasTypes table declared e.postorder) (h : e.HasType declared type) :
    table.get? e.id = some type := by
  obtain ⟨type', hget, htype⟩ := htypes e e.mem_postorder_self
  rwa [h.unique hnames htype] at hget

namespace Expr

/-- What stands in brackets with its type is what a table with that type shows. -/
theorem Shown.bracketed {e : Expr} {type : Ty} {text : String}
    (h : e.Shown declared type (type.mark text)) (hget : table.get? e.id = some type) :
    e.Shown declared type (bracketed (some table) e.id text) := by
  rw [ImpToC.bracketed, hget]
  exact h

/-- Where a table has the type of each expression, the texts show them. -/
theorem shown_text {e : Expr} {type : Ty} (hnames : (declared.map Declaration.name).Nodup)
    (htypes : HasTypes table declared e.postorder) (h : e.HasType declared type) :
    e.Shown declared type (e.text (some table)) := by
  have hget := htypes.get? hnames h
  induction h with
  | name mark hdeclared => exact (Shown.name mark hdeclared).bracketed hget
  | int mark value => exact (Shown.int mark value).bracketed hget
  | float mark value => exact (Shown.float mark value).bracketed hget
  | string mark value => exact (Shown.string mark value).bracketed hget
  | negate mark hoperand ih =>
      have htypes' := htypes.left
      exact (Shown.negate mark (ih htypes' (htypes'.get? hnames hoperand))).bracketed hget
  | binary mark hleft hright hop ihLeft ihRight =>
      have hleftTypes := htypes.left.left
      have hrightTypes := htypes.left.right
      have hleftText := ihLeft hleftTypes (hleftTypes.get? hnames hleft)
      have hrightText := ihRight hrightTypes (hrightTypes.get? hnames hright)
      exact (Shown.binary mark hleftText hrightText hop).bracketed hget

/-! ## Texts in texts -/

variable {types : Option (Table Nat Ty)}

theorem infix_bracketed (id : Nat) (text : String) :
    text.toList <:+: (ImpToC.bracketed types id text).toList := by
  unfold ImpToC.bracketed
  split
  · exact List.infix_rfl
  · split
    · exact ⟨['['], _, by simp [Ty.mark]; rfl⟩
    · exact ⟨['['], _, by simp; rfl⟩

/-- The text of an expression has the texts of all that is in it. -/
theorem infix_text_of_mem {e x : Expr} (h : x ∈ e.postorder) :
    (x.text types).toList <:+: (e.text types).toList := by
  induction e with
  | name | int | float | string =>
      cases List.mem_singleton.mp h
      exact List.infix_rfl
  | negate mark operand ih => 
      rw [postorder, List.mem_append, List.mem_singleton] at h
      rcases h with h | rfl
      · refine (ih h).trans (.trans ?_ (infix_bracketed mark.id _))
        exact ⟨['(', '-'], [')'], by simp⟩
      · exact List.infix_rfl
  | binary mark op left right ihLeft ihRight =>
      rw [postorder, List.mem_append, List.mem_append, List.mem_singleton] at h
      rcases h with (h | h) | rfl
      · refine (ihLeft h).trans (.trans ?_ (infix_bracketed mark.id _))
        exact ⟨['('], _, by simp; rfl⟩
      · refine (ihRight h).trans (.trans ?_ (infix_bracketed mark.id _))
        exact ⟨'(' :: (left.text types).toList ++ ' ' :: op.sign.toList ++ [' '], [')'], by simp⟩
      · exact List.infix_rfl

end Expr

/-! ## Question marks -/

/-- The number of question marks in a text. -/
def questionMarks (text : String) : Nat := text.toList.count '?'

@[simp] theorem questionMarks_append (first second : String) :
    questionMarks (first ++ second) = questionMarks first + questionMarks second := by
  simp [questionMarks]

@[simp] theorem questionMarks_mark (type : Ty) (text : String) :
    questionMarks (type.mark text) = questionMarks text := by
  have hname : questionMarks type.name = 0 := by cases type <;> decide
  have hopen : questionMarks "[" = 0 := by decide
  have hcolon : questionMarks " : " = 0 := by decide
  have hclose : questionMarks "]" = 0 := by decide
  simp [Ty.mark, hname, hopen, hcolon, hclose]

@[simp] theorem questionMarks_indented (level : Nat) (text : String) :
    questionMarks (indented level text) = questionMarks text := by
  simp [indented, questionMarks, List.count_replicate]

/-- How many question marks a text has depends on how many its lines have. -/
theorem questionMarks_intercalate {lines lines' : List String}
    (h : lines.map questionMarks = lines'.map questionMarks) :
    questionMarks ("\n".intercalate lines) = questionMarks ("\n".intercalate lines') := by
  induction lines generalizing lines' with
  | nil =>
      cases List.map_eq_nil_iff.mp h.symm
      rfl
  | cons line rest ih =>
      obtain ⟨line', rest', rfl, hline, hrest⟩ := List.map_eq_cons_iff.mp h.symm
      cases rest with
      | nil =>
          cases List.map_eq_nil_iff.mp hrest
          rw [String.intercalate_singleton, String.intercalate_singleton, hline]
      | cons next rest =>
          obtain ⟨next', rest'', rfl, -⟩ := List.map_eq_cons_iff.mp hrest
          rw [String.intercalate_cons_cons, String.intercalate_cons_cons, questionMarks_append,
            questionMarks_append, questionMarks_append, questionMarks_append, hline,
            ih hrest.symm]

theorem questionMarks_bracketed {id : Nat} {type : Ty} (h : table.get? id = some type)
    (text : String) : questionMarks (bracketed (some table) id text) = questionMarks text := by
  rw [bracketed, h]
  exact questionMarks_mark type text

/-- Where a table has the type of each expression, the types add no question mark to a text. -/
theorem Expr.questionMarks_text {e : Expr} (htypes : HasTypes table declared e.postorder) :
    questionMarks (e.text (some table)) = questionMarks (e.text none) := by
  obtain ⟨type, hget, -⟩ := htypes e e.mem_postorder_self
  induction e generalizing type with
  | name | int | float | string => exact questionMarks_bracketed hget _
  | negate mark operand ih =>
      obtain ⟨type', hget', -⟩ := htypes.left operand operand.mem_postorder_self
      have hoperand := ih htypes.left type' hget'
      refine (questionMarks_bracketed hget _).trans ?_
      simp only [text, ImpToC.bracketed, questionMarks_append, hoperand]
  | binary mark op left right ihLeft ihRight =>
      obtain ⟨type', hget', -⟩ := htypes.left.left left left.mem_postorder_self
      obtain ⟨type'', hget'', -⟩ := htypes.left.right right right.mem_postorder_self
      have hleft := ihLeft htypes.left.left type' hget'
      have hright := ihRight htypes.left.right type'' hget''
      refine (questionMarks_bracketed hget _).trans ?_
      simp only [text, ImpToC.bracketed, questionMarks_append, hleft, hright]

theorem Expr.questionMarks_render {e : Expr} (htypes : HasTypes table declared e.postorder) :
    questionMarks (e.render (some table)) = questionMarks (e.render none) := by
  rw [render_eq_text, render_eq_text, questionMarks_text htypes]

/-! ## Statements -/

/-- A text stands in one of some lines. -/
def StandsIn (text : String) (lines : List String) : Prop :=
  ∃ line ∈ lines, text.toList <:+: line.toList

namespace StandsIn

variable {text line : String} {lines more : List String}

theorem head (h : text.toList <:+: line.toList) (lines : List String) :
    StandsIn text (line :: lines) :=
  ⟨line, List.mem_cons_self, h⟩

theorem tail (line : String) (h : StandsIn text lines) : StandsIn text (line :: lines) := by
  obtain ⟨line', hmem, hinfix⟩ := h
  exact ⟨line', List.mem_cons_of_mem line hmem, hinfix⟩

theorem left (more : List String) (h : StandsIn text lines) : StandsIn text (lines ++ more) := by
  obtain ⟨line, hmem, hinfix⟩ := h
  exact ⟨line, List.mem_append_left more hmem, hinfix⟩

theorem right (lines : List String) (h : StandsIn text more) : StandsIn text (lines ++ more) := by
  obtain ⟨line, hmem, hinfix⟩ := h
  exact ⟨line, List.mem_append_right lines hmem, hinfix⟩

/-- What stands in a line stands in the text of all lines. -/
theorem infix_intercalate (h : StandsIn text lines) :
    text.toList <:+: ("\n".intercalate lines).toList := by
  obtain ⟨line, hmem, hinfix⟩ := h
  refine hinfix.trans ?_
  induction lines with
  | nil => cases hmem
  | cons first rest ih =>
      cases rest with
      | nil =>
          cases List.mem_singleton.mp hmem
          exact ⟨[], [], by simp⟩
      | cons next rest =>
          rw [String.intercalate_cons_cons, String.toList_append, String.toList_append]
          rcases List.mem_cons.mp hmem with rfl | hmem
          · exact (List.infix_append' [] _ _).trans (List.infix_append' [] _ _)
          · exact (ih hmem).trans (List.suffix_append _ _).isInfix

end StandsIn

section Lines

variable {types : Option (Table Nat Ty)} {x : Expr}

/-- The text of an expression stands in a line that ends in the text of an expression it is in. -/
theorem Expr.infix_line {value : Expr} (h : x ∈ value.postorder) (level : Nat) (front : String) :
    (x.text types).toList <:+: (indented level (front ++ value.render types)).toList := by
  rw [render_eq_text, indented, String.toList_append, String.toList_append]
  exact (infix_text_of_mem h).trans
    ((List.suffix_append _ _).trans (List.suffix_append _ _)).isInfix

mutual

/-- The text of an expression stands in a line of its statement. -/
theorem Stmt.standsIn_outline : ∀ (s : Stmt) (level : Nat),
    x ∈ s.postorder → StandsIn (x.text types) (s.outline types level)
  | .read .., _, h => nomatch h
  | .print _ value, level, h => .head (Expr.infix_line h level _) []
  | .assign _ target value, level, h => .head (Expr.infix_line h level _) []
  | .branch _ condition yes no, level, h => by
      rw [Stmt.outline]
      rcases List.mem_append.mp h with h | h
      · rcases List.mem_append.mp h with h | h
        · exact .left _ (.head (Expr.infix_line h level _) _)
        · exact .left _ (.tail _ (.tail _ (Stmt.standsIn_outlineAll yes (level + 2) h)))
      · cases no with
        | nil => cases h
        | cons s rest =>
            exact .right _ (.tail _ (Stmt.standsIn_outlineAll (s :: rest) (level + 2) h))
  | .loop _ condition body, level, h => by
      rw [Stmt.outline]
      rcases List.mem_append.mp h with h | h
      · exact .head (Expr.infix_line h level _) _
      · exact .tail _ (Stmt.standsIn_outlineAll body (level + 1) h)

theorem Stmt.standsIn_outlineAll : ∀ (statements : List Stmt) (level : Nat),
    x ∈ Stmt.postorderAll statements →
      StandsIn (x.text types) (Stmt.outlineAll types level statements)
  | [], _, h => nomatch h
  | s :: rest, level, h => by
      rw [Stmt.outlineAll]
      rcases List.mem_append.mp h with h | h
      · exact .left _ (Stmt.standsIn_outline s level h)
      · exact .right _ (Stmt.standsIn_outlineAll rest level h)

end

/-- The text of an expression stands in the outline of its program. -/
theorem Program.infix_render_of_mem {p : Program} (h : x ∈ p.postorder) :
    (x.text types).toList <:+: (p.render types).toList :=
  (StandsIn.right _ (Stmt.standsIn_outlineAll p.statements 1 h)).infix_intercalate

end Lines

mutual

theorem Stmt.questionMarks_outline : ∀ (s : Stmt), HasTypes table declared s.postorder →
    ∀ level, (s.outline (some table) level).map questionMarks =
      (s.outline none level).map questionMarks
  | .read .., _, level => rfl
  | .print _ value, htypes, level => by
      simp [Stmt.outline, Expr.questionMarks_render htypes]
  | .assign _ target value, htypes, level => by
      simp [Stmt.outline, Expr.questionMarks_render htypes]
  | .branch _ condition yes no, htypes, level => by
      have hcondition := Expr.questionMarks_render htypes.left.left
      have hyes := Stmt.questionMarks_outlineAll yes htypes.left.right (level + 2)
      have hno := Stmt.questionMarks_outlineAll no htypes.right (level + 2)
      cases no with
      | nil => simp [Stmt.outline, hcondition, hyes]
      | cons s rest => simp [Stmt.outline, hcondition, hyes, hno]
  | .loop _ condition body, htypes, level => by
      have hcondition := Expr.questionMarks_render htypes.left
      have hbody := Stmt.questionMarks_outlineAll body htypes.right (level + 1)
      simp [Stmt.outline, hcondition, hbody]

theorem Stmt.questionMarks_outlineAll : ∀ (statements : List Stmt),
    HasTypes table declared (Stmt.postorderAll statements) →
    ∀ level, (Stmt.outlineAll (some table) level statements).map questionMarks =
      (Stmt.outlineAll none level statements).map questionMarks
  | [], _, level => rfl
  | s :: rest, htypes, level => by
      rw [Stmt.outlineAll, Stmt.outlineAll, List.map_append, List.map_append,
        Stmt.questionMarks_outline s htypes.left level,
        Stmt.questionMarks_outlineAll rest htypes.right level]

end

/-- Where a table has the type of each expression, the types add no question mark to the outline
of a program. -/
theorem Program.questionMarks_render {p : Program} (htypes : HasTypes table declared p.postorder) :
    questionMarks (p.render (some table)) = questionMarks (p.render none) := by
  apply questionMarks_intercalate
  rw [outline, outline, List.map_append, List.map_append,
    Stmt.questionMarks_outlineAll p.statements htypes 1]

/-! ## The types of a checker -/

namespace Checker

/-- A checker that passes a program has the types of its expressions on record, whatever it has
checked before. -/
theorem types_of_check {c : Checker} (h : c.Declares declared) {p : Program}
    (hids : (p.postorder.map Expr.id).Nodup) (hpass : (c.check p).1 = none) :
    ((declared ++ p.declarations).map Declaration.name).Nodup ∧
      HasTypes (c.check p).2.types (declared ++ p.declarations) p.postorder := by
  obtain ⟨t, rfl, hscoped⟩ := h.exists_typing
  let fresh : Typing := { t with types := .empty }
  have hstale : t = fresh.onto t.types := by
    rw [Typing.onto, Table.overlay_empty]
  have hcheck := check_checker hids t
  rw [hstale, Typing.extend_onto, ← hstale] at hcheck
  rw [hcheck] at hpass ⊢
  have hextend : fresh.extend p = (none, (fresh.extend p).2) :=
    Prod.ext (Option.map_eq_none_iff.mp hpass) rfl
  obtain ⟨hnames, -, -, -, htyped⟩ := Typing.check_sound_over (t := fresh) hscoped h.nodup rfl hids
    (Typing.extend_eq_iff.mp hextend)
  refine ⟨hnames, fun e he => ?_⟩
  obtain ⟨type, hget, htype⟩ := htyped e he
  refine ⟨type, ?_, htype⟩
  -- What is left over under the number does not count.
  show (t.types.overlay (fresh.extend p).2.types).get? e.id = some type
  rw [Table.get?_overlay, hget, Option.some_or]

end Checker

namespace Printer

/-- The walk of a printer comes to the text that recursion gives, with whatever types are given
and wherever they are missing. With the table of a checker that has passed a program, whatever
the checker and the printer have done before, the text of the program shows each expression with
the type that is on record for it, which is the one that the rules give, down to its operands;
and there is no question mark in it that is not there without types. -/
theorem prints_types :
    (∀ (types : Option (Table Nat Ty)) (e : Expr), (e.postorder.map Expr.id).Nodup →
        exprText? types e = some (e.text types)) ∧
      ∀ {host : Host} {s : Sentence} {p : Program}, Parser.parse host s = .ok p →
        ∀ {c : Checker} {declared : List Declaration}, c.Declares declared →
        (c.check p).1 = none →
        ∀ {typed plain : Printer}, typed.types = some (c.check p).2.types → plain.types = none →
          (typed.print p).1 = .ok (p.render typed.types) ∧
          (plain.print p).1 = .ok (p.render plain.types) ∧
          (∀ e ∈ p.expressions, ∃ type, (c.check p).2.types.get? e.id = some type ∧
            e.Shown (declared ++ p.declarations) type (e.text typed.types) ∧
            (e.text typed.types).toList <:+: (p.render typed.types).toList) ∧
          (p.render typed.types).toList.count '?' = (p.render plain.types).toList.count '?' := by
  refine ⟨fun types e hnodup => exprText?_eq_text hnodup, ?_⟩
  intro host s p hparse c declared hdeclares hpass typed plain htyped hplain
  have hids := Parser.nodup_ids_of_parse hparse
  obtain ⟨hnames, htypes⟩ := Checker.types_of_check hdeclares hids hpass
  refine ⟨print_eq_render hids typed, print_eq_render hids plain, fun e he => ?_, ?_⟩
  · have hmem := p.expressions_perm.mem_iff.mp he
    obtain ⟨type, hget, htype⟩ := htypes e hmem
    refine ⟨type, hget, ?_, Program.infix_render_of_mem hmem⟩
    rw [htyped]
    exact Expr.shown_text hnames
      (fun x hx => htypes x (Stmt.postorderAll_subset p.statements hmem hx)) htype
  · rw [htyped, hplain]
    exact Program.questionMarks_render htypes

/-- In `var x : float; print -x;` the negation is shown with its type and that of its operand. A
table with no type for an operand leaves a question mark there. -/
theorem prints_types_negation :
    let sum : Expr := .binary ⟨2, default⟩ .add (.int ⟨0, default⟩ 1) (.name ⟨1, default⟩ "x")
    let negation : Expr := .negate ⟨1, default⟩ (.name ⟨0, default⟩ "x")
    let p : Program := ⟨[⟨default, "x", .float⟩], [.print default negation]⟩
    exprText? (some (.ofList [(0, .int), (2, .float)])) sum =
        some "[([1 : int] + [x : ?]) : float]" ∧
      ((ofTypes (some (Checker.empty.check p).2.types)).print p).1 =
        .ok "Program\n  Var x : float\n  Print [(-[x : float]) : float]" ∧
      "[(-[x : float]) : float]".toList <:+:
        (p.render (some (Checker.empty.check p).2.types)).toList := by
  intro sum negation p
  let words : List Lexeme :=
    [.symbol .varWord, .name "x", .symbol .colon, .symbol .floatWord, .symbol .semicolon,
      .symbol .printWord, .symbol .minus, .name "x", .symbol .semicolon]
  have hparse : Parser.parse .unlimited ⟨words.map (⟨·, default⟩), default, by decide⟩ = .ok p :=
    (Parser.parse_unlimited _).trans rfl
  have hpass : (Checker.empty.check p).1 = none := by decide +kernel
  let typed : Printer := ofTypes (some (Checker.empty.check p).2.types)
  let plain : Printer := ofTypes none
  have htypes : typed.types = some (Checker.empty.check p).2.types := rfl
  have hnone : plain.types = none := rfl
  obtain ⟨hprint, -, hshown, -⟩ :=
    prints_types.2 hparse Checker.declares_empty hpass htypes hnone
  have hmem : negation ∈ p.expressions := by decide +kernel
  have htext : negation.text typed.types = "[(-[x : float]) : float]" := by decide +kernel
  have hrender : p.render typed.types =
      "Program\n  Var x : float\n  Print [(-[x : float]) : float]" := by
    decide +kernel
  have hsum : sum.text (some (.ofList [(0, .int), (2, .float)])) =
      "[([1 : int] + [x : ?]) : float]" := by
    decide +kernel
  obtain ⟨-, -, -, hinfix⟩ := hshown negation hmem
  rw [htext] at hinfix
  rw [hrender] at hprint
  exact ⟨(prints_types.1 _ sum (by decide)).trans (congrArg some hsum), hprint, hinfix⟩

end Printer

end ImpToC
