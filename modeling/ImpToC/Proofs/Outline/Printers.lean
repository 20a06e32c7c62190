import ImpToC.Proofs.Effects
import ImpToC.Proofs.Outline.Texts
import ImpToC.Proofs.Syntax.Expressions
import ImpToC.Syntax.Printer

/-!
# Printers and outlines

The text of an expression by recursion over it, and the printer that puts the texts of operands
down under their numbers. The numbers in an expression are distinct, so nothing that is put down
for an operand is lost before it is looked up, and a printer stops at no expression. Its lines
are those of the outline.
-/

namespace ImpToC

/-! ## Texts by recursion -/

/-- A text in brackets with a type. -/
def Ty.mark (type : Ty) (text : String) : String := "[" ++ text ++ " : " ++ type.name ++ "]"

/-- A text in brackets with the type that a table has for a number, or with a question mark if
it has none. Nothing is added where no table is given. -/
def bracketed (types : Option (Table Nat Ty)) (id : Nat) (text : String) : String :=
  match types with
  | none => text
  | some table =>
    match table.get? id with
    | some type => type.mark text
    | none => "[" ++ text ++ " : ?]"

/-- The text of an expression, operations in parentheses. -/
def Expr.text (types : Option (Table Nat Ty)) : Expr → String
  | .name mark x => bracketed types mark.id x
  | .int mark value => bracketed types mark.id (toString value)
  | .float mark value => bracketed types mark.id (String.ofList value.text)
  | .string mark text => bracketed types mark.id ("\"" ++ text ++ "\"")
  | .negate mark operand => bracketed types mark.id ("(-" ++ operand.text types ++ ")")
  | .binary mark op left right =>
    bracketed types mark.id
      ("(" ++ left.text types ++ " " ++ op.sign ++ " " ++ right.text types ++ ")")

variable {types : Option (Table Nat Ty)}

namespace Expr

theorem annotate_eq_bracketed (e : Expr) (text : String) :
    e.annotate types text = bracketed types e.id text := by
  cases types with
  | none => rfl
  | some table =>
      rw [annotate, bracketed]
      cases table.get? e.id with
      | some type => rfl
      | none =>
          have hend : "[" ++ text ++ " : " ++ "?" ++ "]" = "[" ++ text ++ " : ?]" := by
            rw [String.append_assoc, String.append_assoc]
            rfl
          exact hend

/-- An outline has the same texts. -/
theorem render_eq_text (e : Expr) : e.render types = e.text types := by
  induction e with
  | name | int | float | string =>
      rw [render_eq, annotate_eq_bracketed]
      rfl
  | negate mark operand ih =>
      rw [render_eq, annotate_eq_bracketed, operands, List.map_singleton, ih]
      rfl
  | binary mark op left right ihLeft ihRight =>
      rw [render_eq, annotate_eq_bracketed, operands, List.map_cons, List.map_singleton, ihLeft,
        ihRight]
      rfl

end Expr

namespace Printer

/-! ## Texts under their numbers -/

section Walk

variable {texts texts' : Table Nat String}

/-- The text of an expression is put down, and nothing changes under the numbers that are not in
it. -/
structure PutsDown (types : Option (Table Nat Ty)) (e : Expr) (texts texts' : Table Nat String) :
    Prop where
  here : texts'.get? e.id = some (e.text types)
  others : ∀ id, id ∉ e.postorder.map Expr.id → texts'.get? id = texts.get? id

theorem putsDown_insert {e : Expr}
    (hothers : ∀ id, id ∉ e.postorder.map Expr.id → texts'.get? id = texts.get? id) :
    PutsDown types e texts (texts'.insert e.id (e.text types)) where
  here := Table.get?_insert_self ..
  others id hid := by
    have hne : id ≠ e.id := fun heq => hid (heq ▸ List.mem_map_of_mem e.mem_postorder_self)
    exact (Table.get?_insert_of_ne texts' _ hne).trans (hothers id hid)

theorem walk?_nil (texts : Table Nat String) : walk? types [] texts = some texts := by
  rw [walk?]

theorem walk?_close {e : Expr} (h : nodeText? types texts e = some (e.text types))
    (agenda : List Writing) :
    walk? types (.close e :: agenda) texts =
      walk? types agenda (texts.insert e.id (e.text types)) := by
  rw [walk?, h]
  rfl

theorem walk?_enter_leaf {e : Expr} (h : e.operands = []) (agenda : List Writing) :
    walk? types (.enter e :: agenda) texts =
      walk? types agenda (texts.insert e.id (e.text types)) := by
  have hnode : nodeText? types texts e = some (e.text types) := by
    cases e with
    | name | int | float | string => exact congrArg some (Expr.annotate_eq_bracketed _ _)
    | negate | binary => cases h
  cases e with
  | name | int | float | string =>
      rw [walk?, hnode]
      · rfl
      · exact fun _ _ h => Expr.noConfusion h
      · exact fun _ _ _ _ h => Expr.noConfusion h
  | negate | binary => cases h

theorem nodeText?_negate {mark : Mark} {operand : Expr}
    (h : texts.get? operand.id = some (operand.text types)) :
    nodeText? types texts (.negate mark operand) =
      some ((Expr.negate mark operand).text types) := by
  rw [nodeText?, plainText?, h]
  exact congrArg some (Expr.annotate_eq_bracketed _ _)

theorem nodeText?_binary {mark : Mark} {op : BinOp} {left right : Expr}
    (hleft : texts.get? left.id = some (left.text types))
    (hright : texts.get? right.id = some (right.text types)) :
    nodeText? types texts (.binary mark op left right) =
      some ((Expr.binary mark op left right).text types) := by
  rw [nodeText?, plainText?, hleft, hright]
  exact congrArg some (Expr.annotate_eq_bracketed _ _)

/-- Entering an expression puts its text down and goes on with the agenda. -/
theorem walk?_enter (e : Expr) (hnodup : (e.postorder.map Expr.id).Nodup) (agenda : List Writing)
    (texts : Table Nat String) :
    ∃ texts', PutsDown types e texts texts' ∧
      walk? types (.enter e :: agenda) texts = walk? types agenda texts' := by
  induction e generalizing agenda texts with
  | name | int | float | string =>
      exact ⟨_, putsDown_insert fun _ _ => rfl, walk?_enter_leaf rfl agenda⟩
  | negate mark operand ih =>
      rw [Expr.postorder, List.map_append] at hnodup
      obtain ⟨texts', hput, hwalk⟩ := ih (List.nodup_append.mp hnodup).1
        (.close (.negate mark operand) :: agenda) texts
      refine ⟨_, putsDown_insert fun id hid => hput.others id fun hmem => hid ?_, ?_⟩
      · rw [Expr.postorder, List.map_append]
        exact List.mem_append_left _ hmem
      · rw [walk?, hwalk, walk?_close (nodeText?_negate hput.here)]
  | binary mark op left right ihLeft ihRight =>
      rw [Expr.postorder, List.map_append, List.map_append] at hnodup
      obtain ⟨hleftIds, hrightIds, hdisjoint⟩ :=
        List.nodup_append.mp (List.nodup_append.mp hnodup).1
      let e := Expr.binary mark op left right
      obtain ⟨texts', hleft, hwalkLeft⟩ :=
        ihLeft hleftIds (.enter right :: .close e :: agenda) texts
      obtain ⟨texts'', hright, hwalkRight⟩ := ihRight hrightIds (.close e :: agenda) texts'
      -- The left operand's number is not in the right one, so its text is still there.
      have hother : left.id ∉ right.postorder.map Expr.id := fun hmem =>
        hdisjoint _ (List.mem_map_of_mem left.mem_postorder_self) _ hmem rfl
      have hkept := (hright.others left.id hother).trans hleft.here
      refine ⟨texts''.insert e.id (e.text types), putsDown_insert fun id hid => ?_, ?_⟩
      · rw [Expr.postorder, List.map_append, List.map_append, List.mem_append, List.mem_append,
          not_or, not_or] at hid
        exact (hright.others id hid.1.2).trans (hleft.others id hid.1.1)
      · rw [walk?, hwalkLeft, hwalkRight, walk?_close (nodeText?_binary hkept hright.here)]

/-- A printer has the text of an expression with distinct numbers. -/
theorem exprText?_eq_text {e : Expr} (hnodup : (e.postorder.map Expr.id).Nodup) :
    exprText? types e = some (e.text types) := by
  obtain ⟨texts, hput, hwalk⟩ := walk?_enter e hnodup [] .empty
  rw [exprText?, hwalk, walk?_nil]
  exact hput.here

end Walk

/-! ## Lines -/

/-- At a level, a part of the work of a printer puts some lines down behind those that are
there. -/
def Prints (types : Option (Table Nat Ty)) (level : Nat) (x : Print Unit) (lines : List String) :
    Prop :=
  ∀ output, x ⟨types, output, level⟩ = .ok () ⟨types, output ++ lines.toArray, level⟩

section Prints

variable {level : Nat} {x y : Print Unit} {lines lines' : List String}

theorem prints_pure : Prints types level (pure ()) [] := by
  intro output
  rw [Array.append_empty]
  rfl

theorem prints_emit (text : String) :
    Prints types level (emit text) [ImpToC.indented level text] := by
  intro output
  show EStateM.Result.ok () (Printer.mk types (output.push _) level) = _
  rw [Array.push_eq_append]

theorem Prints.bind (hx : Prints types level x lines) (hy : Prints types level y lines') :
    Prints types level (x >>= fun _ => y) (lines ++ lines') := by
  intro output
  rw [bind_of_ok (hx output), hy]
  simp

/-- A line is put down in front of others. -/
theorem Prints.emit (text : String) (h : Prints types level x lines) :
    Prints types level (emit text >>= fun _ => x) (ImpToC.indented level text :: lines) :=
  (prints_emit text).bind h

theorem Prints.indented (h : Prints types (level + 1) x lines) :
    Prints types level (indented x) lines := by
  intro output
  exact bind_of_ok (f := fun _ => modify fun pr => { pr with level := pr.level - 1 }) (h output)

/-- An expression is looked up in front of what is printed with its text. -/
theorem Prints.exprText {e : Expr} (hnodup : (e.postorder.map Expr.id).Nodup)
    {next : String → Print Unit} (h : Prints types level (next (e.render types)) lines) :
    Prints types level (exprText e >>= next) lines := by
  intro output
  have htext : Printer.exprText e ⟨types, output, level⟩ =
      .ok (e.render types) ⟨types, output, level⟩ := by
    rw [Printer.exprText, bind_of_ok (get_eq_ok_iff.mpr ⟨rfl, rfl⟩), exprText?_eq_text hnodup,
      Expr.render_eq_text]
    rfl
  rw [bind_of_ok htext]
  exact h output

end Prints

/-! ## Statements and programs -/

mutual

theorem prints_printStmt : ∀ s : Stmt, (s.postorder.map Expr.id).Nodup → ∀ level,
    Prints types level (printStmt s) (s.outline types level)
  | .read _ name, _, level => prints_emit ("Read " ++ name)
  | .print _ value, hnodup, level => .exprText hnodup (prints_emit _)
  | .assign _ target value, hnodup, level => .exprText hnodup (prints_emit _)
  | .branch _ condition yes no, hnodup, level => by
      rw [Stmt.postorder, List.map_append, List.map_append] at hnodup
      obtain ⟨hnodup, hno, -⟩ := List.nodup_append.mp hnodup
      obtain ⟨hcondition, hyes, -⟩ := List.nodup_append.mp hnodup
      have hyesLines := prints_printStmts yes hyes (level + 2)
      have hnoLines := prints_printStmts no hno (level + 2)
      refine .exprText hcondition (.emit _ (.indented (.emit _ (hyesLines.indented.bind ?_))))
      cases no with
      | nil => exact prints_pure
      | cons s rest => exact .emit _ hnoLines.indented
  | .loop _ condition body, hnodup, level => by
      rw [Stmt.postorder, List.map_append] at hnodup
      obtain ⟨hcondition, hbody, -⟩ := List.nodup_append.mp hnodup
      have hlines := prints_printStmts body hbody (level + 1)
      exact .exprText hcondition (.emit _ hlines.indented)

theorem prints_printStmts : ∀ statements : List Stmt,
    ((Stmt.postorderAll statements).map Expr.id).Nodup → ∀ level,
    Prints types level (printStmts statements) (Stmt.outlineAll types level statements)
  | [], _, level => prints_pure
  | s :: rest, hnodup, level => by
      rw [Stmt.postorderAll, List.map_append] at hnodup
      obtain ⟨hs, hrest, -⟩ := List.nodup_append.mp hnodup
      exact .bind (prints_printStmt s hs level) (prints_printStmts rest hrest level)

end

theorem prints_declarations (declarations : List Declaration) :
    Prints types 1 (declarations.forM printDeclaration)
      (declarations.map Declaration.outline) := by
  induction declarations with
  | nil => exact prints_pure
  | cons d rest ih => exact .emit _ ih

/-- Whatever a printer has printed before, it prints the outline of a program with distinct
numbers. -/
theorem print_eq_render {p : Program} (hnodup : (p.postorder.map Expr.id).Nodup) (pr : Printer) :
    (pr.print p).1 = .ok (p.render pr.types) := by
  obtain ⟨types, output, level⟩ := pr
  have hdeclarations : Prints types 1 _ _ := prints_declarations p.declarations
  have hbody := hdeclarations.bind (prints_printStmts p.statements hnodup 1)
  have hfirst : ImpToC.indented 0 "Program" = "Program" := by decide
  have hlines := hbody.indented.emit "Program" #[]
  rw [Array.empty_append, hfirst] at hlines
  have hprogram : printProgram p ⟨types, output, level⟩ =
      .ok (p.render types) ⟨types, (p.outline types).toArray, 0⟩ := by
    rw [printProgram, bind_of_ok (a := ⟨⟩) (modify_eq_ok_iff.mpr rfl), ← bind_assoc,
      bind_of_ok hlines]
    rfl
  rw [print, hprogram]

end Printer

end ImpToC
