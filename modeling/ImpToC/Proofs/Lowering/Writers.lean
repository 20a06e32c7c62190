import ImpToC.C.Writer
import ImpToC.Proofs.Effects
import ImpToC.Proofs.Syntax.Expressions

/-!
# Writing code down

A writer puts down the lines of the code that the lowering makes, and stops where the lowering
does. The numbers of the expressions of a program are distinct, so a value that is looked up is
the one that was put there for the operand.
-/

namespace ImpToC.C

@[simp] theorem Instr.linesAll_append (level : Nat) (first second : List Instr) :
    Instr.linesAll level (first ++ second) =
      Instr.linesAll level first ++ Instr.linesAll level second := by
  induction first with
  | nil => rfl
  | cons i rest ih => simp [Instr.linesAll, ih]

@[simp] theorem Instr.linesAll_singleton (level : Nat) (i : Instr) :
    Instr.linesAll level [i] = i.lines level := by
  simp [Instr.linesAll]

namespace Writer

open Checker (Stop Task)

/-- The generator with the tables and the number of temporaries of a writer. -/
def generator (w : Writer) : Generator := ⟨w.symbols, w.types, w.temporaries⟩

variable {α β γ δ : Type} {symbols : Table String Ty} {types : Table Nat Ty} {level : Nat}

theorem emit_eq {text : String} (htext : text ≠ "") (output : Array String) (front : List String)
    (n : Nat) :
    emit text ⟨symbols, types, output ++ front.toArray, level, n⟩ =
      .ok () ⟨symbols, types, output ++ (front ++ [line level text]).toArray, level, n⟩ := by
  show EStateM.Result.ok () (Writer.mk _ _ ((output ++ front.toArray).push _) _ _) = _
  rw [if_neg htext]
  simp

/-- Where some lines have been written, a part of the work of a writer follows a part of the
lowering: it stops for the same fault, or the lines are then those that belong to the result. -/
def Writes (symbols : Table String Ty) (types : Table Nat Ty) (level : Nat) (front : List String)
    (x : Write β) (y : Lower α) (lines : α → List String) (result : α → β → Prop) : Prop :=
  ∀ (output : Array String) (n : Nat),
    match y ⟨symbols, types, n⟩ with
    | .ok a g => ∃ b n', g = ⟨symbols, types, n'⟩ ∧ result a b ∧
        x ⟨symbols, types, output ++ front.toArray, level, n⟩ =
          .ok b ⟨symbols, types, output ++ (lines a).toArray, level, n'⟩
    | .error f g => ∃ w : Writer, w.generator = g ∧
        x ⟨symbols, types, output ++ front.toArray, level, n⟩ = .error (.fault f) w

namespace Writes

variable {front : List String} {x : Write β} {y : Lower α} {lines : α → List String}
  {result : α → β → Prop} {lines' : γ → List String} {result' : γ → δ → Prop}

theorem ret {a : α} {b : β} (hlines : lines a = front) (h : result a b) :
    Writes symbols types level front (pure b : Write β) (pure a : Lower α) lines result := by
  intro output n
  subst hlines
  exact ⟨b, n, rfl, h, rfl⟩

theorem raise (f : Fault) :
    Writes symbols types level front (throw (.fault f) : Write β) (throw f : Lower α) lines
      result :=
  fun output n => ⟨⟨symbols, types, output ++ front.toArray, level, n⟩, rfl, rfl⟩

theorem bind {next : β → Write δ} {next' : α → Lower γ}
    (h : Writes symbols types level front x y lines result)
    (hnext : ∀ a b, result a b →
      Writes symbols types level (lines a) (next b) (next' a) lines' result') :
    Writes symbols types level front (x >>= next) (y >>= next') lines' result' := by
  intro output n
  have hy := h output n
  cases hrun : y ⟨symbols, types, n⟩ with
  | ok a g =>
      rw [hrun] at hy
      obtain ⟨b, n', rfl, hresult, hx⟩ := hy
      rw [bind_of_ok hrun, bind_of_ok hx]
      exact hnext a b hresult output n'
  | error f g =>
      rw [hrun] at hy
      obtain ⟨w, hw, hx⟩ := hy
      rw [bind_of_error hrun, bind_of_error hx]
      exact ⟨w, hw, rfl⟩

/-- The lowering makes something of its result in the end that is written already. -/
theorem thenRet {make : α → γ} {result'' : γ → β → Prop}
    (h : Writes symbols types level front x y lines result)
    (hmake : ∀ a b, result a b → lines' (make a) = lines a ∧ result'' (make a) b) :
    Writes symbols types level front x (y >>= fun a => pure (make a)) lines' result'' := by
  have hret (a : α) (b : β) (hab : result a b) : Writes symbols types level (lines a)
      (pure b : Write β) (pure (make a) : Lower γ) lines' result'' :=
    ret (hmake a b hab).1 (hmake a b hab).2
  have hbind := h.bind hret
  rwa [bind_pure] at hbind

/-- A line is written. -/
theorem emit {text : String} (htext : text ≠ "") {next : Unit → Write β}
    (h : Writes symbols types level (front ++ [line level text]) (next ()) y lines result) :
    Writes symbols types level front (emit text >>= next) y lines result := by
  intro output n
  rw [bind_of_ok (emit_eq htext output front n)]
  exact h output n

/-- An empty line is written. -/
theorem emitEmpty {next : Unit → Write β}
    (h : Writes symbols types level (front ++ [""]) (next ()) y lines result) :
    Writes symbols types level front (Writer.emit "" >>= next) y lines result := by
  intro output n
  have hemit : Writer.emit "" ⟨symbols, types, output ++ front.toArray, level, n⟩ =
      .ok () ⟨symbols, types, output ++ (front ++ [""]).toArray, level, n⟩ := by
    show EStateM.Result.ok () (Writer.mk _ _ ((output ++ front.toArray).push _) _ _) = _
    simp
  rw [bind_of_ok hemit]
  exact h output n

/-- Some lines are written that are there already. -/
theorem extend (more : List String) {next : Unit → Write β}
    (h : Writes symbols types level (front ++ more) (next ()) y lines result) :
    Writes symbols types level front
      ((modify fun w => { w with output := w.output ++ more.toArray }) >>= next) y lines result := by
  intro output n
  have houtput : output ++ front.toArray ++ more.toArray = output ++ (front ++ more).toArray := by
    simp
  have hrun := h output n
  rw [← houtput] at hrun
  exact hrun

/-- A last line is written. -/
theorem emitted {text : String} (htext : text ≠ "") {a : α} {result : α → Unit → Prop}
    (hlines : lines a = front ++ [line level text]) (h : result a ()) :
    Writes symbols types level front (Writer.emit text) (pure a) lines result := by
  intro output n
  refine ⟨(), n, rfl, h, ?_⟩
  rw [hlines]
  exact emit_eq htext output front n

/-- A block is written one level further to the right. -/
theorem indented {x : Write Unit} {result : α → Unit → Prop}
    (h : Writes symbols types (level + 1) front x y lines result) :
    Writes symbols types level front (indented x) y lines result := by
  intro output n
  have hy := h output n
  cases hrun : y ⟨symbols, types, n⟩ with
  | ok a g =>
      rw [hrun] at hy
      obtain ⟨b, n', hg, hresult, hx⟩ := hy
      exact ⟨(), n', hg, hresult, bind_of_ok hx⟩
  | error f g =>
      rw [hrun] at hy
      obtain ⟨w, hw, hx⟩ := hy
      have hbody : (x >>= fun _ => modify fun w => { w with level := w.level - 1 } : Write Unit)
          ⟨symbols, types, output ++ front.toArray, level + 1, n⟩ = .error (.fault f) w :=
        bind_of_error hx
      exact ⟨w, hw, hbody⟩

theorem read {next : Writer → Write β} {next' : Generator → Lower α}
    (h : ∀ w g, w.symbols = symbols → w.types = types → g.symbols = symbols → g.types = types →
      Writes symbols types level front (next w) (next' g) lines result) :
    Writes symbols types level front (get >>= next) (get >>= next') lines result :=
  fun output n => h _ _ rfl rfl rfl rfl output n

/-- The writer alone looks at what it has. -/
theorem look {next : Writer → Write β}
    (h : ∀ w, w.symbols = symbols → w.types = types →
      Writes symbols types level front (next w) y lines result) :
    Writes symbols types level front (get >>= next) y lines result :=
  fun output n => h _ rfl rfl output n

/-- The type of an expression is looked up on both sides. -/
theorem typed {e : Expr} {next : Ty → Write β} {next' : Ty → Lower α}
    (h : ∀ type, types.get? e.id = some type →
      Writes symbols types level front (next type) (next' type) lines result) :
    Writes symbols types level front (typeOf e >>= next) (C.typeOf e.mark >>= next') lines
      result := by
  unfold typeOf C.typeOf
  rw [bind_assoc, bind_assoc]
  refine read fun w g _ hw _ hg => ?_
  have hid : e.mark.id = e.id := rfl
  rw [hw, hg, hid]
  cases hfound : types.get? e.id with
  | none => exact raise _
  | some type => exact h type hfound

/-- The type of an expression that is on record is looked up by the writer alone. -/
theorem typedAgain {e : Expr} {type : Ty} {next : Ty → Write β}
    (htype : types.get? e.id = some type)
    (h : Writes symbols types level front (next type) y lines result) :
    Writes symbols types level front (typeOf e >>= next) y lines result := by
  unfold typeOf
  rw [bind_assoc]
  refine look fun w _ hw => ?_
  rw [hw, htype]
  exact h

/-- The definition of a temporary is written. -/
theorem define (before : List Instr) (type : Ty) (value : Value) :
    Writes symbols types level (front ++ Instr.linesAll level before)
      (define type value.text) (C.define before type value)
      (fun r => front ++ Instr.linesAll level r.1) (fun r name => name = r.2.text) := by
  intro output n
  let text := type.cName ++ " " ++ temporaryName (n + 1) ++ " = " ++ value.text ++ ";"
  have hlines : front ++ Instr.linesAll level (before ++ [.define type (n + 1) value]) =
      front ++ Instr.linesAll level before ++ [line level text] := by
    simp [Instr.lines, text]
  have hemit : Writer.emit text ⟨symbols, types,
        output ++ (front ++ Instr.linesAll level before).toArray, level, n + 1⟩ =
      .ok () ⟨symbols, types, output ++ (front ++ Instr.linesAll level
        (before ++ [.define type (n + 1) value])).toArray, level, n + 1⟩ := by
    rw [hlines]
    exact emit_eq (by simp [text]) output _ (n + 1)
  have hname : (Writer.emit text >>= fun _ => pure (temporaryName (n + 1)) : Write String) ⟨symbols,
        types, output ++ (front ++ Instr.linesAll level before).toArray, level, n + 1⟩ =
      .ok (temporaryName (n + 1)) ⟨symbols, types, output ++ (front ++ Instr.linesAll level
        (before ++ [.define type (n + 1) value])).toArray, level, n + 1⟩ :=
    bind_of_ok hemit
  exact ⟨temporaryName (n + 1), n + 1, rfl, rfl, hname⟩

end Writes

/-! ## Expressions -/

section Walk

variable {front : List String} {agenda : List Task} {values values' : Table Nat String}
  {next : Table Nat String → Write β} {lines : α → List String} {result : α → β → Prop}

theorem valueOf_of_get? {e : Expr} {value : String} (h : values.get? e.id = some value) :
    valueOf values e = pure value := by
  rw [valueOf, h]

/-- Behind the code for an expression, a writer that knows its value goes on with the agenda. No
value that has another number has changed by then. -/
def GoesOn (symbols : Table String Ty) (types : Table Nat Ty) (level : Nat) (front : List String)
    (e : Expr) (agenda : List Task) (values : Table Nat String)
    (next : List Instr × Place → Lower α) (lines : α → List String)
    (result : α → Table Nat String → Prop) : Prop :=
  ∀ r values', values'.get? e.id = some r.2.text →
    (∀ id, id ∉ e.postorder.map Expr.id → values'.get? id = values.get? id) →
    Writes symbols types level (front ++ Instr.linesAll level r.1) (walk agenda values') (next r)
      lines result

section GoesOn

variable {e : Expr} {next : List Instr × Place → Lower α}
  {result : α → Table Nat String → Prop}
  (h : GoesOn symbols types level front e agenda values next lines result)
include h

/-- The value of the expression is put to those that are known. -/
theorem GoesOn.insert {r : List Instr × Place} {name : String} (hname : name = r.2.text)
    (hothers : ∀ id, id ∉ e.postorder.map Expr.id → values'.get? id = values.get? id) :
    Writes symbols types level (front ++ Instr.linesAll level r.1)
      (walk agenda (values'.insert e.id name)) (next r) lines result := by
  refine h r _ ?_ fun id hid => ?_
  · rw [Table.get?_insert_self, hname]
  · have hne : id ≠ e.id := fun heq => hid (heq ▸ List.mem_map_of_mem e.mem_postorder_self)
    exact (Table.get?_insert_of_ne values' name hne).trans (hothers id hid)

/-- The value of the expression is put into a temporary behind the code for its operands. -/
theorem GoesOn.define (before : List Instr) (type : Ty) (value : Value)
    (hothers : ∀ id, id ∉ e.postorder.map Expr.id → values'.get? id = values.get? id) :
    Writes symbols types level (front ++ Instr.linesAll level before)
      (Writer.define type value.text >>= fun name => walk agenda (values'.insert e.id name))
      (C.define before type value >>= next) lines result :=
  (Writes.define before type value).bind fun _ _ hname => h.insert hname hothers

/-- The value of a literal is put into a temporary. -/
theorem GoesOn.literal (type : Ty) (value : Value) :
    Writes symbols types level front
      (Writer.define type value.text >>= fun name => walk agenda (values.insert e.id name))
      (C.define [] type value >>= next) lines result := by
  have hdefine := h.define [] type value fun _ _ => rfl
  rwa [Instr.linesAll, List.append_nil] at hdefine

end GoesOn

/-- Visiting an expression in front of an agenda writes down the code for it and goes on with the
agenda. -/
theorem writes_walk_visit (e : Expr) (hnodup : (e.postorder.map Expr.id).Nodup)
    {next : List Instr × Place → Lower α} {result : α → Table Nat String → Prop}
    (hnext : GoesOn symbols types level front e agenda values next lines result) :
    Writes symbols types level front (walk (.visit e :: agenda) values) (lowerExpr e >>= next)
      lines result := by
  induction e generalizing front agenda values next with
  | name mark x =>
      rw [walk, lowerExpr, bind_assoc]
      refine Writes.typed fun type htype => ?_
      have hput := hnext.insert (r := ([], .variable x)) rfl fun _ _ => rfl
      rwa [Instr.linesAll, List.append_nil] at hput
  | int mark value =>
      rw [walk, lowerExpr, bind_assoc]
      exact Writes.typed fun type htype => hnext.literal type (.int value)
  | float mark value =>
      rw [walk, lowerExpr, bind_assoc]
      exact Writes.typed fun type htype => hnext.literal type (.float value)
  | string mark text =>
      rw [walk, lowerExpr, bind_assoc]
      exact Writes.typed fun type htype => hnext.literal type (.string text)
  | negate mark operand ih =>
      rw [walk, lowerExpr, bind_assoc]
      refine Writes.typed fun type htype => ?_
      dsimp only
      by_cases hstring : type = .string
      · rw [if_pos hstring, if_pos hstring]
        exact .raise _
      · rw [if_neg hstring, if_neg hstring, bind_assoc]
        rw [Expr.postorder, List.map_append] at hnodup
        refine ih (List.nodup_append.mp hnodup).1 fun r values' hvalue hothers => ?_
        rw [walk]
        refine Writes.typedAgain htype ?_
        rw [settle, valueOf_of_get? hvalue, pure_bind]
        refine hnext.define r.1 type (.negate r.2) fun id hid => hothers id fun hmem => hid ?_
        rw [Expr.postorder, List.map_append]
        exact List.mem_append_left _ hmem
  | binary mark op left right ihleft ihright =>
      rw [walk, lowerExpr, bind_assoc]
      refine Writes.typed fun type htype => ?_
      dsimp only
      rw [bind_assoc]
      rw [Expr.postorder, List.map_append, List.map_append] at hnodup
      obtain ⟨hleftIds, hrightIds, hdisjoint⟩ :=
        List.nodup_append.mp (List.nodup_append.mp hnodup).1
      refine ihleft hleftIds fun l values' hleft hothers => ?_
      rw [bind_assoc]
      refine ihright hrightIds fun r values'' hright hothers' => ?_
      -- The right operand has been given other numbers than the left one.
      have hother : left.id ∉ right.postorder.map Expr.id := fun hmem =>
        hdisjoint _ (List.mem_map_of_mem left.mem_postorder_self) _ hmem rfl
      have hleft' := (hothers' left.id hother).trans hleft
      rw [walk]
      refine Writes.typedAgain htype ?_
      rw [settle, operation, valueOf_of_get? hleft', valueOf_of_get? hright, pure_bind, pure_bind,
        C.operation]
      have hkept (id : Nat) (hid : id ∉ (Expr.binary mark op left right).postorder.map Expr.id) :
          values''.get? id = values.get? id := by
        rw [Expr.postorder, List.map_append, List.map_append, List.mem_append, List.mem_append,
          not_or, not_or] at hid
        exact (hothers' id hid.1.2).trans (hothers id hid.1.1)
      have hput (value : Value) := hnext.define (l.1 ++ r.1) type value hkept
      rw [Instr.linesAll_append, ← List.append_assoc] at hput
      by_cases hstring : type = .string
      · rw [if_neg (not_not_intro hstring), if_neg (not_not_intro hstring)]
        by_cases hop : op = .add
        · rw [if_pos hop, if_pos hop]
          exact hput (.concat l.2 r.2)
        · rw [if_neg hop, if_neg hop]
          exact .raise _
      · rw [if_pos hstring, if_pos hstring]
        exact hput (.operation op l.2 r.2)

theorem writes_writeExpr (e : Expr) (hnodup : (e.postorder.map Expr.id).Nodup) :
    Writes symbols types level front (writeExpr e) (lowerExpr e)
      (fun r => front ++ Instr.linesAll level r.1) (fun r name => name = r.2.text) := by
  have hwalk : Writes symbols types level front (walk [.visit e] .empty) (lowerExpr e >>= pure)
      (fun r => front ++ Instr.linesAll level r.1)
      (fun r values => values.get? e.id = some r.2.text) := by
    refine writes_walk_visit e hnodup fun r values' hvalue _ => ?_
    rw [walk]
    exact .ret rfl hvalue
  rw [bind_pure] at hwalk
  rw [writeExpr, ← bind_pure (lowerExpr e)]
  refine hwalk.bind fun r values hvalue => ?_
  rw [valueOf_of_get? hvalue]
  exact .ret rfl rfl

end Walk

/-! ## Statements -/

mutual

/-- A statement is written down as the lines of its code. -/
theorem writes_writeStmt : ∀ (s : Stmt), (s.postorder.map Expr.id).Nodup →
    ∀ (level : Nat) (front : List String),
      Writes symbols types level front (writeStmt s) (lowerStmt s)
        (fun code => front ++ Instr.linesAll level code) (fun code _ => code.isEmpty = false)
  | .read location name, _, level, front => by
      rw [writeStmt, lowerStmt, lowerRead]
      refine Writes.read fun w g hw _ hg _ => ?_
      rw [hw, hg]
      cases symbols.get? name with
      | none => exact .raise _
      | some type =>
          cases type with
          | string => exact .emitted (by simp) (by simp [Instr.lines]) rfl
          | int | float => exact .emitted (by simp) (by simp [Instr.lines]) rfl
  | .print _ value, hnodup, level, front => by
      rw [writeStmt, lowerStmt]
      refine (writes_writeExpr value hnodup).bind ?_
      rintro ⟨code, place⟩ _ rfl
      refine .typed fun type _ => .emitted (by simp) ?_ ?_
      · simp [Instr.lines]
      · simp
  | .assign _ target value, hnodup, level, front => by
      rw [writeStmt, lowerStmt]
      refine (writes_writeExpr value hnodup).bind ?_
      rintro ⟨code, place⟩ _ rfl
      refine .emitted (by simp) ?_ ?_
      · simp [Instr.lines]
      · simp
  | .branch _ condition yes no, hnodup, level, front => by
      rw [Stmt.postorder, List.map_append, List.map_append] at hnodup
      obtain ⟨hfront, hno, -⟩ := List.nodup_append.mp hnodup
      obtain ⟨hcondition, hyes, -⟩ := List.nodup_append.mp hfront
      rw [writeStmt, lowerStmt]
      refine (writes_writeExpr condition hcondition).bind ?_
      rintro ⟨code, place⟩ _ rfl
      refine .emit (by simp) ?_
      refine (Writes.indented (writes_writeStmts yes hyes (level + 1) _)).bind
        fun yesCode _ _ => ?_
      cases no with
      | nil =>
          rw [lowerAll, pure_bind]
          refine Writes.emitted (by simp) ?_ ?_
          · simp [Instr.lines]
          · simp
      | cons s rest =>
          refine .emit (by simp) ?_
          refine (Writes.indented (writes_writeStmts (s :: rest) hno (level + 1) _)).bind
            fun noCode _ hempty => ?_
          have hne : noCode ≠ [] := by simpa using hempty
          refine Writes.emitted (by simp) ?_ ?_
          · simp [Instr.lines, hne]
          · simp
  | .loop location condition body, hnodup, level, front => by
      rw [Stmt.postorder, List.map_append] at hnodup
      obtain ⟨hcondition, hbody, -⟩ := List.nodup_append.mp hnodup
      let round : Lower (List Instr) := do
        let (code, place) ← lowerExpr condition
        let bodyCode ← lowerAll body
        return code ++ .leaveUnless place :: bodyCode
      have hround : Writes symbols types level (front ++ [line level "while (1) \x7b"])
          (indented do
            let name ← writeExpr condition
            emit ("if (!" ++ name ++ ") break;")
            writeStmts body)
          round
          (fun code => front ++ line level "while (1) \x7b" :: Instr.linesAll (level + 1) code)
          (fun _ _ => True) := by
        refine .indented ((writes_writeExpr condition hcondition).bind ?_)
        rintro ⟨code, place⟩ _ rfl
        refine .emit (by simp) ((writes_writeStmts body hbody (level + 1) _).thenRet ?_)
        intro bodyCode _ _
        simp [Instr.linesAll, Instr.lines]
      have hlower : lowerStmt (.loop location condition body) =
          (do let code ← round; return [.loop code]) := by
        simp only [lowerStmt, round, bind_assoc, pure_bind]
      rw [writeStmt, hlower]
      refine .emit (by simp) ?_
      exact hround.bind fun code _ _ => .emitted (by simp) (by simp [Instr.lines]) rfl

/-- Statements are written down as the lines of their code. -/
theorem writes_writeStmts : ∀ (statements : List Stmt),
    ((Stmt.postorderAll statements).map Expr.id).Nodup →
    ∀ (level : Nat) (front : List String),
      Writes symbols types level front (writeStmts statements) (lowerAll statements)
        (fun code => front ++ Instr.linesAll level code)
        (fun code _ => code.isEmpty = statements.isEmpty)
  | [], _, level, front => .ret (by simp [Instr.linesAll]) rfl
  | s :: rest, hnodup, level, front => by
      rw [Stmt.postorderAll, List.map_append] at hnodup
      obtain ⟨hs, hrest, -⟩ := List.nodup_append.mp hnodup
      rw [writeStmts, lowerAll]
      refine (writes_writeStmt s hs level front).bind fun code _ hcode => ?_
      refine (writes_writeStmts rest hrest level _).thenRet fun restCode _ _ => ⟨?_, ?_⟩
      · simp
      · cases code with
        | nil => cases hcode
        | cons => rfl

end

/-! ## Programs -/

section Program

variable {front : List String} {y : Lower α} {lines : α → List String} {result : α → β → Prop}
  {next : Unit → Write β}

@[simp] theorem line_zero (text : String) : line 0 text = text := by
  simp [line]

theorem writes_preamble (usesStrings : Bool)
    (h : Writes symbols types 0 (front ++ preamble usesStrings) (next ()) y lines result) :
    Writes symbols types 0 front (writePreamble usesStrings >>= next) y lines result := by
  cases usesStrings with
  | false =>
      simp only [writePreamble, bind_assoc]
      refine .emit (by decide) ?_
      simp only [Bool.false_eq_true, if_false]
      refine .emitEmpty ?_
      simpa [preamble] using h
  | true =>
      simp only [writePreamble, bind_assoc, if_true]
      refine .emit (by decide) (.emit (by decide) (.emit (by decide) (.emitEmpty ?_)))
      refine .extend _ (.emitEmpty ?_)
      simpa [preamble] using h

theorem writes_variables (entries : List (String × Ty))
    (h : Writes symbols types 1 (front ++ entries.map variableLine) (next ()) y lines result) :
    Writes symbols types 1 front (entries.forM writeVariable >>= next) y lines result := by
  induction entries generalizing front with
  | nil => simpa using h
  | cons v rest ih =>
      show Writes symbols types 1 front
        ((writeVariable v >>= fun _ => rest.forM writeVariable) >>= next) y lines result
      rw [bind_assoc]
      refine .emit (by simp) (ih ?_)
      simpa [variableLine] using h

end Program

/-- The file with some code in its main function. -/
def fileOf (symbols : Table String Ty) (types : Table Nat Ty) (code : List Instr)
    (temporaries : Nat) : File where
  usesStrings := symbols.values.contains .string || types.values.contains .string
  symbols := symbols.entries
  body := code
  temporaries := temporaries

/-- The file for a program is written down in full. -/
theorem writes_writeFile (symbols : Table String Ty) (types : Table Nat Ty) (p : Program)
    (hnodup : (p.postorder.map Expr.id).Nodup) :
    Writes symbols types 0 [] (writeFile p) (lowerAll p.statements)
      (fun code => (fileOf symbols types code 0).lines) (fun _ _ => True) := by
  unfold writeFile
  refine .look fun w hsymbols htypes => writes_preamble _ (.emit (by decide) (.emit (by decide) ?_))
  rw [hsymbols, htypes]
  let usesStrings := symbols.values.contains .string || types.values.contains .string
  let front := preamble usesStrings ++ ["int main(void)", "\x7b"] ++
    symbols.entries.map variableLine ++ (if symbols.entries.isEmpty then [] else [""])
  have hstatements : Writes symbols types 1 front
      (do writeStmts p.statements; emit "return 0;") (lowerAll p.statements)
      (fun code => front ++ Instr.linesAll 1 code ++ [line 1 "return 0;"]) (fun _ _ => True) := by
    rw [← bind_pure (lowerAll p.statements)]
    exact (writes_writeStmts p.statements hnodup 1 front).bind fun code _ _ =>
      .emitted (by decide) rfl trivial
  have hbody : Writes symbols types 1 (preamble usesStrings ++ ["int main(void)", "\x7b"])
      (do
        symbols.entries.forM writeVariable
        unless symbols.entries.isEmpty do
          emit ""
        writeStmts p.statements
        emit "return 0;")
      (lowerAll p.statements)
      (fun code => front ++ Instr.linesAll 1 code ++ [line 1 "return 0;"]) (fun _ _ => True) := by
    refine writes_variables _ ?_
    cases hempty : symbols.entries.isEmpty with
    | true => simpa [front, hempty] using hstatements
    | false =>
        refine .emitEmpty ?_
        simpa [front, hempty] using hstatements
  rw [← bind_pure (lowerAll p.statements)]
  simp only [List.nil_append, List.append_assoc, line_zero]
  refine (Writes.indented hbody).bind fun code _ _ => .emitted (by decide) ?_ trivial
  simp [fileOf, File.lines, front, usesStrings]

/-- A writer makes the text of the file that the lowering makes, or stops for the same fault. It
is then as far as the generator is. -/
theorem writeProgram_cases (w : Writer) {p : Program} (hnodup : (p.postorder.map Expr.id).Nodup) :
    (∃ file after, lowerProgram p w.generator = .ok file (generator after) ∧
        writeProgram p w = .ok file.text after) ∨
      ∃ f after, lowerProgram p w.generator = .error f (generator after) ∧
        writeProgram p w = .error (.fault f) after := by
  have hfile := writes_writeFile w.symbols w.types p hnodup #[] 0
  have hclear : (modify fun w => { w with output := #[], level := 0, temporaries := 0 } :
      Write PUnit) w = .ok () ⟨w.symbols, w.types, #[], 0, 0⟩ := rfl
  have hstart : (modify fun g => { g with temporaries := 0 } : Lower PUnit) w.generator =
      .ok () ⟨w.symbols, w.types, 0⟩ := rfl
  rw [lowerProgram, bind_of_ok hstart, writeProgram, bind_of_ok hclear]
  cases hrun : lowerAll p.statements ⟨w.symbols, w.types, 0⟩ with
  | ok code g =>
      rw [hrun] at hfile
      obtain ⟨_, n, rfl, -, hx⟩ := hfile
      simp only [Array.append_empty, Array.empty_append] at hx
      let lines := (fileOf w.symbols w.types code 0).lines
      refine .inl ⟨fileOf w.symbols w.types code n, ⟨w.symbols, w.types, lines.toArray, 0, n⟩, ?_, ?_⟩
      · rw [bind_of_ok hrun]
        rfl
      · rw [bind_of_ok hx]
        rfl
  | error f g =>
      rw [hrun] at hfile
      obtain ⟨after, rfl, hx⟩ := hfile
      simp only [Array.append_empty] at hx
      exact .inr ⟨f, after, bind_of_error hrun, bind_of_error hx⟩

/-- A writer gives what the lowering gives: the text of the same file, or the same fault. Nothing
that it looks up is ever missing. -/
theorem generate_eq (w : Writer) {p : Program} (hnodup : (p.postorder.map Expr.id).Nodup) :
    (w.generate p).1 = ((w.generator.generate p).1.map File.text).mapError Stop.fault ∧
      (w.generate p).2.generator = (w.generator.generate p).2 := by
  unfold generate Generator.generate
  rcases writeProgram_cases w hnodup with ⟨file, after, hlower, hwrite⟩ | ⟨f, after, hlower, hwrite⟩
  · rw [hlower, hwrite]
    exact ⟨rfl, rfl⟩
  · rw [hlower, hwrite]
    exact ⟨rfl, rfl⟩

/-- Programs in turn are written down as they are lowered with one generator. -/
theorem generateAll_eq (w : Writer) {programs : List Program}
    (hnodup : ∀ p ∈ programs, (p.postorder.map Expr.id).Nodup) :
    w.generateAll programs = (w.generator.generateAll programs).map fun outcome =>
      (outcome.map File.text).mapError Stop.fault := by
  induction programs generalizing w with
  | nil => rfl
  | cons p rest ih =>
      obtain ⟨hp, hrest⟩ := List.forall_mem_cons.mp hnodup
      obtain ⟨houtcome, hafter⟩ := w.generate_eq hp
      rw [generateAll, Generator.generateAll, List.map_cons, houtcome, ih _ hrest, hafter]

end Writer

end ImpToC.C
