import ImpToC.C.Writer
import ImpToC.Proofs.Effects

/-!
# Writers that are used again

A writer may stop anywhere: between the operands of an operation, inside of blocks, with a part of
a file behind it. It never touches its tables, and all else is put back in front of a file. So a
writer gives for a program what a new one would, whatever it has been used for.
-/

namespace ImpToC.C.Writer

open Checker (Stop Task)

variable {α β : Type}

/-- What a writer goes by. -/
def tables (w : Writer) : Table String Ty × Table Nat Ty := (w.symbols, w.types)

/-- A part of the work of a writer leaves the tables as they are, whether it gets to its end or
stops before it. -/
def KeepsTables (x : Write α) : Prop :=
  ∀ w, match x w with
    | .ok _ after | .error _ after => after.tables = w.tables

namespace KeepsTables

theorem ret (a : α) : KeepsTables (pure a : Write α) := fun _ => rfl

theorem raise (stop : Stop) : KeepsTables (throw stop : Write α) := fun _ => rfl

theorem read : KeepsTables (get : Write Writer) := fun _ => rfl

theorem change {f : Writer → Writer} (h : ∀ w, (f w).tables = w.tables) :
    KeepsTables (modify f : Write PUnit) := h

theorem bind {x : Write α} {next : α → Write β} (h : KeepsTables x)
    (hnext : ∀ a, KeepsTables (next a)) : KeepsTables (x >>= next) := by
  intro w
  have hx := h w
  cases hrun : x w with
  | error stop m =>
      rw [hrun] at hx
      rw [bind_of_error hrun]
      exact hx
  | ok a m =>
      rw [hrun] at hx
      rw [bind_of_ok hrun]
      have ha := hnext a m
      cases hrest : next a m with
      | ok b w' =>
          rw [hrest] at ha
          exact ha.trans hx
      | error stop w' =>
          rw [hrest] at ha
          exact ha.trans hx

theorem emit (text : String) : KeepsTables (emit text) := change fun _ => rfl

theorem extend (more : Array String) :
    KeepsTables (modify fun w => { w with output := w.output ++ more }) := change fun _ => rfl

/-- A block that is left by a stop is left with its level, and with the tables as they were. -/
theorem indented {body : Write Unit} (h : KeepsTables body) : KeepsTables (indented body) := by
  unfold Writer.indented
  refine .bind (.change ?_) fun _ => h.bind fun _ => .change ?_
  · exact fun _ => rfl
  · exact fun _ => rfl

theorem forM {xs : List α} {f : α → Write Unit} (h : ∀ a, KeepsTables (f a)) :
    KeepsTables (xs.forM f) := by
  induction xs with
  | nil => exact .ret ()
  | cons a rest ih => exact (h a).bind fun _ => ih

end KeepsTables

/-! ## Expressions -/

theorem keepsTables_typeOf (e : Expr) : KeepsTables (typeOf e) := by
  unfold typeOf
  refine KeepsTables.read.bind fun w => ?_
  cases w.types.get? e.id with
  | some type => exact .ret type
  | none => exact .raise _

theorem keepsTables_valueOf (values : Table Nat String) (e : Expr) :
    KeepsTables (valueOf values e) := by
  unfold valueOf
  cases values.get? e.id with
  | some value => exact .ret value
  | none => exact .raise .missing

theorem keepsTables_define (type : Ty) (value : String) : KeepsTables (define type value) := by
  unfold define
  refine .bind (.change ?_) fun _ => KeepsTables.read.bind fun w => (KeepsTables.emit _).bind
    fun _ => .ret (temporaryName w.temporaries)
  exact fun _ => rfl

theorem keepsTables_operation (values : Table Nat String) (mark : Mark) (type : Ty) (op : BinOp)
    (left right : Expr) : KeepsTables (operation values mark type op left right) := by
  refine (keepsTables_valueOf values left).bind fun leftValue =>
    (keepsTables_valueOf values right).bind fun rightValue => ?_
  split
  next => exact .ret _
  next =>
    split
    next => exact .ret _
    next => exact .raise _

theorem keepsTables_settle (values : Table Nat String) (type : Ty) (e : Expr) :
    KeepsTables (settle values type e) := by
  cases e with
  | name m x => exact .ret _
  | int | float | string => exact keepsTables_define type _
  | negate m operand =>
      exact (keepsTables_valueOf values operand).bind fun _ => keepsTables_define type _
  | binary m op left right =>
      exact (keepsTables_operation values m type op left right).bind fun _ =>
        keepsTables_define type _

section Walk

variable {agenda : List Task} (hagenda : ∀ values, KeepsTables (walk agenda values))
include hagenda

theorem keepsTables_walk_settle (e : Expr) (values : Table Nat String) :
    KeepsTables (walk (.settle e :: agenda) values) := by
  rw [walk]
  exact (keepsTables_typeOf e).bind fun type => (keepsTables_settle values type e).bind
    fun value => hagenda _

/-- However far a writer gets in an expression. -/
theorem keepsTables_walk_visit (e : Expr) (values : Table Nat String) :
    KeepsTables (walk (.visit e :: agenda) values) := by
  induction e generalizing agenda values with
  | name | int | float | string =>
      rw [walk]
      exact (keepsTables_typeOf _).bind fun type => (keepsTables_settle values type _).bind
        fun value => hagenda _
  | negate m operand ih =>
      rw [walk]
      refine (keepsTables_typeOf _).bind fun type => ?_
      dsimp only
      split
      next => exact .raise _
      next => exact ih (keepsTables_walk_settle hagenda _) values
  | binary m op left right ihleft ihright =>
      rw [walk]
      exact (keepsTables_typeOf _).bind fun type =>
        ihleft (ihright (keepsTables_walk_settle hagenda _)) values

end Walk

theorem keepsTables_writeExpr (e : Expr) : KeepsTables (writeExpr e) := by
  have hend (values : Table Nat String) : KeepsTables (walk [] values) := by
    rw [walk]
    exact .ret values
  exact (keepsTables_walk_visit hend e .empty).bind fun values => keepsTables_valueOf values e

/-! ## Statements -/

mutual

theorem keepsTables_writeStmt : ∀ s : Stmt, KeepsTables (writeStmt s)
  | .read location name => by
      rw [writeStmt]
      refine KeepsTables.read.bind fun w => ?_
      split
      next => exact .raise _
      next => exact .emit _
      next => exact .emit _
  | .print _ value => by
      rw [writeStmt]
      exact (keepsTables_writeExpr value).bind fun name => (keepsTables_typeOf value).bind
        fun type => .emit _
  | .assign _ target value => by
      rw [writeStmt]
      exact (keepsTables_writeExpr value).bind fun name => .emit _
  | .branch _ condition yes no => by
      rw [writeStmt]
      refine (keepsTables_writeExpr condition).bind fun name => (KeepsTables.emit _).bind
        fun _ => (KeepsTables.indented (keepsTables_writeStmts yes)).bind fun _ => ?_
      cases no.isEmpty with
      | true => exact .emit _
      | false =>
          exact (KeepsTables.emit _).bind fun _ =>
            (KeepsTables.indented (keepsTables_writeStmts no)).bind fun _ => .emit _
  | .loop _ condition body => by
      rw [writeStmt]
      have hround := (keepsTables_writeExpr condition).bind fun name =>
        (KeepsTables.emit ("if (!" ++ name ++ ") break;")).bind fun _ => keepsTables_writeStmts body
      exact (KeepsTables.emit _).bind fun _ => hround.indented.bind fun _ => .emit _

theorem keepsTables_writeStmts : ∀ statements : List Stmt, KeepsTables (writeStmts statements)
  | [] => by
      rw [writeStmts]
      exact .ret ()
  | s :: rest => by
      rw [writeStmts]
      exact (keepsTables_writeStmt s).bind fun _ => keepsTables_writeStmts rest

end

/-! ## Programs -/

theorem keepsTables_writePreamble (usesStrings : Bool) :
    KeepsTables (writePreamble usesStrings) := by
  unfold writePreamble
  refine (KeepsTables.emit _).bind fun _ => ?_
  cases usesStrings with
  | true =>
      rw [if_pos rfl]
      exact (KeepsTables.emit _).bind fun _ => (KeepsTables.emit _).bind fun _ =>
        (KeepsTables.emit _).bind fun _ => (KeepsTables.extend _).bind fun _ => .emit _
  | false =>
      rw [if_neg Bool.false_ne_true]
      exact .emit _

theorem keepsTables_writeFile (p : Program) : KeepsTables (writeFile p) := by
  unfold writeFile
  refine KeepsTables.read.bind fun w => (keepsTables_writePreamble _).bind fun _ =>
    (KeepsTables.emit _).bind fun _ => (KeepsTables.emit _).bind fun _ => ?_
  refine (KeepsTables.indented ?_).bind fun _ => .emit _
  refine (KeepsTables.forM fun v => .emit _).bind fun _ => ?_
  have hbody := (keepsTables_writeStmts p.statements).bind fun _ => KeepsTables.emit "return 0;"
  cases w.symbols.entries.isEmpty with
  | true => exact hbody
  | false => exact (KeepsTables.emit _).bind fun _ => hbody

theorem keepsTables_writeProgram (p : Program) : KeepsTables (writeProgram p) := by
  unfold writeProgram
  refine .bind (.change ?_) fun _ => (keepsTables_writeFile p).bind fun _ =>
    KeepsTables.read.bind fun w => .ret _
  exact fun _ => rfl

theorem tables_generate (w : Writer) (p : Program) : (w.generate p).2.tables = w.tables := by
  have hkeeps := keepsTables_writeProgram p w
  unfold generate
  cases hrun : writeProgram p w with
  | ok text after | error stop after =>
      rw [hrun] at hkeeps
      exact hkeeps

/-- All but the tables is put back in front of a file. -/
theorem generate_eq_of_tables {w w' : Writer} (h : w.tables = w'.tables) (p : Program) :
    w.generate p = w'.generate p := by
  obtain ⟨hsymbols, htypes⟩ := Prod.mk.inj h
  have hclear (w : Writer) :
      (modify fun w => { w with output := #[], level := 0, temporaries := 0 } : Write PUnit) w =
        .ok () ⟨w.symbols, w.types, #[], 0, 0⟩ := rfl
  rw [generate, generate, writeProgram, bind_of_ok (hclear w), bind_of_ok (hclear w'), hsymbols,
    htypes]

/-- A writer may be used for any programs in turn, in whatever state it is. Each time it gives what
a new writer with the same tables gives for that program alone, be it a text or what stops it, and
the tables are the same behind a program as in front of it. -/
theorem generateAll_alone (w : Writer) (programs : List Program) :
    w.generateAll programs =
        programs.map (fun p => ((ofTables w.symbols w.types).generate p).1) ∧
      ∀ p, (w.generate p).2.symbols = w.symbols ∧ (w.generate p).2.types = w.types := by
  refine ⟨?_, fun p => Prod.mk.inj (tables_generate w p)⟩
  induction programs generalizing w with
  | nil => rfl
  | cons p rest ih =>
      have hfresh : w.generate p = (ofTables w.symbols w.types).generate p :=
        generate_eq_of_tables rfl p
      obtain ⟨hsymbols, htypes⟩ := Prod.mk.inj (tables_generate w p)
      rw [generateAll, List.map_cons, ih, hsymbols, htypes, hfresh]

/-- A writer that stops in a loop inside of a branch stays there, with two temporaries. -/
example :
    let p : Program := ⟨[], [.branch default (.int ⟨0, default⟩ 1)
      [.loop default (.int ⟨1, default⟩ 1) [.read default "x"]] []]⟩
    let w := ((ofTables .empty (.ofList [(0, .int), (1, .int)])).generate p).2
    w.level = 3 ∧ w.temporaries = 2 := by
  cbv

end ImpToC.C.Writer
