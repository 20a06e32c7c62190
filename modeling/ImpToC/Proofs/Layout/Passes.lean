import ImpToC.Proofs.Layout.Places

/-!
# Passes at other places

The check of a program and its lowering look at locations only to say where a fault
is. Run over the same program at other places, from a record with the same variables
declared at other places, each leaves such a record again and gives the same result.
-/

namespace ImpToC

variable (f : Location → Location)

/-! ## Passes that go together -/

section Pass

variable {σ α β : Type}

/-- The result of a pass with the places of its fault and of its record moved. -/
def relocateResult (move : σ → σ) : EStateM.Result Fault σ α → EStateM.Result Fault σ α
  | .ok a s => .ok a (move s)
  | .error fault s => .error (fault.relocate f) (move s)

/-- The second pass does at other places what the first one does. -/
def GoesWith (move : σ → σ) (x y : EStateM Fault σ α) : Prop :=
  ∀ s, y (move s) = relocateResult f move (x s)

variable {move : σ → σ} {x y : EStateM Fault σ α}

namespace GoesWith

theorem ret (a : α) : GoesWith f move (pure a) (pure a) := fun _ => rfl

theorem raise {fault fault' : Fault} (h : fault.relocate f = fault') :
    GoesWith f move (throw fault : EStateM Fault σ α) (throw fault') := by
  intro s
  subst h
  rfl

/-- A pass that reads the record goes with one that does the same for a record at other
places. -/
theorem read {f} {next next' : σ → EStateM Fault σ β}
    (h : ∀ s, next' (move s) (move s) = relocateResult f move (next s s)) :
    GoesWith f move (get >>= next) (get >>= next') := h

/-- Two passes in turn go with two others in turn if each goes with its like. -/
theorem bind {f} {next next' : α → EStateM Fault σ β} (h : GoesWith f move x y)
    (hnext : ∀ a, GoesWith f move (next a) (next' a)) :
    GoesWith f move (x >>= next) (y >>= next') := by
  intro s
  have hs := h s
  cases hx : x s with
  | ok a m =>
      rw [hx] at hs
      rw [bind_of_ok hx, bind_of_ok hs]
      exact hnext a m
  | error fault m =>
      rw [hx] at hs
      rw [bind_of_error hx, bind_of_error hs]
      rfl

/-- Passes over a list of things go with passes over the same things moved. -/
theorem forM {γ : Type} {f} {moveItem : γ → γ} {run run' : γ → EStateM Fault σ PUnit}
    (h : ∀ item, GoesWith f move (run item) (run' (moveItem item))) (items : List γ) :
    GoesWith f move (items.forM run) ((items.map moveItem).forM run') := by
  induction items with
  | nil => exact ret f PUnit.unit
  | cons item rest ih => exact bind (h item) fun _ => ih

end GoesWith

end Pass

/-! ## The check -/

namespace Typing

theorem lookup_relocate (name : String) (l : Location) :
    GoesWith f (relocate f) (lookup name l) (lookup name (f l)) := by
  refine GoesWith.read fun t => ?_
  simp only [relocate_scope, Table.get?_mapValues, Table.keys_mapValues]
  cases t.scope.get? name <;> rfl

theorem record_relocate (id : Nat) (type : Ty) :
    GoesWith f (relocate f) (record id type) (record id type) := fun _ => rfl

theorem require_relocate (accepted : Bool) (expected actual : Ty) (l : Location) :
    GoesWith f (relocate f) (require accepted expected actual l)
      (require accepted expected actual (f l)) := by
  cases accepted with
  | true => exact GoesWith.ret f ()
  | false => exact GoesWith.raise f rfl

theorem declare_relocate (d : Declaration) :
    GoesWith f (relocate f) (declare d) (declare (d.relocate f)) := by
  refine GoesWith.read fun t => ?_
  simp only [relocate_scope, Declaration.relocate_name, Table.get?_mapValues]
  cases t.scope.get? d.name with
  | some first => rfl
  | none => exact congrArg (EStateM.Result.ok _) (relocate_declare f t d).symm

end Typing

theorem Expr.check_relocate (e : Expr) :
    GoesWith f (Typing.relocate f) e.check (e.relocate f).check := by
  induction e with
  | name m x => exact (Typing.lookup_relocate f x m.location).bind fun _ => fun _ => rfl
  | int m value | float m value | string m text => exact Typing.record_relocate f m.id _
  | negate m operand ih => exact ih.bind fun type => Typing.record_relocate f m.id type
  | binary m op left right ihLeft ihRight =>
      refine ihLeft.bind fun leftType => ihRight.bind fun rightType => ?_
      cases op.result? leftType rightType with
      | some type => exact Typing.record_relocate f m.id type
      | none => exact GoesWith.raise f rfl

theorem Expr.checkCondition_relocate (condition : Expr) (l : Location) :
    GoesWith f (Typing.relocate f) (condition.checkCondition l)
      ((condition.relocate f).checkCondition (f l)) :=
  (condition.check_relocate f).bind fun _ => Typing.require_relocate f _ _ _ l

mutual

theorem Stmt.check_relocate : ∀ s : Stmt,
    GoesWith f (Typing.relocate f) s.check (s.relocate f).check
  | .read l name => (Typing.lookup_relocate f name l).bind fun _ => GoesWith.ret f ()
  | .print _ value => (value.check_relocate f).bind fun _ => GoesWith.ret f ()
  | .assign l target value =>
      (value.check_relocate f).bind fun _ => (Typing.lookup_relocate f target l).bind fun _ =>
        Typing.require_relocate f _ _ _ l
  | .branch l condition yes no =>
      (condition.checkCondition_relocate f l).bind fun _ =>
        (Stmt.checkAll_relocate yes).bind fun _ => Stmt.checkAll_relocate no
  | .loop l condition body =>
      (condition.checkCondition_relocate f l).bind fun _ => Stmt.checkAll_relocate body

theorem Stmt.checkAll_relocate : ∀ statements : List Stmt,
    GoesWith f (Typing.relocate f) (Stmt.checkAll statements)
      (Stmt.checkAll (Stmt.relocateAll f statements))
  | [] => GoesWith.ret f ()
  | s :: rest => (Stmt.check_relocate s).bind fun _ => Stmt.checkAll_relocate rest

end

theorem Program.check_relocate (p : Program) :
    GoesWith f (Typing.relocate f) p.check (p.relocate f).check := by
  refine (GoesWith.forM (Typing.declare_relocate f) p.declarations).bind fun _ => ?_
  show GoesWith f _ _ (Stmt.checkAll (p.statements.map (Stmt.relocate f)))
  rw [← Stmt.relocateAll_eq_map]
  exact Stmt.checkAll_relocate f p.statements

/-- Checking a program at other places finds the same fault at another place, and leaves the
same on record, whether it fails or not. -/
theorem Typing.extend_relocate (t : Typing) (p : Program) :
    (t.relocate f).extend (p.relocate f) =
      ((t.extend p).1.map (Fault.relocate f), (t.extend p).2.relocate f) := by
  unfold extend
  rw [p.check_relocate f t]
  cases p.check t <;> rfl

/-! ## The lowering -/

namespace C

theorem typeOf_relocate (m : Mark) : GoesWith f id (typeOf m) (typeOf (m.relocate f)) := by
  refine GoesWith.read fun g => ?_
  simp only [id_eq, Mark.relocate_id]
  cases g.types.get? m.id <;> rfl

theorem define_relocate (before : List Instr) (type : Ty) (value : Value) :
    GoesWith f id (define before type value) (define before type value) := fun _ => rfl

theorem operation_relocate (m : Mark) (type : Ty) (op : BinOp) (left right : Place) :
    GoesWith f id (operation m type op left right)
      (operation (m.relocate f) type op left right) := by
  unfold operation
  by_cases htype : type ≠ .string
  · rw [if_pos htype, if_pos htype]
    exact GoesWith.ret f _
  · rw [if_neg htype, if_neg htype]
    by_cases hop : op = .add
    · rw [if_pos hop, if_pos hop]
      exact GoesWith.ret f _
    · rw [if_neg hop, if_neg hop]
      exact GoesWith.raise f rfl

theorem lowerExpr_relocate (e : Expr) :
    GoesWith f id (lowerExpr e) (lowerExpr (e.relocate f)) := by
  induction e with
  | name m x => exact (typeOf_relocate f m).bind fun _ => GoesWith.ret f _
  | int m value | float m value | string m text =>
      exact (typeOf_relocate f m).bind fun type => define_relocate f [] type _
  | negate m operand ih =>
      refine (typeOf_relocate f m).bind fun type => ?_
      by_cases htype : type = .string
      · rw [if_pos htype, if_pos htype]
        exact GoesWith.raise f rfl
      · rw [if_neg htype, if_neg htype]
        exact ih.bind fun _ => define_relocate f _ type _
  | binary m op left right ihLeft ihRight =>
      exact (typeOf_relocate f m).bind fun type => ihLeft.bind fun _ => ihRight.bind fun _ =>
        (operation_relocate f m type op _ _).bind fun _ => define_relocate f _ type _

theorem lowerRead_relocate (l : Location) (name : String) :
    GoesWith f id (lowerRead l name) (lowerRead (f l) name) := by
  refine GoesWith.read fun g => ?_
  simp only [id_eq]
  cases g.symbols.get? name with
  | some type => cases type <;> rfl
  | none => rfl

mutual

theorem lowerStmt_relocate : ∀ s : Stmt,
    GoesWith f id (lowerStmt s) (lowerStmt (s.relocate f))
  | .read l name => lowerRead_relocate f l name
  | .print _ value => by
      refine (lowerExpr_relocate f value).bind fun _ => ?_
      rw [Expr.relocate_mark]
      exact (typeOf_relocate f value.mark).bind fun _ => GoesWith.ret f _
  | .assign _ _ value => (lowerExpr_relocate f value).bind fun _ => GoesWith.ret f _
  | .branch _ condition yes no =>
      (lowerExpr_relocate f condition).bind fun _ => (lowerAll_relocate yes).bind fun _ =>
        (lowerAll_relocate no).bind fun _ => GoesWith.ret f _
  | .loop _ condition body =>
      (lowerExpr_relocate f condition).bind fun _ => (lowerAll_relocate body).bind fun _ =>
        GoesWith.ret f _

theorem lowerAll_relocate : ∀ statements : List Stmt,
    GoesWith f id (lowerAll statements) (lowerAll (Stmt.relocateAll f statements))
  | [] => GoesWith.ret f []
  | s :: rest =>
      (lowerStmt_relocate s).bind fun _ => (lowerAll_relocate rest).bind fun _ => GoesWith.ret f _

end

theorem lowerProgram_relocate (p : Program) :
    GoesWith f id (lowerProgram p) (lowerProgram (p.relocate f)) := by
  have hbody : GoesWith f id (lowerAll p.statements) (lowerAll (p.relocate f).statements) := by
    rw [Program.relocate, ← Stmt.relocateAll_eq_map]
    exact lowerAll_relocate f p.statements
  exact GoesWith.bind (fun _ => rfl) fun _ => hbody.bind fun _ => GoesWith.read fun _ => rfl

/-- A program at other places becomes the same file, or is turned down for the same cause. -/
theorem Generator.generate_relocate (g : Generator) (p : Program) :
    (g.generate (p.relocate f)).1 = Fault.relocateOutcome f id (g.generate p).1 := by
  have hprogram := lowerProgram_relocate f p g
  unfold generate
  rw [id_eq] at hprogram
  rw [hprogram]
  cases lowerProgram p g <;> rfl

end C

end ImpToC
