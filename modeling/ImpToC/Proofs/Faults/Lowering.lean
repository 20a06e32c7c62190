import ImpToC.Proofs.Faults.Stages
import ImpToC.Proofs.Lowering.Obstacles
import ImpToC.Proofs.Lowering.TypedCode

/-!
# When there is no code

The lowering of a program that passes the check stops at a negated string or at a difference
of strings, and only if the program has one. It finds every type and every variable that it
looks up.
-/

namespace ImpToC

/-- An expression that C has no counterpart for, with what is said of it. -/
inductive Expr.Unsupported (declared : List Declaration) : Expr → Fault → Prop
  | negation (mark : Mark) {operand : Expr} :
      operand.HasType declared .string →
      Unsupported declared (.negate mark operand) (Cause.negatedString.fault mark.location)
  | difference (mark : Mark) {left right : Expr} :
      left.HasType declared .string → right.HasType declared .string →
      Unsupported declared (.binary mark .sub left right)
        ((Cause.stringOperator .sub).fault mark.location)

theorem Expr.Unsupported.finds {declared : List Declaration} {e : Expr} {f : Fault}
    (h : e.Unsupported declared f) : Stage.codegen.Finds f.cause := by
  cases h with
  | negation => exact .negatedString
  | difference => exact .stringDifference

variable {declared : List Declaration}

/-- Over the types that the rules give, the expressions in the way of code are those that C has
no counterpart for. -/
theorem Expr.obstacle_iff_unsupported (hnames : (declared.map Declaration.name).Nodup)
    {types : Table Nat Ty} {e : Expr} {type : Ty} (hfound : types.get? e.id = some type)
    (htype : e.HasType declared type) {f : Fault} :
    e.Obstacle types f ↔ e.Unsupported declared f := by
  cases e with
  | name | int | float | string =>
      exact ⟨fun h => absurd h (Expr.not_obstacle_of_leaf rfl hfound), nofun⟩
  | negate mark operand =>
      have hmark : types.get? mark.id = some type := hfound
      rw [Expr.obstacle_negate_iff hmark]
      cases htype with
      | negate _ hoperand =>
          constructor
          · rintro ⟨rfl, rfl⟩
            exact .negation mark hoperand
          · rintro ⟨_, hstring⟩
            exact ⟨hstring.unique hnames hoperand, rfl⟩
  | binary mark op left right =>
      have hmark : types.get? mark.id = some type := hfound
      rw [Expr.obstacle_binary_iff hmark]
      constructor
      · rintro ⟨rfl, hop, rfl⟩
        cases htype with
        | binary _ hleft hright htypes =>
            cases htypes with
            | numbers _ hpromotes => cases hpromotes
            | addStrings => exact absurd rfl hop
            | subStrings => exact .difference mark hleft hright
      · rintro (_ | ⟨_, hleft, hright⟩)
        have hstring := Expr.HasType.binary mark hleft hright .subStrings
        exact ⟨hstring.unique hnames htype, nofun, rfl⟩

mutual

/-- What is read in a statement that is well typed is declared. -/
theorem Stmt.WellTyped.reads_declared : ∀ {s : Stmt}, s.WellTyped declared →
    ∀ r ∈ s.reads, ∃ type, Declared declared r.2 type
  | .read _ _, .read _ h, r, hr => by
      rw [List.mem_singleton.mp hr]
      exact ⟨_, h⟩
  | .branch _ _ _ _, .branch _ _ hyes hno, r, hr =>
      (List.mem_append.mp hr).elim (readsAll_declared hyes r) (readsAll_declared hno r)
  | .loop _ _ _, .loop _ _ hbody, r, hr => readsAll_declared hbody r hr

theorem Stmt.WellTyped.readsAll_declared : ∀ {statements : List Stmt},
    (∀ s ∈ statements, s.WellTyped declared) →
    ∀ r ∈ Stmt.readsAll statements, ∃ type, Declared declared r.2 type
  | [], _, _, hr => absurd hr List.not_mem_nil
  | s :: _, h, r, hr =>
      (List.mem_append.mp hr).elim (reads_declared (h s List.mem_cons_self) r)
        (readsAll_declared (fun s' hs' => h s' (List.mem_cons_of_mem s hs')) r)

end

/-- For a program that passes the check there is no code exactly if it has an expression
that C has no counterpart for, and such a one is what the fault speaks of. -/
theorem Program.code_of_check {p : Program} (hids : (p.postorder.map Expr.id).Nodup) {t : Typing}
    (hcheck : Typing.empty.extend p = (none, t)) :
    match p.code t.symbols t.types with
    | .ok _ => ∀ e ∈ p.expressions, ∀ f, ¬ e.Unsupported p.declarations f
    | .error d => ∃ e ∈ p.expressions, e.Unsupported p.declarations d.fault := by
  obtain ⟨hwellTyped, hscoped, -, hrecorded⟩ :=
    Typing.check_sound hids (Typing.extend_eq_iff.mp hcheck)
  have hsymbols (name : String) (type : Ty) (hdeclared : Declared p.declarations name type) :
      t.symbols.get? name = some type := by
    rw [Table.get?, hscoped.symbols_entries]
    exact p.agree_symbols hwellTyped.names name type hdeclared
  have hmem (e : Expr) : e ∈ p.expressions ↔ e ∈ p.postorder := p.expressions_perm.mem_iff
  -- Every variable that is read is declared, so what is in the way is an expression.
  have hobstructed (f : Fault) : Obstructed t.symbols t.types p.postorder p.reads f ↔
      ∃ e ∈ p.expressions, e.Unsupported p.declarations f := by
    constructor
    · intro h
      cases h with
      | @expression e _ he hobstacle =>
          obtain ⟨type, hfound, htype⟩ := hrecorded e he
          exact ⟨e, (hmem e).mpr he,
            (Expr.obstacle_iff_unsupported hwellTyped.names hfound htype).mp hobstacle⟩
      | @read location name hread hnone =>
          obtain ⟨type, hdeclared⟩ :=
            Stmt.WellTyped.readsAll_declared hwellTyped.statements _ hread
          cases hnone.symm.trans (hsymbols name type hdeclared)
    · rintro ⟨e, he, hunsupported⟩
      obtain ⟨type, hfound, htype⟩ := hrecorded e ((hmem e).mp he)
      exact .expression ((hmem e).mp he)
        ((Expr.obstacle_iff_unsupported hwellTyped.names hfound htype).mpr hunsupported)
  have hstops := (C.stopsFor_lowerProgram p).congr (fun f => (hobstructed f).symm)
    (C.Generator.ofTables t.symbols t.types) rfl rfl
  unfold Program.code C.Generator.generate
  cases hrun : C.lowerProgram p (C.Generator.ofTables t.symbols t.types) with
  | ok file g =>
      rw [hrun] at hstops
      exact fun e he f h => hstops.2.2 f ⟨e, he, h⟩
  | error f g =>
      rw [hrun] at hstops
      exact hstops

end ImpToC
