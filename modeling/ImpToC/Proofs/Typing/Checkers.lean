import ImpToC.Proofs.Syntax.Expressions
import ImpToC.Proofs.Typing.Overlays
import ImpToC.Typing.Checker

/-!
# Reading types off the record

A checker that reads the types of operands off its record finds what a check finds that passes
them on. The numbers of the expressions of one program are distinct, so an operand's type is
still the one that was put on record last, whatever was on record under its number before.
-/

namespace ImpToC

/-! ## Passes that go along -/

section Along

variable {σ τ ε ε' α β : Type}

/-- A result with its state and its error moved. -/
def resultAlong (move : σ → τ) (stop : ε → ε') : EStateM.Result ε σ α → EStateM.Result ε' τ α
  | .ok a s => .ok a (move s)
  | .error e s => .error (stop e) (move s)

/-- The second pass does with moved states what the first one does. -/
def Along (move : σ → τ) (stop : ε → ε') (x : EStateM ε σ α) (y : EStateM ε' τ α) : Prop :=
  ∀ s, y (move s) = resultAlong move stop (x s)

namespace Along

variable {move : σ → τ} {stop : ε → ε'} {x : EStateM ε σ α} {y : EStateM ε' τ α}

theorem ret (a : α) : Along move stop (pure a) (pure a) := fun _ => rfl

theorem raise {e : ε} {e' : ε'} (h : stop e = e') :
    Along move stop (throw e : EStateM ε σ α) (throw e') := by
  intro s
  subst h
  rfl

theorem read {next : σ → EStateM ε σ β} {next' : τ → EStateM ε' τ β}
    (h : ∀ s, next' (move s) (move s) = resultAlong move stop (next s s)) :
    Along move stop (get >>= next) (get >>= next') := h

theorem bind {next : α → EStateM ε σ β} {next' : α → EStateM ε' τ β} (h : Along move stop x y)
    (hnext : ∀ a, Along move stop (next a) (next' a)) :
    Along move stop (x >>= next) (y >>= next') := by
  intro s
  have hs := h s
  cases hx : x s with
  | ok a m =>
      rw [hx] at hs
      rw [bind_of_ok hx, bind_of_ok hs]
      exact hnext a m
  | error e m =>
      rw [hx] at hs
      rw [bind_of_error hx, bind_of_error hs]
      rfl

theorem forM {γ : Type} {run : γ → EStateM ε σ PUnit} {run' : γ → EStateM ε' τ PUnit}
    (h : ∀ item, Along move stop (run item) (run' item)) (items : List γ) :
    Along move stop (items.forM run) (items.forM run') := by
  induction items with
  | nil => exact ret PUnit.unit
  | cons item rest ih => exact bind (h item) fun _ => ih

end Along

end Along

namespace Typing

/-- A record as a checker keeps it. -/
def checker (t : Typing) : Checker where
  symbols := t.symbols
  declaredAt := t.scope.mapValues Declaration.location
  types := t.types

/-- The second pass does with the record of a checker what the first one does. -/
abbrev Kept {α : Type} (x : Check α) (y : Checker.Pass α) : Prop :=
  Along checker Checker.Stop.fault x y

theorem checker_get?_symbols (t : Typing) (name : String) :
    t.checker.symbols.get? name = (t.scope.get? name).map Declaration.type :=
  t.scope.get?_mapValues Declaration.type name

theorem checker_get?_declaredAt (t : Typing) (name : String) :
    t.checker.declaredAt.get? name = (t.scope.get? name).map Declaration.location :=
  t.scope.get?_mapValues Declaration.location name

theorem checker_keys_symbols (t : Typing) : t.checker.symbols.keys = t.scope.keys :=
  t.scope.keys_mapValues Declaration.type

theorem lookup_kept (name : String) (l : Location) :
    Kept (lookup name l) (Checker.lookup name l) := by
  refine Along.read fun t => ?_
  rw [checker_get?_symbols, checker_keys_symbols]
  cases t.scope.get? name <;> rfl

/-- Where a variable has a type, the place of its declaration is known. -/
theorem declare_kept (d : Declaration) : Kept (declare d) (Checker.declare d) := by
  refine Along.read fun t => ?_
  rw [checker_get?_symbols, checker_get?_declaredAt]
  cases t.scope.get? d.name with
  | some first => rfl
  | none =>
      have hsymbols : t.checker.symbols.insert d.name d.type =
          (t.scope.insert d.name d).mapValues Declaration.type :=
        (t.scope.mapValues_insert Declaration.type d.name d).symm
      have hdeclaredAt : t.checker.declaredAt.insert d.name d.location =
          (t.scope.insert d.name d).mapValues Declaration.location :=
        (t.scope.mapValues_insert Declaration.location d.name d).symm
      show EStateM.Result.ok () (Checker.mk (t.checker.symbols.insert d.name d.type)
        (t.checker.declaredAt.insert d.name d.location) t.types) = _
      rw [hsymbols, hdeclaredAt]
      rfl

theorem require_kept (accepted : Bool) (expected actual : Ty) (l : Location) :
    Kept (require accepted expected actual l) (Checker.require accepted expected actual l) := by
  cases accepted with
  | true => exact .ret ()
  | false => exact .raise rfl

/-- Looking a variable up leaves the record as it was. -/
theorem lookup_cases (name : String) (l : Location) (t : Typing) :
    (∃ type, lookup name l t = .ok type t) ∨ ∃ f, lookup name l t = .error f t := by
  have hget : (get : Check Typing) t = .ok t t := rfl
  unfold lookup
  rw [bind_of_ok hget]
  cases t.scope.get? name with
  | some d => exact .inl ⟨d.type, rfl⟩
  | none => exact .inr ⟨_, rfl⟩

/-- Recording the type of an expression leaves those of others. -/
theorem get?_of_record {id : Nat} {found type : Ty} {t t' : Typing}
    (h : record id found t = .ok type t') :
    t'.types.get? id = some type ∧
      ∀ other, other ≠ id → t'.types.get? other = t.types.get? other := by
  cases h
  exact ⟨Table.get?_insert_self t.types id found,
    fun other hother => Table.get?_insert_of_ne t.types found hother⟩

end Typing

open Typing

/-! ## Expressions -/

/-- A check that succeeds leaves the type of its expression on record, and all others but
those of the expressions inside as they were. -/
theorem Expr.get?_of_check {e : Expr} {t t' : Typing} {type : Ty} (h : e.check t = .ok type t') :
    t'.types.get? e.id = some type ∧
      ∀ id, id ∉ e.postorder.map Expr.id → t'.types.get? id = t.types.get? id := by
  have hne {e : Expr} {id : Nat} (hid : id ∉ e.postorder.map Expr.id) : id ≠ e.id :=
    fun heq => hid (heq ▸ List.mem_map_of_mem e.mem_postorder_self)
  induction e generalizing t t' type with
  | name m x =>
      obtain ⟨found, m', hlookup, hrecord⟩ := bind_eq_ok_iff.mp h
      obtain rfl : m' = t := by
        rcases lookup_cases x m.location t with ⟨_, hfound⟩ | ⟨_, hfound⟩ <;>
          cases hlookup.symm.trans hfound
        rfl
      obtain ⟨hself, hothers⟩ := get?_of_record hrecord
      exact ⟨hself, fun id hid => hothers id (hne hid)⟩
  | int m | float m | string m =>
      obtain ⟨hself, hothers⟩ := get?_of_record h
      exact ⟨hself, fun id hid => hothers id (hne hid)⟩
  | negate m operand ih =>
      obtain ⟨found, m', hoperand, hrecord⟩ := bind_eq_ok_iff.mp h
      obtain ⟨hself, hothers⟩ := get?_of_record hrecord
      refine ⟨hself, fun id hid => ?_⟩
      rw [hothers id (hne hid)]
      rw [postorder, List.map_append, List.mem_append, not_or] at hid
      exact (ih hoperand).2 id hid.1
  | binary m op left right ihleft ihright =>
      simp only [check, bind_eq_ok_iff] at h
      obtain ⟨leftType, m', hleft, rightType, m'', hright, hresult⟩ := h
      cases hfound : op.result? leftType rightType with
      | none =>
          rw [hfound] at hresult
          cases hresult
      | some found =>
          rw [hfound] at hresult
          obtain ⟨hself, hothers⟩ := get?_of_record hresult
          refine ⟨hself, fun id hid => ?_⟩
          rw [hothers id (hne hid)]
          rw [postorder, List.map_append, List.map_append, List.mem_append, List.mem_append,
            not_or, not_or] at hid
          rw [(ihright hright).2 id hid.1.2, (ihleft hleft).2 id hid.1.1]

namespace Checker

variable {t t' : Typing} {agenda : List Task}

theorem recorded_of_get? {c : Checker} {id : Nat} {type : Ty} (h : c.types.get? id = some type) :
    recorded id c = .ok type c := by
  have hget : (get : Pass Checker) c = .ok c c := rfl
  unfold recorded
  rw [bind_of_ok hget, h]
  rfl

theorem recorded_eq_ok {id : Nat} {type : Ty} (h : t.types.get? id = some type) :
    recorded id t.checker = .ok type t.checker :=
  recorded_of_get? (c := t.checker) h

section Binary

variable {c : Checker} {m : Mark} {op : BinOp} {left right : Expr} {leftType rightType : Ty}
  (hleft : c.types.get? left.id = some leftType) (hright : c.types.get? right.id = some rightType)
include hleft hright

theorem infer_binary {type : Ty} (h : op.result? leftType rightType = some type) :
    infer (.binary m op left right) c = .ok type c := by
  rw [infer, bind_of_ok (recorded_of_get? hleft), bind_of_ok (recorded_of_get? hright), h]
  rfl

theorem infer_binary_error (h : op.result? leftType rightType = none) :
    infer (.binary m op left right) c =
      .error (.fault ((Cause.illTypedOperation op leftType rightType).fault m.location)) c := by
  rw [infer, bind_of_ok (recorded_of_get? hleft), bind_of_ok (recorded_of_get? hright), h]
  rfl

end Binary

theorem walk_visit (e : Expr) :
    walk (.visit e :: agenda) = walk (e.operands.map .visit ++ .settle e :: agenda) := by
  rw [walk]

/-- To settle an expression whose type is found is to record that. -/
theorem walk_settle {e : Expr} {type : Ty} (h : infer e t.checker = .ok type t.checker) :
    walk (.settle e :: agenda) t.checker =
      walk agenda { t with types := t.types.insert e.id type }.checker := by
  have hsettle : settle e t.checker =
      .ok () { t with types := t.types.insert e.id type }.checker :=
    bind_of_ok h
  rw [walk, bind_of_ok hsettle]

theorem walk_settle_error {e : Expr} {stop : Stop}
    (h : infer e t.checker = .error stop t.checker) :
    walk (.settle e :: agenda) t.checker = .error stop t.checker := by
  have hsettle : settle e t.checker = .error stop t.checker := bind_of_error h
  rw [walk, bind_of_error hsettle]

/-- What visiting an expression in front of an agenda comes to. -/
theorem walk_visit_eq (e : Expr) (hnodup : (e.postorder.map Expr.id).Nodup) (agenda : List Task)
    (t : Typing) :
    walk (.visit e :: agenda) t.checker =
      match e.check t with
      | .ok _ t' => walk agenda t'.checker
      | .error f t' => .error (.fault f) t'.checker := by
  induction e generalizing agenda t with
  | name m x =>
      rw [walk_visit]
      have hkept := lookup_kept x m.location t
      rcases lookup_cases x m.location t with ⟨type, hlookup⟩ | ⟨f, hlookup⟩
      · rw [hlookup] at hkept
        rw [Expr.check, bind_of_ok hlookup]
        exact walk_settle hkept
      · rw [hlookup] at hkept
        rw [Expr.check, bind_of_error hlookup]
        exact walk_settle_error hkept
  | int m | float m | string m =>
      rw [walk_visit]
      exact walk_settle rfl
  | negate m operand ih =>
      have hoperands : (operand.postorder.map Expr.id).Nodup := by
        rw [Expr.postorder, List.map_append] at hnodup
        exact (List.nodup_append.mp hnodup).1
      rw [walk_visit]
      show walk (.visit operand :: .settle (.negate m operand) :: agenda) t.checker = _
      rw [ih hoperands]
      cases hcheck : operand.check t with
      | error f t' =>
          rw [Expr.check, bind_of_error hcheck]
      | ok type t' =>
          have hinfer : infer (.negate m operand) t'.checker = .ok type t'.checker :=
            recorded_eq_ok (Expr.get?_of_check hcheck).1
          rw [Expr.check, bind_of_ok hcheck]
          exact walk_settle hinfer
  | binary m op left right ihleft ihright =>
      rw [Expr.postorder, List.map_append, List.map_append] at hnodup
      obtain ⟨hleftIds, hrightIds, hdisjoint⟩ :=
        List.nodup_append.mp (List.nodup_append.mp hnodup).1
      rw [walk_visit]
      show walk (.visit left :: .visit right :: .settle (.binary m op left right) :: agenda)
        t.checker = _
      rw [ihleft hleftIds]
      cases hleft : left.check t with
      | error f t' => rw [Expr.check, bind_of_error hleft]
      | ok leftType t' =>
          dsimp only
          rw [Expr.check, bind_of_ok hleft, ihright hrightIds]
          cases hright : right.check t' with
          | error f t'' => rw [bind_of_error hright]
          | ok rightType t'' =>
              dsimp only
              rw [bind_of_ok hright]
              -- The right operand has been given other numbers than the left one.
              have hother : left.id ∉ right.postorder.map Expr.id := fun hmem =>
                hdisjoint _ (List.mem_map_of_mem left.mem_postorder_self) _ hmem rfl
              obtain ⟨hrightType, hkept⟩ := Expr.get?_of_check hright
              have hleftType := (hkept left.id hother).trans (Expr.get?_of_check hleft).1
              cases hresult : op.result? leftType rightType with
              | some type => exact walk_settle (infer_binary hleftType hrightType hresult)
              | none => exact walk_settle_error (infer_binary_error hleftType hrightType hresult)

/-- Whatever is on record under the numbers of an expression, its operands are read right. -/
theorem checkExpr_kept (e : Expr) (hnodup : (e.postorder.map Expr.id).Nodup) :
    Kept e.check (checkExpr e) := by
  intro t
  have hwalk := walk_visit_eq e hnodup [] t
  unfold checkExpr
  cases hcheck : e.check t with
  | error f t' =>
      rw [hcheck] at hwalk
      rw [bind_of_error hwalk]
      rfl
  | ok type t' =>
      rw [hcheck, walk] at hwalk
      rw [bind_of_ok hwalk]
      exact recorded_eq_ok (Expr.get?_of_check hcheck).1

theorem checkCondition_kept (condition : Expr) (l : Location)
    (hnodup : (condition.postorder.map Expr.id).Nodup) :
    Kept (condition.checkCondition l) (checkCondition condition l) :=
  (checkExpr_kept condition hnodup).bind fun _ => require_kept _ _ _ l

/-! ## Statements and programs -/

mutual

theorem checkStmt_kept : ∀ s : Stmt, (s.postorder.map Expr.id).Nodup →
    Kept s.check (checkStmt s)
  | .read l name, _ => (lookup_kept name l).bind fun _ => .ret ()
  | .print _ value, h => (checkExpr_kept value h).bind fun _ => .ret ()
  | .assign l target value, h =>
      (checkExpr_kept value h).bind fun _ => (lookup_kept target l).bind fun _ =>
        require_kept _ _ _ l
  | .branch l condition yes no, h => by
      rw [Stmt.postorder, List.map_append, List.map_append] at h
      obtain ⟨hfront, hno, -⟩ := List.nodup_append.mp h
      obtain ⟨hcondition, hyes, -⟩ := List.nodup_append.mp hfront
      exact (checkCondition_kept condition l hcondition).bind fun _ =>
        (checkStmts_kept yes hyes).bind fun _ => checkStmts_kept no hno
  | .loop l condition body, h => by
      rw [Stmt.postorder, List.map_append] at h
      obtain ⟨hcondition, hbody, -⟩ := List.nodup_append.mp h
      exact (checkCondition_kept condition l hcondition).bind fun _ => checkStmts_kept body hbody

theorem checkStmts_kept : ∀ statements : List Stmt,
    ((Stmt.postorderAll statements).map Expr.id).Nodup →
    Kept (Stmt.checkAll statements) (checkStmts statements)
  | [], _ => .ret ()
  | s :: rest, h => by
      rw [Stmt.postorderAll, List.map_append] at h
      obtain ⟨hs, hrest, -⟩ := List.nodup_append.mp h
      exact (checkStmt_kept s hs).bind fun _ => checkStmts_kept rest hrest

end

theorem checkProgram_kept (p : Program) (hnodup : (p.postorder.map Expr.id).Nodup) :
    Kept p.check (checkProgram p) :=
  (Along.forM declare_kept p.declarations).bind fun _ => checkStmts_kept p.statements hnodup

/-- A checker never misses anything on its record, and does what a check does that passes the
types of operands on. -/
theorem check_checker {p : Program} (hnodup : (p.postorder.map Expr.id).Nodup) (t : Typing) :
    t.checker.check p = ((t.extend p).1.map Stop.fault, (t.extend p).2.checker) := by
  have hkept := checkProgram_kept p hnodup t
  unfold check Typing.extend
  rw [hkept]
  cases p.check t <;> rfl

end Checker

end ImpToC
