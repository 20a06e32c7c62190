import ImpToC.Proofs.Effects
import ImpToC.Proofs.Semantics.Source
import ImpToC.Proofs.Typing.Rules

/-!
# Well typed programs do not get stuck

An expression with a type has a value of that type, or it ends in a trap. So the run of
a well typed program comes to its end, ends in a trap, or is out of rounds.
-/

namespace ImpToC

variable {V T α β : Type} (I : Interpretation V T) {symbols : List (String × Ty)}
  {declared : List Declaration}

/-- The types of the variables are those that they are declared with. -/
def Agree (symbols : List (String × Ty)) (declared : List Declaration) : Prop :=
  ∀ name type, Declared declared name type → symbols.lookup name = some type

/-! ## Expressions -/

/-- A value of a type, or a trap in its place. -/
def Yields (type : Ty) (x : Except (Halt T) (Datum V)) : Prop :=
  (∃ value, x = .ok ⟨type, value⟩) ∨ ∃ cause, x = .error (.trap cause)

namespace Yields

variable {type type' : Ty} {x : Except (Halt T) (Datum V)}

theorem type_eq (h : Yields type x) {d : Datum V} (hd : x = .ok d) : d.type = type := by
  rcases h with ⟨value, hvalue⟩ | ⟨cause, hcause⟩
  · rw [hvalue] at hd
    cases hd
    rfl
  · rw [hcause] at hd
    cases hd

theorem ne_stuck (h : Yields type x) : x ≠ .error .stuck := by
  intro hstuck
  rcases h with ⟨value, hvalue⟩ | ⟨cause, hcause⟩
  · rw [hvalue] at hstuck
    cases hstuck
  · rw [hcause] at hstuck
    cases hstuck

theorem bind {f : Datum V → Except (Halt T) (Datum V)} (h : Yields type x)
    (hf : ∀ value, Yields type' (f ⟨type, value⟩)) : Yields type' (x >>= f) := by
  rcases h with ⟨value, hvalue⟩ | ⟨cause, hcause⟩
  · rw [hvalue, ok_bind]
    exact hf value
  · rw [hcause, error_bind]
    exact .inr ⟨cause, rfl⟩

end Yields

theorem yields_minus (type : Ty) (value : V) : Yields type (I.minus ⟨type, value⟩) := by
  unfold Interpretation.minus
  cases I.negate type value with
  | ok negated => exact .inl ⟨negated, rfl⟩
  | error cause => exact .inr ⟨cause, rfl⟩

theorem yields_combine (op : BinOp) (type : Ty) (left right : Datum V) :
    Yields type (I.combine op type left right) := by
  unfold Interpretation.combine
  cases I.operate op left.type right.type type left.value right.value with
  | ok value => exact .inl ⟨value, rfl⟩
  | error cause => exact .inr ⟨cause, rfl⟩

/-- An expression with a type has a value of that type, or ends in a trap. -/
theorem Expr.yields_eval (hagree : Agree symbols declared) {e : Expr} {type : Ty}
    (h : e.HasType declared type) (store : String → V) :
    Yields type (e.eval I symbols store) := by
  induction h with
  | @name mark name type hdeclared =>
      refine .inl ⟨store name, ?_⟩
      rw [eval, load, hagree _ _ hdeclared]
  | int _ value => exact .inl ⟨_, rfl⟩
  | float _ value => exact .inl ⟨_, rfl⟩
  | string _ text => exact .inl ⟨_, rfl⟩
  | negate _ _ ih =>
      rw [eval]
      exact ih.bind fun value => yields_minus I _ value
  | binary _ _ _ hop ihleft ihright =>
      rw [eval]
      refine ihleft.bind fun l => ihright.bind fun r => ?_
      rw [BinOp.result?_eq_some_iff.mpr hop]
      exact yields_combine I _ _ _ _

/-- The result of an operation on operands with types has the type of the rules. -/
theorem Expr.eval_binary (hagree : Agree symbols declared) {mark : Mark} {op : BinOp}
    {left right : Expr} {leftType rightType type : Ty} (hleft : left.HasType declared leftType)
    (hright : right.HasType declared rightType) (hop : op.Types leftType rightType type)
    (store : String → V) :
    (Expr.binary mark op left right).eval I symbols store =
      left.eval I symbols store >>= fun l =>
        right.eval I symbols store >>= I.combine op type l := by
  rw [eval]
  rcases left.yields_eval I hagree hleft store with ⟨l, hl⟩ | ⟨cause, hcause⟩
  · rw [hl, ok_bind, ok_bind]
    rcases right.yields_eval I hagree hright store with ⟨r, hr⟩ | ⟨cause, hcause⟩
    · rw [hr, ok_bind, ok_bind, BinOp.result?_eq_some_iff.mpr hop]
    · rw [hcause, error_bind, error_bind]
  · rw [hcause, error_bind, error_bind]

/-- A value where one of its own or of a wider type is wanted. -/
theorem convert_of_assignable {target type : Ty} (h : target.Assignable type) (value : V) :
    (∃ converted, I.convert target ⟨type, value⟩ = .ok converted) ∨
      ∃ cause, I.convert target ⟨type, value⟩ = .error (.trap cause) := by
  cases h with
  | int | float | string => exact .inl ⟨value, rfl⟩
  | floatInt =>
      unfold Interpretation.convert
      cases I.widen value with
      | ok widened => exact .inl ⟨widened, by simp⟩
      | error cause => exact .inr ⟨cause, by simp⟩

/-! ## Runs -/

/-- A part of a run that does not get stuck. -/
def Safe (r : Run V T α) : Prop := ∀ w w', r w ≠ .error .stuck w'

namespace Safe

theorem pure (a : α) : Safe (Pure.pure a : Run V T α) := nofun

theorem bind {r : Run V T α} {f : α → Run V T β} (hr : Safe r)
    (hf : ∀ a w m, r w = .ok a m → Safe (f a)) : Safe (r >>= f) := by
  intro w w' h
  rcases bind_eq_error_iff.mp h with h | ⟨a, m, hok, h⟩
  · exact hr w w' h
  · exact hf a w m hok m w' h

theorem modify (f : World V → World V) : Safe (modify f : Run V T PUnit) := nofun

theorem ofStore {f : (String → V) → Except (Halt T) α} (h : ∀ store, f store ≠ .error .stuck) :
    Safe (Run.ofStore f) := by
  intro w w' hw
  unfold Run.ofStore at hw
  split at hw
  next => cases hw
  next halt heq =>
    cases hw
    exact h _ heq

theorem iterate {round : Run V T Bool} (h : Safe round) (bound : Nat) :
    Safe (round.iterate bound) := by
  induction bound with
  | zero => exact nofun
  | succ bound ih =>
      refine h.bind fun again _ _ _ => ?_
      cases again with
      | true => exact ih
      | false => exact .pure ()

end Safe

theorem ofStore_eq_ok_iff {f : (String → V) → Except (Halt T) α} {a : α} {w w' : World V} :
    Run.ofStore f w = .ok a w' ↔ f w.store = .ok a ∧ w' = w := by
  unfold Run.ofStore
  cases f w.store with
  | ok b => simp [eq_comm]
  | error halt => simp

theorem safe_eval (hagree : Agree symbols declared) {e : Expr} {type : Ty}
    (h : e.HasType declared type) : Safe (Run.ofStore fun store => e.eval I symbols store) :=
  .ofStore fun store => (e.yields_eval I hagree h store).ne_stuck

theorem safe_branch (hagree : Agree symbols declared) {condition : Expr} {type : Ty}
    (h : condition.HasType declared type) {yes no : Run V T α} (hyes : Safe yes) (hno : Safe no) :
    Safe (condition.holds I symbols >>= fun b => if b then yes else no) := by
  have hholds : Safe (condition.holds I symbols) :=
    (safe_eval I hagree h).bind fun _ _ _ _ => .pure _
  refine hholds.bind fun b _ _ _ => ?_
  cases b with
  | true => exact hyes
  | false => exact hno

theorem safe_read (name : String) (type : Ty) : Safe (I.read name type) := by
  intro w w' h
  unfold Interpretation.read at h
  cases hinput : I.input w.reads type <;> rw [hinput] at h <;> cases h

theorem safe_assign (hagree : Agree symbols declared) {name : String} {target type : Ty}
    (hdeclared : Declared declared name target) (hassignable : target.Assignable type)
    (value : V) : Safe (I.assign symbols name ⟨type, value⟩) := by
  refine .bind (.ofStore fun store hstuck => ?_) fun _ _ _ _ => .modify _
  rw [load, hagree _ _ hdeclared, ok_bind] at hstuck
  rcases convert_of_assignable I hassignable value with ⟨converted, h⟩ | ⟨cause, h⟩
  · rw [h] at hstuck
    cases hstuck
  · rw [h] at hstuck
    cases hstuck

mutual

/-- A well typed statement does not get stuck. -/
theorem Stmt.safe_run (hagree : Agree symbols declared) (bound : Nat) :
    ∀ s : Stmt, s.WellTyped declared → Safe (s.run I symbols bound)
  | .read location name, h => by
      cases h with
      | read _ hdeclared =>
          rw [Stmt.run]
          refine .bind (.ofStore fun store hstuck => ?_) fun _ _ _ _ => safe_read I _ _
          rw [load, hagree _ _ hdeclared] at hstuck
          cases hstuck
  | .print location value, h => by
      cases h with
      | print _ htype =>
          rw [Stmt.run]
          exact (safe_eval I hagree htype).bind fun _ _ _ _ => .modify _
  | .assign location target value, h => by
      cases h with
      | assign _ hdeclared htype hassignable =>
          rw [Stmt.run]
          refine (safe_eval I hagree htype).bind fun d w m hok => ?_
          obtain ⟨hd, -⟩ := ofStore_eq_ok_iff.mp hok
          have hsame : d.type = _ := (value.yields_eval I hagree htype w.store).type_eq hd
          rw [← hsame] at hassignable
          exact safe_assign I hagree hdeclared hassignable d.value
  | .branch location condition yes no, h => by
      cases h with
      | branch _ htype hyes hno =>
          rw [Stmt.run]
          exact safe_branch I hagree htype (safe_runAll hagree bound yes hyes)
            (safe_runAll hagree bound no hno)
  | .loop location condition body, h => by
      cases h with
      | loop _ htype hbody =>
          rw [Stmt.run]
          have hagain := (safe_runAll hagree bound body hbody).bind fun _ _ _ _ => .pure true
          exact .iterate (safe_branch I hagree htype hagain (.pure false)) bound

theorem Stmt.safe_runAll (hagree : Agree symbols declared) (bound : Nat) :
    ∀ statements : List Stmt, (∀ s ∈ statements, s.WellTyped declared) →
      Safe (Stmt.runAll I symbols bound statements)
  | [], _ => by
      rw [Stmt.runAll]
      exact .pure ()
  | s :: rest, h => by
      obtain ⟨hs, hrest⟩ := List.forall_mem_cons.mp h
      rw [Stmt.runAll]
      exact (safe_run hagree bound s hs).bind fun _ _ _ _ => safe_runAll hagree bound rest hrest

end

end ImpToC
