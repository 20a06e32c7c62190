import ImpToC.Proofs.Parsing.Hosts
import ImpToC.Proofs.Syntax.Expressions

/-!
# The numbers of expressions

A parser numbers expressions as it completes them. So the numbers on the stacks of a
state, read in the order of the words, are the numbers given so far, and those of a
program count its expressions, operands first. An operation is placed where its left operand
is.
-/

namespace ImpToC

/-- An operation between two operands is placed where the left one is. -/
def Expr.Anchored : Expr → Prop
  | .binary mark _ left _ => mark.location = left.location
  | _ => True

namespace Parser

/-- The expressions to the left of an operand. -/
def pendingExprs : List Frame → List Expr
  | [] => []
  | .group :: frames | .negate _ :: frames => pendingExprs frames
  | .sum _ left :: frames | .product _ left :: frames => pendingExprs frames ++ left.postorder

/-- The expressions in front of the statement at hand. -/
def enclosingExprs : List Block → List Stmt → List Expr
  | [], before => Stmt.postorderAll before.reverse
  | .yes _ condition outer :: blocks, before =>
    enclosingExprs blocks outer ++ condition.postorder ++ Stmt.postorderAll before.reverse
  | .no _ condition yes outer :: blocks, before =>
    enclosingExprs blocks outer ++ condition.postorder ++ Stmt.postorderAll yes ++
      Stmt.postorderAll before.reverse
  | .body _ condition outer :: blocks, before =>
    enclosingExprs blocks outer ++ condition.postorder ++ Stmt.postorderAll before.reverse

/-- The expressions of the statement at hand. -/
def Phase.exprs : Phase → List Expr
  | .operand _ frames => pendingExprs frames
  | .operator _ frames value => pendingExprs frames ++ value.postorder
  | _ => []

/-- The expressions on the stacks of a state. -/
def State.exprs (s : State) : List Expr := enclosingExprs s.blocks s.before ++ s.phase.exprs

/-- Expressions that have been completed in turn, each with the next number. -/
inductive Counted : Nat → List Expr → Prop
  | nil : Counted 0 []
  | next {n : Nat} {es : List Expr} {e : Expr} :
      Counted n es → e.id = n → e.Anchored → Counted (n + 1) (es ++ [e])

namespace Counted

variable {n : Nat} {es : List Expr}

theorem map_id (h : Counted n es) : es.map Expr.id = List.range n := by
  induction h with
  | nil => rfl
  | next _ hid _ ih => rw [List.map_append, ih, List.range_succ, List.map_singleton, hid]

theorem anchored (h : Counted n es) : ∀ e ∈ es, e.Anchored := by
  induction h with
  | nil => exact nofun
  | next _ _ hanchored ih =>
      exact List.forall_mem_append.mpr ⟨ih, List.forall_mem_singleton.mpr hanchored⟩

end Counted

/-- The expressions of a state carry the numbers given so far, in order. -/
def Numbered (s : State) : Prop := Counted s.nextId s.exprs

theorem postorder_of_atom {e : Expr} {word : Lexeme} (h : Expr.Atom e word) :
    e.postorder = [e] := by
  cases h <;> rfl

theorem anchored_of_atom {e : Expr} {word : Lexeme} (h : Expr.Atom e word) : e.Anchored := by
  cases h <;> trivial

theorem enclosingExprs_cons (blocks : List Block) (before : List Stmt) (statement : Stmt) :
    enclosingExprs blocks (statement :: before) =
      enclosingExprs blocks before ++ statement.postorder := by
  cases blocks with
  | nil => simp [enclosingExprs, Stmt.postorderAll]
  | cons block blocks => cases block <;> simp [enclosingExprs, Stmt.postorderAll]

/-- Completing frames numbers the operations that they become. -/
theorem numbered_of_complete {reach : Reach} {n n' : Nat} {frames frames' : List Frame}
    {value value' : Expr} (h : complete reach n frames value = (n', frames', value'))
    {outer : List Expr}
    (hnumbered : Counted n (outer ++ (pendingExprs frames ++ value.postorder))) :
    Counted n' (outer ++ (pendingExprs frames' ++ value'.postorder)) := by
  induction frames generalizing n value with
  | nil =>
      cases h
      exact hnumbered
  | cons frame frames ih =>
      rw [complete] at h
      split at h
      next hcomplete =>
        -- The operation is next in number and stands behind its operands.
        refine ih h ?_
        cases frame with
        | group => cases hcomplete
        | negate location =>
            have hnext := hnumbered.next (e := .negate ⟨n, location⟩ value) rfl trivial
            simpa [Frame.apply, pendingExprs, Expr.postorder] using hnext
        | sum op left | product op left =>
            have hnext := hnumbered.next (e := .binary ⟨n, left.location⟩ op left value) rfl rfl
            simpa [Frame.apply, pendingExprs, Expr.postorder] using hnext
      next =>
        cases h
        exact hnumbered

theorem Numbered.move {s s' : State} {t : Token} (h : Numbered s) (hmove : Move s t s') :
    Numbered s' := by
  unfold Numbered State.exprs at h ⊢
  cases hmove with
  | declare location hphase | declaredName name location hphase | colon location hphase
  | declaredType type location hphase | declared location hphase | read location hphase
  | readName name location hphase | target name location hphase
  | equals location hphase | print location hphase | branch location hphase
  | loop location hphase | group location hphase | negate location hphase =>
      rw [hphase] at h
      exact h
  | readEnd location hphase =>
      rw [hphase] at h
      simpa [State.push, Phase.exprs, enclosingExprs_cons, Stmt.postorder] using h
  | otherwise location hphase hblocks =>
      rw [hblocks] at h
      simpa [enclosingExprs, Stmt.postorderAll, hphase] using h
  | yesEnd location hphase hblocks | noEnd location hphase hblocks
  | bodyEnd location hphase hblocks =>
      rw [hphase, hblocks] at h
      simpa [State.leave, Phase.exprs, enclosingExprs, enclosingExprs_cons, Stmt.postorder,
        Stmt.postorderAll] using h
  | atom location hphase hatom hmark =>
      rw [hphase] at h
      have hnext := h.next (congrArg Mark.id hmark) (anchored_of_atom hatom)
      simpa [State.operandDone, Phase.exprs, postorder_of_atom hatom] using hnext
  | times location hphase hlevel hcomplete | plus location hphase hlevel hcomplete =>
      rw [hphase] at h
      exact numbered_of_complete hcomplete h
  | groupEnd location hphase hcomplete =>
      rw [hphase] at h
      obtain rfl := eq_group_of_complete_closer hcomplete
      exact numbered_of_complete hcomplete h
  | printEnd location hphase hcomplete | assignEnd location hphase hcomplete =>
      rw [hphase] at h
      have h' := numbered_of_complete hcomplete h
      simpa [State.push, Phase.exprs, pendingExprs, enclosingExprs_cons, Stmt.postorder] using h'
  | thenWord location hphase hcomplete | doWord location hphase hcomplete =>
      rw [hphase] at h
      have h' := numbered_of_complete hcomplete h
      simpa [State.enter, Phase.exprs, pendingExprs, enclosingExprs, Stmt.postorderAll] using h'

theorem Numbered.moves {s s' : State} {tokens : List Token} (h : Numbered s)
    (hmoves : Moves s tokens s') : Numbered s' := by
  induction hmoves with
  | nil => exact h
  | cons hmove _ ih => exact ih (h.move hmove)

/-- The expressions of a program are completed in the order of their construction. -/
theorem exists_counted_of_parse {host : Host} {s : Sentence} {p : Program}
    (h : parse host s = .ok p) : ∃ n, Counted n p.postorder := by
  obtain ⟨state, hmoves, hfinish⟩ := pass_eq_ok_iff.mp (pass_of_parse h)
  obtain ⟨hphase, hblocks, rfl⟩ := finish_eq_ok_iff.mp hfinish
  have hstart : Numbered .start := .nil
  have hnumbered := hstart.moves hmoves
  unfold Numbered State.exprs at hnumbered
  rw [hphase, hblocks] at hnumbered
  exact ⟨state.nextId, by simpa [enclosingExprs, Phase.exprs, Program.postorder] using hnumbered⟩

/-- The expressions of a program are numbered in the order of their construction. -/
theorem exists_range_of_parse {host : Host} {s : Sentence} {p : Program}
    (h : parse host s = .ok p) : ∃ n, p.postorder.map Expr.id = List.range n := by
  obtain ⟨n, hcounted⟩ := exists_counted_of_parse h
  exact ⟨n, hcounted.map_id⟩

theorem anchored_of_parse {host : Host} {s : Sentence} {p : Program}
    (h : parse host s = .ok p) : ∀ e ∈ p.postorder, e.Anchored := by
  obtain ⟨n, hcounted⟩ := exists_counted_of_parse h
  exact hcounted.anchored

/-- No two expressions of a program have the same number. -/
theorem nodup_ids_of_parse {host : Host} {s : Sentence} {p : Program}
    (h : parse host s = .ok p) : (p.postorder.map Expr.id).Nodup := by
  obtain ⟨n, hn⟩ := exists_range_of_parse h
  rw [hn]
  exact List.nodup_range

end Parser

end ImpToC
