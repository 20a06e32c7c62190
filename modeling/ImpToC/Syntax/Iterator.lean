import ImpToC.Syntax.Traversal

/-!
# Iterators

An iterator gives out the expressions of a program one after the other. It keeps one stack of
statements and expressions with the next one at its end, so what comes first is pushed last.
-/

namespace ImpToC

/-- What is still to be visited, the next one last, and the expressions that have been given out. -/
structure Iterator where
  stack : Array Visit
  given : Array Expr

namespace Iterator

/-- The iterator over a program, in front of its first round. -/
def ofProgram (p : Program) : Iterator := ⟨(p.statements.reverse.map Visit.stmt).toArray, #[]⟩

/-- What is pushed for something that has been popped. -/
def pushed : Visit → List Visit
  | .expr (.negate _ operand) => [.expr operand]
  | .expr (.binary _ _ left right) => [.expr right, .expr left]
  | .expr (.name ..) | .expr (.int ..) | .expr (.float ..) | .expr (.string ..) => []
  | .stmt (.read ..) => []
  | .stmt (.print _ value) | .stmt (.assign _ _ value) => [.expr value]
  | .stmt (.branch _ condition yes no) =>
    no.reverse.map .stmt ++ yes.reverse.map .stmt ++ [.expr condition]
  | .stmt (.loop _ condition body) => body.reverse.map .stmt ++ [.expr condition]

/-- One round: pop the next one, give it out if it is an expression, and push what is in it. -/
def round (it : Iterator) : Iterator :=
  match it.stack.back? with
  | none => it
  | some v => ⟨it.stack.pop ++ pushed v, it.given ++ v.here⟩

theorem pushed_eq (v : Visit) : pushed v = v.parts.reverse := by
  match v with
  | .expr (.name ..) | .expr (.int ..) | .expr (.float ..) | .expr (.string ..) => rfl
  | .expr (.negate ..) | .expr (.binary ..) => rfl
  | .stmt (.read ..) | .stmt (.print ..) | .stmt (.assign ..) => rfl
  | .stmt (.branch ..) | .stmt (.loop ..) => simp [pushed, Visit.parts]

/-- What is still to be visited, the next one first. -/
def agenda (it : Iterator) : List Visit := it.stack.toList.reverse

theorem agenda_ofProgram (p : Program) : (ofProgram p).agenda = p.statements.map .stmt := by
  simp [agenda, ofProgram]

/-- At the end of the agenda a round changes nothing. -/
theorem round_of_nil {it : Iterator} (h : it.agenda = []) : it.round = it := by
  have hempty : it.stack.back? = none := by
    rw [← Array.getLast?_toList, List.getLast?_eq_none_iff]
    exact List.reverse_eq_nil_iff.mp h
  rw [round, hempty]

/-- A round puts what is in the next one in front of the others. -/
theorem round_of_cons {it : Iterator} {v : Visit} {rest : List Visit} (h : it.agenda = v :: rest) :
    it.round.agenda = v.parts ++ rest ∧ it.round.given = it.given ++ v.here := by
  have hstack : it.stack.toList = rest.reverse ++ [v] := by
    rw [← List.reverse_cons, ← h, agenda, List.reverse_reverse]
  have hback : it.stack.back? = some v := by
    rw [← Array.getLast?_toList, hstack, List.getLast?_concat]
  have hround : it.round = ⟨it.stack.pop ++ pushed v, it.given ++ v.here⟩ := by
    rw [round, hback]
  rw [hround]
  refine ⟨?_, rfl⟩
  simp [agenda, hstack, pushed_eq]

/-- How much there is still to be visited. -/
def size (it : Iterator) : Nat := Visit.sizeAll it.agenda

/-- A round visits one statement or expression, if there is any left. -/
theorem size_round (it : Iterator) : it.round.size = it.size - 1 := by
  cases h : it.agenda with
  | nil => rw [round_of_nil h, size, h, Visit.sizeAll_nil]
  | cons v rest =>
      rw [size, (round_of_cons h).1, size, h, Visit.sizeAll_append, Visit.sizeAll_cons,
        v.size_eq_parts]
      omega

theorem size_eq_zero_iff {it : Iterator} : it.size = 0 ↔ it.stack.isEmpty := by
  have hnil : it.stack.isEmpty ↔ it.agenda = [] := by
    rw [agenda, List.reverse_eq_nil_iff, Array.toList_eq_nil_iff, Array.isEmpty_iff]
  rw [hnil]
  cases h : it.agenda with
  | nil => simp [size, h]
  | cons v rest => simp [size, h, v.size_eq_parts]

/-- Go on to the end: all that has been given out by then. -/
def run (it : Iterator) : Array Expr :=
  if it.stack.isEmpty then it.given else it.round.run
termination_by it.size
decreasing_by
  next h =>
    have hsize : it.size ≠ 0 := fun hzero => h (size_eq_zero_iff.mp hzero)
    rw [size_round]
    omega

end Iterator

/-- The expressions that an iterator over a program gives out. -/
def Program.iterate (p : Program) : List Expr := (Iterator.ofProgram p).run.toList

end ImpToC
