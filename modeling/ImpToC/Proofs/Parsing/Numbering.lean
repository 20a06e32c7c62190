import Mathlib.Data.List.Nodup
import ImpToC.Proofs.Parsing.Numbers

/-!
# Numbers and operands

The numbers of a program's expressions count from zero in the order of their construction. So
no number is left out or given twice, and an operand has a smaller number than the operation
that it belongs to.
-/

namespace ImpToC

/-! ## What is in an expression stands together -/

/-- Each expression of a list has all that is in it right in front of it there. -/
def Gathered (es : List Expr) : Prop := ∀ e ∈ es, e.postorder <:+: es

namespace Gathered

variable {es es' : List Expr}

theorem nil : Gathered [] := nofun

theorem append (h : Gathered es) (h' : Gathered es') : Gathered (es ++ es') := by
  intro e he
  rcases List.mem_append.mp he with he | he
  · exact (h e he).trans (List.prefix_append es es').isInfix
  · exact (h' e he).trans (List.suffix_append es es').isInfix

end Gathered

namespace Expr

theorem gathered_postorder_of_operands {e : Expr}
    (h : Gathered (e.operands.flatMap postorder)) : Gathered e.postorder := by
  intro e' he'
  rw [postorder_eq] at he'
  rcases List.mem_append.mp he' with hinner | hself
  · rw [postorder_eq e]
    exact (h e' hinner).trans (List.prefix_append _ _).isInfix
  · obtain rfl := List.mem_singleton.mp hself
    exact List.infix_rfl

theorem gathered_postorder (e : Expr) : Gathered e.postorder := by
  induction e with
  | name | int | float | string => exact gathered_postorder_of_operands .nil
  | negate m operand ih =>
      apply gathered_postorder_of_operands
      simpa [operands] using ih
  | binary m op left right ihleft ihright =>
      apply gathered_postorder_of_operands
      simpa [operands] using ihleft.append ihright

end Expr

mutual

theorem Stmt.gathered_postorder : ∀ s : Stmt, Gathered s.postorder
  | .read .. => .nil
  | .print _ value | .assign _ _ value => value.gathered_postorder
  | .branch _ condition yes no =>
      (condition.gathered_postorder.append (Stmt.gathered_postorderAll yes)).append
        (Stmt.gathered_postorderAll no)
  | .loop _ condition body =>
      condition.gathered_postorder.append (Stmt.gathered_postorderAll body)

theorem Stmt.gathered_postorderAll : ∀ statements : List Stmt,
    Gathered (Stmt.postorderAll statements)
  | [] => .nil
  | s :: rest => (Stmt.gathered_postorder s).append (Stmt.gathered_postorderAll rest)

end

/-- Where numbers grow along a list, an operand's number is smaller than that of its
operation. -/
theorem Gathered.operand_id_lt {es : List Expr} (h : Gathered es)
    (hgrow : (es.map Expr.id).Pairwise (· < ·)) {e operand : Expr} (he : e ∈ es)
    (hoperand : operand ∈ e.operands) : operand ∈ es ∧ operand.id < e.id := by
  have hwithin := h e he
  have hsub : ((e.operands.flatMap Expr.postorder ++ [e]).map Expr.id).Pairwise (· < ·) := by
    rw [← e.postorder_eq]
    exact hgrow.sublist (hwithin.sublist.map Expr.id)
  have hinner : operand ∈ e.operands.flatMap Expr.postorder :=
    List.mem_flatMap.mpr ⟨operand, hoperand, operand.mem_postorder_self⟩
  constructor
  · apply hwithin.subset
    rw [e.postorder_eq]
    exact List.mem_append_left _ hinner
  · rw [List.map_append, List.pairwise_append] at hsub
    exact hsub.2.2 _ (List.mem_map_of_mem hinner) _ (List.mem_singleton_self _)

namespace Parser

/-- The expressions of a program carry as many numbers as there are expressions, in order. -/
theorem map_id_postorder_of_parse {host : Host} {s : Sentence} {p : Program}
    (h : parse host s = .ok p) :
    p.postorder.map Expr.id = List.range p.postorder.length := by
  obtain ⟨n, hn⟩ := exists_range_of_parse h
  have hlength : p.postorder.length = n := by
    simpa using congrArg List.length hn
  rw [hn, hlength]

/-- Listed with operands in front of their operation, the expressions of a program have the
numbers from zero on, one after the other. So each number up to their count is given once;
the list of all expressions has each of them once, its numbers in another order; and an
operand has a smaller number than its operation. -/
theorem ids_count_construction {host : Host} {s : Sentence} {p : Program}
    (h : parse host s = .ok p) :
    p.postorder.map Expr.id = List.range p.expressions.length ∧
      (p.postorder.map Expr.id).Nodup ∧
      p.expressions.Perm p.postorder ∧ (∀ e ∈ p.postorder, p.expressions.count e = 1) ∧
      (p.expressions.map Expr.id).Perm (List.range p.expressions.length) ∧
      ∀ e ∈ p.expressions, ∀ operand ∈ e.operands,
        operand ∈ p.expressions ∧ operand.id < e.id := by
  have hperm := p.expressions_perm
  have hids : p.postorder.map Expr.id = List.range p.expressions.length := by
    rw [hperm.length_eq]
    exact map_id_postorder_of_parse h
  have hnodup := nodup_ids_of_parse h
  refine ⟨hids, hnodup, hperm, ?_, ?_, ?_⟩
  · intro e he
    have hdistinct : p.expressions.Nodup := hperm.nodup_iff.mpr (.of_map Expr.id hnodup)
    exact List.count_eq_one_of_mem hdistinct (hperm.mem_iff.mpr he)
  · rw [← hids]
    exact hperm.map Expr.id
  · intro e he operand hoperand
    have hgrow : (p.postorder.map Expr.id).Pairwise (· < ·) := by
      rw [hids]
      exact List.pairwise_lt_range
    obtain ⟨hmem, hlt⟩ := (Stmt.gathered_postorderAll p.statements).operand_id_lt hgrow
      (hperm.mem_iff.mp he) hoperand
    exact ⟨hperm.mem_iff.mpr hmem, hlt⟩

/-- In `print a * -(b + 1);` the sum is complete before the negation, and that before the
product. -/
theorem ids_count_construction_product :
    let a : Expr := .name ⟨0, default⟩ "a"
    let b : Expr := .name ⟨1, default⟩ "b"
    let one : Expr := .int ⟨2, default⟩ 1
    let sum : Expr := .binary ⟨3, default⟩ .add b one
    let negation : Expr := .negate ⟨4, default⟩ sum
    let product : Expr := .binary ⟨5, default⟩ .mul a negation
    let p : Program := ⟨[], [.print default product]⟩
    let words : List Lexeme :=
      [.symbol .printWord, .name "a", .symbol .star, .symbol .minus, .symbol .openParen, .name "b",
        .symbol .plus, .int ⟨"1", rfl⟩, .symbol .closeParen, .symbol .semicolon]
    let s : Sentence := ⟨words.map (⟨·, default⟩), default, by decide⟩
    parse .unlimited s = .ok p ∧
    p.expressions.Perm [a, b, one, sum, negation, product] ∧ sum.id < negation.id ∧
      (p.expressions.map Expr.id).Perm [0, 1, 2, 3, 4, 5] := by
  intro a b one sum negation product p words s
  have hp : parse .unlimited s = .ok p := (parse_unlimited s).trans rfl
  obtain ⟨-, -, hperm, -, hids, hoperands⟩ := ids_count_construction hp
  have hlength : p.expressions.length = 6 := hperm.length_eq
  have hnegation : negation ∈ p.expressions := by
    apply hperm.mem_iff.mpr
    simp [p, Program.postorder, Stmt.postorderAll, Stmt.postorder, Expr.postorder, product,
      negation]
  rw [hlength] at hids
  exact ⟨hp, hperm, (hoperands negation hnegation sum (List.mem_singleton_self sum)).2, hids⟩

end Parser

end ImpToC
