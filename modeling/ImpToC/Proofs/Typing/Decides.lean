import ImpToC.Proofs.Parsing.Numbers
import ImpToC.Proofs.Typing.Records

/-!
# Checking decides typing

A program that a parser returns passes the check just if it is well typed, and the
record then holds its variables and the one type of each of its expressions.
-/

namespace ImpToC.Typing

/-- The check passes the well typed programs of a parser, and no others. It then has on
record the declared variables in order, and for each expression the only type that the
rules give it. -/
theorem extend_decides_wellTyped {host : Host} {s : Sentence} {p : Program}
    (hp : Parser.parse host s = .ok p) :
    ((empty.extend p).1 = none ↔
        (p.declarations.map Declaration.name).Nodup ∧
          ∀ statement ∈ p.statements, statement.WellTyped p.declarations) ∧
      ((empty.extend p).1 = none →
        (empty.extend p).2.symbols.entries = p.declarations.map (fun d => (d.name, d.type)) ∧
        (empty.extend p).2.types.keys.Perm (p.expressions.map Expr.id) ∧
        ∀ e ∈ p.expressions, ∃ type, (empty.extend p).2.types.get? e.id = some type ∧
          e.HasType p.declarations type ∧
          ∀ other, e.HasType p.declarations other → other = type) := by
  have hnodup := Parser.nodup_ids_of_parse hp
  have hperm := p.expressions_perm
  refine ⟨⟨fun h => ?_, fun ⟨hnames, hstatements⟩ => ?_⟩, fun h => ?_⟩
  · obtain ⟨hwellTyped, -⟩ := check_sound hnodup (extend_eq_iff.mp (Prod.ext h rfl))
    exact ⟨hwellTyped.names, hwellTyped.statements⟩
  · obtain ⟨t, ht⟩ := check_complete hnodup ⟨hnames, hstatements⟩
    rw [extend_eq_iff.mpr ht]
  · obtain ⟨hwellTyped, hscoped, hkeys, htyped⟩ :=
      check_sound hnodup (extend_eq_iff.mp (Prod.ext h rfl))
    refine ⟨hscoped.symbols_entries, ?_, fun e he => ?_⟩
    · rw [hkeys]
      exact (hperm.map Expr.id).symm
    · obtain ⟨type, hget, htype⟩ := htyped e (hperm.mem_iff.mp he)
      exact ⟨type, hget, htype, fun other hother => htype.unique hwellTyped.names hother⟩

/-- In `var x : float; x = 1 + 2;` the variable takes a whole number. -/
theorem extend_decides_wellTyped_sum :
    let x : Declaration := ⟨default, "x", .float⟩
    (Stmt.assign default "x" (.binary ⟨2, default⟩ .add (.int ⟨0, default⟩ 1)
      (.int ⟨1, default⟩ 2))).WellTyped [x] := by
  intro x
  let words : List Lexeme :=
    [.symbol .varWord, .name "x", .symbol .colon, .symbol .floatWord, .symbol .semicolon,
      .name "x", .symbol .equals, .int ⟨"1", rfl⟩, .symbol .plus, .int ⟨"2", rfl⟩, .symbol .semicolon]
  let p : Program := ⟨[x], [.assign default "x"
    (.binary ⟨2, default⟩ .add (.int ⟨0, default⟩ 1) (.int ⟨1, default⟩ 2))]⟩
  have hp : Parser.parse .unlimited ⟨words.map (⟨·, default⟩), default, by decide⟩ = .ok p :=
    (Parser.parse_unlimited _).trans rfl
  exact ((extend_decides_wellTyped hp).1.mp rfl).2 _ List.mem_cons_self

end ImpToC.Typing
