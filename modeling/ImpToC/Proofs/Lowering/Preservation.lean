import ImpToC.Proofs.Lowering.Correctness
import ImpToC.Proofs.Lowering.Legible
import ImpToC.Proofs.Typing.Records

/-!
# Generated code keeps the meaning

The file that is made for a program which passes the check does what the program does,
for every meaning of its parts and every bound on the rounds of loops.
-/

namespace ImpToC

/-- The types of the variables of a program are those of its declarations. -/
theorem Program.agree_symbols {p : Program}
    (hnodup : (p.declarations.map Declaration.name).Nodup) : Agree p.symbols p.declarations := by
  rintro name type ⟨d, hd, rfl, rfl⟩
  have hkeys : (p.symbols.map Prod.fst).Nodup := by
    rw [symbols, List.map_map]
    exact hnodup
  exact Table.get?_eq_some_iff (t := ⟨p.symbols, hkeys⟩).mpr (List.mem_map.mpr ⟨d, hd, rfl⟩)

namespace C

/-- The world behind the main function is the one behind its statements. -/
theorem File.run_eq_of_simulates {V T : Type} {I : Interpretation V T} {bound : Nat} {f : File}
    {r : Run V T Unit} (h : Simulates I f.symbols bound f.body r) :
    f.run I bound = r (I.start f.symbols) := by
  unfold File.run
  cases hr : r (I.start f.symbols) with
  | ok u w =>
      obtain ⟨temporaries, hbody⟩ := h.ok [] hr
      exact bind_of_ok hbody
  | error halt w => exact bind_of_error (h.error [] hr)

theorem lowerProgram_eq_ok {p : Program} {g g' : Generator} {f : File}
    (h : lowerProgram p g = .ok f g') :
    f.symbols = g'.symbols.entries ∧
      lowerAll p.statements { g with temporaries := 0 } = .ok f.body g' := by
  simp only [lowerProgram, bind_eq_ok_iff, modify_eq_ok_iff, get_eq_ok_iff, pure_eq_ok_iff] at h
  obtain ⟨_, _, rfl, code, _, hcode, _, _, ⟨rfl, rfl⟩, rfl, rfl⟩ := h
  exact ⟨rfl, hcode⟩

theorem generate_eq_ok_iff {p : Program} {g g' : Generator} {f : File} :
    g.generate p = (.ok f, g') ↔ lowerProgram p g = .ok f g' := by
  unfold Generator.generate
  cases lowerProgram p g with
  | ok file after => simp
  | error => simp

/-- The file for a program that passes the check runs as the program does: for every
meaning and every bound on the rounds of loops it reads and prints the same in the same
order, ends in the same way and leaves the same values in its variables. Neither of them
gets stuck. If the program is spelt with words, this is said of the text of the file: whatever
code has that text runs as the program does. Expressions with one number would share one type
on record, so their numbers have to be distinct, as they are in what a parser returns. -/
theorem generate_preserves_run {V T : Type} (I : Interpretation V T) (bound : Nat) {p : Program}
    (hids : (p.expressions.map Expr.id).Nodup) {t : Typing}
    (hcheck : Typing.empty.extend p = (none, t)) {f : File} {g : Generator}
    (hgenerate : (Generator.ofTables t.symbols t.types).generate p = (.ok f, g)) :
    f.run I bound = p.run I bound ∧ (∀ w, p.run I bound ≠ .error .stuck w) ∧
      ∀ strings, p.Spelt strings → ∀ f' : File, f'.Legible → f'.text = f.text →
        f'.run I bound = p.run I bound := by
  have hnodup : (p.postorder.map Expr.id).Nodup :=
    (p.expressions_perm.map Expr.id).nodup_iff.mp hids
  obtain ⟨hwellTyped, hscoped, -, hrecorded⟩ :=
    Typing.check_sound hnodup (Typing.extend_eq_iff.mp hcheck)
  -- Nothing of the check is needed from here on but that the record agrees with the rules.
  have hagree := p.agree_symbols hwellTyped.names
  obtain ⟨hf, hbody⟩ := lowerProgram_eq_ok (generate_eq_ok_iff.mp hgenerate)
  have hsymbols : (Generator.ofTables t.symbols t.types).symbols.entries = p.symbols :=
    hscoped.symbols_entries
  obtain ⟨hgrows, hsimulates⟩ := lowerAll_simulates hagree p.statements hsymbols hrecorded hbody
  have hsame : f.symbols = p.symbols := by
    rw [hf]
    exact hgrows.entries hsymbols
  have hrun : f.run I bound = p.run I bound := by
    rw [← hsame] at hsimulates
    rw [File.run_eq_of_simulates hsimulates, Program.run, hsame]
  refine ⟨hrun, Stmt.safe_runAll I hagree bound p.statements hwellTyped.statements _, ?_⟩
  intro strings hspelt f' hlegible htext
  obtain ⟨-, hsymbols', hbody'⟩ := eq_of_text_of_lower hspelt hsame hbody hlegible htext
  rw [← hrun, File.run, File.run, hsymbols', hbody']

end C

/-- A meaning with integers for all values. Whatever is read is two. -/
def Interpretation.integers : Interpretation Int Unit where
  int := fun value => value
  float := fun value => value.bits
  string := fun text => text.length
  zero := fun _ => 0
  negate := fun _ value => .ok (-value)
  operate := fun op _ _ _ left right =>
    match op with
    | .add => .ok (left + right)
    | .sub => .ok (left - right)
    | .mul => .ok (left * right)
    | .div => if right = 0 then .error () else .ok (left / right)
  widen := .ok
  holds := fun _ value => value ≠ 0
  input := fun _ _ => .ok 2

/-- The program `read x; while x do print x; x = x - 1; done` and its code. -/
theorem C.generate_preserves_run_countdown :
    let x (id : Nat) : Expr := .name ⟨id, default⟩ "x"
    let p : Program := ⟨[⟨default, "x", .int⟩], [.read default "x", .loop default (x 0)
      [.print default (x 1),
        .assign default "x" (.binary ⟨4, default⟩ .sub (x 2) (.int ⟨3, default⟩ 1))]]⟩
    let f : File := ⟨false, [("x", .int)], [.scan .int "x", .loop
      [.leaveUnless (.variable "x"), .print .int (.variable "x"), .define .int 1 (.int 1),
        .define .int 2 (.operation .sub (.variable "x") (.temporary 1)),
        .assign "x" (.temporary 2)]], 2⟩
    f.run .integers 3 = p.run .integers 3 := by
  intro x p f
  have hids : (p.expressions.map Expr.id).Nodup := by
    have hexpressions : p.expressions.map Expr.id = [0, 1, 4, 2, 3] := by
      simp [p, x, Program.expressions, Visit.expressions, Visit.here, Visit.parts, Expr.operands,
        Expr.id, Expr.mark]
    rw [hexpressions]
    decide
  exact (generate_preserves_run .integers 3 hids rfl rfl).1

end ImpToC
