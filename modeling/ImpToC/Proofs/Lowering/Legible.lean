import ImpToC.Proofs.Grammar.Spelling
import ImpToC.Proofs.Lowering.Temporaries
import ImpToC.Proofs.Lowering.Texts

/-!
# Generated code can be read

The names of a program that is spelt with words are made of letters, digits and underscores, and
its strings stay on their line. The code for it takes both over as they are, so its text determines
it.
-/

namespace ImpToC.C

variable {strings : Bool} {g g' : Generator}

theorem Place.legible_of_word {name : String} (h : Lexeme.Word strings (.name name)) :
    (Place.variable name).Legible :=
  h.isNamePart_of_name

theorem Instr.legibleAll_append {first second : List Instr} :
    LegibleAll (first ++ second) ↔ LegibleAll first ∧ LegibleAll second := by
  induction first with
  | nil => simp [LegibleAll]
  | cons i rest ih => simp [LegibleAll, ih, and_assoc]

theorem lowerExpr_legible {e : Expr} (h : e.Spelt strings) {code : List Instr} {place : Place}
    (hlower : lowerExpr e g = .ok (code, place) g') :
    Instr.LegibleAll code ∧ place.Legible := by
  induction e generalizing g g' code place with
  | name mark x =>
      simp only [lowerExpr, bind_eq_ok_iff, typeOf_eq_ok_iff, pure_eq_ok_iff] at hlower
      obtain ⟨_, _, -, heq, -⟩ := hlower
      cases heq
      exact ⟨trivial, Place.legible_of_word h⟩
  | int mark value | float mark value =>
      simp only [lowerExpr, bind_eq_ok_iff, define_eq_ok_iff] at hlower
      obtain ⟨type, _, -, rfl, rfl, -⟩ := hlower
      exact ⟨⟨trivial, trivial⟩, trivial⟩
  | string mark value =>
      simp only [lowerExpr, bind_eq_ok_iff, define_eq_ok_iff] at hlower
      obtain ⟨type, _, -, rfl, rfl, -⟩ := hlower
      have hline : OneLine value := fun hmem => absurd (h.isStringPart_of_string _ hmem) (by decide)
      exact ⟨⟨hline, trivial⟩, trivial⟩
  | negate mark operand ih =>
      rw [lowerExpr, bind_eq_ok_iff] at hlower
      obtain ⟨type, _, -, hlower⟩ := hlower
      split at hlower
      next => cases hlower
      next =>
        rw [bind_eq_ok_iff] at hlower
        obtain ⟨⟨inner, operandPlace⟩, m, hoperand, hdefine⟩ := hlower
        obtain ⟨rfl, rfl, -⟩ := define_eq_ok_iff.mp hdefine
        obtain ⟨hinner, hplace⟩ := ih h hoperand
        exact ⟨Instr.legibleAll_append.mpr ⟨hinner, hplace, trivial⟩, trivial⟩
  | binary mark op left right ihleft ihright =>
      simp only [lowerExpr, bind_eq_ok_iff] at hlower
      obtain ⟨type, _, -, ⟨leftCode, leftPlace⟩, m, hleft, ⟨rightCode, rightPlace⟩, m',
        hright, initializer, _, hinitializer, hdefine⟩ := hlower
      obtain ⟨-, hvalue⟩ := operation_eq_ok_iff.mp hinitializer
      obtain ⟨rfl, rfl, -⟩ := define_eq_ok_iff.mp hdefine
      obtain ⟨hleftCode, hleftPlace⟩ := ihleft h.1 hleft
      obtain ⟨hrightCode, hrightPlace⟩ := ihright h.2 hright
      have hoperands : initializer.Legible := by
        rcases hvalue with ⟨-, rfl⟩ | ⟨-, -, rfl⟩
        · exact ⟨hleftPlace, hrightPlace⟩
        · exact ⟨hleftPlace, hrightPlace⟩
      have hboth := Instr.legibleAll_append.mpr ⟨hleftCode, hrightCode⟩
      exact ⟨Instr.legibleAll_append.mpr ⟨hboth, hoperands, trivial⟩, trivial⟩

mutual

/-- The code for a statement that is spelt with words is legible. -/
theorem lowerStmt_legible : ∀ (s : Stmt) {g g' : Generator} {code : List Instr},
    s.Spelt strings → lowerStmt s g = .ok code g' → Instr.LegibleAll code
  | .read location name, g, g', code, h, hlower => by
      obtain ⟨-, type, -, rfl⟩ := lowerRead_eq_ok_iff.mp hlower
      refine ⟨?_, trivial⟩
      split
      · exact Place.legible_of_word h
      · exact Place.legible_of_word h
  | .print location value, g, g', code, h, hlower => by
      simp only [lowerStmt, bind_eq_ok_iff, pure_eq_ok_iff] at hlower
      obtain ⟨⟨valueCode, place⟩, _, hvalue, type, _, -, rfl, -⟩ := hlower
      obtain ⟨hcode, hplace⟩ := lowerExpr_legible h hvalue
      exact Instr.legibleAll_append.mpr ⟨hcode, hplace, trivial⟩
  | .assign location target value, g, g', code, h, hlower => by
      simp only [lowerStmt, bind_eq_ok_iff, pure_eq_ok_iff] at hlower
      obtain ⟨⟨valueCode, place⟩, _, hvalue, rfl, -⟩ := hlower
      obtain ⟨hcode, hplace⟩ := lowerExpr_legible h.2 hvalue
      exact Instr.legibleAll_append.mpr ⟨hcode, ⟨Place.legible_of_word h.1, hplace⟩, trivial⟩
  | .branch location condition yes no, g, g', code, h, hlower => by
      simp only [lowerStmt, bind_eq_ok_iff, pure_eq_ok_iff] at hlower
      obtain ⟨⟨conditionCode, place⟩, m, hcondition, yesCode, m', hyes, noCode, _, hno, rfl, -⟩ :=
        hlower
      obtain ⟨hcode, hplace⟩ := lowerExpr_legible h.1 hcondition
      exact Instr.legibleAll_append.mpr ⟨hcode,
        ⟨hplace, lowerAll_legible yes h.2.1 hyes, lowerAll_legible no h.2.2 hno⟩, trivial⟩
  | .loop location condition body, g, g', code, h, hlower => by
      simp only [lowerStmt, bind_eq_ok_iff, pure_eq_ok_iff] at hlower
      obtain ⟨⟨conditionCode, place⟩, m, hcondition, bodyCode, _, hbody, rfl, -⟩ := hlower
      obtain ⟨hcode, hplace⟩ := lowerExpr_legible h.1 hcondition
      exact ⟨Instr.legibleAll_append.mpr ⟨hcode, hplace, lowerAll_legible body h.2 hbody⟩, trivial⟩

theorem lowerAll_legible : ∀ (statements : List Stmt) {g g' : Generator} {code : List Instr},
    Stmt.SpeltAll strings statements → lowerAll statements g = .ok code g' →
    Instr.LegibleAll code
  | [], g, g', code, _, hlower => by
      rw [lowerAll, pure_eq_ok_iff] at hlower
      obtain ⟨rfl, -⟩ := hlower
      trivial
  | s :: rest, g, g', code, h, hlower => by
      simp only [lowerAll, bind_eq_ok_iff, pure_eq_ok_iff] at hlower
      obtain ⟨sCode, m, hs, restCode, _, hrest, rfl, -⟩ := hlower
      exact Instr.legibleAll_append.mpr
        ⟨lowerStmt_legible s h.1 hs, lowerAll_legible rest h.2 hrest⟩

end

/-- The text for a program that is spelt with words determines the variables and the code of the
file: no other file with such names and strings has it. -/
theorem eq_of_text_of_lower {p : Program} (h : p.Spelt strings) {f : File}
    (hsymbols : f.symbols = p.symbols) (hbody : lowerAll p.statements g = .ok f.body g')
    {f' : File} (h' : f'.Legible) (htext : f'.text = f.text) :
    f'.usesStrings = f.usesStrings ∧ f'.symbols = f.symbols ∧ f'.body = f.body := by
  have hlegible : f.Legible := by
    refine ⟨?_, lowerAll_legible p.statements h.2 hbody⟩
    rw [hsymbols, Program.symbols]
    exact List.forall_mem_map.mpr fun d hd => Place.legible_of_word (h.1 d hd)
  exact File.eq_of_text h' hlegible htext

end ImpToC.C
