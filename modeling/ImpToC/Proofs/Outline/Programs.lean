import ImpToC.Proofs.Outline.Statements
import ImpToC.Proofs.Stages

/-!
# Outlines tell programs apart

Every line of an outline is one line of its text, and declarations have other lines than
statements. So the outline of a program that is read from a source determines the program up
to locations and numbers.
-/

namespace ImpToC

variable {strings strings' : Bool}

/-! ## Lines of declarations -/

namespace Declaration

/-- What follows the keyword of a declaration. -/
def clause (d : Declaration) : String := d.name ++ " : " ++ d.type.name

theorem outline_eq (d : Declaration) : d.outline = indented 1 (phrase "Var" d.clause) := by
  rw [outline, phrase, clause]
  simp [String.append_assoc]

theorem isKeyword_var : IsKeyword "Var" := by
  simp [IsKeyword]

/-- The line of a declaration shows it. -/
theorem bare_eq_of_outline {d d' : Declaration} (h : Lexeme.Word strings (.name d.name))
    (h' : Lexeme.Word strings' (.name d'.name)) (hline : d.outline = d'.outline) :
    d.bare = d'.bare := by
  have hflush := flush_of_isKeyword isKeyword_var
  rw [outline_eq, outline_eq] at hline
  have hphrase := (indented_inj (hflush _) (hflush _) hline).2
  have hchars := congrArg String.toList (phrase_inj isKeyword_var isKeyword_var hphrase).2
  simp only [clause, String.toList_append, List.append_assoc] at hchars
  obtain ⟨hname, htype⟩ := name_blank_inj h h' hchars
  have htype := String.toList_inj.mp (List.cons.inj (List.cons.inj htype).2).2
  have hname_inj : ∀ type type' : Ty, type.name = type'.name → type = type' := by
    intro type type'
    cases type <;> cases type' <;> simp [Ty.name]
  rw [bare, bare, hname, hname_inj _ _ htype]

/-- No declaration has the line of a statement. -/
theorem outline_ne_outlineAll (d : Declaration) (rest : List String) (statements : List Stmt) :
    d.outline :: rest ≠ Stmt.outlineAll none 1 statements := by
  intro hlines
  cases statements with
  | nil => cases hlines
  | cons s statements =>
      rw [outline_eq, Stmt.outlineAll, Stmt.outline_eq, List.cons_append] at hlines
      obtain ⟨hline, -⟩ := List.cons.inj hlines
      have hphrase :=
        (indented_inj (flush_of_isKeyword isKeyword_var _) s.flush_heading hline).2
      have hkeyword := (phrase_inj isKeyword_var s.isKeyword_keyword hphrase).1
      cases s <;> simp [Stmt.keyword] at hkeyword

/-- The lines of declarations end where those of statements start. -/
theorem map_outline_append_inj {statements statements' : List Stmt} :
    ∀ ds ds' : List Declaration, (∀ d ∈ ds, Lexeme.Word strings (.name d.name)) →
    (∀ d ∈ ds', Lexeme.Word strings' (.name d.name)) →
    ds.map outline ++ Stmt.outlineAll none 1 statements =
      ds'.map outline ++ Stmt.outlineAll none 1 statements' →
    ds.map bare = ds'.map bare ∧
      Stmt.outlineAll none 1 statements = Stmt.outlineAll none 1 statements'
  | [], [], _, _, hlines => ⟨rfl, hlines⟩
  | [], d' :: _, _, _, hlines => absurd hlines.symm (d'.outline_ne_outlineAll _ _)
  | d :: _, [], _, _, hlines => absurd hlines (d.outline_ne_outlineAll _ _)
  | d :: ds, d' :: ds', h, h', hlines => by
      rw [List.forall_mem_cons] at h h'
      obtain ⟨hline, hlines⟩ := List.cons.inj hlines
      obtain ⟨hds, hstatements⟩ := map_outline_append_inj ds ds' h.2 h'.2 hlines
      rw [List.map_cons, List.map_cons, bare_eq_of_outline h.1 h'.1 hline, hds]
      exact ⟨rfl, hstatements⟩

end Declaration

/-! ## Lines of programs -/

theorem oneLine_of_name {name : String} (h : Lexeme.Word strings (.name name)) : OneLine name :=
  fun hmem => absurd (h.isNamePart_of_name _ hmem) (by decide)

theorem Expr.oneLine_render {e : Expr} (h : e.Spelt strings) : OneLine (e.render none) := by
  change '\n' ∉ e.chars
  induction e with
  | name mark text =>
      rw [chars_name]
      exact oneLine_of_name h
  | int mark value =>
      rw [chars_int]
      exact fun hmem => absurd (Number.isDigit_of_mem_digits hmem) (by decide)
  | float mark value =>
      rw [chars_float]
      exact fun hmem => absurd (Number.Magnitude.mem_text hmem) (by decide)
  | string mark text =>
      have htext : '\n' ∉ text.toList :=
        fun hmem => absurd (h.isStringPart_of_string _ hmem) (by decide)
      simpa using htext
  | negate mark operand ih => simpa using ih h
  | binary mark op left right ihLeft ihRight =>
      have hsign : '\n' ∉ op.sign.toList := by cases op <;> decide
      simpa using ⟨ihLeft h.1, hsign, ihRight h.2⟩

namespace Stmt

theorem oneLine_heading {s : Stmt} (h : s.Spelt strings) : OneLine s.heading := by
  have hkeyword : ∀ word ∈ ["Read", "Print", "Assign", "If", "While"], OneLine word := by decide
  rw [heading, phrase, oneLine_append, oneLine_append]
  refine ⟨⟨?_, by decide⟩, ?_⟩
  · cases s <;> exact hkeyword _ (by simp [keyword])
  · cases s with
    | read => exact oneLine_of_name h
    | print => exact Expr.oneLine_render h
    | assign =>
        rw [clause, oneLine_append, oneLine_append]
        exact ⟨⟨oneLine_of_name h.1, by decide⟩, Expr.oneLine_render h.2⟩
    | branch | loop => exact Expr.oneLine_render h.1

mutual

theorem oneLine_outline (level : Nat) :
    ∀ s : Stmt, s.Spelt strings → ∀ line ∈ s.outline none level, OneLine line := by
  intro s h
  rw [outline_eq, List.forall_mem_cons, oneLine_indented]
  refine ⟨oneLine_heading h, ?_⟩
  cases s with
  | read | print | assign => exact nofun
  | branch location condition yes no =>
      have hno := oneLine_outlineAll (level + 2) no h.2.2
      rw [inner, List.forall_mem_append, List.forall_mem_cons, oneLine_indented]
      refine ⟨⟨by decide, oneLine_outlineAll (level + 2) yes h.2.1⟩, ?_⟩
      unfold alternative
      split
      · exact nofun
      · rw [List.forall_mem_cons, oneLine_indented]
        exact ⟨by decide, hno⟩
  | loop location condition body => exact oneLine_outlineAll (level + 1) body h.2

theorem oneLine_outlineAll (level : Nat) :
    ∀ statements : List Stmt, SpeltAll strings statements →
    ∀ line ∈ outlineAll none level statements, OneLine line
  | [], _ => by
      rw [outlineAll]
      exact nofun
  | s :: statements, h => by
      rw [outlineAll, List.forall_mem_append]
      exact ⟨oneLine_outline level s h.1, oneLine_outlineAll level statements h.2⟩

end

end Stmt

namespace Program

theorem oneLine_outline {p : Program} (h : p.Spelt strings) :
    ∀ line ∈ p.outline none, OneLine line := by
  rw [outline, List.forall_mem_append, List.forall_mem_cons]
  refine ⟨⟨by decide, ?_⟩, Stmt.oneLine_outlineAll 1 _ h.2⟩
  intro line hline
  obtain ⟨d, hd, rfl⟩ := List.mem_map.mp hline
  have htype : OneLine d.type.name := by cases d.type <;> decide
  rw [Declaration.outline, oneLine_indented, oneLine_append, oneLine_append, oneLine_append]
  exact ⟨⟨⟨by decide, oneLine_of_name (h.1 d hd)⟩, by decide⟩, htype⟩

/-- The text of an outline shows its lines. -/
theorem outline_eq_of_render {p p' : Program} (h : p.Spelt strings) (h' : p'.Spelt strings')
    (htext : p.render none = p'.render none) : p.outline none = p'.outline none := by
  have hsplit {q : Program} {strings : Bool} (hq : q.Spelt strings) :
      (q.render none).toList.splitOn '\n' = (q.outline none).map String.toList := by
    rw [render, String.toList_intercalate]
    refine List.splitOn_intercalate '\n' ?_ (by simp [outline])
    intro line hline
    obtain ⟨text, htext, rfl⟩ := List.mem_map.mp hline
    exact oneLine_outline hq text htext
  have hlines := hsplit h
  rw [htext, hsplit h'] at hlines
  exact (List.map_inj_right fun _ _ => String.toList_inj.mp).mp hlines.symm

/-- Spelt programs with the same outline are the same up to locations and numbers. -/
theorem bare_eq_of_spelt {p p' : Program} (h : p.Spelt strings) (h' : p'.Spelt strings')
    (htext : p.render none = p'.render none) : p.bare = p'.bare := by
  have hlines := (List.cons.inj (outline_eq_of_render h h' htext)).2
  obtain ⟨hdeclarations, hlines⟩ :=
    Declaration.map_outline_append_inj p.declarations p'.declarations h.1 h'.1 hlines
  have hends : Ends 1 [] := by
    rintro line hline
    cases hline
  obtain ⟨hstatements, -⟩ := Stmt.outlineAll_append_inj p.statements p'.statements h.2 h'.2
    hends hends (by rw [hlines])
  rw [bare, bare, hdeclarations, hstatements]

end Program

/-- The outline of a program determines it: if the programs of two source texts are printed as
the same text, they have the same declarations and the same statements, with the same nesting,
the same expressions and the same literals. Only locations and numbers can differ. -/
theorem Source.bare_eq_of_render [Host] {first second : Source} {s s' : Sentence} {p p' : Program}
    (h : first.compile .parse = .ok (.parsed s p))
    (h' : second.compile .parse = .ok (.parsed s' p'))
    (htext : p.render none = p'.render none) : p.bare = p'.bare := by
  obtain ⟨_, _, hscan, hparse, heq⟩ := compile_parse_eq_ok_iff.mp h
  obtain ⟨_, _, hscan', hparse', heq'⟩ := compile_parse_eq_ok_iff.mp h'
  cases heq
  cases heq'
  exact Program.bare_eq_of_spelt (spelt_of_parse hscan hparse) (spelt_of_parse hscan' hparse') htext

/-- Two source texts with one outline: parentheses, blanks and comments leave no trace in it. -/
theorem Source.bare_eq_of_render_parentheses :
    ∃ s s' p p',
      @Source.compile .unlimited ⟨"a", true, "print 1 + 2 * 3;".toList⟩ .parse =
        .ok (.parsed s p) ∧
      @Source.compile .unlimited ⟨"b", true, "print (1+(2*3)); # seven".toList⟩ .parse =
        .ok (.parsed s' p') ∧
      p.render none = "Program\n  Print (1 + (2 * 3))" ∧ p ≠ p' ∧ p.bare = p'.bare := by
  let made := fun source : Source =>
    (@Source.compile .unlimited source .parse).toOption.bind Compilation.program?
  let first := Source.mk "a" true "print 1 + 2 * 3;".toList
  let second := Source.mk "b" true "print (1+(2*3)); # seven".toList
  let text := "Program\n  Print (1 + (2 * 3))"
  have hfirst : (made first).map (Program.render none) = some text := by decide +kernel
  have hsecond : (made second).map (Program.render none) = some text := by decide +kernel
  have hne : made first ≠ made second := by decide +kernel
  obtain ⟨p, hp, htext⟩ := Option.map_eq_some_iff.mp hfirst
  obtain ⟨p', hp', htext'⟩ := Option.map_eq_some_iff.mp hsecond
  obtain ⟨s, hs⟩ := @exists_parsed_of_program? .unlimited _ _ hp
  obtain ⟨s', hs'⟩ := @exists_parsed_of_program? .unlimited _ _ hp'
  have hbare := @bare_eq_of_render .unlimited _ _ _ _ _ _ hs hs' (htext.trans htext'.symm)
  refine ⟨s, s', p, p', hs, hs', htext, ?_, hbare⟩
  rintro rfl
  exact hne (hp.trans hp'.symm)

end ImpToC
