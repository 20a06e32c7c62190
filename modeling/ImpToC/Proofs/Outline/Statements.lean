import ImpToC.Proofs.Outline.Lines

/-!
# Lines of statements

The first line of a statement tells which statement it is, except for those inside, and the
lines of these end where a line comes that is not moved as far to the right. So the lines of
statements determine them up to locations and numbers.
-/

namespace ImpToC

variable {strings strings' : Bool}

/-- Two expressions with the same text are the same up to locations and numbers. -/
theorem Expr.bare_eq_of_text {e e' : Expr} (h : e.Spelt strings) (h' : e'.Spelt strings')
    (htext : e.render none = e'.render none) : e.bare = e'.bare := by
  have hchars : e.chars ++ [] = e'.chars ++ [] := by rw [chars, chars, htext]
  exact (chars_append_inj h h' stops_nil stops_nil hchars).1

/-- A name ends where a blank comes. -/
theorem name_blank_inj {name name' : String} {rest rest' : List Char}
    (h : Lexeme.Word strings (.name name)) (h' : Lexeme.Word strings' (.name name'))
    (heq : name.toList ++ ' ' :: rest = name'.toList ++ ' ' :: rest') :
    name = name' ∧ rest = rest' := by
  have hblank : isNamePart ' ' = false := rfl
  obtain ⟨hnames, hrests⟩ := run_inj h.isNamePart_of_name h'.isNamePart_of_name
    (by simp [hblank]) (by simp [hblank]) heq
  exact ⟨String.toList_inj.mp hnames, (List.cons.inj hrests).2⟩

/-! ## First lines of statements -/

namespace Stmt

/-- The word that the first line of a statement starts with. -/
def keyword : Stmt → String
  | .read .. => "Read"
  | .print .. => "Print"
  | .assign .. => "Assign"
  | .branch .. => "If"
  | .loop .. => "While"

/-- What follows the keyword of a statement. -/
def clause : Stmt → String
  | .read _ name => name
  | .print _ value => value.render none
  | .assign _ target value => target ++ " = " ++ value.render none
  | .branch _ condition _ _ | .loop _ condition _ => condition.render none

/-- The first line of a statement, without its indentation. -/
def heading (s : Stmt) : String := phrase s.keyword s.clause

/-- The lines of an alternative. -/
def alternative (level : Nat) (no : List Stmt) : List String :=
  if no.isEmpty then [] else indented (level + 1) "Else:" :: outlineAll none (level + 2) no

/-- The lines of a statement behind the first one. -/
def inner (level : Nat) : Stmt → List String
  | .branch _ _ yes no =>
    indented (level + 1) "Then:" :: outlineAll none (level + 2) yes ++ alternative level no
  | .loop _ _ body => outlineAll none (level + 1) body
  | _ => []

/-- A bare statement with no statements inside. -/
def head : Stmt → Stmt
  | .read _ name => .read default name
  | .print _ value => .print default value.bare
  | .assign _ target value => .assign default target value.bare
  | .branch _ condition _ _ => .branch default condition.bare [] []
  | .loop _ condition _ => .loop default condition.bare []

theorem isKeyword_keyword (s : Stmt) : IsKeyword s.keyword := by
  cases s with
  | read | print | assign | branch | loop => simp [IsKeyword, keyword]

theorem flush_heading (s : Stmt) : Flush s.heading :=
  flush_of_isKeyword s.isKeyword_keyword s.clause

theorem outline_eq (level : Nat) (s : Stmt) :
    s.outline none level = indented level s.heading :: s.inner level := by
  have hkeyword (word rest : String) : word ++ " " ++ rest = phrase word rest := rfl
  cases s with
  | read | print => rw [outline]; rfl
  | assign location target value =>
      rw [outline, heading, ← hkeyword, clause]
      simp [keyword, inner, String.append_assoc]
  | branch => rw [outline]; rfl
  | loop => rw [outline]; rfl

/-- A heading shows its statement. -/
theorem head_eq_of_heading {s s' : Stmt} (h : s.Spelt strings) (h' : s'.Spelt strings')
    (hheading : s.heading = s'.heading) : s.head = s'.head := by
  obtain ⟨hkeyword, hclause⟩ := phrase_inj s.isKeyword_keyword s'.isKeyword_keyword hheading
  cases s with
  | read location name =>
      cases s' with
      | read location' name' => rw [head, head, show name = name' from hclause]
      | print | assign | branch | loop => simp [keyword] at hkeyword
  | print location value =>
      cases s' with
      | print location' value' =>
          rw [head, head, Expr.bare_eq_of_text h h' hclause]
      | read | assign | branch | loop => simp [keyword] at hkeyword
  | assign location target value =>
      cases s' with
      | assign location' target' value' =>
          have hchars := congrArg String.toList hclause
          simp only [clause, String.toList_append, List.append_assoc] at hchars
          obtain ⟨rfl, hvalue⟩ := name_blank_inj h.1 h'.1 hchars
          have hvalue := (List.cons.inj (List.cons.inj hvalue).2).2
          rw [head, head, Expr.bare_eq_of_text h.2 h'.2 (String.toList_inj.mp hvalue)]
      | read | print | branch | loop => simp [keyword] at hkeyword
  | branch location condition yes no =>
      cases s' with
      | branch location' condition' yes' no' =>
          rw [head, head, Expr.bare_eq_of_text h.1 h'.1 hclause]
      | read | print | assign | loop => simp [keyword] at hkeyword
  | loop location condition body =>
      cases s' with
      | loop location' condition' body' =>
          rw [head, head, Expr.bare_eq_of_text h.1 h'.1 hclause]
      | read | print | assign | branch => simp [keyword] at hkeyword

/-! ## Lines of statements -/

theorem flush_else : Flush "Else:" := by
  rintro c hc
  cases hc
  decide

theorem ends_alternative {level : Nat} {rest : List String} (h : Ends (level + 1) rest)
    (no : List Stmt) : Ends (level + 2) (alternative level no ++ rest) := by
  unfold alternative
  split
  · exact h.mono (Nat.le_succ _)
  · exact ends_cons (Nat.lt_succ_self _) flush_else _

theorem ends_outlineAll {level : Nat} {rest : List String} (h : Ends level rest)
    (statements : List Stmt) :
    Ends (level + 1) (outlineAll none level statements ++ rest) := by
  cases statements with
  | nil => exact h.mono (Nat.le_succ _)
  | cons s statements =>
      rw [outlineAll, outline_eq]
      exact ends_cons (Nat.lt_succ_self _) s.flush_heading _

/-- The lines of an alternative show it, if the lines in it do. -/
theorem alternative_append_inj {level : Nat} {no no' : List Stmt} {rest rest' : List String}
    (ih : ∀ {rest rest' : List String}, Ends (level + 2) rest → Ends (level + 2) rest' →
      outlineAll none (level + 2) no ++ rest = outlineAll none (level + 2) no' ++ rest' →
      bareAll no = bareAll no' ∧ rest = rest')
    (hrest : Ends (level + 1) rest) (hrest' : Ends (level + 1) rest')
    (h : alternative level no ++ rest = alternative level no' ++ rest') :
    bareAll no = bareAll no' ∧ rest = rest' := by
  cases no with
  | nil =>
      -- Without an alternative no line of this level can come next.
      cases no' with
      | nil => exact ⟨rfl, h⟩
      | cons s' no' => exact absurd h (hrest.ne_cons (Nat.le_refl _) flush_else)
  | cons s no =>
      cases no' with
      | nil => exact absurd h.symm (hrest'.ne_cons (Nat.le_refl _) flush_else)
      | cons s' no' =>
          exact ih (hrest.mono (Nat.le_succ _)) (hrest'.mono (Nat.le_succ _)) (List.cons.inj h).2

mutual

/-- The lines of a statement show it, up to locations and numbers. -/
theorem outline_append_inj {level : Nat} {rest rest' : List String} : ∀ s s' : Stmt,
    s.Spelt strings → s'.Spelt strings' → Ends (level + 1) rest → Ends (level + 1) rest' →
    s.outline none level ++ rest = s'.outline none level ++ rest' →
    s.bare = s'.bare ∧ rest = rest' := by
  intro s s' h h' hrest hrest' hlines
  rw [outline_eq, outline_eq, List.cons_append, List.cons_append] at hlines
  obtain ⟨hline, hinner⟩ := List.cons.inj hlines
  have hhead := head_eq_of_heading h h' (indented_inj s.flush_heading s'.flush_heading hline).2
  cases s with
  | read | print | assign =>
      cases s' with
      | read | print | assign => exact ⟨hhead, hinner⟩
      | branch | loop => cases hhead
  | branch location condition yes no =>
      cases s' with
      | branch location' condition' yes' no' =>
          injection hhead with _ hcondition
          -- The lines of the first part end at the alternative or, without one, behind the
          -- statement, and both are moved less than they are.
          simp only [inner, List.cons_append, List.append_assoc] at hinner
          obtain ⟨hyes, hinner⟩ := outlineAll_append_inj yes yes' h.2.1 h'.2.1
            (ends_alternative hrest no) (ends_alternative hrest' no') (List.cons.inj hinner).2
          obtain ⟨hno, hrests⟩ := alternative_append_inj
            (outlineAll_append_inj no no' h.2.2 h'.2.2) hrest hrest' hinner
          rw [bare, bare, hcondition, hyes, hno]
          exact ⟨rfl, hrests⟩
      | read | print | assign | loop => cases hhead
  | loop location condition body =>
      cases s' with
      | loop location' condition' body' =>
          injection hhead with _ hcondition
          obtain ⟨hbody, hrests⟩ := outlineAll_append_inj body body' h.2 h'.2 hrest hrest' hinner
          rw [bare, bare, hcondition, hbody]
          exact ⟨rfl, hrests⟩
      | read | print | assign | branch => cases hhead

/-- The lines of some statements show them, up to locations and numbers. -/
theorem outlineAll_append_inj {level : Nat} {rest rest' : List String} :
    ∀ statements statements' : List Stmt,
    SpeltAll strings statements → SpeltAll strings' statements' →
    Ends level rest → Ends level rest' →
    outlineAll none level statements ++ rest = outlineAll none level statements' ++ rest' →
    bareAll statements = bareAll statements' ∧ rest = rest'
  | [], [], _, _, _, _, hlines => ⟨rfl, hlines⟩
  | [], s' :: statements', _, _, hrest, _, hlines => by
      rw [outlineAll, outlineAll, outline_eq] at hlines
      exact absurd hlines (hrest.ne_cons (Nat.le_refl _) s'.flush_heading)
  | s :: statements, [], _, _, _, hrest', hlines => by
      rw [outlineAll, outlineAll, outline_eq] at hlines
      exact absurd hlines.symm (hrest'.ne_cons (Nat.le_refl _) s.flush_heading)
  | s :: statements, s' :: statements', h, h', hrest, hrest', hlines => by
      rw [outlineAll, outlineAll, List.append_assoc, List.append_assoc] at hlines
      obtain ⟨hs, hlines⟩ := outline_append_inj s s' h.1 h'.1 (ends_outlineAll hrest _)
        (ends_outlineAll hrest' _) hlines
      obtain ⟨hstatements, hrests⟩ :=
        outlineAll_append_inj statements statements' h.2 h'.2 hrest hrest' hlines
      rw [bareAll, bareAll, hs, hstatements]
      exact ⟨rfl, hrests⟩

end

end Stmt

end ImpToC
