import ImpToC.Proofs.Parsing.Hosts

/-!
# The language of a parser

A parser whose calls suffice takes every sentence that the rules allow. It never
turns down an expression for the way in which a negation is read: whatever stands in
the frames of a pass behind an operand, every operator can follow, and the closing
words can follow as soon as the parentheses match. So what the rules allow are the
words of programs. With fewer calls, some of them are nested too deeply.
-/

namespace ImpToC.Parser

open Grammar

theorem exists_complete_closer {n : Nat} {frames : List Frame} {value : Expr}
    (h : frames.count .group = 0) :
    ∃ n' value', complete .closer n frames value = (n', [], value') := by
  induction frames generalizing n value with
  | nil => exact ⟨n, value, rfl⟩
  | cons frame frames ih =>
      cases frame with
      | group => simp at h
      | negate | sum | product =>
          rw [List.count_cons_of_ne (by simp)] at h
          exact ih h

theorem exists_complete_closer_group {n k : Nat} {frames : List Frame} {value : Expr}
    (h : frames.count .group = k + 1) :
    ∃ n' frames' value', complete .closer n frames value = (n', .group :: frames', value') ∧
      frames'.count .group = k := by
  induction frames generalizing n value with
  | nil => simp at h
  | cons frame frames ih =>
      cases frame with
      | group => exact ⟨n, frames, value, rfl, by simpa using h⟩
      | negate | sum | product =>
          rw [List.count_cons_of_ne (by simp)] at h
          exact ih h

/-! ## Expressions -/

/-- A literal or a name is an expression of one word. -/
theorem exists_atom {t : Token} (hkind : t.kind ∈ [Kind.int, .float, .string, .name])
    (hvalid : t.lexeme.Valid) (id : Nat) :
    ∃ value, Expr.Atom value t.lexeme ∧ value.mark = ⟨id, t.location⟩ := by
  obtain ⟨lexeme, location⟩ := t
  cases lexeme with
  | int text =>
      obtain ⟨value, hvalue⟩ := Option.isSome_iff_exists.mp hvalid
      exact ⟨_, .int _ hvalue, rfl⟩
  | float text =>
      obtain ⟨value, hvalue⟩ := Option.isSome_iff_exists.mp hvalid
      exact ⟨_, .float _ hvalue, rfl⟩
  | string text => exact ⟨_, .string _ text, rfl⟩
  | name text => exact ⟨_, .name _ text, rfl⟩
  | symbol | finish => simp [Token.kind, Lexeme.kind] at hkind

/-- Read in front of an operand, wherever that is, some tokens lead behind an operand
and leave the parentheses that are open as they are. -/
def ReadsOperand (tokens : List Token) : Prop :=
  ∀ (s : State) (purpose : Purpose) (frames : List Frame), s.phase = .operand purpose frames →
    ∃ nextId frames' value,
      Moves s tokens { s with phase := .operator purpose frames' value, nextId := nextId } ∧
      frames'.count .group = frames.count .group

namespace ReadsOperand

theorem atom {t : Token} (hkind : t.kind ∈ [Kind.int, .float, .string, .name])
    (hvalid : t.lexeme.Valid) : ReadsOperand [t] := by
  intro s purpose frames hphase
  obtain ⟨value, hvalue, hmark⟩ := exists_atom hkind hvalid s.nextId
  exact ⟨s.nextId + 1, frames, value, .single (.atom t.location hphase hvalue hmark), rfl⟩

theorem group {inner : List Token} (h : ReadsOperand inner) (start stop : Location) :
    ReadsOperand (⟨.symbol .openParen, start⟩ :: inner ++ [⟨.symbol .closeParen, stop⟩]) := by
  intro s purpose frames hphase
  obtain ⟨nextId, frames', value, hmoves, hcount⟩ :=
    h { s with phase := .operand purpose (.group :: frames) } purpose _ rfl
  rw [List.count_cons_self] at hcount
  obtain ⟨n', rest, value', hcomplete, hrest⟩ := exists_complete_closer_group hcount
  exact ⟨n', rest, value', (Moves.cons (.group start hphase) hmoves).append
    (.single (.groupEnd stop rfl hcomplete)), hrest⟩

theorem negate {inner : List Token} (h : ReadsOperand inner) (location : Location) :
    ReadsOperand (⟨.symbol .minus, location⟩ :: inner) := by
  intro s purpose frames hphase
  obtain ⟨nextId, frames', value, hmoves, hcount⟩ :=
    h { s with phase := .operand purpose (.negate location :: frames) } purpose _ rfl
  refine ⟨nextId, frames', value, .cons (.negate location hphase) hmoves, ?_⟩
  rw [hcount, List.count_cons_of_ne (by simp)]

/-- Any operator may follow any operand. -/
theorem operation {first rest : List Token} (hfirst : ReadsOperand first)
    (hrest : ReadsOperand rest) (op : BinOp) (location : Location) :
    ReadsOperand (first ++ ⟨.symbol op.symbol, location⟩ :: rest) := by
  intro s purpose frames hphase
  obtain ⟨n₁, frames₁, value₁, hmoves₁, hcount₁⟩ := hfirst s purpose frames hphase
  have hsign : ∃ n₂ frames₂, Move
      { s with phase := .operator purpose frames₁ value₁, nextId := n₁ }
      ⟨.symbol op.symbol, location⟩
      { s with phase := .operand purpose frames₂, nextId := n₂ } ∧
        frames₂.count .group = frames₁.count .group := by
    -- No parenthesis is among the frames that the operator completes.
    cases hop : op.level with
    | factor => cases op <;> cases hop
    | product =>
        rcases hcomplete : complete .product n₁ frames₁ value₁ with ⟨n₂, frames₂, value₂⟩
        refine ⟨n₂, _, .times location rfl hop hcomplete, ?_⟩
        rw [List.count_cons_of_ne (by simp), count_group_of_complete hcomplete]
    | sum =>
        rcases hcomplete : complete .sum n₁ frames₁ value₁ with ⟨n₂, frames₂, value₂⟩
        refine ⟨n₂, _, .plus location rfl hop hcomplete, ?_⟩
        rw [List.count_cons_of_ne (by simp), count_group_of_complete hcomplete]
  obtain ⟨n₂, frames₂, hsign, hcount₂⟩ := hsign
  obtain ⟨n₃, frames₃, value₃, hmoves₃, hcount₃⟩ :=
    hrest { s with phase := .operand purpose frames₂, nextId := n₂ } purpose frames₂ rfl
  exact ⟨n₃, frames₃, value₃, hmoves₁.append (.cons hsign hmoves₃),
    hcount₃.trans (hcount₂.trans hcount₁)⟩

/-- Parts with operators between them. The parts are shorter than the whole. -/
theorem operations {part : Grammar.Form} (plus minus : BinOp) {length : Nat}
    (hpart : ∀ tokens : List Token, tokens.length < length → (∀ t ∈ tokens, t.lexeme.Valid) →
      Derives part (tokens.map Token.kind) → ReadsOperand tokens)
    (pieces : List (List Kind))
    (hpieces : ∀ piece ∈ pieces,
      Derives (.all [.any [.mark plus.symbol, .mark minus.symbol], part]) piece)
    {first rest : List Token} (hfirst : ReadsOperand first)
    (hrest : rest.map Token.kind = pieces.flatten) (hlength : rest.length ≤ length)
    (hvalid : ∀ t ∈ rest, t.lexeme.Valid) : ReadsOperand (first ++ rest) := by
  induction pieces generalizing first rest with
  | nil =>
      obtain rfl := List.map_eq_nil_iff.mp hrest
      simpa using hfirst
  | cons piece pieces ih =>
      obtain ⟨front, back, rfl, hfront, hback⟩ := List.map_eq_append_iff.mp hrest
      obtain ⟨hpiece, hmore⟩ := List.forall_mem_cons.mp hpieces
      obtain ⟨op, hop, kinds, hkinds, rfl⟩ := derives_operation.mp hpiece
      obtain ⟨t, operand, rfl, ht, rfl⟩ := List.map_eq_cons_iff.mp hfront
      simp only [List.mem_append, List.mem_cons, or_imp, forall_and, forall_eq] at hvalid
      obtain ⟨⟨-, hoperand⟩, hbackValid⟩ := hvalid
      simp only [List.length_append, List.length_cons] at hlength
      have hread := hpart operand (by omega) hoperand hkinds
      have hsign : ∃ o : BinOp, op = o.symbol := by
        simp only [List.mem_cons, List.not_mem_nil, or_false] at hop
        rcases hop with rfl | rfl
        · exact ⟨plus, rfl⟩
        · exact ⟨minus, rfl⟩
      obtain ⟨o, rfl⟩ := hsign
      rw [eq_of_kind_symbol ht]
      simpa using ih hmore (hfirst.operation hread o t.location) hback (by omega) hbackValid

theorem of_factor {tokens : List Token} (hvalid : ∀ t ∈ tokens, t.lexeme.Valid)
    (ih : ∀ inner : List Token, inner.length < tokens.length → (∀ t ∈ inner, t.lexeme.Valid) →
      Derives (.rule .expr) (inner.map Token.kind) → ReadsOperand inner)
    (h : Derives (.rule .factor) (tokens.map Token.kind)) : ReadsOperand tokens := by
  rcases derives_factor.mp h with ⟨kind, hkind, heq⟩ | ⟨kinds, hinner, heq⟩ | ⟨kinds, hinner, heq⟩
  · obtain ⟨t, rfl, rfl⟩ := List.map_eq_singleton_iff.mp heq
    exact atom hkind (hvalid t (by simp))
  · obtain ⟨front, back, rfl, hfront, hback⟩ := List.map_eq_append_iff.mp heq
    obtain ⟨start, inner, rfl, hstart, rfl⟩ := List.map_eq_cons_iff.mp hfront
    obtain ⟨stop, rfl, hstop⟩ := List.map_eq_singleton_iff.mp hback
    rw [eq_of_kind_symbol hstart, eq_of_kind_symbol hstop]
    have hshorter : inner.length < (start :: inner ++ [stop]).length := by
      rw [List.length_append, List.length_cons]
      omega
    exact (ih inner hshorter (fun t ht => hvalid t (by simp [ht])) hinner).group _ _
  · obtain ⟨sign, inner, rfl, hsign, rfl⟩ := List.map_eq_cons_iff.mp heq
    rw [eq_of_kind_symbol hsign]
    exact (ih inner (by simp) (fun t ht => hvalid t (by simp [ht])) hinner).negate _

theorem of_term {tokens : List Token} (hvalid : ∀ t ∈ tokens, t.lexeme.Valid)
    (ih : ∀ inner : List Token, inner.length < tokens.length → (∀ t ∈ inner, t.lexeme.Valid) →
      Derives (.rule .expr) (inner.map Token.kind) → ReadsOperand inner)
    (h : Derives (.rule .term) (tokens.map Token.kind)) : ReadsOperand tokens := by
  have hfactor : ∀ inner : List Token, inner.length ≤ tokens.length →
      (∀ t ∈ inner, t.lexeme.Valid) → Derives (.rule .factor) (inner.map Token.kind) →
      ReadsOperand inner := fun inner hlength hinner =>
    of_factor hinner fun smaller hsmaller => ih smaller (Nat.lt_of_lt_of_le hsmaller hlength)
  obtain ⟨first, rest, hfirst, hrest, heq⟩ := derives_term.mp h
  obtain ⟨front, back, rfl, rfl, hback⟩ := List.map_eq_append_iff.mp heq
  obtain ⟨pieces, rfl, hpieces⟩ := derives_many.mp hrest
  simp only [List.mem_append, or_imp, forall_and] at hvalid
  exact operations .mul .div (fun inner hlength => hfactor inner (Nat.le_of_lt hlength)) pieces
    hpieces (hfactor front (by simp) hvalid.1 hfirst) hback (by simp) hvalid.2

theorem of_expr {tokens : List Token} (hvalid : ∀ t ∈ tokens, t.lexeme.Valid)
    (h : Derives (.rule .expr) (tokens.map Token.kind)) : ReadsOperand tokens := by
  -- What is in parentheses or behind a sign is an expression again, but a shorter one.
  have hterm : ∀ inner : List Token, inner.length ≤ tokens.length →
      (∀ t ∈ inner, t.lexeme.Valid) → Derives (.rule .term) (inner.map Token.kind) →
      ReadsOperand inner := fun inner hlength hinner =>
    of_term hinner fun smaller hsmaller hsmallerValid hderives =>
      have : smaller.length < tokens.length := Nat.lt_of_lt_of_le hsmaller hlength
      of_expr hsmallerValid hderives
  obtain ⟨first, rest, hfirst, hrest, heq⟩ := derives_expr.mp h
  obtain ⟨front, back, rfl, rfl, hback⟩ := List.map_eq_append_iff.mp heq
  obtain ⟨pieces, rfl, hpieces⟩ := derives_many.mp hrest
  simp only [List.mem_append, or_imp, forall_and] at hvalid
  exact operations .add .sub (fun inner hlength => hterm inner (Nat.le_of_lt hlength)) pieces
    hpieces (hterm front (by simp) hvalid.1 hfirst) hback (by simp) hvalid.2
termination_by tokens.length

/-- Once an expression has been read that nothing is open in front of, the word that
closes it can follow. -/
theorem closed {tokens : List Token} (h : ReadsOperand tokens) {s : State} {purpose : Purpose}
    (hphase : s.phase = .operand purpose []) :
    ∃ nextId frames value n' value',
      Moves s tokens { s with phase := .operator purpose frames value, nextId := nextId } ∧
      complete .closer nextId frames value = (n', [], value') := by
  obtain ⟨nextId, frames, value, hmoves, hcount⟩ := h s purpose [] hphase
  obtain ⟨n', value', hcomplete⟩ := exists_complete_closer hcount
  exact ⟨nextId, frames, value, n', value', hmoves, hcomplete⟩

end ReadsOperand

/-! ## Trees for what the rules allow -/

/-- The words of an expression by the rules are those of a tree. -/
theorem exists_written_of_derives_expr {words : List Lexeme}
    (hvalid : ∀ word ∈ words, word.Valid)
    (h : Derives (.rule .expr) (words.map Lexeme.kind)) :
    ∃ ends e, Expr.Written .sum ends e words := by
  -- The parser finds the tree when it reads the words in a statement.
  let tokens : List Token := words.map fun word => ⟨word, default⟩
  have hlexemes : tokens.map Token.lexeme = words := by
    rw [List.map_map]
    exact List.map_id words
  have hreads : ReadsOperand tokens := by
    refine .of_expr (fun t ht => ?_) ?_
    · have hmem : t.lexeme ∈ tokens.map Token.lexeme := List.mem_map_of_mem ht
      rw [hlexemes] at hmem
      exact hvalid _ hmem
    · rw [← hlexemes, List.map_map] at h
      exact h
  have hstart := Follows.start.move (.print default rfl)
  obtain ⟨n, frames, value, n', e, hmoves, hcomplete⟩ :=
    hreads.closed (s := { State.start with phase := .operand (.print default) [] }) rfl
  obtain ⟨outer, valueWords, ends, henclosing, hvalue, hwords⟩ :=
    (hstart.moves hmoves).pushed rfl hcomplete
  rw [hlexemes] at hwords
  cases henclosing with
  | top hnone =>
      cases hnone
      cases hwords
      exact ⟨ends, e, hvalue⟩

theorem eq_of_lexeme_kind_eq_symbol {word : Lexeme} {symbol : Symbol}
    (h : word.kind = .symbol symbol) : word = .symbol symbol := by
  cases word <;> cases h
  rfl

theorem exists_of_lexeme_kind_eq_name {word : Lexeme} (h : word.kind = .name) :
    ∃ name, word = .name name := by
  cases word <;> cases h
  exact ⟨_, rfl⟩

/-- The words of a branch by the rules are those of a tree, if this holds of the shorter
words of statements in it. -/
theorem exists_written_of_derives_branch {words : List Lexeme}
    (hvalid : ∀ word ∈ words, word.Valid)
    (ih : ∀ inner : List Lexeme, inner.length < words.length → (∀ word ∈ inner, word.Valid) →
      Derives (.many (.rule .stmt)) (inner.map Lexeme.kind) →
      ∃ statements, Stmt.Written statements inner)
    (h : Derives (.rule .branch) (words.map Lexeme.kind)) :
    ∃ statement, Stmt.Written [statement] words := by
  obtain ⟨_, _, alternative, hcondition, hyes, halternative, heq⟩ := derives_branch.mp h
  obtain ⟨front, stop, rfl, hfront, hstop⟩ := List.map_eq_append_iff.mp heq
  obtain ⟨t₄, rfl, h₄⟩ := List.map_eq_singleton_iff.mp hstop
  obtain ⟨front, back, rfl, hfront, hback⟩ := List.map_eq_append_iff.mp hfront
  obtain ⟨front, inner, rfl, hfront, hinner⟩ := List.map_eq_append_iff.mp hfront
  obtain ⟨t₁, condition, rfl, h₁, rfl⟩ := List.map_eq_cons_iff.mp hfront
  obtain ⟨t₂, yes, rfl, h₂, rfl⟩ := List.map_eq_cons_iff.mp hinner
  obtain ⟨ends, e, hwritten⟩ :=
    exists_written_of_derives_expr (fun t ht => hvalid t (by simp [ht])) hcondition
  obtain ⟨yesStatements, hyesWritten⟩ :=
    ih yes (by simp; omega) (fun t ht => hvalid t (by simp [ht])) hyes
  rw [eq_of_lexeme_kind_eq_symbol h₁, eq_of_lexeme_kind_eq_symbol h₂,
    eq_of_lexeme_kind_eq_symbol h₄]
  rcases halternative with rfl | ⟨_, hno, rfl⟩
  · obtain rfl := List.map_eq_nil_iff.mp hback
    have hbranch := Stmt.Written.branch default hwritten hyesWritten .nil
    exact ⟨_, by simpa using hbranch⟩
  · obtain ⟨t₃, no, rfl, h₃, rfl⟩ := List.map_eq_cons_iff.mp hback
    obtain ⟨noStatements, hnoWritten⟩ :=
      ih no (by simp; omega) (fun t ht => hvalid t (by simp [ht])) hno
    rw [eq_of_lexeme_kind_eq_symbol h₃]
    exact ⟨_, .choice default hwritten hyesWritten hnoWritten .nil⟩

theorem exists_written_of_derives_loop {words : List Lexeme}
    (hvalid : ∀ word ∈ words, word.Valid)
    (ih : ∀ inner : List Lexeme, inner.length < words.length → (∀ word ∈ inner, word.Valid) →
      Derives (.many (.rule .stmt)) (inner.map Lexeme.kind) →
      ∃ statements, Stmt.Written statements inner)
    (h : Derives (.rule .loop) (words.map Lexeme.kind)) :
    ∃ statement, Stmt.Written [statement] words := by
  obtain ⟨_, _, hcondition, hbody, heq⟩ := derives_loop.mp h
  obtain ⟨front, stop, rfl, hfront, hstop⟩ := List.map_eq_append_iff.mp heq
  obtain ⟨t₃, rfl, h₃⟩ := List.map_eq_singleton_iff.mp hstop
  obtain ⟨front, back, rfl, hfront, hback⟩ := List.map_eq_append_iff.mp hfront
  obtain ⟨t₁, condition, rfl, h₁, rfl⟩ := List.map_eq_cons_iff.mp hfront
  obtain ⟨t₂, body, rfl, h₂, rfl⟩ := List.map_eq_cons_iff.mp hback
  obtain ⟨ends, e, hwritten⟩ :=
    exists_written_of_derives_expr (fun t ht => hvalid t (by simp [ht])) hcondition
  obtain ⟨statements, hbodyWritten⟩ :=
    ih body (by simp; omega) (fun t ht => hvalid t (by simp [ht])) hbody
  rw [eq_of_lexeme_kind_eq_symbol h₁, eq_of_lexeme_kind_eq_symbol h₂,
    eq_of_lexeme_kind_eq_symbol h₃]
  exact ⟨_, .loop default hwritten hbodyWritten .nil⟩

theorem exists_written_of_derives_stmt {words : List Lexeme}
    (hvalid : ∀ word ∈ words, word.Valid)
    (ih : ∀ inner : List Lexeme, inner.length < words.length → (∀ word ∈ inner, word.Valid) →
      Derives (.many (.rule .stmt)) (inner.map Lexeme.kind) →
      ∃ statements, Stmt.Written statements inner)
    (h : Derives (.rule .stmt) (words.map Lexeme.kind)) :
    ∃ statement, Stmt.Written [statement] words := by
  obtain ⟨name, hname, h⟩ := derives_stmt.mp h
  simp only [List.mem_cons, List.not_mem_nil, or_false] at hname
  rcases hname with rfl | rfl | rfl | rfl | rfl
  · have heq := derives_read.mp h
    obtain ⟨t₁, _, rfl, h₁, heq⟩ := List.map_eq_cons_iff.mp heq
    obtain ⟨t₂, _, rfl, h₂, heq⟩ := List.map_eq_cons_iff.mp heq
    obtain ⟨t₃, rfl, h₃⟩ := List.map_eq_singleton_iff.mp heq
    obtain ⟨target, rfl⟩ := exists_of_lexeme_kind_eq_name h₂
    rw [eq_of_lexeme_kind_eq_symbol h₁, eq_of_lexeme_kind_eq_symbol h₃]
    exact ⟨_, .read default target .nil⟩
  · obtain ⟨_, hvalue, heq⟩ := derives_print.mp h
    obtain ⟨front, stop, rfl, hfront, hstop⟩ := List.map_eq_append_iff.mp heq
    obtain ⟨t₁, value, rfl, h₁, rfl⟩ := List.map_eq_cons_iff.mp hfront
    obtain ⟨t₂, rfl, h₂⟩ := List.map_eq_singleton_iff.mp hstop
    obtain ⟨ends, e, hwritten⟩ :=
      exists_written_of_derives_expr (fun t ht => hvalid t (by simp [ht])) hvalue
    rw [eq_of_lexeme_kind_eq_symbol h₁, eq_of_lexeme_kind_eq_symbol h₂]
    exact ⟨_, .print default hwritten .nil⟩
  · obtain ⟨_, hvalue, heq⟩ := derives_assign.mp h
    obtain ⟨front, stop, rfl, hfront, hstop⟩ := List.map_eq_append_iff.mp heq
    obtain ⟨t₁, _, rfl, h₁, hfront⟩ := List.map_eq_cons_iff.mp hfront
    obtain ⟨t₂, value, rfl, h₂, rfl⟩ := List.map_eq_cons_iff.mp hfront
    obtain ⟨t₃, rfl, h₃⟩ := List.map_eq_singleton_iff.mp hstop
    obtain ⟨target, rfl⟩ := exists_of_lexeme_kind_eq_name h₁
    obtain ⟨ends, e, hwritten⟩ :=
      exists_written_of_derives_expr (fun t ht => hvalid t (by simp [ht])) hvalue
    rw [eq_of_lexeme_kind_eq_symbol h₂, eq_of_lexeme_kind_eq_symbol h₃]
    exact ⟨_, .assign default target hwritten .nil⟩
  · exact exists_written_of_derives_branch hvalid ih h
  · exact exists_written_of_derives_loop hvalid ih h

/-- Statements in a row. The statements are no longer than the whole. -/
theorem exists_written_of_pieces {length : Nat}
    (hstmt : ∀ words : List Lexeme, words.length ≤ length → (∀ word ∈ words, word.Valid) →
      Derives (.rule .stmt) (words.map Lexeme.kind) → ∃ statement, Stmt.Written [statement] words)
    (pieces : List (List Kind)) (hpieces : ∀ piece ∈ pieces, Derives (.rule .stmt) piece)
    {words : List Lexeme} (hwords : words.map Lexeme.kind = pieces.flatten)
    (hlength : words.length ≤ length) (hvalid : ∀ word ∈ words, word.Valid) :
    ∃ statements, Stmt.Written statements words := by
  induction pieces generalizing words with
  | nil =>
      obtain rfl := List.map_eq_nil_iff.mp hwords
      exact ⟨[], .nil⟩
  | cons piece pieces ih =>
      obtain ⟨first, rest, rfl, rfl, hrest⟩ := List.map_eq_append_iff.mp hwords
      obtain ⟨hpiece, hmore⟩ := List.forall_mem_cons.mp hpieces
      simp only [List.mem_append, or_imp, forall_and] at hvalid
      rw [List.length_append] at hlength
      obtain ⟨statement, hwritten⟩ := hstmt first (by omega) hvalid.1 hpiece
      obtain ⟨statements, hrestWritten⟩ := ih hmore hrest (by omega) hvalid.2
      exact ⟨_, hwritten.append hrestWritten⟩

/-- The words of statements by the rules are those of trees. -/
theorem exists_written_of_derives_stmts {words : List Lexeme}
    (hvalid : ∀ word ∈ words, word.Valid)
    (h : Derives (.many (.rule .stmt)) (words.map Lexeme.kind)) :
    ∃ statements, Stmt.Written statements words := by
  obtain ⟨kinds, heq, hkinds⟩ := derives_many.mp h
  refine exists_written_of_pieces
    (fun inner hlength hinner => exists_written_of_derives_stmt hinner ?_) kinds hkinds heq
    (Nat.le_refl _) hvalid
  intro smaller hsmaller hsmallerValid hderives
  have : smaller.length < words.length := Nat.lt_of_lt_of_le hsmaller hlength
  exact exists_written_of_derives_stmts hsmallerValid hderives
termination_by words.length

theorem exists_words_of_derives_decl {words : List Lexeme}
    (h : Derives (.rule .decl) (words.map Lexeme.kind)) :
    ∃ d : Declaration, words = d.words := by
  obtain ⟨type, htype, heq⟩ := derives_decl.mp h
  obtain ⟨t₁, _, rfl, h₁, heq⟩ := List.map_eq_cons_iff.mp heq
  obtain ⟨t₂, _, rfl, h₂, heq⟩ := List.map_eq_cons_iff.mp heq
  obtain ⟨t₃, _, rfl, h₃, heq⟩ := List.map_eq_cons_iff.mp heq
  obtain ⟨t₄, _, rfl, h₄, heq⟩ := List.map_eq_cons_iff.mp heq
  obtain ⟨t₅, rfl, h₅⟩ := List.map_eq_singleton_iff.mp heq
  obtain ⟨name, rfl⟩ := exists_of_lexeme_kind_eq_name h₂
  have hty : ∃ τ : Ty, type = τ.symbol := by
    simp only [List.mem_cons, List.not_mem_nil, or_false] at htype
    rcases htype with rfl | rfl | rfl
    · exact ⟨.int, rfl⟩
    · exact ⟨.float, rfl⟩
    · exact ⟨.string, rfl⟩
  obtain ⟨τ, rfl⟩ := hty
  rw [eq_of_lexeme_kind_eq_symbol h₁, eq_of_lexeme_kind_eq_symbol h₃,
    eq_of_lexeme_kind_eq_symbol h₄, eq_of_lexeme_kind_eq_symbol h₅]
  exact ⟨⟨default, name, τ⟩, rfl⟩

theorem exists_words_of_derives_decls {words : List Lexeme}
    (h : Derives (.many (.rule .decl)) (words.map Lexeme.kind)) :
    ∃ declarations : List Declaration, words = declarations.flatMap Declaration.words := by
  obtain ⟨pieces, heq, hpieces⟩ := derives_many.mp h
  clear h
  induction pieces generalizing words with
  | nil =>
      obtain rfl := List.map_eq_nil_iff.mp heq
      exact ⟨[], rfl⟩
  | cons piece pieces ih =>
      obtain ⟨first, rest, rfl, rfl, hrest⟩ := List.map_eq_append_iff.mp heq
      obtain ⟨hpiece, hmore⟩ := List.forall_mem_cons.mp hpieces
      obtain ⟨d, rfl⟩ := exists_words_of_derives_decl hpiece
      obtain ⟨declarations, rfl⟩ := ih hrest hmore
      exact ⟨d :: declarations, rfl⟩

/-- Every ambiguity of the rules has a way out: the words that they allow and whose
literals stand for numbers are the words of programs. -/
theorem exists_written_iff {words : List Lexeme} :
    (∃ p : Program, p.Written words) ↔
      Derives (.rule .program) (words.map Lexeme.kind ++ [.finish]) ∧
        ∀ word ∈ words, word.Valid := by
  constructor
  · rintro ⟨p, hp⟩
    exact ⟨hp.derives, hp.valid⟩
  · rintro ⟨h, hvalid⟩
    obtain ⟨_, _, heq, hdeclarations, hstatements⟩ := derives_program.mp h
    have hwords := List.append_inj_left' heq rfl
    obtain ⟨first, second, rfl, rfl, rfl⟩ := List.map_eq_append_iff.mp hwords
    simp only [List.mem_append, or_imp, forall_and] at hvalid
    obtain ⟨declarations, rfl⟩ := exists_words_of_derives_decls hdeclarations
    obtain ⟨statements, hwritten⟩ := exists_written_of_derives_stmts hvalid.2 hstatements
    exact ⟨⟨declarations, statements⟩, second, hwritten, rfl⟩

/-! ## Sentences -/

/-- The rules allow the kinds of some words in front of the end, and the literals among the words
stand for numbers. -/
def InLanguage (words : List Token) : Prop :=
  Derives (.rule .program) (words.map Token.kind ++ [.finish]) ∧ ∀ t ∈ words, t.lexeme.Valid

/-- A pass takes the sentences of the language. -/
theorem exists_pass_iff {s : Sentence} : (∃ p, pass s = .ok p) ↔ InLanguage s.words := by
  have hkinds : s.words.map Token.kind = (s.words.map Token.lexeme).map Lexeme.kind :=
    (List.map_map ..).symm
  have hvalid : (∀ t ∈ s.words, t.lexeme.Valid) ↔
      ∀ word ∈ s.words.map Token.lexeme, word.Valid := by
    simp
  rw [InLanguage, hvalid, hkinds, ← exists_written_iff]
  constructor
  · rintro ⟨p, hp⟩
    exact ⟨p, written_of_pass hp⟩
  · rintro ⟨p, hp⟩
    obtain ⟨q, hq, -⟩ := exists_pass_of_written hp
    exact ⟨q, hq⟩

/-- Tokens that end in the end of a text make a sentence. On a host whose calls suffice for what is
open at once in it, a parser takes it just if the rules allow the kinds of token up to the first
end and all literals before it stand for numbers. On any host it takes nothing else, and what it
finds otherwise is a mistake of syntax: only that a sentence is nested too deeply if the sentence
is one of the language. -/
theorem parse_decides_language {tokens : List Token} {last : Token} (host : Host)
    (hlast : tokens.getLast? = some last) (hfinish : last.lexeme = .finish) :
    let words := tokens.takeWhile (·.lexeme ≠ .finish)
    ∃ s, Sentence.ofTokens? tokens = some s ∧
      ((∀ calls ∈ host.calls, callsFor (nesting (words.map Token.kind)) ≤ calls) →
        ((∃ p, parse host s = .ok p) ↔ InLanguage words)) ∧
      ((∃ p, parse host s = .ok p) → InLanguage words) ∧
      ∀ f, parse host s = .error f →
        f.cause.family = .syntactic ∧ (InLanguage words → f.cause = .nestingTooDeep) := by
  intro words
  obtain ⟨s, hs⟩ := Sentence.exists_ofTokens? hlast hfinish
  have hwords : s.words = words := Sentence.words_of_ofTokens? hs
  refine ⟨s, hs, fun hcalls => ?_, fun ⟨p, hp⟩ => ?_, fun f hf => ?_⟩
  · rw [← hwords] at hcalls ⊢
    rw [parse_eq_pass (within_nesting s) hcalls, exists_pass_iff]
  · rw [← hwords, ← exists_pass_iff]
    exact ⟨p, pass_of_parse hp⟩
  · refine ⟨family_of_parse_eq_error hf, fun hlanguage => ?_⟩
    rw [← hwords, ← exists_pass_iff] at hlanguage
    obtain ⟨p, hp⟩ := hlanguage
    rcases parse_cases host s with hpass | ⟨t, -, hdeep⟩
    · cases hf.symm.trans (hpass.trans hp)
    · cases hf.symm.trans hdeep
      rfl

/-- In `print 1 * -2 + 3;` an operator stands behind the words of a negation. -/
theorem parse_decides_language_negation :
    let words : List Lexeme :=
      [.symbol .printWord, .int ⟨"1", rfl⟩, .symbol .star, .symbol .minus, .int ⟨"2", rfl⟩,
        .symbol .plus, .int ⟨"3", rfl⟩, .symbol .semicolon]
    let s : Sentence := ⟨words.map (⟨·, default⟩), default, by decide⟩
    (∃ p, parse .unlimited s = .ok p) ∧ InLanguage s.words := by
  intro words s
  have hlast : s.tokens.getLast? = some ⟨.finish, default⟩ := rfl
  obtain ⟨s', hs', -, hlanguage, -⟩ := parse_decides_language .unlimited hlast rfl
  obtain rfl : s = s' := Option.some.inj (show some s = some s' from hs')
  have hparse : ∃ p, parse .unlimited s = .ok p := ⟨_, (parse_unlimited s).trans rfl⟩
  exact ⟨hparse, hlanguage hparse⟩

/-! ## Trees -/

/-- The program that a parser returns is written by the tokens before the first end,
and up to locations and numbers it is the only one. -/
theorem written_unique_of_parse {host : Host} {tokens : List Token} {s : Sentence}
    {p : Program} (hs : Sentence.ofTokens? tokens = some s) (hp : parse host s = .ok p) :
    p.Written ((tokens.takeWhile (·.lexeme ≠ .finish)).map Token.lexeme) ∧
      ∀ q : Program, q.Written ((tokens.takeWhile (·.lexeme ≠ .finish)).map Token.lexeme) →
        q.bare = p.bare := by
  have hpass := pass_of_parse hp
  rw [← Sentence.words_of_ofTokens? hs]
  refine ⟨written_of_pass hpass, fun q hq => ?_⟩
  obtain ⟨p', hpass', hbare⟩ := exists_pass_of_written hq
  rw [hpass] at hpass'
  cases hpass'
  exact hbare.symm

/-- In `x = -a * b - c;` the negation takes all of `a * b - c`. -/
theorem written_unique_of_parse_negation :
    let words : List Lexeme :=
      [.name "x", .symbol .equals, .symbol .minus, .name "a", .symbol .star, .name "b",
        .symbol .minus, .name "c", .symbol .semicolon]
    let s : Sentence := ⟨words.map (⟨·, default⟩), default, by decide⟩
    let product : Expr := .binary ⟨2, default⟩ .mul (.name ⟨0, default⟩ "a") (.name ⟨1, default⟩ "b")
    let p : Program := ⟨[], [.assign default "x"
      (.negate ⟨5, default⟩ (.binary ⟨4, default⟩ .sub product (.name ⟨3, default⟩ "c")))]⟩
    Sentence.ofTokens? s.tokens = some s ∧ parse .unlimited s = .ok p ∧ p.Written words := by
  intro words s product p
  have hs : Sentence.ofTokens? s.tokens = some s := rfl
  have hp : parse .unlimited s = .ok p := (parse_unlimited s).trans rfl
  exact ⟨hs, hp, (written_unique_of_parse hs hp).1⟩

end ImpToC.Parser
