import ImpToC.Proofs.Parsing.Descents

/-!
# Descents through blocks

The methods for statements and blocks read what a pass reads. A block takes four calls, fewer than a
parenthesis, and a statement has the calls that its expressions need.
-/

namespace ImpToC.Parser

open Grammar

variable {α : Type} {s : Sentence} {d : Reader} {m : State} {t : Token} {room n : Nat}

/-! ## Words in their places -/

theorem eq_of_kind_name (h : t.kind = .name) : t = ⟨.name t.text, t.location⟩ := by
  obtain ⟨lexeme, location⟩ := t
  cases lexeme with
  | name => rfl
  | int | float | string | symbol | finish => cases h

theorem lexeme_of_kind_finish (h : t.kind = .finish) : t.lexeme = .finish := by
  obtain ⟨lexeme, location⟩ := t
  cases lexeme with
  | finish => rfl
  | int | float | string | name | symbol => cases h

theorem expect_of_kind {kind : Kind} (ht : d.next? = some t) (hkind : t.kind = kind)
    (hfinish : kind ≠ .finish) (hroom : 6 ≤ room) :
    expect kind room d = .ok t { d with position := d.position + 1 } := by
  rw [expect_eq ht kind hroom, if_pos hkind]
  refine advance_eq ht (fun heq => hfinish ?_) (by omega)
  rw [← hkind, Token.kind, heq]
  rfl

theorem accept_eq (ht : d.next? = some t) (kinds : List Kind) (hfinish : .finish ∉ kinds)
    (hroom : 3 ≤ room) :
    accept kinds room d =
      if t.kind ∈ kinds then .ok (some t) { d with position := d.position + 1 }
      else .ok none d := by
  obtain ⟨room, rfl⟩ := Nat.exists_eq_add_of_le' (Nat.le_trans (by decide : 1 ≤ 3) hroom)
  refine (bind_of_ok (check_eq ht kinds (by omega))).trans ?_
  by_cases hkind : t.kind ∈ kinds
  · have hne : t.lexeme ≠ .finish := fun heq => by
      rw [Token.kind, heq] at hkind
      exact hfinish hkind
    simp only [hkind, decide_true, if_true]
    exact (bind_of_ok (advance_eq ht hne (by omega))).trans rfl
  · simp only [hkind, decide_false, if_false, Bool.false_eq_true]
    rfl

/-- Between the words of a statement outside its expressions, where a kind of token is expected no
other one is read. -/
theorem step_of_expected {kind : Kind} (hexpected : m.expected = [kind])
    (hphase : m.phase ≠ .fresh) (hoperand : m.phase.behindOperand? = none)
    (hkind : t.kind ≠ kind) : m.step t = .error (m.unexpected t) := by
  obtain ⟨lexeme, location⟩ := t
  unfold State.expected at hexpected
  unfold State.step
  cases hcase : m.phase with
  | fresh => exact absurd hcase hphase
  | operand | operator =>
      rw [hcase] at hoperand
      cases hoperand
  | typing =>
      rw [hcase] at hexpected
      cases hexpected
  | declared | reading =>
      rw [hcase] at hexpected
      cases hexpected
      cases lexeme with
      | name => exact absurd rfl hkind
      | int | float | string | symbol | finish => rfl
  | named | typed | filling | target =>
      rw [hcase] at hexpected
      cases hexpected
      refine if_neg fun heq => hkind ?_
      cases heq
      rfl

/-- Asking for the next word of a statement outside its expressions. -/
theorem Reached.expect_word {kind : Kind} (h : Reached s d m) (hexpected : m.expected = [kind])
    (hphase : m.phase ≠ .fresh) (hoperand : m.phase.behindOperand? = none) (hkind : kind ≠ .finish)
    (hroom : 6 ≤ room) :
    Agrees s (fun t d' => d.next? = some t ∧ t.kind = kind ∧
      d' = { d with position := d.position + 1 }) (Parser.expect kind room d) := by
  obtain ⟨t, ht⟩ := h.exists_next
  refine (h.expect ht hexpected hphase (step_of_expected hexpected hphase hoperand) hkind
    hroom).mono ?_
  rintro _ d' ⟨rfl, heq, rfl⟩
  exact ⟨ht, heq, rfl⟩

/-- Between statements, those words are expected that start one. -/
theorem mem_expected_of_start (hphase : m.phase = .fresh) {kind : Kind}
    (h : kind ∈ statementStart) : kind ∈ m.expected := by
  rw [State.expected, hphase]
  dsimp only
  split
  · exact List.mem_append_left _ (List.mem_cons_of_mem _ h)
  · exact List.mem_append_right _ h
  · exact List.mem_cons_of_mem _ h
  · exact List.mem_cons_of_mem _ h

/-- Between statements, a token is turned down that is not expected. -/
theorem step_of_not_expected (hphase : m.phase = .fresh) (hkind : t.kind ∉ m.expected) :
    m.step t = .error (m.unexpected t) := by
  have hstart : t.kind ∉ statementStart := fun h => hkind (mem_expected_of_start hphase h)
  obtain ⟨lexeme, location⟩ := t
  simp only [State.step, hphase]
  unfold State.stepFresh
  simp only [State.expected, hphase] at hkind
  split
  case h_1 heq | h_2 heq | h_3 heq | h_4 heq | h_5 heq =>
    cases heq
    simp [Token.kind, Lexeme.kind, statementStart] at hstart
  case h_6 heq hblocks =>
    cases heq
    split
    next hbefore =>
      rw [hblocks] at hkind
      simp [hbefore, Token.kind, Lexeme.kind] at hkind
    next => rfl
  case h_7 heq hblocks | h_8 heq hblocks | h_9 heq hblocks | h_10 heq hblocks =>
    cases heq
    rw [hblocks] at hkind
    simp [Token.kind, Lexeme.kind] at hkind
  case h_11 => rfl

/-! ## Statements -/

/-- Some words, of which one starts the next statement. -/
def Starts (d : Reader) (kinds : List Kind) : Prop := ∀ t, d.next? = some t → t.kind ∈ kinds

/-- An action reads a statement wherever as many blocks are open as given and one of some words
starts it. -/
def ReadsStatement (s : Sentence) (depth : Nat) (kinds : List Kind) (action : Action Stmt) : Prop :=
  ∀ ⦃d : Reader⦄ ⦃m : State⦄, Reached s d m → m.phase = .fresh → m.nextId = d.nextId →
    m.blocks.length = depth → Starts d kinds →
    Agrees s (fun statement d' => d.position < d'.position ∧
      Reached s d' (m.push d'.nextId statement)) (action d)

/-- The state behind some statements more. -/
def State.pushAll (m : State) (nextId : Nat) (body : List Stmt) : State :=
  { m with phase := .fresh, before := body.reverse ++ m.before, nextId := nextId }

theorem State.pushAll_nil (hphase : m.phase = .fresh) : m.pushAll m.nextId [] = m := by
  obtain ⟨phase, blocks, before, declarations, nextId⟩ := m
  obtain rfl : phase = .fresh := hphase
  rfl

theorem State.push_pushAll (m : State) (k k' : Nat) (first : Stmt) (rest : List Stmt) :
    (m.push k first).pushAll k' rest = m.pushAll k' (first :: rest) := by
  simp [push, pushAll]

/-- Inside a block, the same words are expected behind each statement. -/
theorem State.expected_pushAll (hphase : m.phase = .fresh) (hblocks : m.blocks ≠ []) (k : Nat)
    (body : List Stmt) : (m.pushAll k body).expected = m.expected := by
  rw [expected, expected, hphase]
  cases hcase : m.blocks with
  | nil => exact absurd hcase hblocks
  | cons block blocks => cases block <;> simp only [pushAll, hcase]

/-- Outside of blocks, the end is expected, and behind no statement a declaration as well. -/
theorem State.expected_pushAll_outside (hblocks : m.blocks = []) (hbefore : m.before = []) (k : Nat)
    (body : List Stmt) : (m.pushAll k body).expected =
      .finish :: statementStart ++ if body.isEmpty then [.symbol .varWord] else [] := by
  simp [expected, pushAll, hblocks, hbefore]

/-- Statements lead from one place to another, at which none starts. -/
structure LeadsTo (s : Sentence) (d : Reader) (m : State) (body : List Stmt) (d' : Reader) :
    Prop where
  le : d.position ≤ d'.position
  reached : Reached s d' (m.pushAll d'.nextId body)
  ends : ∀ t, d'.next? = some t → t.kind ∉ statementStart
  eq_of_nil : body = [] → d' = d

/-- An action reads statements wherever as many blocks are open as given. -/
def ReadsStatements (s : Sentence) (depth : Nat) (action : Action (List Stmt)) : Prop :=
  ∀ ⦃d : Reader⦄ ⦃m : State⦄, Reached s d m → m.phase = .fresh → m.nextId = d.nextId →
    m.blocks.length = depth → Agrees s (LeadsTo s d m) (action d)

/-- An action reads a block wherever as many blocks are open as given, up to one of the words that
can end it there. -/
def ReadsBlock (s : Sentence) (depth : Nat) (terminators : List Kind)
    (action : Action (List Stmt)) : Prop :=
  ∀ ⦃d : Reader⦄ ⦃m : State⦄, Reached s d m → m.phase = .fresh → m.nextId = d.nextId →
    m.blocks.length = depth → m.blocks ≠ [] → m.expected = terminators ++ statementStart →
    Agrees s (fun body d' => d.position ≤ d'.position ∧ Reached s d' (m.pushAll d'.nextId body) ∧
      Starts d' terminators) (action d)

section Statements

variable {depth : Nat}

theorem reads_readStatement (hroom : 7 ≤ room) :
    ReadsStatement s depth [.symbol .readWord] (readStatement room) := by
  intro d m hreached hphase hid hdepth hstarts
  obtain ⟨room, rfl⟩ := Nat.exists_eq_add_of_le' (Nat.le_trans (by decide : 1 ≤ 7) hroom)
  obtain ⟨first, hfirst⟩ := hreached.exists_next
  have hkind := List.mem_singleton.mp (hstarts first hfirst)
  refine .bind_ok (expect_of_kind hfirst hkind (by decide) (by omega)) ?_
  rw [eq_of_kind_symbol hkind] at hfirst
  have hread := hreached.advance hfirst (.read first.location hphase)
  refine .bind (hread.expect_word rfl nofun rfl nofun (by omega)) ?_
  rintro target _ ⟨htarget, hname, rfl⟩
  rw [eq_of_kind_name hname] at htarget
  have hnamed := hread.advance htarget (.readName _ target.location rfl)
  refine .bind (hnamed.expect_word rfl nofun rfl nofun (by omega)) ?_
  rintro last _ ⟨hlast, hsemicolon, rfl⟩
  rw [eq_of_kind_symbol hsemicolon] at hlast
  have hend : Reached s _ (m.push m.nextId (.read first.location target.text)) :=
    hnamed.advance hlast (.readEnd last.location rfl)
  rw [hid] at hend
  rw [node_eq _ (by omega)]
  exact ⟨by dsimp only; omega, hend⟩

/-- Statements one after another are read if each of them is. -/
theorem ReadsStatement.sequence {action : Action Stmt}
    (h : ReadsStatement s depth statementStart action) (hroom : 1 ≤ room) {rounds : Nat}
    (hreached : Reached s d m) (hphase : m.phase = .fresh) (hid : m.nextId = d.nextId)
    (hdepth : m.blocks.length = depth) (hrounds : s.words.length < rounds + d.position) :
    Agrees s (LeadsTo s d m) (Parser.sequence action room rounds d) := by
  induction rounds generalizing d m with
  | zero =>
      have hinside := hreached.inside
      omega
  | succ rounds ih =>
      obtain ⟨t, ht⟩ := hreached.exists_next
      have hnext (t' : Token) (ht' : d.next? = some t') : t' = t :=
        Option.some.inj (ht'.symm.trans ht)
      refine .bind_ok (peek_eq ht hroom) ?_
      split
      next hstart =>
        refine .bind (h hreached hphase hid hdepth fun t' ht' => hnext t' ht' ▸ hstart) ?_
        rintro first d' ⟨hlt, hreached'⟩
        refine .bind (ih hreached' rfl rfl hdepth (by omega)) ?_
        rintro rest d'' ⟨hle, hreached'', hends, -⟩
        rw [State.push_pushAll] at hreached''
        exact ⟨Nat.le_trans (Nat.le_of_lt hlt) hle, hreached'', hends, nofun⟩
      next hstart =>
        refine ⟨Nat.le_refl _, ?_, fun t' ht' => hnext t' ht' ▸ hstart, fun _ => rfl⟩
        rw [← hid, State.pushAll_nil hphase]
        exact hreached

variable [Host]

/-- The expression of a statement is read up to the word that ends it. -/
theorem reads_expression (hwithin : Within n s) (hroom : 11 + 5 * (n - depth) ≤ room)
    {purpose : Purpose} (h : Reached s d { m with phase := .operand purpose [] })
    (hid : m.nextId = d.nextId) (hdepth : m.blocks.length = depth) :
    Agrees s (fun value d' => d.position < d'.position ∧
      Behind s d' { m with phase := .operand purpose [] } purpose [] value ∧
      ∀ t, d'.next? = some t → reachOf t.lexeme = .closer) (expression room d) := by
  obtain ⟨rest, rfl⟩ := Nat.exists_eq_add_of_le' (Nat.le_trans (by decide : 4 ≤ 11)
    (Nat.le_trans (Nat.le_add_right _ _) hroom))
  refine (reads_factor hwithin rest).term.expression h rfl hid trivial ?_
  rw [State.depth, callsOf]
  simpa [hdepth] using hroom

theorem reads_printStatement (hwithin : Within n s) (hroom : 12 + 5 * (n - depth) ≤ room) :
    ReadsStatement s depth [.symbol .printWord] (printStatement room) := by
  intro d m hreached hphase hid hdepth hstarts
  obtain ⟨room, rfl⟩ := Nat.exists_eq_add_of_le' (Nat.le_trans (by decide : 1 ≤ 12)
    (Nat.le_trans (Nat.le_add_right _ _) hroom))
  obtain ⟨first, hfirst⟩ := hreached.exists_next
  have hkind := List.mem_singleton.mp (hstarts first hfirst)
  refine .bind_ok (expect_of_kind hfirst hkind (by decide) (by omega)) ?_
  rw [eq_of_kind_symbol hkind] at hfirst
  have hprint := hreached.advance hfirst (.print first.location hphase)
  refine .bind (reads_expression hwithin (by omega) hprint hid hdepth) ?_
  rintro value d' ⟨hlt, hbehind, hcloser⟩
  refine .bind (hbehind.close hcloser (by omega)) ?_
  rintro _ _ ⟨rfl, hend⟩
  rw [node_eq _ (by omega)]
  exact ⟨Nat.lt_succ_of_lt (Nat.lt_of_succ_lt hlt), hend⟩

theorem reads_assignStatement (hwithin : Within n s) (hroom : 12 + 5 * (n - depth) ≤ room) :
    ReadsStatement s depth [.name] (assignStatement room) := by
  intro d m hreached hphase hid hdepth hstarts
  obtain ⟨room, rfl⟩ := Nat.exists_eq_add_of_le' (Nat.le_trans (by decide : 1 ≤ 12)
    (Nat.le_trans (Nat.le_add_right _ _) hroom))
  obtain ⟨target, htarget⟩ := hreached.exists_next
  have hkind := List.mem_singleton.mp (hstarts target htarget)
  refine .bind_ok (expect_of_kind htarget hkind (by decide) (by omega)) ?_
  rw [eq_of_kind_name hkind] at htarget
  have hnamed := hreached.advance htarget (.target _ target.location hphase)
  refine .bind (hnamed.expect_word rfl nofun rfl nofun (by omega)) ?_
  rintro equals _ ⟨hequals, hsymbol, rfl⟩
  rw [eq_of_kind_symbol hsymbol] at hequals
  have hassign := hnamed.advance hequals (.equals equals.location rfl)
  refine .bind (reads_expression hwithin (by omega) hassign hid hdepth) ?_
  rintro value d' ⟨hlt, hbehind, hcloser⟩
  refine .bind (hbehind.close hcloser (by omega)) ?_
  rintro _ _ ⟨rfl, hend⟩
  rw [node_eq _ (by omega)]
  refine ⟨?_, hend⟩
  dsimp only at hlt ⊢
  omega

/-- Statements make a block if one of its words is behind them. -/
theorem ReadsStatements.block (h : ReadsStatements s depth (statements room)) (hroom : 5 ≤ room)
    (terminators : List Kind) : ReadsBlock s depth terminators (block terminators (room + 1)) := by
  intro d m hreached hphase hid hdepth hblocks hexpected
  rw [Parser.block]
  refine .bind (h hreached hphase hid hdepth) ?_
  rintro body d' ⟨hle, hreached', hends, -⟩
  obtain ⟨t, ht⟩ := hreached'.exists_next
  refine .bind_ok (check_eq ht terminators (by omega)) ?_
  have hexpected' : (m.pushAll d'.nextId body).expected = terminators ++ statementStart :=
    (State.expected_pushAll hphase hblocks _ _).trans hexpected
  by_cases hterminator : t.kind ∈ terminators
  · simp only [hterminator, decide_true, if_true]
    refine ⟨hle, hreached', fun t' ht' => ?_⟩
    rwa [Option.some.inj (ht'.symm.trans ht)]
  · simp only [hterminator, decide_false, Bool.false_eq_true, if_false]
    refine hreached'.unexpected ht hexpected' (fun hboth => hblocks hboth.2)
      (step_of_not_expected rfl ?_) hroom
    rw [hexpected', List.mem_append]
    exact not_or.mpr ⟨hterminator, hends t ht⟩

theorem reads_branchStatement (hwithin : Within n s) (hroom : 11 + 5 * (n - depth) ≤ room)
    (hblock : depth + 1 ≤ n → ∀ terminators,
      ReadsBlock s (depth + 1) terminators (block terminators room)) :
    ReadsStatement s depth [.symbol .ifWord] (branchStatement (room + 1)) := by
  intro d m hreached hphase hid hdepth hstarts
  obtain ⟨first, hfirst⟩ := hreached.exists_next
  have hkind := List.mem_singleton.mp (hstarts first hfirst)
  rw [branchStatement]
  refine .bind_ok (expect_of_kind hfirst hkind (by decide) (by omega)) ?_
  rw [eq_of_kind_symbol hkind] at hfirst
  have hbranch := hreached.advance hfirst (.branch first.location hphase)
  refine .bind (reads_expression hwithin (by omega) hbranch hid hdepth) ?_
  rintro condition d₁ ⟨hlt, hbehind, hcloser⟩
  refine .bind (hbehind.close hcloser (by omega)) ?_
  rintro _ _ ⟨rfl, hinside⟩
  have hinner : ∀ terminators, ReadsBlock s (depth + 1) terminators (block terminators room) := by
    refine hblock ?_
    have hbound := hwithin.depth_le (List.take_prefix _ _) hinside.moves
    simpa [State.depth, State.close, State.enter, hdepth] using hbound
  refine .bind (hinner [.symbol .elseWord, .symbol .endWord] hinside rfl rfl
    (congrArg (· + 1) hdepth) (List.cons_ne_nil _ _) rfl) ?_
  rintro yes d₂ ⟨hle, hyes, hends⟩
  obtain ⟨t, ht⟩ := hyes.exists_next
  have hend := hends t ht
  have haccept := accept_eq ht [.symbol .elseWord] (by simp) (show 3 ≤ room by omega)
  by_cases helse : t.kind = .symbol .elseWord
  · rw [if_pos (List.mem_singleton.mpr helse)] at haccept
    refine .bind_ok haccept ?_
    rw [eq_of_kind_symbol helse] at ht
    have hno := hyes.advance ht (.otherwise t.location rfl rfl)
    refine .bind (hinner [.symbol .endWord] hno rfl rfl (congrArg (· + 1) hdepth)
      (List.cons_ne_nil _ _) rfl) ?_
    rintro no d₃ ⟨hle', hno', hends'⟩
    obtain ⟨last, hlast⟩ := hno'.exists_next
    have hendWord := List.mem_singleton.mp (hends' last hlast)
    refine .bind_ok (expect_of_kind hlast hendWord (by decide) (by omega)) ?_
    rw [node_eq _ (by omega)]
    rw [eq_of_kind_symbol hendWord] at hlast
    have hend := hno'.advance hlast (.noEnd last.location rfl rfl)
    refine ⟨?_, by simpa [State.close, State.enter, State.pushAll, State.leave, State.push] using hend⟩
    dsimp only at hlt hle hle' ⊢
    omega
  · rw [if_neg fun h => helse (List.mem_singleton.mp h)] at haccept
    refine .bind_ok haccept (.bind_ok rfl ?_)
    have hendWord : t.kind = .symbol .endWord := by simpa [helse] using hends t ht
    refine .bind_ok (expect_of_kind ht hendWord (by decide) (by omega)) ?_
    rw [node_eq _ (by omega)]
    rw [eq_of_kind_symbol hendWord] at ht
    have hend := hyes.advance ht (.yesEnd t.location rfl rfl)
    refine ⟨?_, by simpa [State.close, State.enter, State.pushAll, State.leave, State.push] using hend⟩
    dsimp only at hlt hle ⊢
    omega

theorem reads_loopStatement (hwithin : Within n s) (hroom : 11 + 5 * (n - depth) ≤ room)
    (hblock : depth + 1 ≤ n → ∀ terminators,
      ReadsBlock s (depth + 1) terminators (block terminators room)) :
    ReadsStatement s depth [.symbol .whileWord] (loopStatement (room + 1)) := by
  intro d m hreached hphase hid hdepth hstarts
  obtain ⟨first, hfirst⟩ := hreached.exists_next
  have hkind := List.mem_singleton.mp (hstarts first hfirst)
  rw [loopStatement]
  refine .bind_ok (expect_of_kind hfirst hkind (by decide) (by omega)) ?_
  rw [eq_of_kind_symbol hkind] at hfirst
  have hloop := hreached.advance hfirst (.loop first.location hphase)
  refine .bind (reads_expression hwithin (by omega) hloop hid hdepth) ?_
  rintro condition d₁ ⟨hlt, hbehind, hcloser⟩
  refine .bind (hbehind.close hcloser (by omega)) ?_
  rintro _ _ ⟨rfl, hinside⟩
  have hinner : ReadsBlock s (depth + 1) [.symbol .doneWord] (block [.symbol .doneWord] room) := by
    refine hblock ?_ _
    have hbound := hwithin.depth_le (List.take_prefix _ _) hinside.moves
    simpa [State.depth, State.close, State.enter, hdepth] using hbound
  refine .bind (hinner hinside rfl rfl (congrArg (· + 1) hdepth) (List.cons_ne_nil _ _) rfl) ?_
  rintro body d₂ ⟨hle, hbody, hends⟩
  obtain ⟨last, hlast⟩ := hbody.exists_next
  have hdone := List.mem_singleton.mp (hends last hlast)
  refine .bind_ok (expect_of_kind hlast hdone (by decide) (by omega)) ?_
  rw [node_eq _ (by omega)]
  rw [eq_of_kind_symbol hdone] at hlast
  have hend := hbody.advance hlast (.bodyEnd last.location rfl rfl)
  refine ⟨?_, by simpa [State.close, State.enter, State.pushAll, State.leave, State.push] using hend⟩
  dsimp only at hlt hle ⊢
  omega

theorem reads_statement (hwithin : Within n s) (hroom : 11 + 5 * (n - depth) ≤ room)
    (hblock : depth + 1 ≤ n → ∀ terminators,
      ReadsBlock s (depth + 1) terminators (block terminators room)) :
    ReadsStatement s depth statementStart (statement (room + 2)) := by
  intro d m hreached hphase hid hdepth hstarts
  obtain ⟨t, ht⟩ := hreached.exists_next
  have hone {kind : Kind} (hkind : t.kind = kind) : Starts d [kind] :=
    fun t' ht' => List.mem_singleton.mpr (Option.some.inj (ht.symm.trans ht') ▸ hkind)
  have hstart := hstarts t ht
  rw [statement]
  refine .bind_ok (peek_eq ht (by omega)) ?_
  obtain ⟨lexeme, location⟩ := t
  cases lexeme with
  | name text =>
      exact reads_assignStatement hwithin (by omega) hreached hphase hid hdepth (hone rfl)
  | symbol symbol =>
      cases symbol with
      | readWord => exact reads_readStatement (by omega) hreached hphase hid hdepth (hone rfl)
      | printWord =>
          exact reads_printStatement hwithin (by omega) hreached hphase hid hdepth (hone rfl)
      | ifWord =>
          exact reads_branchStatement hwithin hroom hblock hreached hphase hid hdepth
            (hone rfl)
      | whileWord =>
          exact reads_loopStatement hwithin hroom hblock hreached hphase hid hdepth
            (hone rfl)
      | _ => simp [Token.kind, Lexeme.kind, statementStart] at hstart
  | int | float | string | finish => simp [Token.kind, Lexeme.kind, statementStart] at hstart

/-- Statements take three calls more than an expression. Those in a block of theirs take four less
than they do, and with the block one less can be opened. -/
theorem reads_statements (hwithin : Within n s) (hroom : 14 + 5 * (n - depth) ≤ room) :
    ReadsStatements s depth (statements room) := by
  induction room using Nat.strong_induction_on generalizing depth with
  | _ room ih =>
    obtain ⟨room, rfl⟩ := Nat.exists_eq_add_of_le' (Nat.le_trans (by decide : 5 ≤ 14)
      (Nat.le_trans (Nat.le_add_right _ _) hroom))
    have hblock (hdepth : depth + 1 ≤ n) (terminators : List Kind) :
        ReadsBlock s (depth + 1) terminators (block terminators (room + 2)) :=
      (ih (room + 1) (by omega) (by omega)).block (by omega) terminators
    intro d m hreached hphase hid hdepth
    rw [statements]
    refine .bind_ok rfl ?_
    exact (reads_statement hwithin (by omega) hblock).sequence (by omega) hreached hphase hid hdepth
      hreached.toOver.rounds_enough

end Statements

/-! ## Programs -/

theorem exists_type_of_kind (h : t.kind ∈ typeStart) :
    ∃ type : Ty, t = ⟨.symbol type.symbol, t.location⟩ := by
  rcases List.mem_cons.mp h with heq | h
  · exact ⟨.int, eq_of_kind_symbol heq⟩
  rcases List.mem_cons.mp h with heq | h
  · exact ⟨.float, eq_of_kind_symbol heq⟩
  · exact ⟨.string, eq_of_kind_symbol (List.mem_singleton.mp h)⟩

theorem step_of_not_type {location : Location} {name : String}
    (hphase : m.phase = .typing location name) (hkind : t.kind ∉ typeStart) :
    m.step t = .error (m.unexpected t) := by
  obtain ⟨lexeme, place⟩ := t
  simp only [State.step, hphase]
  cases lexeme with
  | symbol symbol =>
      cases htype : type? symbol with
      | none => simp only [htype]
      | some type =>
          rw [type?_eq_some_iff] at htype
          cases type <;> cases htype <;>
            simp [Token.kind, Lexeme.kind, Ty.symbol, typeStart] at hkind
  | int | float | string | name | finish => rfl

/-- The declaration of a variable is read at the start of a sentence. -/
theorem reads_declaration (hreached : Reached s d m) (hphase : m.phase = .fresh)
    (hblocks : m.blocks = []) (hbefore : m.before = []) (ht : d.next? = some t)
    (hkind : t.kind = .symbol .varWord) (hroom : 7 ≤ room) :
    Agrees s (fun first d' => d.position < d'.position ∧ d'.nextId = d.nextId ∧
      Reached s d' { m with declarations := first :: m.declarations })
      (declaration room d) := by
  obtain ⟨room, rfl⟩ := Nat.exists_eq_add_of_le' (Nat.le_trans (by decide : 1 ≤ 7) hroom)
  refine .bind_ok (expect_of_kind ht hkind (by decide) (by omega)) ?_
  rw [eq_of_kind_symbol hkind] at ht
  have hvar := hreached.advance ht (.declare t.location hphase hblocks hbefore)
  refine .bind (hvar.expect_word rfl nofun rfl nofun (by omega)) ?_
  rintro target _ ⟨htarget, hname, rfl⟩
  rw [eq_of_kind_name hname] at htarget
  have hnamed := hvar.advance htarget (.declaredName _ target.location rfl)
  refine .bind (hnamed.expect_word rfl nofun rfl nofun (by omega)) ?_
  rintro colon _ ⟨hcolon, hsymbol, rfl⟩
  rw [eq_of_kind_symbol hsymbol] at hcolon
  have htyping := hnamed.advance hcolon (.colon colon.location rfl)
  obtain ⟨named, hnext⟩ := htyping.exists_next
  have haccept := accept_eq hnext typeStart (by decide) (show 3 ≤ room by omega)
  by_cases htype : named.kind ∈ typeStart
  · rw [if_pos htype] at haccept
    refine .bind_ok haccept ?_
    obtain ⟨type, hnamedType⟩ := exists_type_of_kind htype
    have hlookUp : lookUp type? named.lexeme = some type := by
      rw [hnamedType]
      exact type?_eq_some_iff.mpr rfl
    rw [hnamedType] at hnext
    have htyped := htyping.advance hnext (.declaredType type named.location rfl)
    refine .bind (htyped.expect_word rfl nofun rfl nofun (by omega)) ?_
    rintro last _ ⟨hlast, hsemicolon, rfl⟩
    rw [eq_of_kind_symbol hsemicolon] at hlast
    have hend := htyped.advance hlast (.declared last.location rfl)
    rw [← hphase] at hend
    rw [hlookUp]
    dsimp only
    rw [node_eq _ (by omega)]
    exact ⟨by dsimp only; omega, rfl, hend⟩
  · rw [if_neg htype] at haccept
    refine .bind_ok haccept ?_
    exact htyping.unexpected hnext rfl (fun hboth => nomatch hboth.1)
      (step_of_not_type rfl htype) (by omega)

theorem reads_declarations (hreached : Reached s d m) (hphase : m.phase = .fresh)
    (hblocks : m.blocks = []) (hbefore : m.before = []) (hroom : 7 ≤ room) {rounds : Nat}
    (hrounds : s.words.length < rounds + d.position) :
    Agrees s (fun all d' => d'.nextId = d.nextId ∧
      Reached s d' { m with declarations := all.reverse ++ m.declarations } ∧
      ∀ t, d'.next? = some t → t.kind ≠ .symbol .varWord)
      (declarations room rounds d) := by
  induction rounds generalizing d m with
  | zero =>
      have hinside := hreached.inside
      omega
  | succ rounds ih =>
      obtain ⟨t, ht⟩ := hreached.exists_next
      rw [declarations]
      refine .bind_ok (check_eq ht _ (by omega)) ?_
      by_cases hkind : t.kind = .symbol .varWord
      · simp only [hkind, List.mem_singleton, decide_true, if_true]
        refine .bind (reads_declaration hreached hphase hblocks hbefore ht hkind hroom) ?_
        rintro first d' ⟨hlt, hid, hfirst⟩
        refine .bind (ih hfirst hphase hblocks hbefore (by omega)) ?_
        rintro rest d'' ⟨hid', hrest, hends⟩
        refine ⟨hid'.trans hid, ?_, hends⟩
        rwa [List.reverse_cons, List.append_assoc]
      · simp only [hkind, List.mem_singleton, decide_false, Bool.false_eq_true, if_false]
        refine ⟨rfl, hreached, fun t' ht' => ?_⟩
        rwa [Option.some.inj (ht'.symm.trans ht)]

/-- Behind all statements, another token than the end is turned down. -/
theorem Reached.unexpected_outside {body : List Stmt} {condition : α → Reader → Prop}
    (hblocks : m.blocks = []) (hbefore : m.before = []) (h : Reached s d (m.pushAll d.nextId body))
    (ht : d.next? = some t) (hfinish : t.kind ≠ .finish) (hstart : t.kind ∉ statementStart)
    (hvar : body = [] → t.kind ≠ .symbol .varWord) (hroom : 5 ≤ room) :
    Agrees s condition
      ((Parser.unexpected
        (.finish :: statementStart ++ if body.isEmpty then [.symbol .varWord] else [])
        room : Action α) d) := by
  rw [unexpected_eq ht _ hroom, ← State.expected_pushAll_outside hblocks hbefore d.nextId]
  refine h.stopsAt ht (fun _ => step_of_not_expected rfl ?_)
    fun heq => absurd (congrArg Lexeme.kind heq) hfinish
  rw [State.expected_pushAll_outside hblocks hbefore]
  refine List.not_mem_cons_of_ne_of_not_mem hfinish ?_
  refine fun hmem => (List.mem_append.mp hmem).elim hstart ?_
  cases body with
  | nil => exact fun hmem => hvar rfl (List.mem_singleton.mp hmem)
  | cons => exact List.not_mem_nil

section Programs

variable [Host]

/-- A parser reads a sentence as a pass does if its calls suffice. -/
theorem program_agrees (hwithin : Within n s) (hroom : callsFor n + reportCalls ≤ room) :
    Agrees s (fun p _ => pass s = .ok p) (program room (.start s)) := by
  rw [callsFor, reportCalls] at hroom
  obtain ⟨room, rfl⟩ := Nat.exists_eq_add_of_le' (show 1 ≤ room by omega)
  refine .bind_ok rfl ?_
  refine .bind (reads_declarations (.start s) rfl rfl rfl (by omega)
    (Over.start s).rounds_enough) ?_
  rintro declared d ⟨hid, hdeclared, hvar⟩
  have hstatements : ReadsStatements s 0 (statements room) := reads_statements hwithin (by omega)
  refine .bind (hstatements hdeclared rfl hid.symm rfl) ?_
  rintro body d' ⟨-, hbody, hends, hnil⟩
  obtain ⟨t, ht⟩ := hbody.exists_next
  refine .bind_ok (check_eq ht [.finish] (by omega)) ?_
  by_cases hfinish : t.kind = .finish
  · simp only [hfinish, List.mem_singleton, decide_true, if_true]
    rw [node_eq _ (by omega)]
    have hall := hbody.eq_length_of_finish ht (lexeme_of_kind_finish hfinish)
    have hmoves := hbody.moves
    rw [hall, List.take_length] at hmoves
    exact pass_eq_ok_iff.mpr
      ⟨_, hmoves, finish_eq_ok_iff.mpr ⟨rfl, rfl, by simp [State.start, State.pushAll]⟩⟩
  · simp only [hfinish, List.mem_singleton, decide_false, Bool.false_eq_true, if_false]
    refine hbody.unexpected_outside rfl rfl ht hfinish (hends t ht) (fun hbody => ?_) (by omega)
    obtain rfl := hnil hbody
    exact hvar t ht

end Programs

end ImpToC.Parser
