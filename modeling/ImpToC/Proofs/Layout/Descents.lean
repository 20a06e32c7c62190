import ImpToC.Proofs.Layout.Places
import ImpToC.Proofs.Literals.Conversions
import ImpToC.Proofs.Parsing.Readers

/-!
# Methods at other places

A method that reads the same tokens at other places does the same at other places. With more calls
it does the same as well, unless the fewer ones are too few. Both are one relation between the
outcomes of two methods, which every method keeps that calls others.
-/

namespace ImpToC.Parser

/-- A reader of tokens at other places. -/
def Reader.relocate (f : Location → Location) (d : Reader) : Reader :=
  { d with tokens := d.tokens.map (Token.relocate f) }

/-- What stops a method at other places. -/
def Stop.relocate (f : Location → Location) : Stop → Stop
  | .fault mistake => .fault (mistake.relocate f)
  | stop => stop

variable {α β : Type} {s : Sentence} {f : Location → Location} {lax : Prop} {room room' : Nat}

/-- Two methods have as many calls, or, if that is admitted, the second one has more. -/
structure Rooms (lax : Prop) (room room' : Nat) : Prop where
  le : room ≤ room'
  eq : ¬lax → room = room'

theorem Rooms.refl (room : Nat) : Rooms lax room room := ⟨Nat.le_refl _, fun _ => rfl⟩

theorem Rooms.pred (h : Rooms lax (room + 1) (room' + 1)) : Rooms lax room room' :=
  ⟨Nat.le_of_succ_le_succ h.le, fun hlax => Nat.succ.inj (h.eq hlax)⟩

/-- One outcome is the same as another one at other places. If that is admitted, the other one may
also have come to nothing, because a call was one too many. -/
inductive Copied (s : Sentence) (f : Location → Location) (lax : Prop) (move : α → α) :
    EStateM.Result Stop Reader α → EStateM.Result Stop Reader α → Prop
  | ok {a : α} {d : Reader} (reader : Over s d) :
      Copied s f lax move (.ok a d) (.ok (move a) (d.relocate f))
  | error {stop : Stop} {d : Reader} (reader : Over s d) :
      Copied s f lax move (.error stop d) (.error (stop.relocate f) (d.relocate f))
  | exhausted {d : Reader} {outcome : EStateM.Result Stop Reader α} (reader : Over s d)
      (h : lax) : Copied s f lax move (.error .exhausted d) outcome

/-- Wherever an action is done, another one does the same at other places. -/
def Copies (s : Sentence) (f : Location → Location) (lax : Prop) (move : α → α)
    (x y : Action α) : Prop :=
  ∀ ⦃d : Reader⦄, Over s d → Copied s f lax move (x d) (y (d.relocate f))

namespace Copies

variable {move : α → α} {move' : β → β}

theorem bind {x y : Action α} {k k' : α → Action β} (hx : Copies s f lax move x y)
    (hk : ∀ a, Copies s f lax move' (k a) (k' (move a))) :
    Copies s f lax move' (x >>= k) (y >>= k') := by
  intro d hover
  have hd := hx hover
  generalize houtcome : x d = outcome at hd
  generalize houtcome' : y (d.relocate f) = outcome' at hd
  cases hd with
  | @ok a d' hover' =>
      rw [bind_of_ok houtcome, bind_of_ok houtcome']
      exact hk a hover'
  | error hover' =>
      rw [bind_of_error houtcome, bind_of_error houtcome']
      exact .error hover'
  | exhausted hover' hlax =>
      rw [bind_of_error houtcome]
      exact .exhausted hover' hlax

theorem get {k k' : Reader → Action α}
    (h : ∀ d, Over s d → Copied s f lax move (k d d) (k' (d.relocate f) (d.relocate f))) :
    Copies s f lax move (MonadState.get >>= k) (MonadState.get >>= k') := h

theorem pure (a : α) : Copies s f lax move (Pure.pure a) (Pure.pure (move a)) :=
  fun _ hover => .ok hover

theorem throw (stop : Stop) :
    Copies s f lax move (MonadExcept.throw stop) (MonadExcept.throw (stop.relocate f)) :=
  fun _ hover => .error hover

/-- Without a call left, the other one has to have none either if as many are asked for. -/
theorem exhausted {y : Action α} (hy : ¬lax → y = MonadExcept.throw .exhausted) :
    Copies s f lax move (MonadExcept.throw .exhausted) y := by
  intro d hover
  by_cases hlax : lax
  · exact .exhausted hover hlax
  · rw [hy hlax]
    exact throw .exhausted hover

theorem of_succ (method method' : Method α) (hzero : method 0 = MonadExcept.throw .exhausted)
    (hzero' : method' 0 = MonadExcept.throw .exhausted)
    (h : ∀ fewer fewer', fewer < room → Rooms lax fewer fewer' →
      Copies s f lax move (method (fewer + 1)) (method' (fewer' + 1)))
    (hrooms : Rooms lax room room') : Copies s f lax move (method room) (method' room') := by
  cases room with
  | zero =>
      rw [hzero]
      exact exhausted fun hlax => by rw [← hrooms.eq hlax, hzero']
  | succ room =>
      obtain ⟨room', rfl⟩ := Nat.exists_eq_add_of_le' (Nat.le_trans (Nat.succ_pos _) hrooms.le)
      exact h _ _ (Nat.lt_succ_self _) hrooms.pred

theorem call {body body' : Method α}
    (h : ∀ fewer fewer', Rooms lax fewer fewer' → Copies s f lax move (body fewer) (body' fewer'))
    (hrooms : Rooms lax room room') :
    Copies s f lax move (Parser.call body room) (Parser.call body' room') :=
  of_succ _ _ rfl rfl (fun _ _ _ => h _ _) hrooms

end Copies

/-! ## Tokens -/

theorem Reader.relocate_next? (d : Reader) :
    (d.relocate f).next? = d.next?.map (Token.relocate f) := by
  simp [next?, relocate]

section Tokens

variable (hrooms : Rooms lax room room')
include hrooms

theorem copies_peek : Copies s f lax (Token.relocate f) (peek room) (peek room') := by
  refine .call (fun _ _ _ => .get fun d hover => ?_) hrooms
  obtain ⟨t, ht⟩ := hover.exists_next
  rw [Reader.relocate_next?, ht]
  exact .ok hover

theorem copies_advance : Copies s f lax (Token.relocate f) (advance room) (advance room') := by
  refine .call (fun _ _ _ => .get fun d hover => ?_) hrooms
  obtain ⟨t, ht⟩ := hover.exists_next
  rw [Reader.relocate_next?, ht]
  by_cases hfinish : t.lexeme = .finish
  · simp only [Option.map_some, Token.relocate_lexeme, hfinish, ne_eq, not_true_eq_false, if_false]
    exact .ok hover
  · simp only [Option.map_some, Token.relocate_lexeme, hfinish, ne_eq, not_false_eq_true, if_true]
    exact .ok (hover.advance ht hfinish)

theorem copies_check (kinds : List Kind) :
    Copies s f lax id (check kinds room) (check kinds room') :=
  .call (fun _ _ hrooms => .bind (copies_peek hrooms) fun t => .pure (decide (t.kind ∈ kinds)))
    hrooms

theorem copies_accept (kinds : List Kind) :
    Copies s f lax (Option.map (Token.relocate f)) (accept kinds room) (accept kinds room') := by
  refine .call (fun _ _ hrooms => .bind (copies_check hrooms kinds) fun found => ?_) hrooms
  cases found with
  | false => exact .pure none
  | true => exact .bind (copies_advance hrooms) fun t => .pure (some t)

theorem copies_raise {move : α → α} (fault : Fault) :
    Copies s f lax move (raise fault room) (raise (fault.relocate f) room') := by
  unfold raise
  by_cases hroom : reportCalls ≤ room
  · rw [if_pos hroom, if_pos (Nat.le_trans hroom hrooms.le)]
    exact .throw (.fault fault)
  · rw [if_neg hroom]
    exact .exhausted fun hlax => if_neg (hrooms.eq hlax ▸ hroom)

theorem copies_unexpected {move : α → α} (expected : List Kind) :
    Copies s f lax move (unexpected expected room) (unexpected expected room') :=
  .call (fun _ _ hrooms => .bind (copies_peek hrooms) fun _ => copies_raise hrooms _) hrooms

theorem copies_expect (kind : Kind) :
    Copies s f lax (Token.relocate f) (expect kind room) (expect kind room') := by
  refine .call (fun _ _ hrooms => .bind (copies_check hrooms [kind]) fun found => ?_) hrooms
  cases found with
  | false => exact copies_unexpected hrooms [kind]
  | true => exact copies_advance hrooms

theorem copies_newId : Copies s f lax id (newId room) (newId room') :=
  .call (fun _ _ _ _ hover => .ok ⟨hover.tokens, hover.inside⟩) hrooms

theorem copies_node {move : α → α} (value : α) :
    Copies s f lax move (node value room) (node (move value) room') :=
  .call (fun _ _ _ => .pure value) hrooms

/-- Two readings of a literal that come to the same value, or to the same mistake at other places. -/
theorem copies_literal {read read' : Literal.Read α} {move : α → α}
    (h : (∃ value calls calls', read [] = .ok value calls ∧ read' [] = .ok (move value) calls') ∨
      ∃ fault calls calls', read [] = .error (.fault fault) calls ∧
        read' [] = .error (.fault (fault.relocate f)) calls') :
    Copies s f lax move (literal read room) (literal read' room') := by
  refine .call (fun _ _ hrooms => ?_) hrooms
  rcases h with ⟨value, calls, calls', hread, hread'⟩ | ⟨fault, calls, calls', hread, hread'⟩
  · rw [hread, hread']
    exact .pure value
  · rw [hread, hread']
    exact copies_raise hrooms fault

end Tokens

theorem copies_ahead : Copies s f lax id ahead ahead := by
  intro d hover
  have hsize : (d.relocate f).tokens.size = d.tokens.size := Array.size_map ..
  have hahead : ahead (d.relocate f) = .ok (d.tokens.size - d.position) (d.relocate f) := by
    rw [← hsize]
    rfl
  rw [hahead]
  exact .ok hover

/-! ## Expressions -/

section Expressions

theorem copies_operations (hrooms : Rooms lax room room') (table : Symbol → Option BinOp)
    {operand operand' : Action Expr} (h : Copies s f lax (Expr.relocate f) operand operand')
    (rounds : Nat) (left : Expr) :
    Copies s f lax (Expr.relocate f) (operations table operand room rounds left)
      (operations table operand' room' rounds (left.relocate f)) := by
  induction rounds generalizing left with
  | zero => exact .throw .missing
  | succ rounds ih =>
      refine .bind (copies_peek hrooms) fun t => ?_
      rw [Token.relocate_lexeme]
      cases lookUp table t.lexeme with
      | none => exact .pure left
      | some op =>
          refine .bind (copies_advance hrooms) fun _ => .bind h fun right =>
            .bind (copies_newId hrooms) fun id => ?_
          rw [Expr.relocate_location]
          exact .bind (copies_node hrooms (Expr.binary ⟨id, left.location⟩ op left right)) ih

theorem copies_binary (hrooms : Rooms lax room room') (table : Symbol → Option BinOp)
    {operand operand' : Action Expr} (h : Copies s f lax (Expr.relocate f) operand operand') :
    Copies s f lax (Expr.relocate f) (binary table operand room) (binary table operand' room') :=
  .bind h fun left => .bind copies_ahead fun rounds =>
    copies_operations hrooms table h rounds left

variable [Host]

theorem copies_term (hrooms : Rooms lax room room')
    (h : ∀ fewer fewer', fewer < room → Rooms lax fewer fewer' →
      Copies s f lax (Expr.relocate f) (factor fewer) (factor fewer')) :
    Copies s f lax (Expr.relocate f) (term room) (term room') := by
  refine .of_succ _ _ rfl rfl (fun room₁ room₁' hlt₁ hrooms₁ => ?_) hrooms
  refine .of_succ (fun room => term (room + 1)) (fun room => term (room + 1)) rfl rfl (fun room₂ room₂' hlt₂ hrooms₂ => ?_) hrooms₁
  exact copies_binary hrooms₂ product? (h _ _ (by omega) hrooms₂)

theorem copies_expression (hrooms : Rooms lax room room')
    (h : ∀ fewer fewer', fewer < room → Rooms lax fewer fewer' →
      Copies s f lax (Expr.relocate f) (factor fewer) (factor fewer')) :
    Copies s f lax (Expr.relocate f) (expression room) (expression room') := by
  refine .of_succ _ _ rfl rfl (fun room₁ room₁' hlt₁ hrooms₁ => ?_) hrooms
  refine .of_succ (fun room => expression (room + 1)) (fun room => expression (room + 1)) rfl rfl
    (fun room₂ room₂' hlt₂ hrooms₂ => ?_) hrooms₁
  exact copies_binary hrooms₂ sum?
    (copies_term hrooms₂ fun fewer fewer' hlt => h fewer fewer' (by omega))

/-- Reading an integer literal at another place. -/
theorem copies_readInt (hrooms : Rooms lax room room') (literal : IntText) (location : Location) :
    Copies s f lax id (Parser.literal (Literal.readInt Host.digits literal.text location) room)
      (Parser.literal (Literal.readInt Host.digits literal.text (f location)) room') := by
  have hlimit : ∀ limit ∈ Host.digits, 19 ≤ limit :=
    fun limit hmem => Nat.le_trans (by decide) (Host.le_digits limit hmem)
  obtain ⟨calls, -, hread⟩ := Literal.readInt_eq hlimit literal location
  obtain ⟨calls', -, hread'⟩ := Literal.readInt_eq hlimit literal (f location)
  refine copies_literal hrooms ?_
  cases hvalue : Literal.int? literal with
  | some value =>
      rw [hvalue] at hread hread'
      exact .inl ⟨value, calls, calls', hread, hread'⟩
  | none =>
      rw [hvalue] at hread hread'
      exact .inr ⟨_, calls, calls', hread, hread'⟩

omit [Host] in
/-- Reading a float literal at another place. -/
theorem copies_readFloat (hrooms : Rooms lax room room') (literal : FloatText)
    (location : Location) :
    Copies s f lax id (Parser.literal (Literal.readFloat literal.text location) room)
      (Parser.literal (Literal.readFloat literal.text (f location)) room') := by
  obtain ⟨calls, hread⟩ := Literal.readFloat_eq literal location
  obtain ⟨calls', hread'⟩ := Literal.readFloat_eq literal (f location)
  refine copies_literal hrooms ?_
  cases hvalue : Literal.float? literal with
  | some value =>
      rw [hvalue] at hread hread'
      exact .inl ⟨value, calls, calls', hread, hread'⟩
  | none =>
      rw [hvalue] at hread hread'
      exact .inr ⟨_, calls, calls', hread, hread'⟩

theorem copies_operand (hrooms : Rooms lax room room')
    (h : Copies s f lax (Expr.relocate f) (expression room) (expression room')) :
    Copies s f lax (Expr.relocate f) (factor (room + 1)) (factor (room' + 1)) := by
  rw [factor, factor]
  refine .bind (copies_peek hrooms) fun ⟨lexeme, location⟩ => ?_
  cases lexeme with
  | int literal =>
      exact .bind (copies_advance hrooms) fun _ => .bind (copies_newId hrooms) fun number =>
        .bind (copies_readInt hrooms literal location) fun value =>
          copies_node hrooms (Expr.int ⟨number, location⟩ value)
  | float literal =>
      exact .bind (copies_advance hrooms) fun _ => .bind (copies_newId hrooms) fun number =>
        .bind (copies_readFloat hrooms literal location) fun value =>
          copies_node hrooms (Expr.float ⟨number, location⟩ value)
  | string text =>
      exact .bind (copies_advance hrooms) fun _ => .bind (copies_newId hrooms) fun number =>
        copies_node hrooms (Expr.string ⟨number, location⟩ text)
  | name text =>
      exact .bind (copies_advance hrooms) fun _ => .bind (copies_newId hrooms) fun number =>
        copies_node hrooms (Expr.name ⟨number, location⟩ text)
  | symbol symbol =>
      by_cases hopen : symbol = .openParen
      · subst hopen
        exact .bind (copies_advance hrooms) fun _ => .bind h fun value =>
          .bind (copies_expect hrooms (.symbol .closeParen)) fun _ => .pure value
      by_cases hminus : symbol = .minus
      · subst hminus
        exact .bind (copies_advance hrooms) fun _ => .bind h fun operand =>
          .bind (copies_newId hrooms) fun number =>
            copies_node hrooms (Expr.negate ⟨number, location⟩ operand)
      have hturn : Copies s f lax (Expr.relocate f) (unexpected operandStart room)
        (unexpected operandStart room') := copies_unexpected hrooms operandStart
      cases symbol <;> first | exact hturn | contradiction
  | finish => exact copies_unexpected hrooms operandStart

theorem copies_factor (hrooms : Rooms lax room room') :
    Copies s f lax (Expr.relocate f) (factor room) (factor room') := by
  induction room using Nat.strong_induction_on generalizing room' with
  | _ room ih =>
    refine .of_succ _ _ rfl rfl (fun fewer fewer' hlt hrooms => ?_) hrooms
    exact copies_operand hrooms
      (copies_expression hrooms fun _ _ hlt' hrooms => ih _ (by omega) hrooms)

theorem copies_sum (hrooms : Rooms lax room room') :
    Copies s f lax (Expr.relocate f) (expression room) (expression room') :=
  copies_expression hrooms fun _ _ _ => copies_factor

end Expressions

/-! ## Statements -/

section Statements

theorem copies_readStatement (hrooms : Rooms lax room room') :
    Copies s f lax (Stmt.relocate f) (readStatement room) (readStatement room') :=
  .call (fun _ _ hrooms => .bind (copies_expect hrooms _) fun first =>
    .bind (copies_expect hrooms .name) fun target => .bind (copies_expect hrooms _) fun _ =>
      copies_node hrooms (Stmt.read first.location target.text)) hrooms

variable [Host]

theorem copies_printStatement (hrooms : Rooms lax room room') :
    Copies s f lax (Stmt.relocate f) (printStatement room) (printStatement room') :=
  .call (fun _ _ hrooms => .bind (copies_expect hrooms _) fun first =>
    .bind (copies_sum hrooms) fun value => .bind (copies_expect hrooms _) fun _ =>
      copies_node hrooms (Stmt.print first.location value)) hrooms

theorem copies_assignStatement (hrooms : Rooms lax room room') :
    Copies s f lax (Stmt.relocate f) (assignStatement room) (assignStatement room') :=
  .call (fun _ _ hrooms => .bind (copies_expect hrooms .name) fun target =>
    .bind (copies_expect hrooms _) fun _ => .bind (copies_sum hrooms) fun value =>
      .bind (copies_expect hrooms _) fun _ =>
        copies_node hrooms (Stmt.assign target.location target.text value)) hrooms

omit [Host] in
theorem copies_sequence (hrooms : Rooms lax room room') {statement statement' : Action Stmt}
    (h : Copies s f lax (Stmt.relocate f) statement statement') (rounds : Nat) :
    Copies s f lax (List.map (Stmt.relocate f)) (sequence statement room rounds)
      (sequence statement' room' rounds) := by
  induction rounds with
  | zero => exact .throw .missing
  | succ rounds ih =>
      refine .bind (copies_peek hrooms) fun t => ?_
      have hkind : (t.relocate f).kind = t.kind := rfl
      rw [hkind]
      split
      next => exact .bind h fun first => .bind ih fun rest => .pure (first :: rest)
      next => exact .pure []

/-- Blocks do the same, with any words behind them. -/
def CopiesBlock (s : Sentence) (f : Location → Location) (lax : Prop) (room room' : Nat) : Prop :=
  ∀ terminators, Copies s f lax (List.map (Stmt.relocate f)) (block terminators room)
    (block terminators room')

theorem copies_branch (hrooms : Rooms lax room room') (h : CopiesBlock s f lax room room') :
    Copies s f lax (Stmt.relocate f) (branchStatement (room + 1)) (branchStatement (room' + 1)) := by
  rw [branchStatement, branchStatement]
  refine .bind (copies_expect hrooms _) fun first => .bind (copies_sum hrooms) fun condition =>
    .bind (copies_expect hrooms _) fun _ => .bind (h _) fun yes =>
      .bind (copies_accept hrooms _) fun otherwise => ?_
  have hrest (no : List Stmt) : Copies s f lax (Stmt.relocate f)
      (do
        let _ ← expect (.symbol .endWord) room
        node (Stmt.branch first.location condition yes no) room)
      (do
        let _ ← expect (.symbol .endWord) room'
        node (Stmt.branch (f first.location) (condition.relocate f)
          (yes.map (Stmt.relocate f)) (no.map (Stmt.relocate f))) room') := by
    refine .bind (copies_expect hrooms _) fun _ => ?_
    have hnode := @copies_node _ s f lax _ _ hrooms (Stmt.relocate f)
      (Stmt.branch first.location condition yes no)
    simpa only [Stmt.relocate, Stmt.relocateAll_eq_map] using hnode
  cases otherwise with
  | none => exact .bind (.pure []) hrest
  | some _ => exact .bind (h _) hrest

theorem copies_loop (hrooms : Rooms lax room room') (h : CopiesBlock s f lax room room') :
    Copies s f lax (Stmt.relocate f) (loopStatement (room + 1)) (loopStatement (room' + 1)) := by
  rw [loopStatement, loopStatement]
  refine .bind (copies_expect hrooms _) fun first => .bind (copies_sum hrooms) fun condition =>
    .bind (copies_expect hrooms _) fun _ => .bind (h _) fun body =>
      .bind (copies_expect hrooms _) fun _ => ?_
  have hnode := @copies_node _ s f lax _ _ hrooms (Stmt.relocate f)
    (Stmt.loop first.location condition body)
  simpa only [Stmt.relocate, Stmt.relocateAll_eq_map, Token.relocate_location] using hnode

theorem copies_statement (hrooms : Rooms lax room room')
    (h : ∀ fewer fewer', fewer + 2 ≤ room → Rooms lax fewer fewer' →
      CopiesBlock s f lax fewer fewer') :
    Copies s f lax (Stmt.relocate f) (statement room) (statement room') := by
  refine .of_succ _ _ rfl rfl (fun room₁ room₁' hlt hrooms => ?_) hrooms
  rw [statement, statement]
  refine .bind (copies_peek hrooms) fun ⟨lexeme, location⟩ => ?_
  have hturn : Copies s f lax (Stmt.relocate f) (unexpected statementStart room₁)
    (unexpected statementStart room₁') := copies_unexpected hrooms statementStart
  cases lexeme with
  | name => exact copies_assignStatement hrooms
  | symbol symbol =>
      cases symbol with
      | readWord => exact copies_readStatement hrooms
      | printWord => exact copies_printStatement hrooms
      | ifWord =>
          exact .of_succ _ _ rfl rfl
            (fun _ _ hlt' hrooms => copies_branch hrooms (h _ _ (by omega) hrooms)) hrooms
      | whileWord =>
          exact .of_succ _ _ rfl rfl
            (fun _ _ hlt' hrooms => copies_loop hrooms (h _ _ (by omega) hrooms)) hrooms
      | _ => exact hturn
  | int | float | string | finish => exact hturn

theorem copies_block (hrooms : Rooms lax room room')
    (h : ∀ fewer fewer', fewer < room → Rooms lax fewer fewer' →
      Copies s f lax (List.map (Stmt.relocate f)) (statements fewer) (statements fewer')) :
    CopiesBlock s f lax room room' := by
  intro terminators
  refine .of_succ (block terminators) (block terminators) rfl rfl
    (fun _ _ hlt hrooms => ?_) hrooms
  refine .bind (h _ _ hlt hrooms) fun body => .bind (copies_check hrooms terminators) fun found => ?_
  cases found with
  | false => exact copies_unexpected hrooms _
  | true => exact .pure body

theorem copies_statements (hrooms : Rooms lax room room') :
    Copies s f lax (List.map (Stmt.relocate f)) (statements room) (statements room') := by
  induction room using Nat.strong_induction_on generalizing room' with
  | _ room ih =>
    refine .of_succ _ _ rfl rfl (fun fewer fewer' hlt hrooms => .bind copies_ahead fun rounds => ?_)
      hrooms
    refine copies_sequence hrooms (copies_statement hrooms fun _ _ hlt' hrooms => ?_) rounds
    exact copies_block hrooms fun _ _ hlt'' hrooms => ih _ (by omega) hrooms

end Statements

/-! ## Programs -/

theorem copies_declaration (hrooms : Rooms lax room room') :
    Copies s f lax (Declaration.relocate f) (declaration room) (declaration room') := by
  refine .call (fun _ _ hrooms => .bind (copies_expect hrooms _) fun first =>
    .bind (copies_expect hrooms .name) fun target => .bind (copies_expect hrooms _) fun _ =>
      .bind (copies_accept hrooms typeStart) fun named => ?_) hrooms
  cases named with
  | none => exact copies_unexpected hrooms typeStart
  | some named =>
      refine .bind (copies_expect hrooms _) fun _ => ?_
      rw [Token.relocate_lexeme]
      cases lookUp type? named.lexeme with
      | none => exact .throw .missing
      | some type => exact copies_node hrooms (Declaration.mk first.location target.text type)

theorem copies_declarations (hrooms : Rooms lax room room') (rounds : Nat) :
    Copies s f lax (List.map (Declaration.relocate f)) (declarations room rounds)
      (declarations room' rounds) := by
  induction rounds with
  | zero => exact .throw .missing
  | succ rounds ih =>
      refine .bind (copies_check hrooms _) fun found => ?_
      cases found with
      | false => exact .pure []
      | true =>
          exact .bind (copies_declaration hrooms) fun first =>
            .bind ih fun rest => .pure (first :: rest)

/-- A whole sentence at other places is the same program at other places. -/
theorem copies_program [Host] (hrooms : Rooms lax room room') :
    Copies s f lax (Program.relocate f) (program room) (program room') := by
  refine .call (fun _ _ hrooms => .bind copies_ahead fun rounds =>
    .bind (copies_declarations hrooms rounds) fun declared => .bind (copies_statements hrooms)
      fun body => .bind (copies_check hrooms _) fun found => ?_) hrooms
  cases found with
  | false =>
      have hempty : (body.map (Stmt.relocate f)).isEmpty = body.isEmpty := List.isEmpty_map ..
      rw [hempty]
      exact copies_unexpected hrooms _
  | true => exact copies_node hrooms (Program.mk declared body)

end ImpToC.Parser
