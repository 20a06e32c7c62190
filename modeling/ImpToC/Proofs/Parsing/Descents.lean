import ImpToC.Proofs.Literals.Conversions
import ImpToC.Proofs.Parsing.Nesting
import ImpToC.Proofs.Parsing.Readers
import ImpToC.Proofs.Parsing.Trees

/-!
# Descents and passes

A parser descends from the program to its operands, and a pass keeps in its state what the descent
has open. Where no more is open than a bound allows and the calls suffice for that bound, every
method reads what the pass reads, comes back in front of the same token, and stops at the mistake at
which the pass stops. No token is missing then, no call is one too many, and no conversion turns
down its text.
-/

namespace ImpToC.Parser

open Grammar

variable {α β : Type} {s : Sentence} {d : Reader} {m : State} {t : Token} {room : Nat}

/-! ## Readers and states -/

/-- A reader of a sentence is at the place where a pass is in a state. -/
structure Reached (s : Sentence) (d : Reader) (m : State) : Prop extends Over s d where
  moves : Moves .start (s.words.take d.position) m

theorem Reached.start (s : Sentence) : Reached s (.start s) .start := ⟨.start s, .nil _⟩

namespace Reached

/-- The next token is passed with a move of the pass. -/
theorem advance {m' : State} (h : Reached s d m) (ht : d.next? = some t) (hmove : Move m t m') :
    Reached s { d with position := d.position + 1 } m' := by
  have hword := h.word_of_next ht hmove.lexeme_ne_finish
  obtain ⟨hlt, rfl⟩ := List.getElem?_eq_some_iff.mp hword
  refine ⟨⟨h.tokens, hlt⟩, ?_⟩
  rw [List.take_succ_eq_append_getElem hlt]
  exact h.moves.append (.single hmove)

/-- Where the pass turns the next token down it stops. -/
theorem stopsAt {fault : Fault} (h : Reached s d m) (ht : d.next? = some t)
    (hstep : t.lexeme ≠ .finish → m.step t = .error fault)
    (hend : t.lexeme = .finish → m.finish t.location = .error fault) :
    StopsAt s d.position fault := by
  rcases h.next_cases with ⟨t', ht', hword⟩ | ⟨ht', hall⟩
  · obtain rfl := Option.some.inj (ht.symm.trans ht')
    obtain ⟨hlt, hget⟩ := List.getElem?_eq_some_iff.mp hword
    have hmem : t ∈ s.words := hget ▸ List.getElem_mem hlt
    have hsplit : s.words = s.words.take d.position ++ t :: s.words.drop (d.position + 1) := by
      rw [← hget, List.getElem_cons_drop, List.take_append_drop]
    have hstop := StopsAt.word hsplit h.moves (hstep (s.words_ne_finish t hmem))
    rwa [List.length_take_of_le h.inside] at hstop
  · obtain rfl := Option.some.inj (ht.symm.trans ht')
    have hmoves := h.moves
    rw [hall, List.take_length] at hmoves
    rw [hall]
    exact .finish hmoves (hend rfl)

/-- A token that the pass does not expect here is where it stops. -/
theorem stopsAt_unexpected (h : Reached s d m) (ht : d.next? = some t)
    (hinside : ¬(m.phase = .fresh ∧ m.blocks = [])) (hstep : m.step t = .error (m.unexpected t)) :
    StopsAt s d.position (m.unexpected t) := by
  refine h.stopsAt ht (fun _ => hstep) fun hfinish => finish_eq_error_iff.mpr ⟨hinside, ?_⟩
  obtain ⟨lexeme, location⟩ := t
  obtain rfl : lexeme = .finish := hfinish
  rfl

end Reached

/-! ## Outcomes -/

/-- An outcome agrees with a pass: what is returned and where satisfies a condition, or there is the
mistake at which the pass stops. -/
def Agrees (s : Sentence) (condition : α → Reader → Prop) : EStateM.Result Stop Reader α → Prop
  | .ok a d => condition a d
  | .error (.fault fault) d => StopsAt s (d.indexOf fault) fault
  | .error _ _ => False

namespace Agrees

variable {condition condition' : α → Reader → Prop} {result : β → Reader → Prop}

theorem mono {outcome : EStateM.Result Stop Reader α} (h : Agrees s condition outcome)
    (hall : ∀ a d, condition a d → condition' a d) : Agrees s condition' outcome := by
  cases outcome with
  | ok a d => exact hall a d h
  | error stop d => cases stop <;> exact h

/-- What goes on behind an action agrees if it does wherever the action comes to. -/
theorem bind {x : Action α} {k : α → Action β} (hx : Agrees s condition (x d))
    (hk : ∀ a d', condition a d' → Agrees s result (k a d')) : Agrees s result ((x >>= k) d) := by
  cases hcase : x d with
  | ok a d' =>
      rw [hcase] at hx
      rw [bind_of_ok hcase]
      exact hk a d' hx
  | error stop d' =>
      rw [hcase] at hx
      rw [bind_of_error hcase]
      cases stop <;> exact hx

/-- An action that is known to return goes on with what it returns. -/
theorem bind_ok {x : Action α} {k : α → Action β} {a : α} {d' : Reader} (hx : x d = .ok a d')
    (hk : Agrees s result (k a d')) : Agrees s result ((x >>= k) d) := by
  rwa [bind_of_ok hx]

end Agrees

/-! ## Tokens -/

/-- A token that the pass turns down in favour of some others agrees with asking for these. -/
theorem Reached.unexpected {condition : α → Reader → Prop} {expected : List Kind}
    (h : Reached s d m) (ht : d.next? = some t) (hexpected : m.expected = expected)
    (hinside : ¬(m.phase = .fresh ∧ m.blocks = [])) (hstep : m.step t = .error (m.unexpected t))
    (hroom : 5 ≤ room) : Agrees s condition ((Parser.unexpected expected room : Action α) d) := by
  have hstop := h.stopsAt_unexpected ht hinside hstep
  rw [State.unexpected, hexpected] at hstop
  rw [unexpected_eq ht expected hroom]
  exact hstop

/-- Asking for a token of a kind, where the pass turns all others down. -/
theorem Reached.expect {kind : Kind} (h : Reached s d m) (ht : d.next? = some t)
    (hexpected : m.expected = [kind]) (hphase : m.phase ≠ .fresh)
    (hstep : t.kind ≠ kind → m.step t = .error (m.unexpected t)) (hkind : kind ≠ .finish)
    (hroom : 6 ≤ room) :
    Agrees s (fun found d' => found = t ∧ t.kind = kind ∧ d' = { d with position := d.position + 1 })
      (Parser.expect kind room d) := by
  rw [expect_eq ht kind hroom]
  split
  next heq =>
    have hfinish : t.lexeme ≠ .finish := fun hfinish => hkind (heq ▸ congrArg Lexeme.kind hfinish)
    rw [advance_eq ht hfinish (by omega)]
    exact ⟨rfl, heq, rfl⟩
  next hne =>
    exact h.unexpected ht hexpected (fun hboth => hphase hboth.1) (hstep hne) (by omega)

/-! ## Operators -/

/-- How much is complete in front of a word. -/
def reachOf (lexeme : Lexeme) : Reach :=
  if (lookUp product? lexeme).isSome then .product
  else if (lookUp sum? lexeme).isSome then .sum
  else .closer

theorem reachOf_eq_product_iff {lexeme : Lexeme} :
    reachOf lexeme = .product ↔ (lookUp product? lexeme).isSome := by
  unfold reachOf
  split <;> simp_all
  split <;> simp

theorem reachOf_eq_sum_iff {lexeme : Lexeme} :
    reachOf lexeme = .sum ↔ (lookUp sum? lexeme).isSome := by
  have hsum (h : (lookUp product? lexeme).isSome) : (lookUp sum? lexeme).isSome = false := by
    cases lexeme with
    | symbol symbol => cases symbol <;> first | rfl | cases h
    | _ => rfl
  unfold reachOf
  split
  next h => simp [hsum h]
  next => split <;> simp_all

/-- In front of a closer a token is turned down that is not the one in question: a parenthesis if
one is open, or what ends the expression. -/
theorem step_of_closer {purpose : Purpose} {frames frames' : List Frame} {value value' : Expr}
    {k : Nat} (hphase : m.phase = .operator purpose frames value)
    (hcomplete : complete .closer m.nextId frames value = (k, frames', value'))
    (hreach : reachOf t.lexeme = .closer) {symbol : Symbol}
    (hsymbol : symbol = if frames' = [] then purpose.closer else .closeParen)
    (hkind : t.kind ≠ .symbol symbol) : m.step t = .error (m.unexpected t) := by
  obtain ⟨lexeme, location⟩ := t
  simp only [State.step, hphase, State.stepOperator]
  cases lexeme with
  | symbol found =>
      have hproduct : product? found = none := by
        refine Option.not_isSome_iff_eq_none.mp fun hsome => ?_
        cases hreach.symm.trans (reachOf_eq_product_iff.mpr hsome)
      have hsum : sum? found = none := by
        refine Option.not_isSome_iff_eq_none.mp fun hsome => ?_
        cases hreach.symm.trans (reachOf_eq_sum_iff.mpr hsome)
      have hne : found ≠ symbol := fun heq => hkind (congrArg Kind.symbol heq)
      simp only [hproduct, hsum, hcomplete]
      cases frames' with
      | nil =>
          rw [if_pos rfl] at hsymbol
          exact if_neg (hsymbol ▸ hne)
      | cons frame frames' =>
          rw [if_neg (List.cons_ne_nil _ _)] at hsymbol
          exact if_neg (hsymbol ▸ hne)
  | int | float | string | name | finish => rfl

theorem expected_of_closer {purpose : Purpose} {frames frames' : List Frame} {value value' : Expr}
    {k : Nat} (hphase : m.phase = .operator purpose frames value)
    (hcomplete : complete .closer m.nextId frames value = (k, frames', value')) :
    m.expected = [.symbol (if frames' = [] then purpose.closer else .closeParen)] := by
  have hcount := count_group_of_complete hcomplete
  simp only [State.expected, hphase]
  cases frames' with
  | nil =>
      have hnone : frames.contains .group = false := by
        rw [List.count_nil, eq_comm, List.count_eq_zero] at hcount
        simpa using hcount
      simp only [hnone]
      rfl
  | cons frame frames' =>
      obtain rfl := eq_group_of_complete_closer hcomplete
      have hsome : frames.contains .group = true := by
        rw [List.contains_iff_mem, ← List.count_pos_iff, ← hcount, List.count_cons_self]
        exact Nat.succ_pos _
      simp only [hsome]
      rfl

/-! ## Expressions -/

/-- A reader is behind the value of an operand, in whose place the pass may have frames of this
operand still open. The next token completes both to the same. -/
def Behind (s : Sentence) (d : Reader) (m : State) (purpose : Purpose) (frames : List Frame)
    (value : Expr) : Prop :=
  ∃ k frames' value',
    Reached s d { m with phase := .operator purpose frames' value', nextId := k } ∧
    ∀ t, d.next? = some t → complete (reachOf t.lexeme) k frames' value' =
      complete (reachOf t.lexeme) d.nextId frames value

/-- A pass that has no frames of the operand open is behind it. -/
theorem Behind.of_reached {purpose : Purpose} {frames : List Frame} {value : Expr}
    (h : Reached s d { m with phase := .operator purpose frames value, nextId := d.nextId }) :
    Behind s d m purpose frames value :=
  ⟨d.nextId, frames, value, h, fun _ _ => rfl⟩

section Operations

variable {operand : Action Expr} {purpose : Purpose} {frames : List Frame}

/-- A chain of operations agrees if its operands do. Its operators complete what is to their left,
and the operation is complete where its right operand ends. -/
theorem operations_agree (table : Symbol → Option BinOp) (own : Reach)
    (frame : BinOp → Expr → Frame) (follows : Reach → Prop) {m : State}
    (hown : ∀ lexeme, (lookUp table lexeme).isSome ↔ reachOf lexeme = own)
    (hmove : ∀ {m : State} {t : Token} {op : BinOp} {frames' : List Frame} {value value' : Expr}
      {k : Nat}, m.phase = .operator purpose frames' value' → lookUp table t.lexeme = some op →
      complete own m.nextId frames' value' = (k, frames, value) →
      Move m t { m with phase := .operand purpose (frame op value :: frames), nextId := k })
    (hsettled : Settled own frames)
    (hframe : ∀ op left reach k right, follows reach →
      complete reach k (frame op left :: frames) right =
        complete reach (k + 1) frames (.binary ⟨k, left.location⟩ op left right))
    (hoperand : ∀ op left d,
      Reached s d
        { m with phase := .operand purpose (frame op left :: frames), nextId := d.nextId } →
      Agrees s (fun right d' => d.position < d'.position ∧
        Behind s d' m purpose (frame op left :: frames) right ∧
        ∀ t, d'.next? = some t → follows (reachOf t.lexeme)) (operand d))
    (hroom : 1 ≤ room) {rounds : Nat} {left : Expr} (hbehind : Behind s d m purpose frames left)
    (hfollows : ∀ t, d.next? = some t → follows (reachOf t.lexeme))
    (hrounds : s.words.length < rounds + d.position) :
    Agrees s (fun value d' => d.position ≤ d'.position ∧ Behind s d' m purpose frames value ∧
      ∀ t, d'.next? = some t → follows (reachOf t.lexeme) ∧ reachOf t.lexeme ≠ own)
      (operations table operand room rounds left d) := by
  obtain ⟨k, frames', value', hreached, hcomplete⟩ := hbehind
  induction rounds generalizing d left k frames' value' with
  | zero =>
      have hinside := hreached.inside
      omega
  | succ rounds ih =>
      obtain ⟨t, ht⟩ := hreached.exists_next
      refine .bind_ok (peek_eq ht hroom) ?_
      cases hop : lookUp table t.lexeme with
      | none =>
          refine ⟨Nat.le_refl _, ⟨k, frames', value', hreached, hcomplete⟩, fun t' ht' => ?_⟩
          obtain rfl := Option.some.inj (ht.symm.trans ht')
          refine ⟨hfollows t ht, fun hreach => ?_⟩
          rw [← hown, hop] at hreach
          cases hreach
      | some op =>
          have hreach : reachOf t.lexeme = own := (hown _).mp (hop ▸ rfl)
          have hleft := hcomplete t ht
          rw [hreach, complete_of_settled hsettled] at hleft
          have hm := hmove (m := { m with phase := .operator purpose frames' value', nextId := k })
            rfl hop hleft
          refine .bind_ok (advance_eq ht hm.lexeme_ne_finish hroom) ?_
          refine .bind (hoperand op left _ (hreached.advance ht hm)) ?_
          rintro right d' ⟨hlt, ⟨k', frames₁, value₁, hreached', hcomplete'⟩, hfollows'⟩
          refine .bind_ok (newId_eq hroom) (.bind_ok (node_eq _ hroom) ?_)
          -- The operation has the next number, and the pass makes it where the next token stands.
          have hcomplete'' (t' : Token) (ht' : d'.next? = some t') :=
            (hcomplete' t' ht').trans (hframe op left _ _ right (hfollows' t' ht'))
          have hinside : d.position + 1 ≤ d'.position := Nat.le_of_lt hlt
          have hrest := ih (d := { d' with nextId := d'.nextId + 1 }) hfollows'
            (Nat.lt_of_lt_of_le hrounds (by dsimp only; omega)) k' frames₁ value₁
            ⟨⟨hreached'.tokens, hreached'.inside⟩, hreached'.moves⟩ hcomplete''
          refine hrest.mono ?_
          rintro value d'' ⟨hle, hbehind⟩
          exact ⟨Nat.le_trans (Nat.le_of_succ_le hinside) hle, hbehind⟩

end Operations

/-- A token of the kind of a symbol is that symbol. -/
theorem eq_of_kind_symbol {symbol : Symbol} (h : t.kind = .symbol symbol) :
    t = ⟨.symbol symbol, t.location⟩ := by
  obtain ⟨lexeme, location⟩ := t
  cases lexeme with
  | symbol => rw [Kind.symbol.inj h]
  | int | float | string | name | finish => cases h

section Closers

variable {purpose : Purpose} {frames : List Frame} {value : Expr}

/-- A parenthesis is closed around a value. -/
theorem Behind.closeParen (h : Behind s d m purpose (.group :: frames) value)
    (hcloser : ∀ t, d.next? = some t → reachOf t.lexeme = .closer) (hroom : 6 ≤ room) :
    Agrees s (fun _ d' => d' = { d with position := d.position + 1 } ∧
      Behind s d' m purpose frames value) (Parser.expect (.symbol .closeParen) room d) := by
  obtain ⟨k, frames', value', hreached, hcomplete⟩ := h
  obtain ⟨t, ht⟩ := hreached.exists_next
  have hgroup := hcomplete t ht
  rw [hcloser t ht] at hgroup
  refine (hreached.expect ht (expected_of_closer rfl hgroup) nofun
    (step_of_closer rfl hgroup (hcloser t ht) rfl) nofun hroom).mono ?_
  rintro _ d' ⟨-, hkind, rfl⟩
  rw [eq_of_kind_symbol hkind] at ht
  have hafter := hreached.advance ht (.groupEnd t.location rfl hgroup)
  exact ⟨rfl, .of_reached hafter⟩

/-- An expression ends at the word that its purpose has for it. -/
theorem Behind.close (h : Behind s d m purpose [] value)
    (hcloser : ∀ t, d.next? = some t → reachOf t.lexeme = .closer) (hroom : 6 ≤ room) :
    Agrees s (fun _ d' => d' = { d with position := d.position + 1 } ∧
      Reached s d' (m.close purpose d.nextId value))
      (Parser.expect (.symbol purpose.closer) room d) := by
  obtain ⟨k, frames', value', hreached, hcomplete⟩ := h
  obtain ⟨t, ht⟩ := hreached.exists_next
  have hend := hcomplete t ht
  rw [hcloser t ht] at hend
  refine (hreached.expect ht (expected_of_closer rfl hend) nofun
    (step_of_closer rfl hend (hcloser t ht) rfl) nofun hroom).mono ?_
  rintro _ d' ⟨-, hkind, rfl⟩
  rw [eq_of_kind_symbol hkind] at ht
  have hafter := hreached.advance ht (.close t.location rfl hend)
  refine ⟨rfl, ?_⟩
  cases purpose <;> exact hafter

end Closers

/-- How many calls a method for expressions of a level opens inside one another if nothing is nested
in the expression. -/
def callsOf : Level → Nat
  | .factor => 7
  | .product => 9
  | .sum => 11

/-- What can follow an expression of a level that has been read as far as it goes. -/
def Follows? : Level → Reach → Prop
  | .factor, _ => True
  | .product, reach => reach ≠ .product
  | .sum, reach => reach = .closer

/-- An action reads an expression of a level wherever one can stand in a sentence, if as many calls
as given suffice there for what can still be opened. -/
def Reads (s : Sentence) (n : Nat) (level : Level) (room : Nat) (action : Action Expr) : Prop :=
  ∀ ⦃d : Reader⦄ ⦃m : State⦄ ⦃purpose : Purpose⦄ ⦃frames : List Frame⦄, Reached s d m →
    m.phase = .operand purpose frames → m.nextId = d.nextId → Fits level frames →
    callsOf level + 5 * (n - m.depth) ≤ room →
    Agrees s (fun value d' => d.position < d'.position ∧ Behind s d' m purpose frames value ∧
      ∀ t, d'.next? = some t → Follows? level (reachOf t.lexeme)) (action d)

theorem lookUp_eq_some_iff {table : Symbol → Option α} {lexeme : Lexeme} {a : α} :
    lookUp table lexeme = some a ↔ ∃ symbol, lexeme = .symbol symbol ∧ table symbol = some a := by
  cases lexeme <;> simp [lookUp]

theorem Move.times_of_lookUp {op : BinOp} {purpose : Purpose} {frames frames' : List Frame}
    {value value' : Expr} {k : Nat} (hphase : m.phase = .operator purpose frames' value')
    (hop : lookUp product? t.lexeme = some op)
    (hcomplete : complete .product m.nextId frames' value' = (k, frames, value)) :
    Move m t { m with phase := .operand purpose (.product op value :: frames), nextId := k } := by
  obtain ⟨lexeme, location⟩ := t
  obtain ⟨symbol, rfl, hsymbol⟩ := lookUp_eq_some_iff.mp hop
  obtain ⟨hlevel, rfl⟩ := product?_eq_some_iff.mp hsymbol
  exact .times location hphase hlevel hcomplete

theorem Move.plus_of_lookUp {op : BinOp} {purpose : Purpose} {frames frames' : List Frame}
    {value value' : Expr} {k : Nat} (hphase : m.phase = .operator purpose frames' value')
    (hop : lookUp sum? t.lexeme = some op)
    (hcomplete : complete .sum m.nextId frames' value' = (k, frames, value)) :
    Move m t { m with phase := .operand purpose (.sum op value :: frames), nextId := k } := by
  obtain ⟨lexeme, location⟩ := t
  obtain ⟨symbol, rfl, hsymbol⟩ := lookUp_eq_some_iff.mp hop
  obtain ⟨hlevel, rfl⟩ := sum?_eq_some_iff.mp hsymbol
  exact .plus location hphase hlevel hcomplete

theorem Behind.rounds_enough {purpose : Purpose} {frames : List Frame} {value : Expr}
    (h : Behind s d m purpose frames value) :
    s.words.length < d.tokens.size - d.position + d.position := by
  obtain ⟨_, _, _, hreached, -⟩ := h
  exact hreached.toOver.rounds_enough

theorem depth_of_operand {purpose : Purpose} {frames : List Frame}
    (hphase : m.phase = .operand purpose frames) {frame : Frame} (hframe : frame.nests = false)
    (k : Nat) :
    ({ m with phase := .operand purpose (frame :: frames), nextId := k } : State).depth =
      m.depth := by
  simp [State.depth, hphase, hframe]

/-- A reader that has passed an operand of one token. -/
def Reader.passed (d : Reader) : Reader :=
  { d with position := d.position + 1, nextId := d.nextId + 1 }

/-- An operand that is one token is passed, and it has the next number. -/
theorem Reached.atom {purpose : Purpose} {frames : List Frame} {value : Expr} (h : Reached s d m)
    (ht : d.next? = some t) (hphase : m.phase = .operand purpose frames) (hid : m.nextId = d.nextId)
    (hatom : Expr.Atom value t.lexeme) (hmark : value.mark = ⟨d.nextId, t.location⟩) :
    Behind s d.passed m purpose frames value := by
  rw [← hid] at hmark
  have hreached := h.advance ht (.atom t.location hphase hatom hmark)
  rw [State.operandDone, hid] at hreached
  exact .of_reached ⟨⟨hreached.tokens, hreached.inside⟩, hreached.moves⟩

section Expressions

variable [Host] {n : Nat}

theorem Reads.term (h : Reads s n .factor room (factor room)) :
    Reads s n .product (room + 2) (term (room + 2)) := by
  intro d m purpose frames hreached hphase hid hfits hroom
  simp only [callsOf] at hroom
  rw [Parser.term, binary]
  refine .bind (h hreached hphase hid (fits_factor _) (by rw [callsOf]; omega)) ?_
  rintro left d' ⟨hlt, hbehind, -⟩
  refine .bind_ok rfl ?_
  refine (operations_agree product? .product .product (fun _ => True) (m := m) (fun _ => reachOf_eq_product_iff.symm)
    Move.times_of_lookUp hfits.settled_product (fun _ _ _ _ _ _ => rfl) ?_ (by omega) hbehind
    (fun _ _ => trivial) hbehind.rounds_enough).mono ?_
  · intro op left d hreached
    have hdepth := depth_of_operand hphase (show (Frame.product op left).nests = false from rfl)
      d.nextId
    have hright := h hreached rfl rfl (fits_factor _) (by rw [hdepth, callsOf]; omega)
    exact hright
  · rintro value d'' ⟨hle, hbehind, hfollows⟩
    exact ⟨Nat.lt_of_lt_of_le hlt hle, hbehind, fun t ht => (hfollows t ht).2⟩

theorem Reads.expression (h : Reads s n .product room (Parser.term room)) :
    Reads s n .sum (room + 2) (expression (room + 2)) := by
  intro d m purpose frames hreached hphase hid hfits hroom
  simp only [callsOf] at hroom
  rw [Parser.expression, binary]
  refine .bind (h hreached hphase hid hfits.product_of_sum (by rw [callsOf]; omega)) ?_
  rintro left d' ⟨hlt, hbehind, hfollows⟩
  refine .bind_ok rfl ?_
  refine (operations_agree sum? .sum .sum (· ≠ .product) (m := m) (fun _ => reachOf_eq_sum_iff.symm)
    Move.plus_of_lookUp hfits.settled_sum ?_ ?_ (by omega) hbehind hfollows
    hbehind.rounds_enough).mono ?_
  · intro op left reach k right hreach
    cases reach with
    | product => exact absurd rfl hreach
    | sum | closer => rfl
  · intro op left d hreached
    have hdepth := depth_of_operand hphase (show (Frame.sum op left).nests = false from rfl)
      d.nextId
    have hright := h hreached rfl rfl trivial (by rw [hdepth, callsOf]; omega)
    exact hright
  · rintro value d'' ⟨hle, hbehind, hfollows⟩
    refine ⟨Nat.lt_of_lt_of_le hlt hle, hbehind, fun t ht => ?_⟩
    obtain ⟨hproduct, hsum⟩ := hfollows t ht
    show reachOf t.lexeme = .closer
    cases hreach : reachOf t.lexeme with
    | product => exact absurd hreach hproduct
    | sum => exact absurd hreach hsum
    | closer => rfl

/-- An integer literal is read as its value, or turned down for it. -/
theorem factor_int {literal : IntText} {location : Location}
    (ht : d.next? = some ⟨.int literal, location⟩) (hroom : 7 ≤ room) :
    factor room d =
      match Literal.int? literal with
      | some value => .ok (.int ⟨d.nextId, location⟩ value) d.passed
      | none => .error (.fault ((Cause.invalidInt literal.text).fault location)) d.passed := by
  obtain ⟨room, rfl⟩ := Nat.exists_eq_add_of_le' (Nat.le_trans (by decide : 1 ≤ 7) hroom)
  have hlimit : ∀ limit ∈ Host.digits, 19 ≤ limit :=
    fun limit h => Nat.le_trans (by decide) (Host.le_digits limit h)
  obtain ⟨calls, -, hread⟩ := Literal.readInt_eq hlimit literal location
  rw [factor]
  refine (bind_of_ok (peek_eq ht (by omega))).trans ?_
  refine (bind_of_ok (advance_eq ht nofun (by omega))).trans ?_
  refine (bind_of_ok (newId_eq (by omega))).trans ?_
  cases hvalue : Literal.int? literal with
  | some value =>
      rw [hvalue] at hread
      refine (bind_of_ok (literal_eq_ok hread (by omega))).trans ?_
      exact node_eq _ (by omega)
  | none =>
      rw [hvalue] at hread
      exact bind_of_error (literal_eq_error hread (by omega))

/-- A float literal is read as its value, or turned down for it. -/
theorem factor_float {literal : FloatText} {location : Location}
    (ht : d.next? = some ⟨.float literal, location⟩) (hroom : 7 ≤ room) :
    factor room d =
      match Literal.float? literal with
      | some value => .ok (.float ⟨d.nextId, location⟩ value) d.passed
      | none => .error (.fault ((Cause.invalidFloat literal.text).fault location)) d.passed := by
  obtain ⟨room, rfl⟩ := Nat.exists_eq_add_of_le' (Nat.le_trans (by decide : 1 ≤ 7) hroom)
  obtain ⟨calls, hread⟩ := Literal.readFloat_eq literal location
  rw [factor]
  refine (bind_of_ok (peek_eq ht (by omega))).trans ?_
  refine (bind_of_ok (advance_eq ht nofun (by omega))).trans ?_
  refine (bind_of_ok (newId_eq (by omega))).trans ?_
  cases hvalue : Literal.float? literal with
  | some value =>
      rw [hvalue] at hread
      refine (bind_of_ok (literal_eq_ok hread (by omega))).trans ?_
      exact node_eq _ (by omega)
  | none =>
      rw [hvalue] at hread
      exact bind_of_error (literal_eq_error hread (by omega))

/-- A string or a name is read as it is. -/
theorem factor_string {text : String} {location : Location}
    (ht : d.next? = some ⟨.string text, location⟩) (hroom : 7 ≤ room) :
    factor room d = .ok (.string ⟨d.nextId, location⟩ text) d.passed := by
  obtain ⟨room, rfl⟩ := Nat.exists_eq_add_of_le' (Nat.le_trans (by decide : 1 ≤ 7) hroom)
  rw [factor]
  refine (bind_of_ok (peek_eq ht (by omega))).trans ?_
  refine (bind_of_ok (advance_eq ht nofun (by omega))).trans ?_
  refine (bind_of_ok (newId_eq (by omega))).trans ?_
  exact node_eq _ (by omega)

theorem factor_name {text : String} {location : Location}
    (ht : d.next? = some ⟨.name text, location⟩) (hroom : 7 ≤ room) :
    factor room d = .ok (.name ⟨d.nextId, location⟩ text) d.passed := by
  obtain ⟨room, rfl⟩ := Nat.exists_eq_add_of_le' (Nat.le_trans (by decide : 1 ≤ 7) hroom)
  rw [factor]
  refine (bind_of_ok (peek_eq ht (by omega))).trans ?_
  refine (bind_of_ok (advance_eq ht nofun (by omega))).trans ?_
  refine (bind_of_ok (newId_eq (by omega))).trans ?_
  exact node_eq _ (by omega)

section Operands

variable {purpose : Purpose} {frames : List Frame} {location : Location}

/-- What is read inside a parenthesis or a negation. -/
def ReadsInside (s : Sentence) (m : State) (purpose : Purpose) (frames : List Frame) (room : Nat) :
    Prop :=
  ∀ ⦃d : Reader⦄, Reached s d { m with phase := .operand purpose frames } → m.nextId = d.nextId →
    Agrees s (fun value d' => d.position < d'.position ∧ Behind s d' m purpose frames value ∧
      ∀ t, d'.next? = some t → reachOf t.lexeme = .closer) (expression room d)

theorem Reached.group (h : Reached s d m) (ht : d.next? = some ⟨.symbol .openParen, location⟩)
    (hphase : m.phase = .operand purpose frames) (hid : m.nextId = d.nextId)
    (hinside : ReadsInside s m purpose (.group :: frames) room) (hroom : 6 ≤ room) :
    Agrees s (fun value d' => d.position < d'.position ∧ Behind s d' m purpose frames value)
      (factor (room + 1) d) := by
  rw [factor]
  refine .bind_ok (peek_eq ht (by omega)) (.bind_ok (advance_eq ht nofun (by omega)) ?_)
  refine .bind (hinside (h.advance ht (.group location hphase)) hid) ?_
  rintro value d' ⟨hlt, hbehind, hcloser⟩
  refine .bind (hbehind.closeParen hcloser hroom) ?_
  rintro _ d'' ⟨rfl, hbehind'⟩
  exact ⟨Nat.lt_succ_of_lt (Nat.lt_of_succ_lt hlt), hbehind'⟩

theorem Reached.negation (h : Reached s d m) (ht : d.next? = some ⟨.symbol .minus, location⟩)
    (hphase : m.phase = .operand purpose frames) (hid : m.nextId = d.nextId)
    (hinside : ReadsInside s m purpose (.negate location :: frames) room) (hroom : 6 ≤ room) :
    Agrees s (fun value d' => d.position < d'.position ∧ Behind s d' m purpose frames value)
      (factor (room + 1) d) := by
  rw [factor]
  refine .bind_ok (peek_eq ht (by omega)) (.bind_ok (advance_eq ht nofun (by omega)) ?_)
  refine .bind (hinside (h.advance ht (.negate location hphase)) hid) ?_
  rintro operand d' ⟨hlt, ⟨k, frames', value', hreached, hcomplete⟩, hcloser⟩
  refine .bind_ok (newId_eq (by omega)) ?_
  rw [node_eq _ (by omega)]
  refine ⟨Nat.lt_of_succ_lt hlt, k, frames', value',
    ⟨⟨hreached.tokens, hreached.inside⟩, hreached.moves⟩, fun t ht' => ?_⟩
  -- In front of a closer, the negation is complete as well.
  rw [hcomplete t ht', hcloser t ht']
  rfl

theorem Reached.no_operand (h : Reached s d m) (ht : d.next? = some t)
    (hphase : m.phase = .operand purpose frames) (hkind : t.kind ∉ operandStart)
    (hroom : 7 ≤ room) {condition : Expr → Reader → Prop} :
    Agrees s condition (factor room d) := by
  obtain ⟨room, rfl⟩ := Nat.exists_eq_add_of_le' (Nat.le_trans (by decide : 1 ≤ 7) hroom)
  have hexpected : m.expected = operandStart := by rw [State.expected, hphase]
  have hplace : ¬(m.phase = .fresh ∧ m.blocks = []) := fun h => by cases hphase.symm.trans h.1
  obtain ⟨lexeme, location⟩ := t
  have hstep : m.step ⟨lexeme, location⟩ = .error (m.unexpected ⟨lexeme, location⟩) := by
    simp only [State.step, hphase, State.stepOperand]
    split <;> first | rfl | simp_all [Token.kind, Lexeme.kind, operandStart]
  have hturn : Agrees s condition
      ((Parser.unexpected operandStart room : Action Expr) d) :=
    h.unexpected ht hexpected hplace hstep (by omega)
  rw [factor]
  refine .bind_ok (peek_eq ht (by omega)) ?_
  cases lexeme with
  | int | float | string | name => simp [Token.kind, Lexeme.kind, operandStart] at hkind
  | finish => exact hturn
  | symbol symbol =>
      cases symbol with
      | openParen | minus => simp [Token.kind, Lexeme.kind, operandStart] at hkind
      | _ => exact hturn

end Operands

theorem reads_factor (hwithin : Within n s) (room : Nat) :
    Reads s n .factor room (factor room) := by
  induction room using Nat.strong_induction_on with
  | _ room ih =>
    intro d m purpose frames hreached hphase hid hfits hroom
    simp only [callsOf] at hroom
    obtain ⟨⟨lexeme, location⟩, ht⟩ := hreached.exists_next
    obtain ⟨rest, rfl⟩ := Nat.exists_eq_add_of_le' (Nat.le_trans (by decide : 5 ≤ 7)
      (Nat.le_trans (Nat.le_add_right _ _) hroom))
    have hinside {frame : Frame} (hframe : frame.nests = true) (hfits : Fits .sum (frame :: frames)) :
        ReadsInside s m purpose (frame :: frames) (rest + 4) := by
      intro d' hreached' hid'
      have hdepth : ({ m with phase := .operand purpose (frame :: frames) } : State).depth =
          m.depth + 1 := by
        simp only [State.depth, hphase, List.countP_cons, hframe, if_true]
        omega
      have hbound := hwithin.depth_le (List.take_prefix _ _) hreached'.moves
      rw [hdepth] at hbound
      have hread := (ih rest (by omega)).term.expression hreached' rfl hid' hfits
        (by rw [hdepth, callsOf]; omega)
      exact hread
    cases lexeme with
    | int literal =>
        rw [factor_int ht (by omega)]
        cases hvalue : Literal.int? literal with
        | some value =>
            refine ⟨Nat.lt_succ_self _, ?_, fun _ _ => trivial⟩
            exact hreached.atom ht hphase hid (.int _ hvalue) rfl
        | none =>
            have hstep : m.step ⟨.int literal, location⟩ =
                .error ((Cause.invalidInt literal.text).fault location) := by
              simp only [State.step, hphase, State.stepOperand, hvalue]
            exact hreached.stopsAt ht (fun _ => hstep) (fun h => by cases h)
    | float literal =>
        rw [factor_float ht (by omega)]
        cases hvalue : Literal.float? literal with
        | some value =>
            refine ⟨Nat.lt_succ_self _, ?_, fun _ _ => trivial⟩
            exact hreached.atom ht hphase hid (.float _ hvalue) rfl
        | none =>
            have hstep : m.step ⟨.float literal, location⟩ =
                .error ((Cause.invalidFloat literal.text).fault location) := by
              simp only [State.step, hphase, State.stepOperand, hvalue]
            exact hreached.stopsAt ht (fun _ => hstep) (fun h => by cases h)
    | string text =>
        rw [factor_string ht (by omega)]
        refine ⟨Nat.lt_succ_self _, ?_, fun _ _ => trivial⟩
        exact hreached.atom ht hphase hid (.string _ text) rfl
    | name text =>
        rw [factor_name ht (by omega)]
        refine ⟨Nat.lt_succ_self _, ?_, fun _ _ => trivial⟩
        exact hreached.atom ht hphase hid (.name _ text) rfl
    | symbol symbol =>
        by_cases hopen : symbol = .openParen
        · subst hopen
          refine (hreached.group ht hphase hid (hinside rfl trivial) (by omega)).mono ?_
          exact fun _ _ h => ⟨h.1, h.2, fun _ _ => trivial⟩
        by_cases hminus : symbol = .minus
        · subst hminus
          refine (hreached.negation ht hphase hid (hinside rfl trivial) (by omega)).mono ?_
          exact fun _ _ h => ⟨h.1, h.2, fun _ _ => trivial⟩
        refine hreached.no_operand ht hphase ?_ (by omega)
        simp [Token.kind, Lexeme.kind, operandStart, hopen, hminus]
    | finish =>
        have hkind : Kind.finish ∉ operandStart := by decide
        exact hreached.no_operand ht hphase hkind (by omega)

end Expressions

end ImpToC.Parser
