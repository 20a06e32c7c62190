import ImpToC.Proofs.Effects
import ImpToC.Syntax.Parser

/-!
# Readers of a sentence

A reader of a sentence always has a next token, since the end is never passed. What the methods do
with the next token is said here once, with the calls that each needs for it.
-/

namespace ImpToC.Parser

variable {α : Type} {s : Sentence} {d : Reader} {t : Token} {room : Nat}

/-- The index of the token at which a mistake is found: that of the next token, or of a literal,
which has been passed. -/
def Reader.indexOf (d : Reader) (fault : Fault) : Nat :=
  match fault.cause with
  | .invalidInt _ | .invalidFloat _ => d.position - 1
  | _ => d.position

/-- A reader of the tokens of a sentence. -/
structure Over (s : Sentence) (d : Reader) : Prop where
  tokens : d.tokens = s.tokens.toArray
  inside : d.position ≤ s.words.length

namespace Over

theorem start (s : Sentence) : Over s (.start s) := ⟨rfl, Nat.zero_le _⟩

theorem next?_eq (h : Over s d) : d.next? = s.tokens[d.position]? := by
  rw [Reader.next?, h.tokens, List.getElem?_toArray]

/-- There is always a next token: a word, or the end. -/
theorem next_cases (h : Over s d) :
    (∃ t, d.next? = some t ∧ s.words[d.position]? = some t) ∨
      d.next? = some ⟨.finish, s.finish⟩ ∧ d.position = s.words.length := by
  rw [h.next?_eq, Sentence.tokens]
  rcases Nat.lt_or_eq_of_le h.inside with hlt | heq
  · left
    rw [List.getElem?_append_left hlt]
    exact ⟨_, List.getElem?_eq_getElem hlt, List.getElem?_eq_getElem hlt⟩
  · right
    rw [heq, List.getElem?_append_right (Nat.le_refl _)]
    simp

theorem exists_next (h : Over s d) : ∃ t, d.next? = some t := by
  rcases h.next_cases with ⟨t, ht, -⟩ | ⟨ht, -⟩
  · exact ⟨t, ht⟩
  · exact ⟨_, ht⟩

/-- The next token is a word unless it is the end. -/
theorem word_of_next (h : Over s d) (ht : d.next? = some t) (hfinish : t.lexeme ≠ .finish) :
    s.words[d.position]? = some t := by
  rcases h.next_cases with ⟨t', ht', hword⟩ | ⟨ht', -⟩
  · rwa [Option.some.inj (ht.symm.trans ht')]
  · obtain rfl := Option.some.inj (ht.symm.trans ht')
    exact absurd rfl hfinish

/-- The end is behind all words. -/
theorem eq_length_of_finish (h : Over s d) (ht : d.next? = some t) (hfinish : t.lexeme = .finish) :
    d.position = s.words.length := by
  rcases h.next_cases with ⟨t', ht', hword⟩ | ⟨-, hall⟩
  · obtain rfl := Option.some.inj (ht.symm.trans ht')
    exact absurd hfinish (s.words_ne_finish t (List.mem_of_getElem? hword))
  · exact hall

/-- Another token than the end is passed. -/
theorem advance (h : Over s d) (ht : d.next? = some t) (hfinish : t.lexeme ≠ .finish) :
    Over s { d with position := d.position + 1 } :=
  ⟨h.tokens, (List.getElem?_eq_some_iff.mp (h.word_of_next ht hfinish)).1⟩

/-- A loop with a round for each token ahead has more rounds than there are words left. -/
theorem rounds_enough (h : Over s d) :
    s.words.length < d.tokens.size - d.position + d.position := by
  have hsize : d.tokens.size = s.words.length + 1 := by
    rw [h.tokens, List.size_toArray, Sentence.tokens, List.length_append, List.length_singleton]
  have hinside := h.inside
  omega

end Over

/-! ## Tokens -/

section Tokens

variable (ht : d.next? = some t)
include ht

theorem peek_eq (hroom : 1 ≤ room) : peek room d = .ok t d := by
  obtain ⟨room, rfl⟩ := Nat.exists_eq_add_of_le' hroom
  refine (bind_of_ok rfl).trans ?_
  rw [ht]
  rfl

theorem advance_eq (hfinish : t.lexeme ≠ .finish) (hroom : 1 ≤ room) :
    advance room d = .ok t { d with position := d.position + 1 } := by
  obtain ⟨room, rfl⟩ := Nat.exists_eq_add_of_le' hroom
  refine (bind_of_ok rfl).trans ?_
  rw [ht]
  simp only [hfinish, ne_eq, not_false_eq_true, if_true]
  rfl

theorem check_eq (kinds : List Kind) (hroom : 2 ≤ room) :
    check kinds room d = .ok (decide (t.kind ∈ kinds)) d := by
  obtain ⟨room, rfl⟩ := Nat.exists_eq_add_of_le' (Nat.le_of_succ_le hroom)
  exact (bind_of_ok (peek_eq ht (by omega))).trans rfl

theorem unexpected_eq (expected : List Kind) (hroom : 5 ≤ room) :
    (unexpected expected room : Action α) d =
      .error (.fault ((Cause.unexpectedToken t expected).fault t.location)) d := by
  obtain ⟨room, rfl⟩ := Nat.exists_eq_add_of_le' (Nat.le_trans (by decide : 1 ≤ 5) hroom)
  refine (bind_of_ok (peek_eq ht (by omega))).trans ?_
  rw [raise, if_pos (by rw [reportCalls]; omega)]
  rfl

theorem expect_eq (kind : Kind) (hroom : 6 ≤ room) :
    expect kind room d =
      if t.kind = kind then advance (room - 1) d
      else (unexpected [kind] (room - 1) : Action Token) d := by
  obtain ⟨room, rfl⟩ := Nat.exists_eq_add_of_le' (Nat.le_trans (by decide : 1 ≤ 6) hroom)
  refine (bind_of_ok (check_eq ht [kind] (by omega))).trans ?_
  by_cases hkind : t.kind = kind
  · simp [hkind]
  · simp [hkind]

end Tokens

theorem newId_eq (hroom : 1 ≤ room) : newId room d = .ok d.nextId { d with nextId := d.nextId + 1 } := by
  obtain ⟨room, rfl⟩ := Nat.exists_eq_add_of_le' hroom
  rfl

theorem node_eq (value : α) (hroom : 1 ≤ room) : node value room d = .ok value d := by
  obtain ⟨room, rfl⟩ := Nat.exists_eq_add_of_le' hroom
  rfl

theorem literal_eq_ok {read : Literal.Read α} {value : α} {calls : List (List Char)}
    (h : read [] = .ok value calls) (hroom : 1 ≤ room) : literal read room d = .ok value d := by
  obtain ⟨room, rfl⟩ := Nat.exists_eq_add_of_le' hroom
  simp only [literal, call, h]
  rfl

theorem literal_eq_error {read : Literal.Read α} {fault : Fault} {calls : List (List Char)}
    (h : read [] = .error (.fault fault) calls) (hroom : 5 ≤ room) :
    literal read room d = .error (.fault fault) d := by
  obtain ⟨room, rfl⟩ := Nat.exists_eq_add_of_le' (Nat.le_trans (by decide : 1 ≤ 5) hroom)
  simp only [literal, call, h]
  rw [raise, if_pos (by rw [reportCalls]; omega)]
  rfl

end ImpToC.Parser
