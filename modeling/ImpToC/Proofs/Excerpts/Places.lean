import Mathlib.Logic.Function.Basic
import ImpToC.Proofs.Faults.Stages
import ImpToC.Proofs.Layout.Parsing
import ImpToC.Proofs.Layout.Passes
import ImpToC.Proofs.Scanning.Places

/-!
# The places of faults

Parsing and checking make no locations of their own: what they find wrong with a sentence is at the
place of one of its tokens, and that is a place of the text which the sentence is read from.
-/

namespace ImpToC

/-- A place that does not move unless some others do is one of them. -/
theorem Location.mem_of_fixed {places : List Location} {l : Location}
    (h : ∀ f : Location → Location, (∀ m ∈ places, f m = m) → f l = l) : l ∈ places := by
  by_contra hl
  -- Otherwise it can be moved on its own.
  have hmove := h (Function.update id l (l.advance ' ')) fun m hm => by
    apply Function.update_of_ne
    intro heq
    exact hl (heq ▸ hm)
  rw [Function.update_self] at hmove
  have hbefore := l.before_advance ' '
  rw [hmove] at hbefore
  exact hbefore.irrefl

/-- A sentence stays as it is if none of its tokens moves. -/
theorem Sentence.relocate_eq_self {f : Location → Location} {s : Sentence}
    (h : ∀ t ∈ s.tokens, f t.location = t.location) : s.relocate f = s := by
  rw [tokens, List.forall_mem_append, List.forall_mem_singleton] at h
  have hwords : s.words.map (Token.relocate f) = s.words.map id := by
    apply List.map_congr_left
    intro t ht
    rw [Token.relocate, h.1 t ht]
    rfl
  simp only [relocate, hwords, List.map_id, h.2]

/-- What is wrong with a sentence is found at one of its tokens. -/
theorem Parser.location_mem_of_parse {host : Host} {s : Sentence} {fault : Fault}
    (h : parse host s = .error fault) : ∃ t ∈ s.tokens, fault.location = some t.location := by
  obtain ⟨index, t, ht, hdown⟩ := exists_turnsDown_of_parse h
  exact ⟨t, List.mem_of_getElem? ht, hdown.location⟩

/-- What is wrong with the types of a program is found at a token of its sentence. -/
theorem Typing.location_mem_of_extend [Host] {s : Sentence} {p : Program} {t : Typing} {fault : Fault}
    {l : Location} (hparse : Program.ofSentence s = .ok p)
    (h : Typing.empty.extend p = (some fault, t)) (hl : fault.location = some l) :
    l ∈ s.tokens.map Token.location := by
  -- A move that fixes all tokens fixes the tree, and with it what is found in the tree.
  apply Location.mem_of_fixed
  intro f hf
  have hs : s.relocate f = s := Sentence.relocate_eq_self (List.forall_mem_map.mp hf)
  have hp : p.relocate f = p := by
    have hmoved := Parser.parse_relocate f inferInstance s
    rw [hs, show Parser.parse _ s = .ok p from hparse] at hmoved
    exact (Except.ok.inj hmoved).symm
  have hfault := Typing.extend_relocate f .empty p
  rw [hp, show Typing.empty.relocate f = .empty from rfl, h] at hfault
  have hmoved : fault = fault.relocate f := Option.some.inj (congrArg Prod.fst hfault)
  have hlocation := congrArg Fault.location hmoved
  rw [Fault.relocate, hl] at hlocation
  exact (Option.some.inj hlocation).symm

/-! ## Places of a text -/

/-- Where no trivia follow, no blank does. -/
theorem not_isBlank_of_trivia {ahead : List Char} (h : trivia false ahead = []) :
    ∀ c ∈ ahead.head?, isBlank c = false := by
  intro c hc
  obtain ⟨rest, rfl⟩ := List.head?_eq_some_iff.mp hc
  by_contra hblank
  rw [trivia, if_neg Bool.false_ne_true, if_pos (by simpa using hblank)] at h
  cases h

/-- The end of a sentence is behind its whole text. -/
theorem Tokenized.finish_eq {strings : Bool} {file : String} {before text : List Char}
    {words : List Token} {finish : Location} (h : Tokenized strings file before text words finish) :
    finish = .behind file (before ++ text) := by
  induction h with
  | finish => rfl
  | word _ _ _ _ ih => simpa using ih

/-- A token is at a place of its text where no blank stands. -/
theorem Source.exists_splitsAt {source : Source} {s : Sentence} (h : source.scan = .ok s) :
    ∀ t ∈ s.tokens, ∃ front ahead, source.SplitsAt t.location front ahead ∧
      ∀ c ∈ ahead.head?, isBlank c = false := by
  rw [Sentence.tokens, List.forall_mem_append, List.forall_mem_singleton]
  constructor
  · intro t ht
    obtain ⟨front, rest, hsplit, hstands⟩ := shows_of_scan h t ht
    obtain ⟨c, text, hspelling, hblank, -⟩ := hstands.word.exists_spelling
    refine ⟨front, t.lexeme.spelling ++ rest, hsplit, fun d hd => ?_⟩
    rw [hspelling] at hd
    cases hd
    exact hblank
  · have hfinish := (Sentence.ofSource_eq_ok_iff.mp h).finish_eq
    refine ⟨source.text, [], ⟨(List.append_nil _).symm, hfinish⟩, ?_⟩
    intro c hc
    cases hc

end ImpToC
