import Mathlib.Data.List.TakeWhile
import ImpToC.Proofs.Parsing.Language

/-!
# What a parser expects

A parser stops at the first token that no sentence goes on with, and names kinds of
token that some sentence does go on with. Both follow from what can be done in a state:
every state can be brought to the end of a sentence, and what the rules allow behind
some tokens is what their state moves on with.
-/

namespace ImpToC

/-- Some sentence begins with these kinds of token. -/
def Grammar.Viable (kinds : List Kind) : Prop :=
  ∃ rest, Grammar.Derives (.rule .program) (kinds ++ rest)

namespace Parser

open Grammar

/-! ## From a state to the end of a sentence -/

/-- Some more tokens lead to the end of a sentence. -/
def State.Finishes (s : State) : Prop :=
  ∃ rest s', Moves s rest s' ∧ s'.phase = .fresh ∧ s'.blocks = []

theorem Move.finishes {s m : State} {t : Token} (h : Move s t m) (hm : m.Finishes) :
    s.Finishes := by
  obtain ⟨rest, s', hmoves, hend⟩ := hm
  exact ⟨t :: rest, s', .cons h hmoves, hend⟩

namespace State

/-- Between two statements the open blocks can be closed. -/
theorem finishes_of_fresh {s : State} (hphase : s.phase = .fresh) : s.Finishes := by
  induction hblocks : s.blocks generalizing s with
  | nil => exact ⟨[], s, .nil s, hphase, hblocks⟩
  | cons block blocks ih =>
      cases block with
      | yes start condition before =>
          exact (Move.yesEnd default hphase hblocks).finishes (ih rfl rfl)
      | no start condition yes before =>
          exact (Move.noEnd default hphase hblocks).finishes (ih rfl rfl)
      | body start condition before =>
          exact (Move.bodyEnd default hphase hblocks).finishes (ih rfl rfl)

/-- Behind an operand the open parentheses can be closed, and then the expression. -/
theorem finishes_of_operator {s : State} {purpose : Purpose} {frames : List Frame} {value : Expr}
    (hphase : s.phase = .operator purpose frames value) : s.Finishes := by
  induction hcount : frames.count .group generalizing s frames value with
  | zero =>
      obtain ⟨n, value', hcomplete⟩ :
          ∃ n value', complete .closer s.nextId frames value = (n, [], value') :=
        exists_complete_closer hcount
      cases purpose with
      | print start =>
          exact (Move.printEnd default hphase hcomplete).finishes (finishes_of_fresh rfl)
      | assign start name =>
          exact (Move.assignEnd default hphase hcomplete).finishes (finishes_of_fresh rfl)
      | branch start =>
          exact (Move.thenWord default hphase hcomplete).finishes (finishes_of_fresh rfl)
      | loop start =>
          exact (Move.doWord default hphase hcomplete).finishes (finishes_of_fresh rfl)
  | succ k ih =>
      obtain ⟨n, frames', value', hcomplete, hrest⟩ :
          ∃ n frames' value', complete .closer s.nextId frames value =
              (n, .group :: frames', value') ∧ frames'.count .group = k :=
        exists_complete_closer_group hcount
      exact (Move.groupEnd default hphase hcomplete).finishes (ih rfl hrest)

theorem finishes_of_operand {s : State} {purpose : Purpose} {frames : List Frame}
    (hphase : s.phase = .operand purpose frames) : s.Finishes :=
  (Move.atom default hphase (.name ⟨s.nextId, default⟩ "x") rfl).finishes (finishes_of_operator rfl)

theorem finishes_of_typed {s : State} {declaration : Declaration}
    (hphase : s.phase = .typed declaration) : s.Finishes :=
  (Move.declared default hphase).finishes (finishes_of_fresh rfl)

theorem finishes_of_typing {s : State} {start : Location} {name : String}
    (hphase : s.phase = .typing start name) : s.Finishes :=
  (Move.declaredType .int default hphase).finishes (finishes_of_typed rfl)

theorem finishes_of_named {s : State} {start : Location} {name : String}
    (hphase : s.phase = .named start name) : s.Finishes :=
  (Move.colon default hphase).finishes (finishes_of_typing rfl)

theorem finishes_of_filling {s : State} {start : Location} {name : String}
    (hphase : s.phase = .filling start name) : s.Finishes :=
  (Move.readEnd default hphase).finishes (finishes_of_fresh rfl)

/-- Every state can be brought to the end of a sentence. -/
theorem finishes (s : State) : s.Finishes := by
  cases hphase : s.phase with
  | fresh => exact finishes_of_fresh hphase
  | declared start => exact (Move.declaredName "x" default hphase).finishes (finishes_of_named rfl)
  | named start name => exact finishes_of_named hphase
  | typing start name => exact finishes_of_typing hphase
  | typed declaration => exact finishes_of_typed hphase
  | reading start => exact (Move.readName "x" default hphase).finishes (finishes_of_filling rfl)
  | filling start name => exact finishes_of_filling hphase
  | target start name => exact (Move.equals default hphase).finishes (finishes_of_operand rfl)
  | operand purpose frames => exact finishes_of_operand hphase
  | operator purpose frames value => exact finishes_of_operator hphase

end State

/-! ## What the rules allow behind some tokens -/

theorem Moves.unique {s s' s'' : State} {tokens : List Token} (h : Moves s tokens s')
    (h' : Moves s tokens s'') : s'' = s' := by
  have hsame := h.foldlM
  rw [h'.foldlM] at hsame
  exact Except.ok.inj hsame

theorem Moves.split {s s' : State} {first second : List Token} (h : Moves s (first ++ second) s') :
    ∃ m, Moves s first m ∧ Moves m second s' := by
  induction first generalizing s with
  | nil => exact ⟨s, .nil s, h⟩
  | cons t rest ih =>
      cases h with
      | cons hmove hmoves =>
          obtain ⟨m, hfirst, hsecond⟩ := ih hmoves
          exact ⟨m, .cons hmove hfirst, hsecond⟩

/-- A literal that has been read stands for a number. -/
theorem Move.valid {s s' : State} {t : Token} (h : Move s t s') : t.lexeme.Valid := by
  cases h with
  | atom location hphase hatom hmark =>
      cases hatom with
      | int _ hvalue | float _ hvalue => simp [Lexeme.Valid, hvalue]
      | name | string => trivial
  | _ => trivial

theorem Moves.valid {s s' : State} {tokens : List Token} (h : Moves s tokens s') :
    ∀ t ∈ tokens, t.lexeme.Valid := by
  induction h with
  | nil => simp
  | cons hmove _ ih => exact List.forall_mem_cons.mpr ⟨hmove.valid, ih⟩

/-- Tokens that lead to the end of a sentence follow the rules. -/
theorem derives_of_moves {s : State} {tokens : List Token} (h : Moves .start tokens s)
    (hphase : s.phase = .fresh) (hblocks : s.blocks = []) :
    Derives (.rule .program) (tokens.map Token.kind ++ [.finish]) := by
  have hpass : pass ⟨tokens, default, h.lexeme_ne_finish⟩ =
      .ok ⟨s.declarations.reverse, s.before.reverse⟩ :=
    pass_eq_ok_iff.mpr ⟨s, h, finish_eq_ok_iff.mpr ⟨hphase, hblocks, rfl⟩⟩
  exact (exists_pass_iff.mp ⟨_, hpass⟩).1

/-- Tokens that follow the rules lead to the end of a sentence, if their literals stand for
numbers. -/
theorem exists_moves_of_derives {tokens : List Token} (hvalid : ∀ t ∈ tokens, t.lexeme.Valid)
    (h : Derives (.rule .program) (tokens.map Token.kind ++ [.finish])) :
    ∃ s, Moves .start tokens s ∧ s.phase = .fresh ∧ s.blocks = [] := by
  have hkinds : tokens.map Token.kind = (tokens.map Token.lexeme).map Lexeme.kind :=
    (List.map_map ..).symm
  rw [hkinds] at h
  obtain ⟨p, hp⟩ := exists_written_iff.mpr ⟨h, List.forall_mem_map.mpr hvalid⟩
  obtain ⟨s, hmoves, hphase, hblocks, -⟩ := exists_moves_of_written_program hp
  exact ⟨s, hmoves, hphase, hblocks⟩

theorem viable_of_moves {s : State} {tokens : List Token} (h : Moves .start tokens s) :
    Viable (tokens.map Token.kind) := by
  obtain ⟨rest, s', hmoves, hphase, hblocks⟩ := s.finishes
  refine ⟨rest.map Token.kind ++ [.finish], ?_⟩
  have hall := derives_of_moves (h.append hmoves) hphase hblocks
  rwa [List.map_append, List.append_assoc] at hall

/-- A word of each kind whose literals stand for numbers. -/
theorem exists_valid (kind : Kind) : ∃ t : Token, t.kind = kind ∧ t.lexeme.Valid := by
  cases kind with
  | int => exact ⟨⟨.int ⟨"0", rfl⟩, default⟩, rfl, rfl⟩
  | float => exact ⟨⟨.float ⟨"0.0", rfl⟩, default⟩, rfl, rfl⟩
  | string => exact ⟨⟨.string "", default⟩, rfl, trivial⟩
  | name => exact ⟨⟨.name "x", default⟩, rfl, trivial⟩
  | symbol s => exact ⟨⟨.symbol s, default⟩, rfl, trivial⟩
  | finish => exact ⟨⟨.finish, default⟩, rfl, trivial⟩

theorem exists_valid_tokens (kinds : List Kind) :
    ∃ tokens : List Token, tokens.map Token.kind = kinds ∧ ∀ t ∈ tokens, t.lexeme.Valid := by
  induction kinds with
  | nil => exact ⟨[], rfl, by simp⟩
  | cons kind kinds ih =>
      obtain ⟨tokens, hkinds, hvalid⟩ := ih
      obtain ⟨t, hkind, ht⟩ := exists_valid kind
      exact ⟨t :: tokens, by rw [List.map_cons, hkind, hkinds],
        List.forall_mem_cons.mpr ⟨ht, hvalid⟩⟩

/-- A sentence goes on behind some tokens with a token more just if their state does, or
else it ends there. -/
theorem exists_move_or_end_of_viable {s : State} {before : List Token} {t : Token}
    (h : Moves .start before s) (ht : t.lexeme.Valid)
    (hviable : Viable (before.map Token.kind ++ [t.kind])) :
    (∃ s', Move s t s') ∨ t.kind = .finish ∧ s.phase = .fresh ∧ s.blocks = [] := by
  obtain ⟨rest, hderives⟩ := hviable
  rcases List.eq_nil_or_concat rest with rfl | ⟨rest, last, rfl⟩
  · -- The token is the last one of the sentence, so the state is an end.
    rw [List.append_nil] at hderives
    obtain ⟨_, _, heq, -, -⟩ := derives_program.mp hderives
    have hkind : t.kind = .finish := (List.append_inj' heq rfl).2 |> List.head_eq_of_cons_eq
    rw [hkind] at hderives
    obtain ⟨s', hmoves, hphase, hblocks⟩ := exists_moves_of_derives h.valid hderives
    rw [hmoves.unique h]
    exact .inr ⟨hkind, hphase, hblocks⟩
  · obtain ⟨_, _, heq, -, -⟩ := derives_program.mp hderives
    have hlast : last = .finish := by
      rw [List.concat_eq_append, ← List.append_assoc] at heq
      exact List.head_eq_of_cons_eq (List.append_inj' heq rfl).2
    obtain ⟨after, hkinds, hvalid⟩ := exists_valid_tokens rest
    have hall : Derives (.rule .program)
        ((before ++ t :: after).map Token.kind ++ [.finish]) := by
      simpa [hkinds, hlast] using hderives
    have hallValid : ∀ u ∈ before ++ t :: after, u.lexeme.Valid := by
      intro u hu
      rcases List.mem_append.mp hu with hu | hu
      · exact h.valid u hu
      · exact (List.forall_mem_cons (p := fun u : Token => u.lexeme.Valid)).mpr ⟨ht, hvalid⟩ u hu
    obtain ⟨s', hmoves, -⟩ := exists_moves_of_derives hallValid hall
    obtain ⟨m, hbefore, hrest⟩ := hmoves.split
    obtain rfl := h.unique hbefore
    cases hrest with
    | cons hmove _ => exact .inl ⟨_, hmove⟩

/-! ## What is named -/

/-- A token of the kind can be read, or the sentence can end here. -/
def State.Takes (s : State) (kind : Kind) : Prop :=
  (∃ t s', t.kind = kind ∧ Move s t s') ∨ kind = .finish ∧ s.phase = .fresh ∧ s.blocks = []

theorem Move.takes {s s' : State} {t : Token} (h : Move s t s') : s.Takes t.kind :=
  .inl ⟨t, s', rfl, h⟩

theorem State.Takes.viable {s : State} {kind : Kind} (htakes : s.Takes kind) {before : List Token}
    (h : Moves .start before s) : Viable (before.map Token.kind ++ [kind]) := by
  rcases htakes with ⟨t, s', rfl, hmove⟩ | ⟨rfl, hphase, hblocks⟩
  · have hviable := viable_of_moves (h.append (.single hmove))
    rwa [List.map_append] at hviable
  · exact ⟨[], by simpa using derives_of_moves h hphase hblocks⟩

namespace State

theorem takes_of_mem_statementStart {s : State} (hphase : s.phase = .fresh) {kind : Kind}
    (h : kind ∈ statementStart) : s.Takes kind := by
  simp only [statementStart, List.mem_cons, List.not_mem_nil, or_false] at h
  rcases h with rfl | rfl | rfl | rfl | rfl
  · exact (Move.read default hphase).takes
  · exact (Move.print default hphase).takes
  · exact (Move.target "x" default hphase).takes
  · exact (Move.branch default hphase).takes
  · exact (Move.loop default hphase).takes

theorem takes_of_mem_operandStart {s : State} {purpose : Purpose} {frames : List Frame}
    (hphase : s.phase = .operand purpose frames) {kind : Kind} (h : kind ∈ operandStart) :
    s.Takes kind := by
  have hsplit : operandStart =
      [.int, .float, .string, .name] ++ [.symbol .openParen, .symbol .minus] := rfl
  rw [hsplit] at h
  rcases List.mem_append.mp h with h | h
  · obtain ⟨t, rfl, hvalid⟩ := exists_valid kind
    obtain ⟨value, hatom, hmark⟩ := exists_atom h hvalid s.nextId
    exact (Move.atom t.location hphase hatom hmark).takes
  · simp only [List.mem_cons, List.not_mem_nil, or_false] at h
    rcases h with rfl | rfl
    · exact (Move.group default hphase).takes
    · exact (Move.negate default hphase).takes

/-- The closing parenthesis if one is missing, or else what ends the expression. -/
theorem takes_of_closer {s : State} {purpose : Purpose} {frames : List Frame} {value : Expr}
    (hphase : s.phase = .operator purpose frames value) :
    s.Takes (.symbol (if frames.contains .group then .closeParen else purpose.closer)) := by
  by_cases hgroup : frames.contains .group = true
  · rw [if_pos hgroup]
    have hmem : Frame.group ∈ frames := List.contains_iff_mem.mp hgroup
    obtain ⟨k, hk⟩ := Nat.exists_eq_add_one.mpr (List.count_pos_iff.mpr hmem)
    obtain ⟨n, frames', value', hcomplete, -⟩ :
        ∃ n frames' value', complete .closer s.nextId frames value =
            (n, .group :: frames', value') ∧ frames'.count .group = k :=
      exists_complete_closer_group hk
    exact (Move.groupEnd default hphase hcomplete).takes
  · rw [if_neg hgroup]
    have hnone : frames.count .group = 0 :=
      List.count_eq_zero.mpr fun hmem => hgroup (List.contains_iff_mem.mpr hmem)
    obtain ⟨n, value', hcomplete⟩ :
        ∃ n value', complete .closer s.nextId frames value = (n, [], value') :=
      exists_complete_closer hnone
    cases purpose with
    | print start => exact (Move.printEnd default hphase hcomplete).takes
    | assign start name => exact (Move.assignEnd default hphase hcomplete).takes
    | branch start => exact (Move.thenWord default hphase hcomplete).takes
    | loop start => exact (Move.doWord default hphase hcomplete).takes

theorem takes_of_mem_expected_fresh {s : State} (hphase : s.phase = .fresh) {kind : Kind}
    (h : kind ∈ s.expected) : s.Takes kind := by
  simp only [expected, hphase] at h
  have hstart (hmem : kind ∈ statementStart) : s.Takes kind :=
    takes_of_mem_statementStart hphase hmem
  cases hblocks : s.blocks with
  | nil =>
      rw [hblocks] at h
      rcases List.mem_cons.mp h with rfl | h
      · exact .inr ⟨rfl, hphase, hblocks⟩
      rcases List.mem_append.mp h with h | h
      · exact hstart h
      · -- Only in front of all statements there can be a declaration more.
        split at h
        next hbefore =>
          rw [List.mem_singleton.mp h]
          exact (Move.declare default hphase hblocks (List.isEmpty_iff.mp hbefore)).takes
        next => cases h
  | cons block blocks =>
      rw [hblocks] at h
      cases block with
      | yes start condition before =>
          rcases List.mem_append.mp h with h | h
          · simp only [List.mem_cons, List.not_mem_nil, or_false] at h
            rcases h with rfl | rfl
            · exact (Move.otherwise default hphase hblocks).takes
            · exact (Move.yesEnd default hphase hblocks).takes
          · exact hstart h
      | no start condition yes before =>
          rcases List.mem_cons.mp h with rfl | h
          · exact (Move.noEnd default hphase hblocks).takes
          · exact hstart h
      | body start condition before =>
          rcases List.mem_cons.mp h with rfl | h
          · exact (Move.bodyEnd default hphase hblocks).takes
          · exact hstart h

/-- What is named in a state can be read there. -/
theorem takes_of_mem_expected {s : State} {kind : Kind} (h : kind ∈ s.expected) :
    s.Takes kind := by
  cases hphase : s.phase with
  | fresh => exact takes_of_mem_expected_fresh hphase h
  | operand purpose frames =>
      simp only [expected, hphase] at h
      exact takes_of_mem_operandStart hphase h
  | operator purpose frames value =>
      have hcloser := takes_of_closer hphase
      simp only [expected, hphase] at h
      split at h
      next hgroup =>
        rw [if_pos hgroup] at hcloser
        rw [List.mem_singleton.mp h]
        exact hcloser
      next hgroup =>
        rw [if_neg hgroup] at hcloser
        rw [List.mem_singleton.mp h]
        exact hcloser
  | typing start name =>
      simp only [expected, hphase, List.mem_cons, List.not_mem_nil, or_false] at h
      rcases h with rfl | rfl | rfl
      · exact (Move.declaredType .int default hphase).takes
      · exact (Move.declaredType .float default hphase).takes
      · exact (Move.declaredType .string default hphase).takes
  | declared start =>
      simp only [expected, hphase, List.mem_singleton] at h
      rw [h]
      exact (Move.declaredName "x" default hphase).takes
  | named start name =>
      simp only [expected, hphase, List.mem_singleton] at h
      rw [h]
      exact (Move.colon default hphase).takes
  | typed declaration =>
      simp only [expected, hphase, List.mem_singleton] at h
      rw [h]
      exact (Move.declared default hphase).takes
  | reading start =>
      simp only [expected, hphase, List.mem_singleton] at h
      rw [h]
      exact (Move.readName "x" default hphase).takes
  | filling start name =>
      simp only [expected, hphase, List.mem_singleton] at h
      rw [h]
      exact (Move.readEnd default hphase).takes
  | target start name =>
      simp only [expected, hphase, List.mem_singleton] at h
      rw [h]
      exact (Move.equals default hphase).takes

theorem expected_ne_nil (s : State) : s.expected ≠ [] := by
  unfold expected
  cases s.phase with
  | fresh => dsimp only; split <;> exact nofun
  | operator => dsimp only; split <;> exact nofun
  | _ => exact nofun

end State

/-! ## Where a pass stops -/

/-- Only an operand can be the text of a number. -/
theorem Move.exists_operand {s s' : State} {t : Token} (h : Move s t s')
    (hkind : t.kind = .int ∨ t.kind = .float) :
    ∃ purpose frames, s.phase = .operand purpose frames := by
  cases h with
  | atom location hphase _ _ => exact ⟨_, _, hphase⟩
  | negate location hphase => exact ⟨_, _, hphase⟩
  | _ => rcases hkind with h | h <;> cases h

theorem kind_of_not_valid {t : Token} (ht : ¬ t.lexeme.Valid) :
    t.kind = .int ∨ t.kind = .float := by
  obtain ⟨lexeme, location⟩ := t
  cases lexeme with
  | int => exact .inl rfl
  | float => exact .inr rfl
  | string | name | symbol | finish => exact absurd trivial ht

theorem kind_eq_finish_iff {t : Token} : t.kind = .finish ↔ t.lexeme = .finish := by
  obtain ⟨lexeme, location⟩ := t
  cases lexeme <;> simp [Token.kind, Lexeme.kind]

/-- A literal that stands for no number is turned down as such, if it stands at a place for
an operand. -/
theorem step_ne_unexpected_of_not_valid {s : State} {purpose : Purpose} {frames : List Frame}
    (hphase : s.phase = .operand purpose frames) {t : Token} (ht : ¬ t.lexeme.Valid) :
    s.step t ≠ .error (s.unexpected t) := by
  obtain ⟨lexeme, location⟩ := t
  cases lexeme with
  | int text =>
      have hnone : Literal.int? text = none := by simpa [Lexeme.Valid] using ht
      simp [State.step, hphase, State.stepOperand, hnone, Cause.fault, State.unexpected]
  | float text =>
      have hnone : Literal.float? text = none := by simpa [Lexeme.Valid] using ht
      simp [State.step, hphase, State.stepOperand, hnone, Cause.fault, State.unexpected]
  | string | name | symbol | finish => exact absurd trivial ht

/-- No sentence goes on with a word that is not expected. -/
theorem not_viable_of_step {s : State} {before : List Token} {t : Token}
    (hbefore : Moves .start before s) (ht : t.lexeme ≠ .finish)
    (h : s.step t = .error (s.unexpected t)) :
    ¬ Viable (before.map Token.kind ++ [t.kind]) := by
  intro hviable
  have hkind : t.kind ≠ .finish := fun hkind => ht (kind_eq_finish_iff.mp hkind)
  by_cases hvalid : t.lexeme.Valid
  · rcases exists_move_or_end_of_viable hbefore hvalid hviable with ⟨s', hmove⟩ | ⟨hfinish, -⟩
    · cases h.symm.trans hmove.step
    · exact hkind hfinish
  · -- The kind is one that can be read here, so this is a place for an operand.
    obtain ⟨u, hu, huvalid⟩ := exists_valid t.kind
    rw [← hu] at hviable
    rcases exists_move_or_end_of_viable hbefore huvalid hviable with ⟨s', hmove⟩ | ⟨hfinish, -⟩
    · obtain ⟨purpose, frames, hphase⟩ := hmove.exists_operand (hu ▸ kind_of_not_valid hvalid)
      exact step_ne_unexpected_of_not_valid hphase hvalid h
    · exact hkind (hu.symm.trans hfinish)

/-- No sentence ends where the end is not expected. -/
theorem not_viable_of_finish {s : State} {before : List Token} {location : Location} {f : Fault}
    (hbefore : Moves .start before s) (h : s.finish location = .error f) :
    ¬ Viable (before.map Token.kind ++ [.finish]) := by
  intro hviable
  rcases exists_move_or_end_of_viable hbefore (t := ⟨.finish, location⟩) trivial hviable with
    ⟨s', hmove⟩ | ⟨-, hphase, hblocks⟩
  · exact hmove.lexeme_ne_finish rfl
  · cases h.symm.trans (finish_eq_ok_iff.mpr ⟨hphase, hblocks, rfl⟩)

/-- What is said of a token that is not expected: some sentence begins with the tokens in front of
it, no sentence goes on with this one, and some sentence goes on with each kind of token that is
named. -/
theorem viable_of_stopsAt {s : Sentence} {index : Nat} {f : Fault} {found : Token}
    {expected : List Kind} (h : StopsAt s index f)
    (hcause : f.cause = .unexpectedToken found expected) :
    ∃ before after, s.tokens = before ++ found :: after ∧ Viable (before.map Token.kind) ∧
      ¬ Viable (before.map Token.kind ++ [found.kind]) ∧ expected ≠ [] ∧
      found.kind ∉ expected ∧ ∀ kind ∈ expected, Viable (before.map Token.kind ++ [kind]) := by
  -- The place in front of the token, and what it is turned down for there.
  obtain ⟨before, t, after, m, htokens, hmoves, hrefusal, hnot⟩ :
      ∃ before t after m, s.tokens = before ++ t :: after ∧ Moves .start before m ∧
        Refusal m t f ∧ (f = m.unexpected t → ¬ Viable (before.map Token.kind ++ [t.kind])) := by
    cases h with
    | @word before after t m _ words moves step =>
        have hne := s.words_ne_finish t (words ▸ List.mem_append_right _ List.mem_cons_self)
        refine ⟨before, t, after ++ [⟨.finish, s.finish⟩], m, ?_, moves, .of_step step,
          fun heq => not_viable_of_step moves hne (heq ▸ step)⟩
        simp [Sentence.tokens, words]
    | @finish m _ moves finish =>
        exact ⟨s.words, ⟨.finish, s.finish⟩, [], m, rfl, moves, .of_finish finish,
          fun _ => not_viable_of_finish moves finish⟩
  obtain rfl := hrefusal.of_cause hcause
  obtain ⟨rfl, rfl⟩ : t = found ∧ m.expected = expected := by
    simpa [State.unexpected, Cause.fault] using hcause
  have hexpected (kind : Kind) (hmem : kind ∈ m.expected) :
      Viable (before.map Token.kind ++ [kind]) :=
    (State.takes_of_mem_expected hmem).viable hmoves
  exact ⟨before, after, htokens, viable_of_moves hmoves, hnot rfl, m.expected_ne_nil,
    fun hmem => hnot rfl (hexpected _ hmem), hexpected⟩

/-- A parser that turns a token down as unexpected has read tokens that some sentence begins
with, and no sentence goes on with this one. It names kinds of token instead, at least one
and not the one found, and some sentence goes on with each of them. -/
theorem unexpected_at_first_mistake {tokens : List Token} {s : Sentence} {host : Host}
    {f : Fault} {found : Token} {expected : List Kind}
    (hs : Sentence.ofTokens? tokens = some s) (h : parse host s = .error f)
    (hcause : f.cause = .unexpectedToken found expected) :
    ∃ before after, tokens = before ++ found :: after ∧
      Viable (before.map Token.kind) ∧
      ¬ Viable (before.map Token.kind ++ [found.kind]) ∧
      expected ≠ [] ∧ found.kind ∉ expected ∧
      ∀ kind ∈ expected, Viable (before.map Token.kind ++ [kind]) := by
  have hpass : pass s = .error f := by
    rcases parse_cases host s with hpass | ⟨t, -, hdeep⟩
    · exact hpass.symm.trans h
    · cases h.symm.trans hdeep
      cases hcause
  obtain ⟨index, hstop⟩ := exists_stopsAt hpass
  obtain ⟨before, after, heq, hfirst⟩ := viable_of_stopsAt hstop hcause
  obtain ⟨rest, rfl⟩ := Sentence.exists_of_upToFinish (Sentence.upToFinish_of_ofTokens? hs)
  exact ⟨before, after ++ rest, by simp [heq], hfirst⟩

/-- The parenthesis of `print (1;` can be closed behind the number, but the statement can
not end there. -/
theorem unexpected_at_first_mistake_semicolon :
    let words : List Lexeme :=
      [.symbol .printWord, .symbol .openParen, .int ⟨"1", rfl⟩, .symbol .semicolon]
    let s : Sentence := ⟨words.map (⟨·, default⟩), default, by decide⟩
    Sentence.ofTokens? s.tokens = some s ∧
      parse .unlimited s = .error ((Cause.unexpectedToken ⟨.symbol .semicolon, default⟩
        [.symbol .closeParen]).fault default) ∧
      ¬ Viable [.symbol .printWord, .symbol .openParen, .int, .symbol .semicolon] ∧
      Viable [.symbol .printWord, .symbol .openParen, .int, .symbol .closeParen] := by
  intro words s
  have hs : Sentence.ofTokens? s.tokens = some s := rfl
  have hparse : parse .unlimited s = .error _ := (parse_unlimited s).trans rfl
  obtain ⟨before, after, heq, -, hnot, -, -, hexpected⟩ :=
    unexpected_at_first_mistake hs hparse rfl
  obtain rfl : before = s.tokens.take 3 := by
    simp only [Sentence.tokens, s, words, List.map_cons, List.map_nil, List.cons_append,
      List.nil_append, List.cons_eq_append_iff, List.cons.injEq, Token.mk.injEq,
      Lexeme.symbol.injEq, reduceCtorEq, false_and, and_false, false_or, true_and, List.nil_eq,
      List.append_eq_nil_iff, exists_const, or_false] at heq
    obtain ⟨_, rfl, _, rfl, _, rfl, rfl, -⟩ := heq
    rfl
  exact ⟨hs, hparse, hnot, hexpected _ (List.mem_singleton.mpr rfl)⟩

end Parser

end ImpToC
