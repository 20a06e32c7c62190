import ImpToC.Proofs.Layout.Descents
import ImpToC.Proofs.Parsing.Blocks
import ImpToC.Proofs.Parsing.Sentences

/-!
# Parsers on a host

A parser answers what a pass answers, or it finds that a sentence is nested too deeply, at the token
in front of which a call was one too many. It is stopped by nothing else. Where the calls suffice
for what is open at once, it always answers what a pass answers.
-/

namespace ImpToC

namespace Parser

variable {s : Sentence} {n room : Nat}

theorem Reader.relocate_keep (d : Reader) : d.relocate .keep = d := by
  have htokens : d.tokens.map (Token.relocate .keep) = d.tokens := Array.map_id d.tokens
  rw [relocate, htokens]

theorem Stop.relocate_keep (stop : Stop) : stop.relocate .keep = stop := by
  cases stop with
  | fault fault => exact congrArg Stop.fault fault.relocate_keep
  | missing | exhausted | refused => rfl

/-! ## Fewer calls -/

section Outcomes

variable [Host]

/-- With any number of calls a parser does what a pass does, or a call is one too many. -/
theorem program_cases (s : Sentence) (room : Nat) :
    Agrees s (fun p _ => pass s = .ok p) (program room (.start s)) ∨
      ∃ d, Over s d ∧ program room (.start s) = .error .exhausted d := by
  -- The same program is read with calls that suffice for all words.
  have hample := program_agrees (within_length s)
    (Nat.le_max_right room (callsFor s.words.length + reportCalls))
  have hrooms : Rooms True room (max room (callsFor s.words.length + reportCalls)) :=
    ⟨Nat.le_max_left _ _, fun h => absurd trivial h⟩
  have hcopied := copies_program (f := .keep) hrooms (Over.start s)
  rw [Reader.relocate_keep] at hcopied
  generalize houtcome : program room (.start s) = outcome at hcopied ⊢
  generalize program (max room _) (.start s) = outcome' at hample hcopied
  cases hcopied with
  | ok reader =>
      left
      rwa [Reader.relocate_keep, Program.relocate_keep] at hample
  | error reader =>
      left
      rwa [Reader.relocate_keep, Stop.relocate_keep] at hample
  | exhausted reader => exact .inr ⟨_, reader, rfl⟩

/-- What a parser comes to: the program of a pass, the mistake at which a pass stops, or a sentence
that is nested too deeply. -/
inductive Comes (s : Sentence) : EStateM.Result Stop Reader Program → Prop
  | program {p : Program} {d : Reader} (h : pass s = .ok p) : Comes s (.ok p d)
  | mistake {fault : Fault} {d : Reader} (h : StopsAt s (d.indexOf fault) fault) :
      Comes s (.error (.fault fault) d)
  | tooDeep {t : Token} {d : Reader} (reader : Over s d) (next : d.next? = some t) :
      Comes s (.error (.fault (Cause.nestingTooDeep.fault t.location)) d)

omit [Host] in
theorem Agrees.comes {outcome : EStateM.Result Stop Reader Program}
    (h : Agrees s (fun p _ => pass s = .ok p) outcome) : Comes s outcome := by
  cases outcome with
  | ok p d => exact .program h
  | error stop d =>
      cases stop with
      | fault fault => exact .mistake h
      | missing | exhausted | refused => exact h.elim

theorem le_roomFor (s : Sentence) : reportCalls ≤ roomFor s := Nat.le_add_left ..

theorem read_comes (s : Sentence) : Comes s (read s) := by
  unfold read
  rcases program_cases s (roomFor s) with hagrees | ⟨d, hover, hexhausted⟩
  · have hcomes := hagrees.comes
    split
    next d h =>
      rw [h] at hagrees
      exact hagrees.elim
    next => exact hcomes
  · obtain ⟨t, ht⟩ := hover.exists_next
    have hreport : (raise (Cause.nestingTooDeep.fault t.location) (roomFor s) : Action Program) d =
        .error (.fault (Cause.nestingTooDeep.fault t.location)) d := by
      rw [raise, if_pos (le_roomFor s)]
      rfl
    simp only [hexhausted]
    rw [bind_of_ok (peek_eq ht (Nat.le_trans (by decide) (le_roomFor s))), hreport]
    exact .tooDeep hover ht

/-- Where the calls suffice, the parser does what a pass does. -/
theorem read_agrees (hwithin : Within n s) (hcalls : ∀ calls ∈ Host.calls, callsFor n ≤ calls) :
    Agrees s (fun p _ => pass s = .ok p) (read s) := by
  have hagrees : Agrees s (fun p _ => pass s = .ok p) (program (roomFor s) (.start s)) := by
    unfold roomFor
    cases hhost : Host.calls with
    | none => exact program_agrees (within_length s) (Nat.le_refl _)
    | some calls => exact program_agrees hwithin (Nat.add_le_add_right (hcalls calls hhost) _)
  unfold read
  split
  next d h =>
    rw [h] at hagrees
    exact hagrees.elim
  next => exact hagrees

end Outcomes

/-- A parser never looks for a token that is not there, a conversion never turns down what it is
given, and a call that is one too many is always reported. -/
theorem read_stops [Host] {stop : Stop} {d : Reader} (h : read s = .error stop d) :
    ∃ fault, stop = .fault fault := by
  have hcomes := read_comes s
  rw [h] at hcomes
  cases hcomes with
  | mistake | tooDeep => exact ⟨_, rfl⟩

/-! ## Mistakes -/

/-- A pass stops at a token, which it turns down. -/
theorem StopsAt.exists_refusal {index : Nat} {fault : Fault} (h : StopsAt s index fault) :
    ∃ t m, s.tokens[index]? = some t ∧ Refusal m t fault := by
  cases h with
  | @word before after t m _ words moves step =>
      have htoken : s.tokens[before.length]? = some t := by simp [Sentence.tokens, words]
      exact ⟨t, m, htoken, .of_step step⟩
  | @finish m _ moves finish =>
      have htoken : s.tokens[s.words.length]? = some ⟨.finish, s.finish⟩ := by
        simp [Sentence.tokens]
      exact ⟨_, m, htoken, .of_finish finish⟩

/-- So does a parser, at the token where its reader is then. -/
theorem exists_turnsDown_of_read [Host] {fault : Fault} {d : Reader}
    (h : read s = .error (.fault fault) d) :
    ∃ t, s.tokens[d.indexOf fault]? = some t ∧ TurnsDown t fault := by
  have hcomes := read_comes s
  rw [h] at hcomes
  cases hcomes with
  | mistake hstop =>
      obtain ⟨t, m, ht, hrefusal⟩ := hstop.exists_refusal
      exact ⟨t, ht, .refusal hrefusal⟩
  | @tooDeep t _ reader next =>
      rw [reader.next?_eq] at next
      exact ⟨t, next, .nested⟩

/-! ## Answers -/

variable {host : Host} {p : Program} {fault : Fault}

theorem parse_eq_ok_iff : parse host s = .ok p ↔ ∃ d, @read host s = .ok p d := by
  unfold parse
  cases @read host s with
  | ok q d => simp
  | error stop d => cases stop <;> simp

theorem parse_eq_error_iff :
    parse host s = .error fault ↔ ∃ d, @read host s = .error (.fault fault) d := by
  have hstops := @read_stops s host
  unfold parse
  generalize @read host s = outcome at hstops
  cases outcome with
  | ok q d => simp
  | error stop d =>
      obtain ⟨mistake, rfl⟩ := hstops rfl
      simp

/-- On any host a parser answers what a pass answers, or that a sentence is nested too deeply, at one
of its tokens. -/
theorem parse_cases (host : Host) (s : Sentence) :
    parse host s = pass s ∨
      ∃ t ∈ s.tokens, parse host s = .error (Cause.nestingTooDeep.fault t.location) := by
  have hcomes := @read_comes host s
  generalize houtcome : @read host s = outcome at hcomes
  cases hcomes with
  | program h => exact .inl ((parse_eq_ok_iff.mpr ⟨_, houtcome⟩).trans h.symm)
  | mistake h => exact .inl ((parse_eq_error_iff.mpr ⟨_, houtcome⟩).trans h.pass_eq.symm)
  | tooDeep reader next =>
      rw [reader.next?_eq] at next
      exact .inr ⟨_, List.mem_of_getElem? next, parse_eq_error_iff.mpr ⟨_, houtcome⟩⟩

/-- Where the calls suffice for what is open at once, a parser answers what a pass answers. -/
theorem parse_eq_pass (hwithin : Within n s) (hcalls : ∀ calls ∈ host.calls, callsFor n ≤ calls) :
    parse host s = pass s := by
  have hagrees := @read_agrees s n host hwithin hcalls
  generalize houtcome : @read host s = outcome at hagrees
  cases outcome with
  | ok p d => exact (parse_eq_ok_iff.mpr ⟨_, houtcome⟩).trans hagrees.symm
  | error stop d =>
      obtain ⟨fault, rfl⟩ := @read_stops s host _ _ houtcome
      exact (parse_eq_error_iff.mpr ⟨_, houtcome⟩).trans (StopsAt.pass_eq hagrees).symm

theorem parse_unlimited (s : Sentence) : parse .unlimited s = pass s :=
  parse_eq_pass (within_length s) nofun

theorem pass_of_parse (h : parse host s = .ok p) : pass s = .ok p := by
  rcases parse_cases host s with hpass | ⟨t, -, hdeep⟩
  · exact hpass.symm.trans h
  · cases hdeep.symm.trans h

/-- A parser that turns a sentence down turns one of its tokens down. -/
theorem exists_turnsDown_of_parse (h : parse host s = .error fault) :
    ∃ (index : Nat) (t : Token), s.tokens[index]? = some t ∧ TurnsDown t fault := by
  obtain ⟨d, hread⟩ := parse_eq_error_iff.mp h
  obtain ⟨t, ht, hdown⟩ := exists_turnsDown_of_read hread
  exact ⟨_, t, ht, hdown⟩

theorem family_of_parse_eq_error (h : parse host s = .error fault) :
    fault.cause.family = .syntactic := by
  obtain ⟨_, _, -, hdown⟩ := exists_turnsDown_of_parse h
  exact hdown.family

end Parser

end ImpToC
