import ImpToC.Proofs.Parsing.Hosts

/-!
# Parsing at other places

A parser copies locations and never looks at one. So a sentence whose tokens are at
other places gives the same program at other places, or is turned down for the same
reason at the token with the same number.
-/

namespace ImpToC.Parser

variable (f : Location → Location)

/-- A parser comes to the same at other places. -/
theorem read_relocate [Host] (s : Sentence) :
    Copied s f False (Program.relocate f) (read s) (read (s.relocate f)) := by
  have hroom : roomFor (s.relocate f) = roomFor s := by
    simp only [roomFor, Sentence.relocate, List.length_map]
  have hstart : Reader.start (s.relocate f) = (Reader.start s).relocate f := by
    simp only [Reader.start, Reader.relocate, Sentence.relocate_tokens, List.map_toArray]
  have hrooms : Rooms False (roomFor s) (roomFor s) := Rooms.refl _
  have hcopied := copies_program (f := f) hrooms (Over.start s)
  unfold read
  rw [hroom, hstart]
  generalize program (roomFor s) (.start s) = outcome at hcopied
  generalize program (roomFor s) ((Reader.start s).relocate f) = outcome' at hcopied
  cases hcopied with
  | ok hover => exact .ok hover
  | exhausted hover h => exact h.elim
  | @error stop d hover =>
      cases stop with
      | exhausted =>
          exact Copies.bind (copies_peek (Rooms.refl _)) (fun t => copies_raise (Rooms.refl _) _)
            hover
      | missing | refused | fault => exact .error hover

/-- The mistake that is found at other places is one that has been moved there. -/
theorem exists_of_read_relocate [Host] {s : Sentence} {fault : Fault} {d : Reader}
    (h : read (s.relocate f) = .error (.fault fault) d) :
    ∃ fault' d', read s = .error (.fault fault') d' ∧ fault'.relocate f = fault ∧
      d'.relocate f = d := by
  have hcopied := read_relocate f s
  rw [h] at hcopied
  cases houtcome : read s with
  | ok p d' =>
      rw [houtcome] at hcopied
      cases hcopied
  | error stop d' =>
      obtain ⟨fault', rfl⟩ := read_stops houtcome
      rw [houtcome] at hcopied
      cases hcopied
      exact ⟨fault', d', rfl, rfl, rfl⟩

theorem Reader.indexOf_relocate (d : Reader) (fault : Fault) :
    (d.relocate f).indexOf (fault.relocate f) = d.indexOf fault := by
  obtain ⟨cause, location⟩ := fault
  cases cause <;> rfl

/-- A sentence at other places is the same program at other places, or is turned down for
the same cause at another place. -/
theorem parse_relocate (host : Host) (s : Sentence) :
    parse host (s.relocate f) = Fault.relocateOutcome f (Program.relocate f) (parse host s) := by
  have hcopied := @read_relocate f host s
  generalize houtcome : @read host s = outcome at hcopied
  generalize houtcome' : @read host (s.relocate f) = outcome' at hcopied
  cases hcopied with
  | ok => rw [parse_eq_ok_iff.mpr ⟨_, houtcome⟩, parse_eq_ok_iff.mpr ⟨_, houtcome'⟩]; rfl
  | exhausted hover h => exact h.elim
  | @error stop d hover =>
      obtain ⟨fault, rfl⟩ := @read_stops _ host _ _ houtcome
      rw [parse_eq_error_iff.mpr ⟨_, houtcome⟩, parse_eq_error_iff.mpr ⟨_, houtcome'⟩]
      rfl

/-! ## Where a parser stops -/

/-- A parser turns a sentence down at the token with the given index. That is where its reader is
then, and where the mistake is located. -/
structure FaultAt (host : Host) (s : Sentence) (index : Nat) (fault : Fault) : Prop where
  read : ∃ d, @Parser.read host s = .error (.fault fault) d ∧ d.indexOf fault = index
  token : ∃ t, s.tokens[index]? = some t ∧ fault.location = some t.location

namespace FaultAt

variable {f} {host : Host} {s s' : Sentence} {index : Nat} {fault : Fault}

theorem of_read {d : Reader} (h : @Parser.read host s = .error (.fault fault) d) :
    FaultAt host s (d.indexOf fault) fault := by
  obtain ⟨t, ht, hdown⟩ := @exists_turnsDown_of_read s host _ _ h
  exact ⟨⟨d, h, rfl⟩, t, ht, hdown.location⟩

theorem parse_eq (h : FaultAt host s index fault) : parse host s = .error fault := by
  obtain ⟨d, hread, -⟩ := h.read
  exact parse_eq_error_iff.mpr ⟨d, hread⟩

/-- Of two sentences with the same tokens at different places, both are turned down at the
token with the same index or none is. -/
theorem of_relocate_eq (heq : s.relocate f = s'.relocate f) (h : FaultAt host s index fault) :
    ∃ fault', FaultAt host s' index fault' ∧ fault'.relocate f = fault.relocate f := by
  obtain ⟨d, hread, rfl⟩ := h.read
  have hmoved : @Parser.read host (s'.relocate f) =
      .error (.fault (fault.relocate f)) (d.relocate f) := by
    have hcopied := @read_relocate f host s
    rw [hread, heq] at hcopied
    generalize @Parser.read host (s'.relocate f) = outcome at hcopied
    cases hcopied
    rfl
  obtain ⟨fault', d', hread', hfault, hd⟩ := @exists_of_read_relocate f host _ _ _ hmoved
  have hindex : d'.indexOf fault' = d.indexOf fault := by
    rw [← d'.indexOf_relocate f, hfault, hd, d.indexOf_relocate f]
  exact ⟨fault', hindex ▸ .of_read hread', hfault⟩

end FaultAt

/-- A parser that turns a sentence down stops at one of its tokens. -/
theorem exists_faultAt {host : Host} {s : Sentence} {fault : Fault}
    (h : parse host s = .error fault) : ∃ index, FaultAt host s index fault := by
  obtain ⟨d, hread⟩ := parse_eq_error_iff.mp h
  exact ⟨_, .of_read hread⟩

end ImpToC.Parser
