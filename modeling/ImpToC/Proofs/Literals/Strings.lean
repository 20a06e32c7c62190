import Mathlib.Algebra.Ring.Parity
import Mathlib.Data.List.Induction
import ImpToC.Proofs.Literals.Quotes
import ImpToC.Proofs.Numeric.Sources
import ImpToC.Proofs.Outline.Programs

/-!
# String literals

The inside of a string literal of C has every quote escaped and stays on its line. So a reader of C
comes to the end of the literal at its last character and not before, and has the text back then.
-/

namespace ImpToC.C

/-! ## The inside of a literal -/

/-- How many backslashes a text ends in. -/
def backslashes (front : List Char) : Nat := (front.reverse.takeWhile (· = '\\')).length

/-- The inside of a string literal: each quote in it is escaped, by an odd number of backslashes,
and neither a line feed nor a tab nor a carriage return stands in it as itself. -/
structure Inside (inside : List Char) : Prop where
  quote : ∀ front back, inside = front ++ '"' :: back → Odd (backslashes front)
  feed : '\n' ∉ inside
  tab : '\t' ∉ inside
  carriageReturn : '\r' ∉ inside

theorem backslashes_concat (front : List Char) (c : Char) :
    backslashes (front ++ [c]) = if c = '\\' then backslashes front + 1 else 0 := by
  unfold backslashes
  rw [List.reverse_append, List.reverse_singleton, List.singleton_append, List.takeWhile_cons]
  by_cases hc : c = '\\'
  · simp [hc]
  · simp [hc]

/-- From left to right, a backslash escapes what is behind it unless it is escaped itself. -/
def escapesNext (escaped : Bool) (front : List Char) : Bool :=
  front.foldl (fun escaped c => c = '\\' && !escaped) escaped

theorem odd_backslashes_iff (front : List Char) :
    Odd (backslashes front) ↔ escapesNext false front = true := by
  induction front using List.reverseRecOn with
  | nil => decide
  | append_singleton front c ih =>
      rw [backslashes_concat, escapesNext, List.foldl_append]
      change _ ↔ (decide (c = '\\') && !escapesNext false front) = true
      by_cases hc : c = '\\'
      · simp [hc, Nat.odd_add_one, ih]
      · simp [hc]

/-- Every quote that escaping writes is escaped. -/
theorem escapesNext_of_quote {text front back : List Char}
    (h : text.flatMap escape = front ++ '"' :: back) : escapesNext false front = true := by
  induction text generalizing front with
  | nil => simp at h
  | cons c text ih =>
      rw [List.flatMap_cons] at h
      rcases escape_cases c with ⟨letter, hescape, -⟩ | ⟨hescape, hc⟩
      · rw [hescape] at h
        match front with
        | [] => simp at h
        | [_] =>
            obtain ⟨rfl, -⟩ := List.cons.inj h
            rfl
        | _ :: second :: front =>
            obtain ⟨rfl, hrest⟩ := List.cons.inj h
            -- Whatever the letter is, nothing is escaped behind it.
            have hbehind : escapesNext false ('\\' :: second :: front) =
                escapesNext false front := by
              simp [escapesNext]
            rw [hbehind]
            exact ih (List.cons.inj hrest).2
      · rw [hescape] at h
        cases front with
        | nil =>
            obtain ⟨rfl, -⟩ := List.cons.inj h
            exact absurd hc (by decide)
        | cons first front =>
            obtain ⟨rfl, hrest⟩ := List.cons.inj h
            have hbackslash : c ≠ '\\' := fun heq => hc (heq ▸ List.mem_cons_self)
            have hbehind : escapesNext false (c :: front) = escapesNext false front := by
              simp [escapesNext, hbackslash]
            rw [hbehind]
            exact ih hrest

theorem inside_flatMap_escape {text : List Char} (h : '\n' ∉ text) :
    Inside (text.flatMap escape) := by
  have hblank (c : Char) (hc : c ∈ ['\n', '\t', '\r']) : c ∉ text.flatMap escape := by
    intro hmem
    obtain ⟨d, hd, hescape⟩ := List.mem_flatMap.mp hmem
    obtain ⟨-, rfl⟩ := eq_feed_of_mem_escape hc hescape
    exact h hd
  refine ⟨fun front back hsplit => ?_, hblank _ (by decide), hblank _ (by decide),
    hblank _ (by decide)⟩
  rw [odd_backslashes_iff]
  exact escapesNext_of_quote hsplit

/-! ## Replacements -/

theorem flatMap_replaceEach (text : List Char) (f : Char → List Char)
    (replacement : Char × List Char) :
    replaceEach (text.flatMap f) replacement =
      text.flatMap fun c => replaceEach (f c) replacement :=
  List.flatMap_assoc

/-- One replacement after the other comes to the same as one escape for each character. -/
theorem escapeInTurn_eq (text : List Char) : escapeInTurn text = text.flatMap escape := by
  have hturn (c : Char) : escapeInTurn [c] = escape c := by
    unfold escape
    by_cases hbackslash : c = '\\'
    · subst hbackslash
      rfl
    · by_cases hquote : c = '"'
      · subst hquote
        rfl
      · by_cases htab : c = '\t'
        · subst htab
          rfl
        · by_cases hreturn : c = '\r'
          · subst hreturn
            rfl
          · simp [escapeInTurn, replacements, replaceEach, *]
  calc escapeInTurn text
      = replacements.foldl replaceEach (text.flatMap fun c => [c]) := by
        rw [List.flatMap_singleton', escapeInTurn]
    _ = text.flatMap fun c => escapeInTurn [c] := by
        simp only [escapeInTurn, replacements, List.foldl_cons, List.foldl_nil, flatMap_replaceEach]
    _ = text.flatMap escape := by
        simp only [hturn]

/-! ## Literals in a file -/

/-- The statement that defines a temporary as a string stays on its line. -/
theorem oneLine_define_string {text : List Char} (h : '\n' ∉ text) (type : Ty) (level index : Nat) :
    ∀ l ∈ (Instr.define type index (.string (String.ofList text))).lines level, OneLine l := by
  intro l hl
  have hlegible : (Instr.define type index (.string (String.ofList text))).Legible := by
    rw [Instr.Legible, Value.Legible, OneLine, String.toList_ofList]
    exact h
  exact (Instr.filled_lines level _ hlegible l hl).1

/-- No string of a source goes over the end of a line, not even behind a fault. -/
theorem feed_not_mem_of_attempts {strings : Bool} {count : Nat} {c : Cursor} {t : Token}
    {text : List Char} (h : .ok t ∈ c.attempts strings count)
    (hlexeme : t.lexeme = .string (String.ofList text)) : '\n' ∉ text := by
  have hword : Lexeme.Word strings (.string (String.ofList text)) := by
    rcases Cursor.word_of_mem_attempts h with hword | hfinish
    · exact hlexeme ▸ hword
    · cases hlexeme.symm.trans hfinish
  intro hmem
  exact absurd (hword.isStringPart_of_string '\n' (by simpa using hmem)) (by decide)

/-- Every string that is scanned is without a line feed, and every such string goes into C as it is.
The replacements in turn make the inside of its literal, where all quotes are escaped. Whatever
follows the literal, a reader stops at its end and has the text. So different texts have different
literals, and a definition with one stays on its line. -/
theorem stringLiteral_reads_back :
    (∀ (c : Cursor) (strings : Bool) (count : Nat) (t : Token) (text : List Char),
      .ok t ∈ c.attempts strings count → t.lexeme = .string (String.ofList text) →
        '\n' ∉ text) ∧
    ∀ text : List Char, '\n' ∉ text →
      stringLiteral text = '"' :: escapeInTurn text ++ ['"'] ∧
      Inside (escapeInTurn text) ∧
      (∀ rest, readString (stringLiteral text ++ rest) = some (text, rest)) ∧
      (∀ other, '\n' ∉ other → stringLiteral other = stringLiteral text → other = text) ∧
      ∀ (type : Ty) (level index : Nat),
        ∀ l ∈ (Instr.define type index (.string (String.ofList text))).lines level, OneLine l := by
  refine ⟨fun c strings count t text => feed_not_mem_of_attempts, fun text h => ?_⟩
  rw [escapeInTurn_eq]
  refine ⟨rfl, inside_flatMap_escape h, readString_stringLiteral h, fun other hother => ?_,
    oneLine_define_string h⟩
  exact eq_of_stringLiteral_eq h hother

/-- A string of a source that ends in a backslash, and a text with everything that is replaced and
with what looks escaped already. -/
theorem stringLiteral_reads_back_escaped :
    let scanned := ['\\', 't', '\t', '\\']
    let text := ['\\', 't', '\\', '"', '\t', '\r', '\\']
    .ok ⟨.string (String.ofList scanned), ⟨1, 1, "a"⟩⟩ ∈
        (Cursor.start "a" ('"' :: scanned ++ ['"'])).attempts true 1 ∧
      readString (stringLiteral scanned) = some (scanned, []) ∧
      stringLiteral text = "\"\\\\t\\\\\\\"\\t\\r\\\\\"".toList ∧
      readString (stringLiteral text ++ [';']) = some (text, [';']) ∧
      Inside (escapeInTurn text) := by
  intro scanned text
  have hscan : .ok ⟨.string (String.ofList scanned), ⟨1, 1, "a"⟩⟩ ∈
      (Cursor.start "a" ('"' :: scanned ++ ['"'])).attempts true 1 := List.mem_singleton.mpr rfl
  have hscanned := stringLiteral_reads_back.1 _ _ _ _ scanned hscan rfl
  obtain ⟨-, -, hreadScanned, -⟩ := stringLiteral_reads_back.2 scanned hscanned
  obtain ⟨-, hinside, hread, -⟩ := stringLiteral_reads_back.2 text (by decide)
  refine ⟨hscan, ?_, by decide, hread [';'], hinside⟩
  have hnothing := hreadScanned []
  rwa [List.append_nil] at hnothing

end ImpToC.C
