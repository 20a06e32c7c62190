import ImpToC.Proofs.Outline.Expressions

/-!
# Lines of outlines

A line shows how far it is moved to the right, what kind of declaration or statement it stands
for, and all of it but the statements inside. The lines inside a statement are those moved
further, so the lines of some statements end where one comes that is not.
-/

namespace ImpToC

/-! ## Indentation -/

/-- A text that starts with no blank. -/
def Flush (text : String) : Prop := ∀ c ∈ text.toList.head?, c ≠ ' '

theorem toList_indented (level : Nat) (text : String) :
    (indented level text).toList = List.replicate (2 * level) ' ' ++ text.toList := by
  rw [indented, String.toList_append, String.toList_ofList]

/-- A line shows its level and its text. -/
theorem indented_inj {level level' : Nat} {text text' : String} (htext : Flush text)
    (htext' : Flush text') (h : indented level text = indented level' text') :
    level = level' ∧ text = text' := by
  have hblanks (n : Nat) : ∀ c ∈ List.replicate n ' ', decide (c = ' ') = true :=
    fun c hc => decide_eq_true (List.eq_of_mem_replicate hc)
  have hchars := congrArg String.toList h
  rw [toList_indented, toList_indented] at hchars
  obtain ⟨hlevels, htexts⟩ := run_inj (hblanks _) (hblanks _)
    (fun c hc => decide_eq_false (htext c hc)) (fun c hc => decide_eq_false (htext' c hc)) hchars
  have hlength := congrArg List.length hlevels
  rw [List.length_replicate, List.length_replicate] at hlength
  exact ⟨by omega, String.toList_inj.mp htexts⟩

/-- The first line of some lines, if there is one, is moved to the right by less than a level. -/
def Ends (level : Nat) (lines : List String) : Prop :=
  ∀ line ∈ lines.head?, ∃ above text, above < level ∧ Flush text ∧ line = indented above text

theorem ends_cons {level above : Nat} (h : above < level) {text : String} (htext : Flush text)
    (lines : List String) : Ends level (indented above text :: lines) := by
  rintro line hline
  cases hline
  exact ⟨above, text, h, htext, rfl⟩

theorem Ends.mono {level level' : Nat} {lines : List String} (h : Ends level lines)
    (hle : level ≤ level') : Ends level' lines := by
  intro line hline
  obtain ⟨above, text, habove, hrest⟩ := h line hline
  exact ⟨above, text, Nat.lt_of_lt_of_le habove hle, hrest⟩

theorem Ends.ne_cons {level above : Nat} {lines rest : List String} (h : Ends level lines)
    (hle : level ≤ above) {text : String} (htext : Flush text) :
    lines ≠ indented above text :: rest := by
  rintro rfl
  obtain ⟨above', text', habove, hflush, hline⟩ := h _ rfl
  obtain ⟨rfl, -⟩ := indented_inj htext hflush hline
  omega

/-! ## Texts of one line -/

/-- A text of one line. -/
def OneLine (text : String) : Prop := '\n' ∉ text.toList

instance (text : String) : Decidable (OneLine text) :=
  inferInstanceAs (Decidable ('\n' ∉ text.toList))

theorem oneLine_append {first second : String} :
    OneLine (first ++ second) ↔ OneLine first ∧ OneLine second := by
  rw [OneLine, String.toList_append, List.mem_append, not_or]
  rfl

theorem oneLine_indented {level : Nat} {text : String} :
    OneLine (indented level text) ↔ OneLine text := by
  have hblanks : OneLine (String.ofList (List.replicate (2 * level) ' ')) := by
    intro h
    rw [String.toList_ofList] at h
    exact absurd (List.eq_of_mem_replicate h) (by decide)
  rw [indented, oneLine_append]
  exact and_iff_right hblanks

/-! ## Keywords -/

/-- A text made of a word and what follows it. -/
def phrase (word rest : String) : String := word ++ " " ++ rest

/-- A word that can start a line. -/
def IsKeyword (word : String) : Prop := word.toList ≠ [] ∧ ∀ c ∈ word.toList, c ≠ ' '

theorem toList_phrase (word rest : String) :
    (phrase word rest).toList = word.toList ++ ' ' :: rest.toList := by
  simp [phrase]

theorem phrase_inj {word word' rest rest' : String} (hword : IsKeyword word)
    (hword' : IsKeyword word') (h : phrase word rest = phrase word' rest') :
    word = word' ∧ rest = rest' := by
  have hchars := congrArg String.toList h
  rw [toList_phrase, toList_phrase] at hchars
  obtain ⟨hwords, hrests⟩ := run_inj (p := fun c => decide (c ≠ ' '))
    (fun c hc => decide_eq_true (hword.2 c hc)) (fun c hc => decide_eq_true (hword'.2 c hc))
    (by simp) (by simp) hchars
  exact ⟨String.toList_inj.mp hwords, String.toList_inj.mp (List.cons.inj hrests).2⟩

theorem flush_of_isKeyword {word : String} (h : IsKeyword word) (rest : String) :
    Flush (phrase word rest) := by
  intro c hc
  obtain ⟨c', tail, htext⟩ := List.exists_cons_of_ne_nil h.1
  rw [toList_phrase, htext] at hc
  cases hc
  exact h.2 c (htext ▸ List.mem_cons_self)

end ImpToC
