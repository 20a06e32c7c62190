import Mathlib.Data.List.Basic
import ImpToC.Compilation
import ImpToC.Proofs.Scanning.Tokenized

/-!
# The places of tokens

A token is found where its location points to, as the longest word there, and its place comes
before those of all later tokens. No run of digits goes on over a border of a token.
-/

namespace ImpToC

namespace Location

variable {l m n : Location}

/-- A place comes before another one: it is on an earlier line, or further left on the same. -/
def Before (l m : Location) : Prop :=
  l.line < m.line ∨ l.line = m.line ∧ l.column < m.column

instance (l m : Location) : Decidable (l.Before m) := inferInstanceAs (Decidable (_ ∨ _))

theorem Before.trans (h : l.Before m) (h' : m.Before n) : l.Before n := by
  unfold Before at h h' ⊢
  omega

theorem Before.irrefl : ¬ l.Before l := by
  unfold Before
  omega

theorem before_advance (l : Location) (c : Char) : l.Before (l.advance c) := by
  by_cases hc : c = '\n'
  · subst hc
    left
    rw [advance_newline]
    exact Int.lt_succ l.line
  · right
    rw [advance_of_ne l hc]
    exact ⟨rfl, Int.lt_succ l.column⟩

theorem before_advanceOver (l : Location) {text : List Char} (h : text ≠ []) :
    l.Before (l.advanceOver text) := by
  induction text generalizing l with
  | nil => exact absurd rfl h
  | cons c rest ih =>
      rw [advanceOver_cons]
      by_cases hrest : rest = []
      · rw [hrest]
        exact l.before_advance c
      · exact (l.before_advance c).trans (ih (l.advance c) hrest)

/-- The place behind the beginning of a text comes before the places further on in it. -/
theorem behind_before_append (file : String) (front : List Char) {more : List Char}
    (h : more ≠ []) : (behind file front).Before (behind file (front ++ more)) := by
  rw [behind_append]
  exact before_advanceOver _ h

/-- No text stands between a place and itself. -/
theorem eq_nil_of_behind_append {file : String} {front more : List Char}
    (h : behind file front = behind file (front ++ more)) : more = [] := by
  by_contra hmore
  have hbefore := behind_before_append file front hmore
  rw [← h] at hbefore
  exact hbefore.irrefl

end Location

/-! ## Runs of digits -/

/-- No run of digits goes on from one text to the next. -/
def Apart (front ahead : List Char) : Prop :=
  ∀ c ∈ front.getLast?, isDigit c = true → ∀ d ∈ ahead.head?, isDigit d = false

namespace Apart

variable {front passed ahead : List Char}

theorem nil : Apart [] ahead := nofun

theorem append (h : Apart passed ahead) (hne : passed ≠ []) : Apart (front ++ passed) ahead := by
  intro c hc
  rw [List.getLast?_append_of_ne_nil _ hne] at hc
  exact h c hc

theorem not_isDigit_last (h : Apart front ahead) {d : Char} (hd : d ∈ ahead.head?)
    (hdigit : isDigit d = true) : ∀ c ∈ front.getLast?, isDigit c = false := by
  intro c hc
  by_contra hlast
  have hfalse := h c hc (by simpa using hlast) d hd
  rw [hdigit] at hfalse
  cases hfalse

end Apart

theorem isDigit_eq_false_of_isBlank {c : Char} (h : isBlank c = true) : isDigit c = false := by
  by_contra hdigit
  have hpart := Lexeme.isNamePart_of_isDigit (by simpa using hdigit)
  rw [(Lexeme.not_isBlank_of_isNamePart hpart).1] at h
  cases h

/-- Trivia in front of a digit do not end in one: a comment goes on to the end of its line. -/
theorem Trivia.apart {front ahead gap : List Char} (h : Trivia ahead gap)
    (hstart : gap = [] → Apart front ahead) : Apart (front ++ gap) ahead := by
  induction h generalizing front with
  | nil =>
      rw [List.append_nil]
      exact hstart rfl
  | @blank c gap hblank _ ih =>
      rw [List.append_cons]
      apply ih
      rintro -
      apply Apart.append _ (List.cons_ne_nil c [])
      rintro _ ⟨⟩ hdigit
      exact (Bool.false_ne_true ((isDigit_eq_false_of_isBlank hblank).symm.trans hdigit)).elim
  | @comment text gap _ hend _ ih =>
      rw [← List.cons_append, ← List.append_assoc]
      apply ih
      rintro rfl c - - d hd
      rw [hend d hd]
      rfl

namespace Lexeme

variable {strings : Bool} {w : Lexeme}

theorem not_isDigit_last_symbol {s : Symbol} (h : s ∈ Symbol.marks ∨ s ∈ Symbol.words) :
    ∀ c ∈ s.spelling.toList.getLast?, isDigit c = false := by
  have hall : ∀ s ∈ Symbol.marks ++ Symbol.words,
      s.spelling.toList.getLast?.all (!isDigit ·) = true := by
    decide
  intro c hc
  have hlast := hall s (List.mem_append.mpr h)
  rw [Option.mem_def.mp hc] at hlast
  simpa using hlast

/-- A word that ends in a digit can go on with digits. -/
theorem Word.exists_longer (h : Word strings w) {c d : Char} (hlast : c ∈ w.spelling.getLast?)
    (hc : isDigit c = true) (hd : isDigit d = true) :
    ∃ other, Word strings other ∧ other.spelling = w.spelling ++ [d] := by
  cases h with
  | mark hs =>
      have hno := not_isDigit_last_symbol (.inl hs) c hlast
      exact (Bool.false_ne_true (hno.symm.trans hc)).elim
  | keyword hs =>
      have hno := not_isDigit_last_symbol (.inr (mem_keywords.mp hs).1) c hlast
      exact (Bool.false_ne_true (hno.symm.trans hc)).elim
  | int _ hdigits =>
      have hmore := List.forall_mem_append.mpr ⟨hdigits, List.forall_mem_singleton.mpr hd⟩
      exact ⟨_, .int (by simp) hmore, by simp [spelling]⟩
  | float hwhole hdigits hfraction =>
      have hmore := List.forall_mem_append.mpr ⟨hfraction, List.forall_mem_singleton.mpr hd⟩
      exact ⟨_, .float hwhole hdigits hmore, by simp [spelling]⟩
  | @name first rest hfirst hrest _ =>
      have hpart := isNamePart_of_isDigit hd
      have hmore := List.forall_mem_append.mpr ⟨hrest, List.forall_mem_singleton.mpr hpart⟩
      refine ⟨_, .name hfirst hmore fun s hs hspelling => ?_, by simp [spelling]⟩
      have hno := not_isDigit_last_symbol (.inr (mem_keywords.mp hs).1) d
        (by rw [hspelling, ← List.cons_append, List.getLast?_concat]; rfl)
      exact Bool.false_ne_true (hno.symm.trans hd)
  | string =>
      rw [spelling, List.getLast?_concat] at hlast
      cases hlast
      exact absurd hc (by decide)

theorem Longest.apart {rest : List Char} (h : w.Longest strings (w.spelling ++ rest))
    (hword : Word strings w) : Apart w.spelling rest := by
  intro c hc hdigit d hd
  by_contra hmore
  obtain ⟨tail, rfl⟩ := List.head?_eq_some_iff.mp hd
  obtain ⟨other, hother, hspelling⟩ := hword.exists_longer hc hdigit (by simpa using hmore)
  have hlength := h other hother ⟨tail, by simp [hspelling]⟩
  rw [hspelling, List.length_append] at hlength
  exact absurd hlength (Nat.not_succ_le_self _)

theorem Word.spelling_ne_nil (h : Word strings w) : w.spelling ≠ [] := by
  obtain ⟨c, rest, hspelling, -⟩ := h.exists_spelling
  rw [hspelling]
  exact List.cons_ne_nil c rest

/-- A word stands between two parts of a text: no longer one does, and it does not start inside
a run of digits. -/
structure Stands (strings : Bool) (front : List Char) (w : Lexeme) (rest : List Char) : Prop where
  word : Word strings w
  longest : w.Longest strings (w.spelling ++ rest)
  apart : Apart front (w.spelling ++ rest)

end Lexeme

/-! ## Tokens in a text -/

namespace Tokenized

variable {strings : Bool} {file : String} {before text : List Char} {words : List Token}
  {finish : Location}

/-- A token lies in a text where its location points to. -/
theorem exists_split (h : Tokenized strings file before text words finish)
    (hstart : Apart before text) : ∀ t ∈ words, ∃ gap rest,
      text = gap ++ (t.lexeme.spelling ++ rest) ∧ t.location = .behind file (before ++ gap) ∧
        t.lexeme.Stands strings (before ++ gap) rest := by
  induction h with
  | finish => exact nofun
  | @word before gap rest lexeme words finish hgap hword hlongest _ ih =>
      intro t ht
      rcases List.mem_cons.mp ht with rfl | ht
      · refine ⟨gap, rest, rfl, rfl, hword, hlongest, hgap.apart ?_⟩
        rintro rfl
        exact hstart
      · obtain ⟨gap', rest', rfl, hlocation, hstands⟩ :=
          ih ((hlongest.apart hword).append hword.spelling_ne_nil) t ht
        refine ⟨gap ++ (lexeme.spelling ++ gap'), rest', by simp, ?_, ?_⟩
        · rw [hlocation]
          simp
        · simpa using hstands

/-- Tokens follow each other. -/
theorem pairwise_before (h : Tokenized strings file before text words finish) :
    words.Pairwise fun t t' => t.location.Before t'.location := by
  induction h with
  | finish => exact .nil
  | @word before gap rest lexeme words finish _ hword hlongest hrest ih =>
      apply List.pairwise_cons.mpr
      refine ⟨fun t ht => ?_, ih⟩
      obtain ⟨gap', _, -, hlocation, -⟩ :=
        hrest.exists_split ((hlongest.apart hword).append hword.spelling_ne_nil) t ht
      rw [hlocation, List.append_assoc (before ++ gap)]
      apply Location.behind_before_append
      exact List.append_ne_nil_of_left_ne_nil hword.spelling_ne_nil gap'

end Tokenized

/-! ## Reading a source at a place -/

namespace Source

variable {source : Source} {l : Location}

/-- A place splits a source: it counts the lines and the characters of what is in front of it. -/
structure SplitsAt (source : Source) (l : Location) (front ahead : List Char) : Prop where
  text : source.text = front ++ ahead
  location : l = .behind source.file front

/-- A place splits a source in one way. -/
theorem SplitsAt.unique {front front' ahead ahead' : List Char}
    (h : source.SplitsAt l front ahead) (h' : source.SplitsAt l front' ahead') :
    front = front' ∧ ahead = ahead' := by
  have hplace := h.location.symm.trans h'.location
  -- If one part in front were longer, its end would be a later place.
  rcases List.append_eq_append_iff.mp (h.text.symm.trans h'.text) with
    ⟨more, rfl, rfl⟩ | ⟨more, rfl, rfl⟩
  · obtain rfl := Location.eq_nil_of_behind_append hplace
    simp
  · obtain rfl := Location.eq_nil_of_behind_append hplace.symm
    simp

/-- A token stands at a place of a source. -/
def Shows (source : Source) (l : Location) (w : Lexeme) : Prop :=
  ∃ front rest, source.SplitsAt l front (w.spelling ++ rest) ∧
    w.Stands source.strings front rest

/-- At a place of a source a number stands, and no digit right in front of it or behind it. -/
def ShowsNumber (source : Source) (l : Location) (number : List Char) : Prop :=
  ∃ front rest, source.SplitsAt l front (number ++ rest) ∧
    (∀ c ∈ front.getLast?, isDigit c = false) ∧ ∀ c ∈ rest.head?, isDigit c = false

theorem Shows.word {w : Lexeme} (h : source.Shows l w) : w.Word source.strings := by
  obtain ⟨_, _, _, hstands⟩ := h
  exact hstands.word

theorem shows_of_scan {s : Sentence} (h : source.scan = .ok s) :
    ∀ t ∈ s.words, source.Shows t.location t.lexeme := by
  intro t ht
  obtain ⟨gap, rest, htext, hlocation, hstands⟩ :=
    (Sentence.ofSource_eq_ok_iff.mp h).exists_split .nil t ht
  exact ⟨gap, rest, ⟨htext, hlocation⟩, hstands⟩

/-- A word that starts and ends with digits stands apart from all other digits. -/
theorem Shows.number {w : Lexeme} {number : List Char} (h : source.Shows l w)
    (hspelling : w.spelling = number) {c d : Char}
    (hfirst : number.head? = some c) (hc : isDigit c = true)
    (hlast : number.getLast? = some d) (hd : isDigit d = true) :
    source.ShowsNumber l number := by
  obtain ⟨front, rest, hsplit, hword, hlongest, hapart⟩ := h
  subst hspelling
  refine ⟨front, rest, hsplit, hapart.not_isDigit_last ?_ hc, hlongest.apart hword d hlast hd⟩
  rw [List.head?_append_of_ne_nil _ hword.spelling_ne_nil]
  exact hfirst

end Source

end ImpToC
