import ImpToC.Proofs.Scanning.Calls

/-!
# Lines in both senses

A location counts line feeds, and a diagnostic may quote a line in the wide sense. A wide line with
a number is the one that locations give this number if all breaks of the text up to its end are line
feeds, where a carriage return in front of a line feed is no part of the line.
-/

namespace ImpToC

namespace Text

/-- A line without a carriage return at its end. -/
def withoutReturn : List Char → List Char
  | [] => []
  | c :: rest => if c = '\r' ∧ rest = [] then [] else c :: withoutReturn rest

/-- All breaks of a text are line feeds, or carriage returns in front of one or at the very end. -/
def breaksAtFeeds : List Char → Bool
  | [] => true
  | c :: rest =>
    (!isLineBreak c || c = '\n' || c = '\r' && rest.head?.all (· = '\n')) && breaksAtFeeds rest

theorem withoutReturn_cons {c : Char} (hc : c ≠ '\r') (rest : List Char) :
    withoutReturn (c :: rest) = c :: withoutReturn rest := by
  simp [withoutReturn, hc]

/-- All other characters stay where they are. -/
theorem getElem?_withoutReturn {c : Char} (hc : c ≠ '\r') (row : List Char) (index : Nat) :
    (withoutReturn row)[index]? = some c ↔ row[index]? = some c := by
  induction row generalizing index with
  | nil => exact Iff.rfl
  | cons first rest ih =>
      rw [withoutReturn]
      split
      next hreturn =>
        obtain ⟨rfl, rfl⟩ := hreturn
        cases index with
        | zero => simp [Ne.symm hc]
        | succ index => simp
      next =>
        cases index with
        | zero => exact Iff.rfl
        | succ index => exact ih index

theorem breaksAtFeeds_append_feed (front rest : List Char) :
    breaksAtFeeds (front ++ '\n' :: rest) = (breaksAtFeeds front && breaksAtFeeds rest) := by
  induction front with
  | nil => simp [breaksAtFeeds]
  | cons c front ih =>
      rw [List.cons_append, breaksAtFeeds, breaksAtFeeds, ih]
      cases front <;> simp [Bool.and_assoc]

/-! ## Wide lines -/

/-- A carriage return can break a text only at the end of a row, where nothing else does. -/
theorem cases_of_breaksAtFeeds {c : Char} {row : List Char} (hrow : '\n' ∉ c :: row)
    (hbreaks : breaksAtFeeds (c :: row) = true) :
    (isLineBreak c = false ∧ c ≠ '\r' ∨ c = '\r' ∧ row = []) ∧ '\n' ∉ row ∧
      breaksAtFeeds row = true := by
  rw [List.mem_cons, not_or] at hrow
  obtain ⟨hc, hrest⟩ := Bool.and_eq_true_iff.mp hbreaks
  refine ⟨?_, hrow.2, hrest⟩
  by_cases hbreak : isLineBreak c = true
  · right
    cases row with
    | nil => simpa [hbreak, Ne.symm hrow.1] using hc
    | cons d row =>
        have hfeed : c = '\r' ∧ d = '\n' := by simpa [hbreak, Ne.symm hrow.1] using hc
        exact absurd List.mem_cons_self (hfeed.2 ▸ hrow.2)
  · left
    refine ⟨by simpa using hbreak, ?_⟩
    rintro rfl
    exact hbreak (by decide)

theorem lines_cons {c : Char} (hbreak : isLineBreak c = false) (rest : List Char) :
    lines (c :: rest) = consFirst c (lines rest) := by
  have hreturn : c ≠ '\r' := by
    rintro rfl
    exact absurd hbreak (by decide)
  rw [lines]
  · simp [hbreak]
  · exact fun _ h _ => hreturn h

/-- A row of a text up to its line feed is a wide line. -/
theorem lines_append_feed {row : List Char} (hrow : '\n' ∉ row)
    (hbreaks : breaksAtFeeds row = true) (rest : List Char) :
    lines (row ++ '\n' :: rest) = withoutReturn row :: lines rest := by
  induction row with
  | nil => rfl
  | cons c row ih =>
      obtain ⟨hc, hrow, hbreaks⟩ := cases_of_breaksAtFeeds hrow hbreaks
      rcases hc with ⟨hbreak, hreturn⟩ | ⟨rfl, rfl⟩
      · rw [List.cons_append, lines_cons hbreak, ih hrow hbreaks, withoutReturn_cons hreturn]
        rfl
      · rfl

/-- The last row of a text is a wide line, unless it is empty. -/
theorem lines_of_not_mem {row : List Char} (hrow : '\n' ∉ row)
    (hbreaks : breaksAtFeeds row = true) (hne : row ≠ []) : lines row = [withoutReturn row] := by
  induction row with
  | nil => exact absurd rfl hne
  | cons c row ih =>
      obtain ⟨hc, hrow, hbreaks⟩ := cases_of_breaksAtFeeds hrow hbreaks
      rcases hc with ⟨hbreak, hreturn⟩ | ⟨rfl, rfl⟩
      · rw [lines_cons hbreak, withoutReturn_cons hreturn]
        by_cases hnil : row = []
        · rw [hnil]
          rfl
        · rw [ih hrow hbreaks hnil]
          rfl
      · rfl

/-- Behind some whole rows there are as many wide lines fewer as there are line feeds in them. -/
theorem drop_lines {front : List Char} (hfront : ∀ c ∈ front.getLast?, c = '\n')
    (hbreaks : breaksAtFeeds front = true) (rest : List Char) :
    (lines (front ++ rest)).drop (front.count '\n') = lines rest := by
  induction hn : front.length using Nat.strong_induction_on generalizing front with
  | _ n ih =>
    by_cases hnil : front = []
    · subst hnil
      rfl
    · have hmem : '\n' ∈ front := by
        have hlast := hfront _ (List.getLast?_eq_some_getLast hnil)
        exact hlast ▸ List.getLast_mem hnil
      -- The first row is taken off with its line feed; the others are whole rows as well.
      obtain ⟨row, more, rfl, hrow⟩ := List.eq_append_cons_of_mem hmem
      rw [breaksAtFeeds_append_feed, Bool.and_eq_true] at hbreaks
      have hmore : ∀ c ∈ more.getLast?, c = '\n' := by
        intro c hc
        apply hfront
        rw [List.append_cons, List.getLast?_append, Option.mem_def.mp hc]
        rfl
      have hcount : (row ++ '\n' :: more).count '\n' = more.count '\n' + 1 := by
        simp [List.count_append, List.count_eq_zero_of_not_mem hrow]
      have hshorter : more.length < n := by
        rw [← hn, List.length_append, List.length_cons]
        omega
      rw [List.append_assoc, List.cons_append, lines_append_feed hrow hbreaks.1, hcount,
        List.drop_succ_cons]
      exact ih _ hshorter hmore hbreaks.2 rfl

theorem head?_lines {row rest : List Char} (hrow : '\n' ∉ row)
    (hbreaks : breaksAtFeeds row = true) (hrest : ∀ c ∈ rest.head?, c = '\n') :
    ∀ line ∈ (lines (row ++ rest)).head?, line = withoutReturn row := by
  intro line hline
  cases rest with
  | cons c rest =>
      obtain rfl := hrest c rfl
      rw [lines_append_feed hrow hbreaks] at hline
      exact (Option.some.inj hline).symm
  | nil =>
      rw [List.append_nil] at hline
      by_cases hnil : row = []
      · rw [hnil] at hline
        cases hline
      · rw [lines_of_not_mem hrow hbreaks hnil] at hline
        exact (Option.some.inj hline).symm

end Text

/-! ## The row of a place -/

/-- A place in a text is behind some whole rows and the beginning of its own one. Its location counts
the line feeds in the rows and the characters in the beginning. -/
structure Cursor.InRow (file : String) (before ahead rows begun : List Char) : Prop where
  split : before = rows ++ begun
  rowsEnd : ∀ c ∈ rows.getLast?, c = '\n'
  noFeed : '\n' ∉ begun
  location : Location.behind file before = ⟨rows.count '\n' + 1, begun.length + 1, file⟩
  line : (Cursor.between file before ahead).line = begun ++ ahead.takeWhile (· ≠ '\n')

namespace Cursor

theorem exists_inRow (file : String) (before ahead : List Char) :
    ∃ rows begun, InRow file before ahead rows begun := by
  have hsplit := List.takeWhile_append_dropWhile (p := (· ≠ '\n')) (l := before.reverse)
  have hbegun : '\n' ∉ (before.reverse.takeWhile (· ≠ '\n')).reverse := fun hmem => by
    simpa using List.mem_takeWhile_imp (List.mem_reverse.mp hmem)
  have hbefore : before = (before.reverse.dropWhile (· ≠ '\n')).reverse ++
      (before.reverse.takeWhile (· ≠ '\n')).reverse := by
    rw [← List.reverse_append, hsplit, List.reverse_reverse]
  refine ⟨_, _, hbefore, ?_, hbegun, ?_, rfl⟩
  · rw [List.getLast?_reverse]
    exact feed_of_dropWhile _
  · have hcount := congrArg (List.count '\n') hbefore
    rw [List.count_append, List.count_eq_zero_of_not_mem hbegun, Nat.add_zero] at hcount
    simp only [Location.behind, hcount, List.length_reverse, Int.add_comm 1]

namespace InRow

variable {file : String} {before ahead rows begun : List Char}

theorem not_mem_line (h : InRow file before ahead rows begun) :
    '\n' ∉ (between file before ahead).line := by
  rw [h.line, List.mem_append, not_or]
  exact ⟨h.noFeed, fun hmem => by simpa using List.mem_takeWhile_imp hmem⟩

theorem text_eq (h : InRow file before ahead rows begun) :
    before ++ ahead = rows ++ ((between file before ahead).line ++ ahead.dropWhile (· ≠ '\n')) := by
  rw [h.line, h.split, List.append_assoc, List.append_assoc, List.takeWhile_append_dropWhile]

/-- The lines with the number of a location are those behind as many as there are line feeds. -/
theorem lineAt?_eq (h : InRow file before ahead rows begun) (lines : List (List Char)) :
    Text.lineAt? lines (Location.behind file before).line = lines[rows.count '\n']? := by
  have hpos : (0 : Int) < rows.count '\n' + 1 := by omega
  rw [h.location, Text.lineAt?, if_pos hpos, Int.add_sub_cancel, Int.toNat_natCast]

/-- The first character behind a place stands in its row, behind the beginning. -/
theorem getElem?_line (h : InRow file before ahead rows begun) {c : Char} (hc : c ∈ ahead.head?)
    (hfeed : c ≠ '\n') : (between file before ahead).line[begun.length]? = some c := by
  obtain ⟨rest, rfl⟩ := List.head?_eq_some_iff.mp hc
  rw [h.line, List.takeWhile_cons_of_pos (by simpa using hfeed)]
  simp

/-- The rows, and the one that the place is in, break at line feeds if the text does up to there. -/
theorem breaksAtFeeds (h : InRow file before ahead rows begun)
    (hbreaks : Text.breaksAtFeeds (before ++ ahead.takeWhile (· ≠ '\n')) = true) :
    Text.breaksAtFeeds rows = true ∧
      Text.breaksAtFeeds (between file before ahead).line = true := by
  rw [h.line]
  rw [h.split, List.append_assoc] at hbreaks
  rcases List.eq_nil_or_concat' rows with rfl | ⟨more, c, rfl⟩
  · exact ⟨rfl, hbreaks⟩
  · obtain rfl := h.rowsEnd c (by simp)
    rw [List.append_assoc, List.singleton_append, Text.breaksAtFeeds_append_feed,
      Bool.and_eq_true] at hbreaks
    rw [Text.breaksAtFeeds_append_feed, hbreaks.1]
    exact ⟨rfl, hbreaks.2⟩

end InRow

/-- The row that a place is in has the number of its location. -/
theorem lineAt?_feedLines (file : String) (before ahead : List Char) :
    Text.lineAt? (Text.feedLines (before ++ ahead)) (Location.behind file before).line =
      some (between file before ahead).line := by
  obtain ⟨rows, begun, h⟩ := exists_inRow file before ahead
  rw [h.lineAt?_eq, h.text_eq]
  exact Text.feedLines_getElem? h.rowsEnd h.not_mem_line (feed_of_dropWhile ahead)

/-- If a text breaks at line feeds up to the end of a row, the wide line with the number of this row
is the row without the carriage return at its end. -/
theorem eq_withoutReturn_of_lineAt? (file : String) {before ahead : List Char}
    (hbreaks : Text.breaksAtFeeds (before ++ ahead.takeWhile (· ≠ '\n')) = true) :
    ∀ line ∈ Text.lineAt? (Text.lines (before ++ ahead)) (Location.behind file before).line,
      line = Text.withoutReturn (between file before ahead).line := by
  obtain ⟨rows, begun, h⟩ := exists_inRow file before ahead
  obtain ⟨hrows, hline⟩ := h.breaksAtFeeds hbreaks
  rw [h.lineAt?_eq, h.text_eq, ← List.head?_drop, Text.drop_lines h.rowsEnd hrows]
  exact Text.head?_lines h.not_mem_line hline (feed_of_dropWhile ahead)

end Cursor

end ImpToC
