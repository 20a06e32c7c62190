import ImpToC.Proofs.Excerpts.Lines

/-!
# Line endings

Lines may end in a carriage return and a line feed, or in the line feed alone. If a text has no
other carriage returns, taking them out moves nothing that is in front of one: all places stay where
they are and all wide lines the same. A row of the text is the same but for a carriage return at its
end.
-/

namespace ImpToC

namespace Text

/-- Each carriage return in a text stands right in front of a line feed. -/
def returnsAtFeeds : List Char → Bool
  | [] => true
  | c :: rest => (c ≠ '\r' || rest.head? = some '\n') && returnsAtFeeds rest

/-- Each carriage return with a line feed behind it becomes the line feed alone. -/
def feedEndings : List Char → List Char
  | [] => []
  | '\r' :: '\n' :: rest => '\n' :: feedEndings rest
  | c :: rest => c :: feedEndings rest

/-- A text without any carriage return. -/
def withoutReturns (text : List Char) : List Char := text.filter (· ≠ '\r')

@[simp] theorem withoutReturns_nil : withoutReturns [] = [] := rfl

@[simp] theorem withoutReturns_append (first second : List Char) :
    withoutReturns (first ++ second) = withoutReturns first ++ withoutReturns second :=
  List.filter_append first second

@[simp] theorem withoutReturns_return (rest : List Char) :
    withoutReturns ('\r' :: rest) = withoutReturns rest := rfl

theorem withoutReturns_cons_of_ne {c : Char} (hc : c ≠ '\r') (rest : List Char) :
    withoutReturns (c :: rest) = c :: withoutReturns rest :=
  List.filter_cons_of_pos (decide_eq_true hc)

theorem withoutReturns_of_not_mem {text : List Char} (h : '\r' ∉ text) :
    withoutReturns text = text := by
  apply List.filter_eq_self.mpr
  intro c hc
  exact decide_eq_true fun heq => h (heq ▸ hc)

theorem mem_withoutReturns {c : Char} {text : List Char} :
    c ∈ withoutReturns text ↔ c ∈ text ∧ c ≠ '\r' := by
  simp [withoutReturns]

/-! ## Pairs -/

theorem returnsAtFeeds_cons {c : Char} {rest : List Char} :
    returnsAtFeeds (c :: rest) = true ↔
      (c = '\r' → rest.head? = some '\n') ∧ returnsAtFeeds rest = true := by
  rw [returnsAtFeeds, Bool.and_eq_true, Bool.or_eq_true, decide_eq_true_eq, decide_eq_true_eq,
    or_iff_not_imp_left, not_not]

/-- A text is made of pairs and of characters that are no carriage returns. -/
inductive Paired : List Char → Prop
  | nil : Paired []
  | pair {rest : List Char} : Paired rest → Paired ('\r' :: '\n' :: rest)
  | char {c : Char} {rest : List Char} : c ≠ '\r' → Paired rest → Paired (c :: rest)

theorem Paired.of_returnsAtFeeds : ∀ text, returnsAtFeeds text = true → Paired text
  | [], _ => .nil
  | c :: rest, h => by
      obtain ⟨hreturn, hrest⟩ := returnsAtFeeds_cons.mp h
      by_cases hc : c = '\r'
      · obtain ⟨more, rfl⟩ := List.head?_eq_some_iff.mp (hreturn hc)
        rw [hc]
        exact .pair (of_returnsAtFeeds more (returnsAtFeeds_cons.mp hrest).2)
      · exact .char hc (of_returnsAtFeeds rest hrest)

theorem returnsAtFeeds_of_append {first second : List Char}
    (h : returnsAtFeeds (first ++ second) = true) : returnsAtFeeds second = true := by
  induction first with
  | nil => exact h
  | cons c first ih => exact ih (returnsAtFeeds_cons.mp h).2

/-- No pair goes over the border to a part that does not begin with a line feed. -/
theorem returnsAtFeeds_front {first second : List Char} (hsecond : second.head? ≠ some '\n')
    (h : returnsAtFeeds (first ++ second) = true) : returnsAtFeeds first = true := by
  induction first with
  | nil => rfl
  | cons c first ih =>
      obtain ⟨hreturn, hrest⟩ := returnsAtFeeds_cons.mp h
      refine returnsAtFeeds_cons.mpr ⟨fun hc => ?_, ih hrest⟩
      cases first with
      | nil => exact absurd (hreturn hc) hsecond
      | cons d first => exact hreturn hc

theorem feedEndings_cons_of_ne {c : Char} (hc : c ≠ '\r') (rest : List Char) :
    feedEndings (c :: rest) = c :: feedEndings rest := by
  rw [feedEndings]
  exact fun _ h _ => hc h

/-- To take the returns out of all pairs is to take out all returns, if there are no others. -/
theorem feedEndings_eq {text : List Char} (h : Paired text) :
    feedEndings text = withoutReturns text := by
  induction h with
  | nil => rfl
  | pair _ ih =>
      rw [feedEndings, ih]
      rfl
  | char hc _ ih => rw [feedEndings_cons_of_ne hc, withoutReturns_cons_of_ne hc, ih]

/-- Reading a file makes the same of such a text. -/
theorem uniformEndings_eq {text : List Char} (h : Paired text) :
    uniformEndings text = feedEndings text := by
  induction h with
  | nil => rfl
  | pair _ ih => rw [uniformEndings, feedEndings, ih]
  | char hc _ ih =>
      rw [feedEndings_cons_of_ne hc, uniformEndings, if_neg hc, ih]
      exact fun _ hreturn _ => hc hreturn

/-! ## Wide lines -/

/-- A pair is one break, and so is the line feed alone. -/
theorem lines_withoutReturns {text : List Char} (h : Paired text) :
    lines (withoutReturns text) = lines text := by
  induction h with
  | nil => rfl
  | @pair rest _ ih =>
      show lines ('\n' :: withoutReturns rest) = [] :: lines rest
      rw [← ih]
      rfl
  | @char c rest hc _ ih =>
      have hlines (text : List Char) : lines (c :: text) =
          if isLineBreak c then [] :: lines text else consFirst c (lines text) := by
        rw [lines]
        exact fun _ h _ => hc h
      rw [withoutReturns_cons_of_ne hc, hlines, hlines, ih]

/-! ## Rows -/

theorem takeWhile_withoutReturns (text : List Char) :
    (withoutReturns text).takeWhile (· ≠ '\n') = withoutReturns (text.takeWhile (· ≠ '\n')) := by
  induction text with
  | nil => rfl
  | cons c rest ih =>
      by_cases hc : c = '\r'
      · subst hc
        exact ih
      · by_cases hfeed : c = '\n'
        · subst hfeed
          rfl
        · rw [withoutReturns_cons_of_ne hc, List.takeWhile_cons_of_pos (by simpa using hfeed),
            List.takeWhile_cons_of_pos (by simpa using hfeed), withoutReturns_cons_of_ne hc, ih]

/-- In a row only the last character can be a carriage return. -/
theorem row_cases {row rest : List Char} (hrow : '\n' ∉ row)
    (h : returnsAtFeeds (row ++ rest) = true) :
    row = withoutReturns row ∨ row = withoutReturns row ++ ['\r'] := by
  induction row with
  | nil => exact .inl rfl
  | cons c row ih =>
      obtain ⟨hreturn, hrest⟩ := returnsAtFeeds_cons.mp h
      rw [List.mem_cons, not_or] at hrow
      by_cases hc : c = '\r'
      · right
        cases row with
        | nil => rw [hc]; rfl
        | cons d row =>
            obtain rfl := Option.some.inj (hreturn hc)
            exact absurd List.mem_cons_self hrow.2
      · rw [withoutReturns_cons_of_ne hc]
        rcases ih hrow.2 hrest with heq | heq
        · left
          rw [← heq]
        · right
          rw [List.cons_append, ← heq]

/-- What has no line feed in it and stands at the beginning of a text without its carriage returns
stands there with them as well. -/
theorem isPrefix_of_withoutReturns {word text : List Char} (hword : '\n' ∉ word)
    (h : returnsAtFeeds text = true) (hfront : word <+: withoutReturns text) :
    word <+: text := by
  induction text generalizing word with
  | nil => exact hfront
  | cons c rest ih =>
      obtain ⟨hreturn, hrest⟩ := returnsAtFeeds_cons.mp h
      cases word with
      | nil => exact List.nil_prefix
      | cons d word =>
          rw [List.mem_cons, not_or] at hword
          by_cases hc : c = '\r'
          · obtain ⟨more, rfl⟩ := List.head?_eq_some_iff.mp (hreturn hc)
            subst hc
            obtain ⟨rfl, -⟩ := List.cons_prefix_cons.mp hfront
            exact absurd rfl hword.1
          · rw [withoutReturns_cons_of_ne hc, List.cons_prefix_cons] at hfront
            exact List.cons_prefix_cons.mpr ⟨hfront.1, ih hword.2 hrest hfront.2⟩

end Text

/-! ## Places -/

open Text

/-- A pair ends a line as the line feed alone does. -/
theorem Location.advanceOver_withoutReturns (l : Location) {text : List Char}
    (h : Paired text) : l.advanceOver (withoutReturns text) = l.advanceOver text := by
  induction h generalizing l with
  | nil => rfl
  | pair _ ih =>
      have hpair : (l.advance '\r').advance '\n' = l.advance '\n' := rfl
      rw [advanceOver_cons, advanceOver_cons, hpair]
      exact ih (l.advance '\n')
  | char hc _ ih => rw [withoutReturns_cons_of_ne hc, advanceOver_cons, advanceOver_cons, ih]

theorem Location.behind_withoutReturns (file : String) {text : List Char}
    (h : Paired text) : behind file (withoutReturns text) = behind file text := by
  have horigin (text : List Char) : behind file text = (behind file []).advanceOver text :=
    behind_append file [] text
  rw [horigin, advanceOver_withoutReturns _ h, ← horigin]

namespace Cursor

variable (file : String) {before ahead : List Char}

theorem line_withoutReturns (before ahead : List Char) :
    (between file (withoutReturns before) (withoutReturns ahead)).line =
      withoutReturns (between file before ahead).line := by
  have hreverse : (withoutReturns before).reverse = withoutReturns before.reverse :=
    List.filter_reverse.symm
  simp only [line, between, hreverse, takeWhile_withoutReturns, withoutReturns_append]
  simp only [withoutReturns, List.filter_reverse]

/-- The row of a place is the same without the carriage returns, but for one at its end. -/
theorem line_cases (h : returnsAtFeeds (before ++ ahead) = true) :
    let row := (between file (withoutReturns before) (withoutReturns ahead)).line
    (between file before ahead).line = row ∨ (between file before ahead).line = row ++ ['\r'] := by
  intro row
  obtain ⟨rows, begun, hplace⟩ := exists_inRow file before ahead
  rw [hplace.text_eq] at h
  have hrow : row = withoutReturns (between file before ahead).line :=
    line_withoutReturns file before ahead
  rw [hrow]
  exact row_cases hplace.not_mem_line (returnsAtFeeds_of_append h)

end Cursor

end ImpToC
