import Mathlib.Data.List.Basic
import ImpToC.Proofs.Lowering.Headings

/-!
# The text of code determines the code

Every line of code is one line of the text, and the lines of a block end where one comes that is not
moved as far to the right. The variables end at the line that is left blank behind them. So two
files with one text have the same variables and the same instructions.
-/

namespace ImpToC.C

/-! ## Lines of instructions -/

theorem line_eq_indented (level : Nat) (text : String) :
    line level text = indented (2 * level) text := by
  have hblanks : 4 * level = 2 * (2 * level) := by omega
  rw [line, indented, hblanks]

namespace Instr

/-- The lines of an alternative. -/
def alternative (level : Nat) (no : List Instr) : List String :=
  if no.isEmpty then [] else line level "\x7d else \x7b" :: linesAll (level + 1) no

/-- The lines of an instruction behind the first one. -/
def inner (level : Nat) : Instr → List String
  | .branch _ yes no => linesAll (level + 1) yes ++ (alternative level no ++ [line level "\x7d"])
  | .loop body => linesAll (level + 1) body ++ [line level "\x7d"]
  | _ => []

theorem lines_eq (level : Nat) (i : Instr) :
    i.lines level = line level i.heading :: i.inner level := by
  cases i with
  | define | assign | print | scan | scanString | loop | leaveUnless => rw [lines]; rfl
  | branch condition yes no =>
      rw [lines, inner, alternative, List.append_assoc]
      rfl

theorem flush_heading (i : Instr) : Flush i.heading := by
  obtain ⟨first, rest, hchars, hfirst⟩ := i.exists_heading
  intro c hc
  rw [hchars] at hc
  cases hc
  exact hfirst

/-- The lines in a block end at its brace. -/
theorem ends_brace (level : Nat) (rest : List String) :
    Ends (2 * (level + 1)) (line level "\x7d" :: rest) := by
  have hflush : Flush "\x7d" := by simp [Flush]
  rw [line_eq_indented]
  exact ends_cons (by omega) hflush rest

theorem ends_alternative (level : Nat) (no : List Instr) (rest : List String) :
    Ends (2 * (level + 1)) (alternative level no ++ line level "\x7d" :: rest) := by
  have hflush : Flush "\x7d else \x7b" := by simp [Flush]
  unfold alternative
  split
  · exact ends_brace level rest
  · rw [List.cons_append, line_eq_indented]
    exact ends_cons (by omega) hflush _

/-- The lines of an alternative show it, if the lines in it do. -/
theorem alternative_append_inj {level : Nat} {no no' : List Instr} {rest rest' : List String}
    (ih : linesAll (level + 1) no ++ line level "\x7d" :: rest =
        linesAll (level + 1) no' ++ line level "\x7d" :: rest' →
      no = no' ∧ line level "\x7d" :: rest = line level "\x7d" :: rest')
    (h : alternative level no ++ line level "\x7d" :: rest =
      alternative level no' ++ line level "\x7d" :: rest') :
    no = no' ∧ rest = rest' := by
  have hbrace : line level "\x7d" ≠ line level "\x7d else \x7b" := by
    intro hline
    have hchars := congrArg String.toList hline
    rw [line, line, String.toList_append, String.toList_append] at hchars
    exact absurd (List.append_cancel_left hchars) (by decide)
  cases no with
  | nil =>
      cases no' with
      | nil => exact ⟨rfl, (List.cons.inj h).2⟩
      | cons i' no' => exact absurd (List.cons.inj h).1 hbrace
  | cons i no =>
      cases no' with
      | nil => exact absurd (List.cons.inj h).1.symm hbrace
      | cons i' no' =>
          obtain ⟨hno, hrests⟩ := ih (List.cons.inj h).2
          exact ⟨hno, (List.cons.inj hrests).2⟩

mutual

/-- The lines of an instruction show it. -/
theorem lines_append_inj {level : Nat} {rest rest' : List String} : ∀ i i' : Instr,
    i.Legible → i'.Legible → i.lines level ++ rest = i'.lines level ++ rest' →
    i = i' ∧ rest = rest' := by
  intro i i' h h' hlines
  rw [lines_eq, lines_eq, List.cons_append, List.cons_append] at hlines
  obtain ⟨hline, hinner⟩ := List.cons.inj hlines
  rw [line_eq_indented, line_eq_indented] at hline
  have hhead := head_eq_of_heading h h' (indented_inj i.flush_heading i'.flush_heading hline).2
  cases i with
  | define | assign | print | scan | scanString | leaveUnless =>
      cases i' with
      | define | assign | print | scan | scanString | leaveUnless => exact ⟨hhead, hinner⟩
      | branch | loop => cases hhead
  | branch condition yes no =>
      cases i' with
      | branch condition' yes' no' =>
          injection hhead with hcondition
          -- The first block ends at the alternative or, without one, at the last brace.
          simp only [inner, List.append_assoc, List.singleton_append] at hinner
          obtain ⟨hyes, hrests⟩ := linesAll_append_inj yes yes' h.2.1 h'.2.1
            (ends_alternative level no rest) (ends_alternative level no' rest') hinner
          obtain ⟨hno, hrests⟩ := alternative_append_inj (linesAll_append_inj no no' h.2.2 h'.2.2
            (ends_brace level rest) (ends_brace level rest')) hrests
          rw [hcondition, hyes, hno]
          exact ⟨rfl, hrests⟩
      | define | assign | print | scan | scanString | loop | leaveUnless => cases hhead
  | loop body =>
      cases i' with
      | loop body' =>
          simp only [inner, List.append_assoc, List.singleton_append] at hinner
          obtain ⟨hbody, hrests⟩ := linesAll_append_inj body body' h h'
            (ends_brace level rest) (ends_brace level rest') hinner
          exact ⟨congrArg loop hbody, (List.cons.inj hrests).2⟩
      | define | assign | print | scan | scanString | branch | leaveUnless => cases hhead

/-- The lines of some instructions show them. -/
theorem linesAll_append_inj {level : Nat} {rest rest' : List String} : ∀ code code' : List Instr,
    LegibleAll code → LegibleAll code' → Ends (2 * level) rest → Ends (2 * level) rest' →
    linesAll level code ++ rest = linesAll level code' ++ rest' → code = code' ∧ rest = rest'
  | [], [], _, _, _, _, hlines => ⟨rfl, hlines⟩
  | [], i' :: code', _, _, hrest, _, hlines => by
      rw [linesAll, linesAll, lines_eq, line_eq_indented] at hlines
      exact absurd hlines (hrest.ne_cons (Nat.le_refl _) i'.flush_heading)
  | i :: code, [], _, _, _, hrest', hlines => by
      rw [linesAll, linesAll, lines_eq, line_eq_indented] at hlines
      exact absurd hlines.symm (hrest'.ne_cons (Nat.le_refl _) i.flush_heading)
  | i :: code, i' :: code', h, h', hrest, hrest', hlines => by
      rw [linesAll, linesAll, List.append_assoc, List.append_assoc] at hlines
      obtain ⟨hi, hlines⟩ := lines_append_inj i i' h.1 h'.1 hlines
      obtain ⟨hcode, hrests⟩ := linesAll_append_inj code code' h.2 h'.2 hrest hrest' hlines
      exact ⟨hi ▸ hcode ▸ rfl, hrests⟩

end

end Instr

/-! ## Lines of a text -/

/-- A text of one line that is not left blank. -/
def Filled (text : String) : Prop := OneLine text ∧ text ≠ ""

instance (text : String) : Decidable (Filled text) :=
  inferInstanceAs (Decidable (_ ∧ _))

theorem filled_line {level : Nat} {text : String} (h : Filled text) : Filled (line level text) := by
  refine ⟨?_, fun hempty => h.2 ?_⟩
  · rw [line_eq_indented, oneLine_indented]
    exact h.1
  · have hchars := congrArg String.toList hempty
    rw [line, String.toList_append] at hchars
    exact String.toList_inj.mp (List.append_eq_nil_iff.mp hchars).2

theorem Place.oneLine_text {place : Place} (h : place.Legible) : OneLine place.text :=
  fun hmem => absurd (isNamePart_text h _ hmem) (by decide)

theorem Value.oneLine_text {value : Value} (h : value.Legible) : OneLine value.text := by
  cases value with
  | int n => exact fun hmem => absurd (Number.isDigit_of_mem_toString hmem) (by decide)
  | float m =>
      intro hmem
      rw [text, String.toList_ofList] at hmem
      exact absurd (isNumberChar_floatLiteral m _ hmem) (by decide)
  | string text =>
      rw [OneLine, Value.text, String.toList_ofList]
      exact feed_not_mem_stringLiteral h
  | negate operand =>
      rw [text, oneLine_append]
      exact ⟨by decide, Place.oneLine_text h⟩
  | operation op left right =>
      have hsign : OneLine op.sign := by cases op <;> decide
      simp only [text, oneLine_append, and_assoc]
      exact ⟨Place.oneLine_text h.1, by decide, hsign, by decide, Place.oneLine_text h.2⟩
  | concat left right =>
      simp only [text, oneLine_append, and_assoc]
      exact ⟨by decide, Place.oneLine_text h.1, by decide, Place.oneLine_text h.2, by decide⟩

namespace Instr

theorem oneLine_heading {i : Instr} (h : i.Legible) : OneLine i.heading := by
  have htype (type : Ty) : OneLine type.cName ∧ OneLine type.cConversion := by
    cases type <;> decide
  cases i with
  | define type index value =>
      have hindex : OneLine (Place.temporary index).text := Place.oneLine_text trivial
      simp only [heading, oneLine_append, and_assoc]
      exact ⟨(htype type).1, by decide, hindex, by decide, Value.oneLine_text h, by decide⟩
  | assign target value =>
      have htarget : OneLine (Place.variable target).text := Place.oneLine_text h.1
      simp only [heading, oneLine_append, and_assoc]
      exact ⟨htarget, by decide, Place.oneLine_text h.2, by decide⟩
  | print type value =>
      simp only [heading, oneLine_append, and_assoc]
      exact ⟨by decide, (htype type).2, by decide, Place.oneLine_text h, by decide⟩
  | scan type target =>
      have htarget : OneLine (Place.variable target).text := Place.oneLine_text h
      simp only [heading, oneLine_append, and_assoc]
      exact ⟨by decide, (htype type).2, by decide, htarget, by decide⟩
  | scanString target =>
      have htarget : OneLine (Place.variable target).text := Place.oneLine_text h
      simp only [heading, oneLine_append]
      exact ⟨htarget, by decide⟩
  | branch condition yes no =>
      simp only [heading, oneLine_append, and_assoc]
      exact ⟨by decide, Place.oneLine_text h.1, by decide⟩
  | loop body =>
      rw [heading]
      decide
  | leaveUnless condition =>
      simp only [heading, oneLine_append, and_assoc]
      exact ⟨by decide, Place.oneLine_text h, by decide⟩

theorem filled_heading {i : Instr} (h : i.Legible) : Filled i.heading := by
  refine ⟨oneLine_heading h, fun hempty => ?_⟩
  obtain ⟨c, rest, hchars, -⟩ := i.exists_heading
  rw [hempty] at hchars
  cases hchars

mutual

theorem filled_lines (level : Nat) : ∀ i : Instr, i.Legible → ∀ l ∈ i.lines level, Filled l := by
  intro i h
  have hbrace : Filled (line level "\x7d") := filled_line (by decide)
  have helse : Filled (line level "\x7d else \x7b") := filled_line (by decide)
  rw [lines_eq, List.forall_mem_cons]
  refine ⟨filled_line (filled_heading h), ?_⟩
  cases i with
  | define | assign | print | scan | scanString | leaveUnless => exact nofun
  | branch condition yes no =>
      have hno := filled_linesAll (level + 1) no h.2.2
      rw [inner, List.forall_mem_append, List.forall_mem_append, List.forall_mem_singleton]
      refine ⟨filled_linesAll (level + 1) yes h.2.1, ?_, hbrace⟩
      unfold alternative
      split
      · exact nofun
      · exact List.forall_mem_cons.mpr ⟨helse, hno⟩
  | loop body =>
      rw [inner, List.forall_mem_append, List.forall_mem_singleton]
      exact ⟨filled_linesAll (level + 1) body h, hbrace⟩

theorem filled_linesAll (level : Nat) : ∀ code : List Instr, LegibleAll code →
    ∀ l ∈ linesAll level code, Filled l
  | [], _ => by
      rw [linesAll]
      exact nofun
  | i :: code, h => by
      rw [linesAll, List.forall_mem_append]
      exact ⟨filled_lines level i h.1, filled_linesAll level code h.2⟩

end

end Instr

/-! ## Files -/

/-- A file with names of letters, digits and underscores, and with strings of one line. -/
structure File.Legible (f : File) : Prop where
  symbols : ∀ v ∈ f.symbols, (Place.variable v.1).Legible
  body : Instr.LegibleAll f.body

theorem filled_variableLine {v : String × Ty} (h : (Place.variable v.1).Legible) :
    Filled (variableLine v) := by
  have htype : OneLine v.2.cName ∧ OneLine v.2.cZero := by cases v.2 <;> decide
  have hname : OneLine (Place.variable v.1).text := Place.oneLine_text h
  refine filled_line ⟨?_, fun hempty => ?_⟩
  · simp only [oneLine_append, and_assoc]
    exact ⟨htype.1, by decide, hname, by decide, htype.2, by decide⟩
  · have hchars := congrArg String.toList hempty
    simp at hchars

/-- The line of a variable shows its name and its type. -/
theorem variableLine_inj {v v' : String × Ty} (h : (Place.variable v.1).Legible)
    (h' : (Place.variable v'.1).Legible) (hline : variableLine v = variableLine v') : v = v' := by
  have hchars := congrArg String.toList hline
  simp only [variableLine, line, String.toList_append, List.append_assoc] at hchars
  obtain ⟨htype, hnames⟩ := Ty.cName_append_inj (List.append_cancel_left hchars)
  obtain ⟨hname, -⟩ := Place.text_append_inj h h' (stopsName_append " = " _ rfl)
    (stopsName_append " = " _ rfl) (List.append_cancel_left hnames)
  exact Prod.ext (Place.variable.inj hname) htype

theorem map_variableLine_inj : ∀ symbols symbols' : List (String × Ty),
    (∀ v ∈ symbols, (Place.variable v.1).Legible) → (∀ v ∈ symbols', (Place.variable v.1).Legible) →
    symbols.map variableLine = symbols'.map variableLine → symbols = symbols'
  | [], [], _, _, _ => rfl
  | v :: symbols, v' :: symbols', h, h', hlines => by
      rw [List.forall_mem_cons] at h h'
      obtain ⟨hline, hlines⟩ := List.cons.inj hlines
      rw [variableLine_inj h.1 h'.1 hline, map_variableLine_inj symbols symbols' h.2 h'.2 hlines]

namespace File

/-- The lines of the variables of a file, with a blank one behind them unless there are none. -/
def variableLines (f : File) : List String :=
  f.symbols.map variableLine ++ (if f.symbols.isEmpty then [] else [""])

/-- What the main function of any file ends with. -/
def endLines : List String := [line 1 "return 0;", "\x7d"]

theorem lines_eq_append (f : File) : f.lines = preamble f.usesStrings ++
    (["int main(void)", "\x7b"] ++ (f.variableLines ++ Instr.linesAll 1 f.body)) ++ endLines := by
  simp [lines, variableLines, endLines]

variable {f f' : File}

theorem oneLine_lines (h : f.Legible) : ∀ l ∈ f.lines, OneLine l := by
  have hfront : ∀ usesStrings, ∀ l ∈ preamble usesStrings, OneLine l := by decide +kernel
  have hvariables : ∀ l ∈ f.variableLines, OneLine l := by
    refine List.forall_mem_append.mpr ⟨List.forall_mem_map.mpr fun v hv => ?_, ?_⟩
    · exact (filled_variableLine (h.symbols v hv)).1
    · split
      · exact nofun
      · decide
  have hbody : ∀ l ∈ Instr.linesAll 1 f.body, OneLine l :=
    fun l hl => (Instr.filled_linesAll 1 f.body h.body l hl).1
  simp only [lines_eq_append, List.forall_mem_append]
  exact ⟨⟨hfront _, by decide, hvariables, hbody⟩, by decide⟩

/-- The text of a file shows its lines. -/
theorem lines_eq_of_text (h : f.Legible) (h' : f'.Legible) (htext : f.text = f'.text) :
    f.lines = f'.lines := by
  have hsplit {f : File} (h : f.Legible) :
      ("\n".intercalate f.lines).toList.splitOn '\n' = f.lines.map String.toList := by
    rw [String.toList_intercalate]
    refine List.splitOn_intercalate '\n' ?_ (by simp [lines_eq_append, endLines])
    exact List.forall_mem_map.mpr (oneLine_lines h)
  have hchars := congrArg String.toList htext
  rw [text, text, String.toList_append, String.toList_append] at hchars
  have hlines := hsplit h
  rw [List.append_cancel_right hchars, hsplit h'] at hlines
  exact (List.map_inj_right fun _ _ => String.toList_inj.mp).mp hlines.symm

theorem empty_not_mem {lines : List String} (h : ∀ l ∈ lines, Filled l) : "" ∉ lines :=
  fun hmem => (h _ hmem).2 rfl

/-- There is a blank line in front of the instructions of a file that has variables. -/
theorem empty_mem_iff {code : List String} (hcode : ∀ l ∈ code, Filled l) :
    "" ∈ f.variableLines ++ code ↔ f.symbols ≠ [] := by
  unfold variableLines
  cases f.symbols with
  | nil => simpa using empty_not_mem hcode
  | cons v symbols => simp

/-- The lines of the variables end where those of instructions start. -/
theorem variableLines_append_inj (h : f.Legible) (h' : f'.Legible) {code code' : List String}
    (hcode : ∀ l ∈ code, Filled l) (hcode' : ∀ l ∈ code', Filled l)
    (hlines : f.variableLines ++ code = f'.variableLines ++ code') :
    f.symbols = f'.symbols ∧ code = code' := by
  have hblank : f.symbols ≠ [] ↔ f'.symbols ≠ [] := by
    rw [← empty_mem_iff hcode, hlines, empty_mem_iff hcode']
  by_cases hempty : f.symbols = []
  · have hempty' := not_not.mp (mt hblank.mpr (not_not.mpr hempty))
    unfold variableLines at hlines
    simp only [hempty, hempty', List.map_nil, List.isEmpty_nil, if_true, List.nil_append] at hlines
    exact ⟨hempty.trans hempty'.symm, hlines⟩
  · have hempty' := hblank.mp hempty
    have hfilled {f : File} (h : f.Legible) : "" ∉ f.symbols.map variableLine :=
      empty_not_mem (List.forall_mem_map.mpr fun v hv => filled_variableLine (h.symbols v hv))
    unfold variableLines at hlines
    simp only [List.isEmpty_eq_false_iff.mpr hempty, List.isEmpty_eq_false_iff.mpr hempty',
      Bool.false_eq_true, if_false, List.append_assoc, List.singleton_append] at hlines
    obtain ⟨hvariables, -, hcodes⟩ :=
      (List.append_cons_inj_of_notMem (hfilled h) (empty_not_mem hcode)).mp hlines
    exact ⟨map_variableLine_inj _ _ h.symbols h'.symbols hvariables, hcodes⟩

/-- What stands in front of the main function shows whether the functions for strings do. -/
theorem preamble_append_inj {usesStrings usesStrings' : Bool} {rest rest' : List String}
    (h : preamble usesStrings ++ rest = preamble usesStrings' ++ rest') :
    usesStrings = usesStrings' ∧ rest = rest' := by
  cases usesStrings <;> cases usesStrings' <;> simp_all [preamble]

/-- The text of a file determines it, except for the number of temporaries that it was made with:
a file with the same text has the same functions for strings, the same variables with the same
types, and the same instructions. -/
theorem eq_of_text (h : f.Legible) (h' : f'.Legible) (htext : f.text = f'.text) :
    f.usesStrings = f'.usesStrings ∧ f.symbols = f'.symbols ∧ f.body = f'.body := by
  have hlines := lines_eq_of_text h h' htext
  rw [lines_eq_append, lines_eq_append] at hlines
  obtain ⟨hstrings, hmain⟩ := preamble_append_inj (List.append_cancel_right hlines)
  obtain ⟨hsymbols, hcode⟩ := variableLines_append_inj h h'
    (Instr.filled_linesAll 1 f.body h.body) (Instr.filled_linesAll 1 f'.body h'.body)
    (List.append_cancel_left hmain)
  have hends : Ends (2 * 1) [] := nofun
  obtain ⟨hbody, -⟩ := Instr.linesAll_append_inj f.body f'.body h.body h'.body hends hends
    (by rw [hcode])
  exact ⟨hstrings, hsymbols, hbody⟩

end File

end ImpToC.C
