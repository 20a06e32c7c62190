import Mathlib.Data.List.Nodup
import ImpToC.C.Text
import ImpToC.Proofs.Number.Texts
import ImpToC.Proofs.Scoping.Contexts

/-!
# Names and numbers of generated code

The names of variables and temporaries are all different, and none of them is the name
of a type or of a helper. A number is written without braces, quotes and such names.
-/

namespace ImpToC.C

/-! ## Names -/

theorem isGenerated_variableName (name : String) : IsGenerated (variableName name) :=
  .inl ⟨name.toList, by simp [variableName]⟩

theorem isGenerated_temporaryName (index : Nat) : IsGenerated (temporaryName index) :=
  .inr ⟨(toString index).toList, by simp [temporaryName]⟩

theorem variableName_injective : Function.Injective variableName := by
  intro name name' h
  have hlist := congrArg String.toList h
  rw [variableName, variableName, String.toList_append, String.toList_append,
    List.append_cancel_left_eq] at hlist
  exact String.toList_inj.mp hlist

theorem temporaryName_injective : Function.Injective temporaryName := by
  intro index index' h
  have hlist := congrArg String.toList h
  simp only [temporaryName, String.toList_append, List.append_cancel_left_eq] at hlist
  exact Number.toString_injective (String.toList_inj.mp hlist)

theorem variableName_ne_temporaryName (name : String) (index : Nat) :
    variableName name ≠ temporaryName index := by
  intro h
  have hlist := congrArg (fun x => x.toList.head?) h
  simp [variableName, temporaryName] at hlist

/-- Variables, temporaries, helpers and the main function have different names. -/
theorem nodup_names {names : List String} {indices : List Nat} (hnames : names.Nodup)
    (hindices : indices.Nodup) :
    (names.map variableName ++ indices.map temporaryName ++ (helperNames ++ ["main"])).Nodup := by
  have hvariables : (names.map variableName).Nodup := hnames.map variableName_injective
  have htemporaries : (indices.map temporaryName).Nodup := hindices.map temporaryName_injective
  have hothers : (helperNames ++ ["main"]).Nodup := by decide
  refine List.nodup_append.mpr ⟨List.nodup_append.mpr ⟨hvariables, htemporaries, ?_⟩, hothers, ?_⟩
  · intro x hx y hy
    obtain ⟨name, -, rfl⟩ := List.mem_map.mp hx
    obtain ⟨index, -, rfl⟩ := List.mem_map.mp hy
    exact variableName_ne_temporaryName name index
  · rintro x hx y hy rfl
    have hgenerated : IsGenerated x := by
      rcases List.mem_append.mp hx with hx | hx
      · obtain ⟨name, -, rfl⟩ := List.mem_map.mp hx
        exact isGenerated_variableName name
      · obtain ⟨index, -, rfl⟩ := List.mem_map.mp hx
        exact isGenerated_temporaryName index
    exact not_isGenerated x (by simp only [List.append_assoc, List.mem_append, hy, or_true])
      hgenerated

/-! ## Numbers -/

/-- The characters of numbers. -/
def isNumberChar (c : Char) : Bool := isDigit c || ['.', 'e', '+', '-', 'f'].contains c

theorem isNumberChar_of_isDigit {c : Char} (h : isDigit c = true) : isNumberChar c = true := by
  simp [isNumberChar, h]

theorem isNumberChar_text (value : Number.Magnitude) :
    ∀ c ∈ value.text, isNumberChar c = true := by
  have hmarks : ∀ c ∈ ['.', 'e', '+', '-'], isNumberChar c = true := List.all_eq_true.mp rfl
  intro c hc
  rcases Number.Magnitude.mem_text hc with h | h
  · exact isNumberChar_of_isDigit h
  · exact hmarks c h

theorem isNumberChar_floatLiteral (value : Number.Magnitude) :
    ∀ c ∈ floatLiteral value.text, isNumberChar c = true := by
  refine List.forall_mem_append.mpr ⟨isNumberChar_text value, ?_⟩
  split <;> exact List.all_eq_true.mp rfl

/-- A number is written with a point or an exponent, so no more than a letter is put behind it. -/
theorem floatLiteral_text (m : Number.Magnitude) : floatLiteral m.text = m.text ++ ['f'] := by
  have hmark : (m.text.contains '.' || m.text.contains 'e') = true := by
    by_cases he : 'e' ∈ m.text
    · simp [he]
    · obtain ⟨⟨whole, fraction, htext, -⟩, -⟩ := m.isPlain_text he
      simp [htext]
  rw [floatLiteral, if_pos hmark]

/-- The words of a number are plain anywhere. -/
theorem plain_of_isNumberChar {w : Word} (h : ∀ c ∈ w.chars, isNumberChar c = true)
    (visible : List String) (helpers : Prop) : w.Plain visible helpers := by
  have hnames : ∀ x ∈ typeNames ++ helperNames, x.toList.all isNumberChar = false := by decide
  have hall {x : String} (hx : ∀ c ∈ x.toList, isNumberChar c = true) :
      x.toList.all isNumberChar = true :=
    List.all_eq_true.mpr hx
  cases w with
  | literal => trivial
  | mark c =>
      have hc := h c List.mem_cons_self
      refine ⟨?_, ?_⟩
      · rintro rfl
        cases hc
      · rintro rfl
        cases hc
  | name x =>
      refine ⟨fun hx => ?_, ?_, fun hx => ?_⟩
      · cases (hnames x (List.mem_append_left _ hx)).symm.trans (hall h)
      · rintro (hstart | hstart) <;> cases h '_' (hstart.subset (by decide))
      · cases (hnames x (List.mem_append_right _ hx)).symm.trans (hall h)

end ImpToC.C
