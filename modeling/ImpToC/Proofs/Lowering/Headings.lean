import ImpToC.Proofs.Literals.Quotes
import ImpToC.Proofs.Outline.Lines
import ImpToC.Proofs.Scoping.Names

/-!
# First lines of instructions

The first line of an instruction tells which instruction it is, except for those inside: a name
ends where another character comes, each type and conversion has a text of its own, and
initializers of different kinds start or end in different ways. Names have to be made of letters,
digits and underscores for that, and strings have to stay on their line.
-/

namespace ImpToC

/-! ## Types -/

/-- The type of C for a type ends where the texts for other types go on in other ways. -/
theorem Ty.cName_append_inj {type type' : Ty} {rest rest' : List Char}
    (h : type.cName.toList ++ rest = type'.cName.toList ++ rest') :
    type = type' ∧ rest = rest' := by
  cases type <;> cases type' <;> simp_all [cName]

/-- Different types are different types of C. -/
theorem Ty.cName_injective : Function.Injective Ty.cName := by
  intro type type' h
  have hchars : type.cName.toList ++ [] = type'.cName.toList ++ [] := by rw [h]
  exact (cName_append_inj hchars).1

theorem Ty.cConversion_append_inj {type type' : Ty} {rest rest' : List Char}
    (h : type.cConversion.toList ++ rest = type'.cConversion.toList ++ rest') :
    type = type' ∧ rest = rest' := by
  cases type <;> cases type' <;> simp_all [cConversion]

namespace C

/-! ## Legible code -/

/-- A place with a name of letters, digits and underscores. -/
def Place.Legible : Place → Prop
  | .variable name => ∀ c ∈ name.toList, isNamePart c = true
  | .temporary _ => True

/-- An initializer with such names and with strings of one line. -/
def Value.Legible : Value → Prop
  | .int _ | .float _ => True
  | .string text => OneLine text
  | .negate operand => operand.Legible
  | .operation _ left right | .concat left right => left.Legible ∧ right.Legible

mutual

/-- An instruction with such names and strings. -/
def Instr.Legible : Instr → Prop
  | .define _ _ value => value.Legible
  | .assign target value => (Place.variable target).Legible ∧ value.Legible
  | .print _ value => value.Legible
  | .scan _ target | .scanString target => (Place.variable target).Legible
  | .branch condition yes no =>
    condition.Legible ∧ Instr.LegibleAll yes ∧ Instr.LegibleAll no
  | .loop body => Instr.LegibleAll body
  | .leaveUnless condition => condition.Legible

/-- Instructions with such names and strings. -/
def Instr.LegibleAll : List Instr → Prop
  | [] => True
  | i :: rest => Instr.Legible i ∧ Instr.LegibleAll rest

end

/-! ## Places -/

theorem Place.text_inj : ∀ place place' : Place, place.text = place'.text → place = place'
  | .variable _, .variable _, h => by rw [variableName_injective h]
  | .variable name, .temporary index, h => absurd h (variableName_ne_temporaryName name index)
  | .temporary index, .variable name, h => absurd h.symm (variableName_ne_temporaryName name index)
  | .temporary _, .temporary _, h => by rw [temporaryName_injective h]

/-- Between texts that are known, a place can be told from its name. -/
theorem Place.eq_of_between {place place' : Place} {before after : List Char}
    (h : before ++ (place.text.toList ++ after) = before ++ (place'.text.toList ++ after)) :
    place = place' :=
  text_inj _ _ (String.toList_inj.mp (List.append_cancel_right (List.append_cancel_left h)))

theorem Place.isNamePart_text : ∀ {place : Place}, place.Legible →
    ∀ c ∈ place.text.toList, isNamePart c = true
  | .variable name, h => by
      rw [text, variableName, String.toList_append]
      exact List.forall_mem_append.mpr ⟨List.all_eq_true.mp rfl, h⟩
  | .temporary index, _ => by
      rw [text, temporaryName, String.toList_append]
      refine List.forall_mem_append.mpr ⟨List.all_eq_true.mp rfl, fun c hc => ?_⟩
      exact Lexeme.isNamePart_of_isDigit (Number.isDigit_of_mem_toString hc)

/-- A name ends where no more letters come. -/
theorem Place.text_append_inj {place place' : Place} (h : place.Legible) (h' : place'.Legible)
    {rest rest' : List Char} (hrest : StopsName rest) (hrest' : StopsName rest')
    (htext : place.text.toList ++ rest = place'.text.toList ++ rest') :
    place = place' ∧ rest = rest' := by
  obtain ⟨hplace, hrests⟩ :=
    run_inj (isNamePart_text h) (isNamePart_text h') hrest hrest' htext
  exact ⟨text_inj _ _ (String.toList_inj.mp hplace), hrests⟩

/-! ## Initializers -/

/-- What the first character of an initializer says of it: it is a digit for a number, a quote for
a string, a minus for a negation, and the first letter of a name for the others. -/
def Value.lead : Value → Char
  | .int _ | .float _ => '0'
  | .string _ => '"'
  | .negate _ => '-'
  | .operation .. => 'v'
  | .concat .. => 'm'

/-- Digits count as one character here, and so do the first letters of places. -/
def leadOf (c : Char) : Char := if isDigit c then '0' else if c = 't' then 'v' else c

theorem Place.leadOf_text : ∀ place : Place, ∃ c rest, place.text.toList = c :: rest ∧ leadOf c = 'v'
  | .variable name => ⟨'v', '_' :: name.toList, by simp [text, variableName], rfl⟩
  | .temporary index =>
      ⟨'t', "mp_".toList ++ (toString index).toList, by simp [text, temporaryName], rfl⟩

theorem Place.text_append_ne_cons {c : Char} (hc : leadOf c ≠ 'v') (place : Place)
    (rest rest' : List Char) : place.text.toList ++ rest ≠ c :: rest' := by
  obtain ⟨first, others, htext, hfirst⟩ := place.leadOf_text
  rw [htext]
  intro h
  obtain ⟨rfl, -⟩ := List.cons.inj h
  exact hc hfirst

theorem Value.leadOf_text (value : Value) :
    value.text.toList.head?.map leadOf = some value.lead := by
  cases value with
  | int value =>
      obtain ⟨c, rest, htext⟩ := List.exists_cons_of_ne_nil (Number.digits_ne_nil value)
      have hc : isDigit c = true := Number.isDigit_of_mem_digits (htext ▸ List.mem_cons_self)
      rw [text, Number.toList_toString, htext]
      simp [leadOf, hc, lead]
  | float value =>
      obtain ⟨c, rest, htext, hc⟩ := value.exists_digit_of_text
      rw [text, String.toList_ofList, floatLiteral_text, htext]
      simp [leadOf, hc, lead]
  | string text =>
      rw [Value.text, String.toList_ofList]
      rfl
  | negate operand => simp [text, leadOf, lead, isDigit]
  | operation op left right =>
      obtain ⟨c, rest, hleft, hc⟩ := left.leadOf_text
      simp [text, hleft, hc, lead]
  | concat left right => simp [text, leadOf, lead, isDigit]

/-- A whole number is not written as a floating-point number. -/
theorem Value.int_ne_float (n : Nat) (m : Number.Magnitude) :
    (Value.int n).text ≠ (Value.float m).text := by
  intro h
  have hf : 'f' ∈ (Value.int n).text.toList := by
    rw [h, text, String.toList_ofList, floatLiteral_text]
    simp
  exact absurd (Number.isDigit_of_mem_toString hf) (by decide)

/-- An initializer can be told from its text. -/
theorem Value.eq_of_text {value value' : Value} (h : value.Legible) (h' : value'.Legible)
    (htext : value.text = value'.text) : value = value' := by
  have hlead := congrArg (fun text => text.toList.head?.map leadOf) htext
  simp only [leadOf_text, Option.some.injEq] at hlead
  have hchars := congrArg String.toList htext
  cases value with
  | int n =>
      cases value' with
      | int n' => rw [Number.toString_injective htext]
      | float m' => exact absurd htext (int_ne_float n m')
      | string | negate | operation | concat => cases hlead
  | float m =>
      cases value' with
      | float m' =>
          simp only [text, String.toList_ofList, floatLiteral_text] at hchars
          rw [Number.Magnitude.text_injective (List.append_cancel_right hchars)]
      | int n' => exact absurd htext.symm (int_ne_float n' m)
      | string | negate | operation | concat => cases hlead
  | string text =>
      cases value' with
      | string text' =>
          simp only [Value.text, String.toList_ofList] at hchars
          rw [String.toList_inj.mp (eq_of_stringLiteral_eq h' h hchars)]
      | int | float | negate | operation | concat => cases hlead
  | negate operand =>
      cases value' with
      | negate operand' =>
          simp only [text, String.toList_append] at hchars
          have hoperands := List.append_cancel_left hchars
          rw [Place.text_inj _ _ (String.toList_inj.mp hoperands)]
      | int | float | string | operation | concat => cases hlead
  | operation op left right =>
      cases value' with
      | operation op' left' right' =>
          simp only [text, String.toList_append, List.append_assoc] at hchars
          obtain ⟨rfl, hrests⟩ := Place.text_append_inj h.1 h'.1
            (stopsName_append " " _ rfl) (stopsName_append " " _ rfl) hchars
          obtain ⟨hop, hrights⟩ := BinOp.sign_append_inj (List.append_cancel_left hrests)
          have hrights := List.append_cancel_left hrights
          rw [hop, Place.text_inj _ _ (String.toList_inj.mp hrights)]
      | int | float | string | negate | concat => cases hlead
  | concat left right =>
      cases value' with
      | concat left' right' =>
          simp only [text, String.toList_append, List.append_assoc] at hchars
          obtain ⟨rfl, hrests⟩ := Place.text_append_inj h.1 h'.1
            (stopsName_append ", " _ rfl) (stopsName_append ", " _ rfl)
            (List.append_cancel_left hchars)
          rw [Place.eq_of_between hrests]
      | int | float | string | negate | operation => cases hlead

/-! ## First lines -/

namespace Instr

/-- The first line of an instruction, without its indentation. -/
def heading : Instr → String
  | .define type index value =>
    type.cName ++ " " ++ temporaryName index ++ " = " ++ value.text ++ ";"
  | .assign target value => variableName target ++ " = " ++ value.text ++ ";"
  | .print type value => "printf(\"" ++ type.cConversion ++ "\\n\", " ++ value.text ++ ");"
  | .scan type target => "scanf(\"" ++ type.cConversion ++ "\", &" ++ variableName target ++ ");"
  | .scanString target => variableName target ++ " = ml_read_string();"
  | .branch condition _ _ => "if (" ++ condition.text ++ ") \x7b"
  | .loop _ => "while (1) \x7b"
  | .leaveUnless condition => "if (!" ++ condition.text ++ ") break;"

/-- The characters that a first line starts with. -/
def lead : Instr → List Char
  | .define .int .. => ['i', 'n']
  | .define .float .. => ['f', 'l']
  | .define .string .. => ['c', 'o']
  | .assign .. | .scanString .. => ['v', '_']
  | .print .. => ['p', 'r']
  | .scan .. => ['s', 'c']
  | .branch .. | .leaveUnless .. => ['i', 'f']
  | .loop .. => ['w', 'h']

/-- An instruction with no instructions inside. -/
def head : Instr → Instr
  | .branch condition _ _ => .branch condition [] []
  | .loop _ => .loop []
  | i => i

theorem take_heading (i : Instr) : i.heading.toList.take 2 = i.lead := by
  cases i with
  | define type index value => cases type <;> simp [heading, lead, Ty.cName]
  | assign | print | scan | scanString | branch | loop | leaveUnless =>
      simp [heading, lead, variableName]

/-- A first line starts with a character that is no blank. -/
theorem exists_heading (i : Instr) : ∃ c rest, i.heading.toList = c :: rest ∧ c ≠ ' ' := by
  have hblank : ' ' ∉ i.lead := by
    cases i with
    | define type index value => cases type <;> simp [lead]
    | assign | print | scan | scanString | branch | loop | leaveUnless => simp [lead]
  have hlead : i.lead ≠ [] := by
    cases i with
    | define type index value => cases type <;> simp [lead]
    | assign | print | scan | scanString | branch | loop | leaveUnless => simp [lead]
  rw [← take_heading] at hblank hlead
  cases hchars : i.heading.toList with
  | nil => simp [hchars] at hlead
  | cons c rest =>
      refine ⟨c, rest, rfl, ?_⟩
      rintro rfl
      simp [hchars] at hblank

/-- What is read into a variable is not written as a place. -/
theorem heading_assign_ne_scanString {target target' : String} {value : Place}
    (h : (Place.variable target).Legible) (h' : (Place.variable target').Legible) :
    (Instr.assign target value).heading ≠ (Instr.scanString target').heading := by
  intro hheading
  have hchars := congrArg String.toList hheading
  simp only [heading, String.toList_append, List.append_assoc] at hchars
  have hread : StopsName " = ml_read_string();".toList := by
    simpa using stopsName_append " = ml_read_string();" [] rfl
  obtain ⟨-, hvalues⟩ :=
    Place.text_append_inj h h' (stopsName_append " = " _ rfl) hread hchars
  have hvalues : value.text.toList ++ [';'] = 'm' :: "l_read_string();".toList := by
    simpa using hvalues
  exact value.text_append_ne_cons (by decide) _ _ hvalues

theorem heading_branch_ne_leaveUnless (condition condition' : Place) (yes no : List Instr) :
    (Instr.branch condition yes no).heading ≠ (Instr.leaveUnless condition').heading := by
  intro hheading
  have hchars := congrArg String.toList hheading
  simp only [heading, String.toList_append, List.append_assoc] at hchars
  have hconditions : condition.text.toList ++ ") \x7b".toList =
      '!' :: (condition'.text.toList ++ ") break;".toList) := by
    simpa using hchars
  exact condition.text_append_ne_cons (by decide) _ _ hconditions

/-- A first line shows its instruction. -/
theorem head_eq_of_heading {i i' : Instr} (h : i.Legible) (h' : i'.Legible)
    (hheading : i.heading = i'.heading) : i.head = i'.head := by
  have hlead : i.lead = i'.lead := by rw [← take_heading, hheading, take_heading]
  have hchars := congrArg String.toList hheading
  cases i with
  | define type index value =>
      cases i' with
      | define type' index' value' =>
          simp only [heading, String.toList_append, List.append_assoc] at hchars
          obtain ⟨htype, hnames⟩ := Ty.cName_append_inj hchars
          obtain ⟨hindex, hvalues⟩ :=
            @Place.text_append_inj (.temporary index) (.temporary index') trivial trivial _ _
              (stopsName_append " = " _ rfl) (stopsName_append " = " _ rfl)
              (List.append_cancel_left hnames)
          have hvalues := List.append_cancel_right (List.append_cancel_left hvalues)
          rw [htype, Place.temporary.inj hindex,
            Value.eq_of_text h h' (String.toList_inj.mp hvalues)]
      | assign | print | scan | scanString | branch | loop | leaveUnless =>
          cases type <;> cases hlead
  | assign target value =>
      cases i' with
      | assign target' value' =>
          simp only [heading, String.toList_append, List.append_assoc] at hchars
          obtain ⟨htarget, hvalues⟩ := Place.text_append_inj h.1 h'.1
            (stopsName_append " = " _ rfl) (stopsName_append " = " _ rfl) hchars
          rw [Place.variable.inj htarget, Place.eq_of_between hvalues]
      | scanString => exact absurd hheading (heading_assign_ne_scanString h.1 h')
      | define type' => cases type' <;> cases hlead
      | print | scan | branch | loop | leaveUnless => cases hlead
  | print type value =>
      cases i' with
      | print type' value' =>
          simp only [heading, String.toList_append, List.append_assoc] at hchars
          obtain ⟨htype, hvalues⟩ :=
            Ty.cConversion_append_inj (List.append_cancel_left hchars)
          rw [htype, Place.eq_of_between hvalues]
      | define type' => cases type' <;> cases hlead
      | assign | scan | scanString | branch | loop | leaveUnless => cases hlead
  | scan type target =>
      cases i' with
      | scan type' target' =>
          simp only [heading, String.toList_append, List.append_assoc] at hchars
          obtain ⟨htype, htargets⟩ :=
            Ty.cConversion_append_inj (List.append_cancel_left hchars)
          have htargets := List.append_cancel_right (List.append_cancel_left htargets)
          rw [htype, variableName_injective (String.toList_inj.mp htargets)]
      | define type' => cases type' <;> cases hlead
      | assign | print | scanString | branch | loop | leaveUnless => cases hlead
  | scanString target =>
      cases i' with
      | scanString target' =>
          simp only [heading, String.toList_append] at hchars
          have htargets := List.append_cancel_right hchars
          rw [variableName_injective (String.toList_inj.mp htargets)]
      | assign => exact absurd hheading.symm (heading_assign_ne_scanString h'.1 h)
      | define type' => cases type' <;> cases hlead
      | print | scan | branch | loop | leaveUnless => cases hlead
  | branch condition yes no =>
      cases i' with
      | branch condition' yes' no' =>
          simp only [heading, String.toList_append, List.append_assoc] at hchars
          rw [head, head, Place.eq_of_between hchars]
      | leaveUnless => exact absurd hheading (heading_branch_ne_leaveUnless _ _ _ _)
      | define type' => cases type' <;> cases hlead
      | assign | print | scan | scanString | loop => cases hlead
  | loop body =>
      cases i' with
      | loop body' => rfl
      | define type' => cases type' <;> cases hlead
      | assign | print | scan | scanString | branch | leaveUnless => cases hlead
  | leaveUnless condition =>
      cases i' with
      | leaveUnless condition' =>
          simp only [heading, String.toList_append, List.append_assoc] at hchars
          rw [Place.eq_of_between hchars]
      | branch => exact absurd hheading.symm (heading_branch_ne_leaveUnless _ _ _ _)
      | define type' => cases type' <;> cases hlead
      | assign | print | scan | scanString | loop => cases hlead

end Instr

end C

end ImpToC
