import ImpToC.Proofs.Lowering.TypedCode
import ImpToC.Proofs.Scoping.Names

/-!
# The words of generated code

What words the lines of some code are made of, each instruction a row of words with the
words of its blocks in braces.
-/

namespace ImpToC.C

/-! ## Words of the parts of code -/

/-- The words of a type. -/
def typeWords : Ty → List Word
  | .int => [.name "int"]
  | .float => [.name "float"]
  | .string => [.name "const", .name "char", .mark '*']

/-- The words of the first value of a variable. -/
def zeroWords : Ty → List Word
  | .int => [.name "0"]
  | .float => [.name "0", .mark '.', .name "0f"]
  | .string => [.literal]

/-- The mark of an operator. -/
def signMark : BinOp → Char
  | .add => '+'
  | .sub => '-'
  | .mul => '*'
  | .div => '/'

/-- The words of an initializer. -/
def Value.words : Value → List Word
  | .int value => [.name (toString value)]
  | .float value => C.words (floatLiteral value.text)
  | .string _ => [.literal]
  | .negate operand => [.mark '-', .name operand.text]
  | .operation op left right => [.name left.text, .mark (signMark op), .name right.text]
  | .concat left right =>
    [.name "ml_concat", .mark '(', .name left.text, .mark ',', .name right.text, .mark ')']

mutual

/-- The words of a statement. -/
def Instr.words : Instr → List Word
  | .define type index value =>
    typeWords type ++ [.name (temporaryName index)] ++
      (.mark '=' :: value.words ++ [.mark ';'])
  | .assign target value =>
    [.name (variableName target), .mark '=', .name value.text, .mark ';']
  | .print _ value =>
    [.name "printf", .mark '(', .literal, .mark ',', .name value.text, .mark ')', .mark ';']
  | .scan _ target =>
    [.name "scanf", .mark '(', .literal, .mark ',', .mark '&', .name (variableName target),
      .mark ')', .mark ';']
  | .scanString target =>
    [.name (variableName target), .mark '=', .name "ml_read_string", .mark '(', .mark ')',
      .mark ';']
  | .branch condition yes no =>
    [.name "if", .mark '(', .name condition.text, .mark ')'] ++
      (.mark '{' :: Instr.wordsAll yes ++ [.mark '}']) ++
      (if no.isEmpty then []
        else .name "else" :: (.mark '{' :: Instr.wordsAll no ++ [.mark '}']))
  | .loop body =>
    [.name "while", .mark '(', .name "1", .mark ')'] ++
      (.mark '{' :: Instr.wordsAll body ++ [.mark '}'])
  | .leaveUnless condition =>
    [.name "if", .mark '(', .mark '!', .name condition.text, .mark ')', .name "break", .mark ';']

/-- The words of statements. -/
def Instr.wordsAll : List Instr → List Word
  | [] => []
  | i :: rest => i.words ++ Instr.wordsAll rest

end

/-! ## Reading the parts of code -/

/-- The names of all variables are made of letters, digits and underscores. -/
def Named (symbols : List (String × Ty)) : Prop :=
  ∀ v ∈ symbols, ∀ c ∈ v.1.toList, isNamePart c = true

theorem words_variableName {name : String} (hname : ∀ c ∈ name.toList, isNamePart c = true)
    {rest : List Char} (hrest : StopsName rest) :
    words ((variableName name).toList ++ rest) = .name (variableName name) :: words rest := by
  refine words_name ?_ ?_ hrest
  · rw [variableName, String.toList_append]
    exact List.forall_mem_append.mpr ⟨List.all_eq_true.mp rfl, hname⟩
  · simp [variableName]

theorem words_temporaryName (index : Nat) {rest : List Char} (hrest : StopsName rest) :
    words ((temporaryName index).toList ++ rest) = .name (temporaryName index) :: words rest := by
  refine words_name ?_ ?_ hrest
  · rw [temporaryName, String.toList_append]
    refine List.forall_mem_append.mpr ⟨List.all_eq_true.mp rfl, fun c hc => ?_⟩
    simp [isNamePart, Number.isDigit_of_mem_toString hc]
  · simp [temporaryName]

theorem Named.of_lookup {symbols : List (String × Ty)} (hnamed : Named symbols) {name : String}
    {type : Ty} (h : symbols.lookup name = some type) :
    ∀ c ∈ name.toList, isNamePart c = true := by
  obtain ⟨before, after, rfl, -⟩ := List.lookup_eq_some_iff.mp h
  exact hnamed (name, type) (by simp)

section Places

variable {symbols : List (String × Ty)} (hnamed : Named symbols) {scope : List (Nat × Ty)}
include hnamed

theorem words_place {place : Place} {type : Ty} (hplace : place.HasType symbols scope type)
    {rest : List Char} (hrest : StopsName rest) :
    words (place.text.toList ++ rest) = .name place.text :: words rest := by
  cases hplace with
  | named hlookup =>
      rw [Place.text]
      exact words_variableName (hnamed.of_lookup hlookup) hrest
  | numbered _ =>
      rw [Place.text]
      exact words_temporaryName _ hrest

theorem words_value {value : Value} {type : Ty} (hvalue : value.HasType symbols scope type)
    {rest : List Char} (hrest : StopsName rest) :
    words (value.text.toList ++ rest) = value.words ++ words rest := by
  cases hvalue with
  | int n =>
      refine words_name (fun c hc => ?_) ?_ hrest
      · simp [isNamePart, Number.isDigit_of_mem_toString hc]
      · exact Nat.repr_ne_empty
  | float value =>
      have hchars := isNumberChar_floatLiteral value
      rw [Value.text, String.toList_ofList, Value.words]
      refine words_append_of_stopsName ⟨fun hquote => ?_, fun hquote => ?_⟩ hrest
      · cases hchars _ hquote
      · cases hchars _ hquote
  | string text =>
      rw [Value.text, String.toList_ofList]
      exact words_stringLiteral _ _
  | @negate operand _ hoperand _ =>
      have hminus (tail : List Char) : words ("-".toList ++ tail) = .mark '-' :: words tail := rfl
      simp only [Value.text, String.toList_append, List.append_assoc]
      rw [hminus, words_place hnamed hoperand hrest]
      rfl
  | @operation op left right _ _ _ hleft hright _ =>
      have hsign (tail : List Char) :
          words (" ".toList ++ (op.sign.toList ++ (" ".toList ++ tail))) =
            .mark (signMark op) :: words tail := by
        cases op <;> rfl
      simp only [Value.text, String.toList_append, List.append_assoc]
      rw [words_place hnamed hleft (stopsName_append " " _ rfl), hsign,
        words_place hnamed hright hrest]
      rfl
  | @concat left right hleft hright =>
      have hopen (tail : List Char) : words ("ml_concat(".toList ++ tail) =
          .name "ml_concat" :: .mark '(' :: words tail := rfl
      have hcomma (tail : List Char) : words (", ".toList ++ tail) = .mark ',' :: words tail := rfl
      have hclose (tail : List Char) : words (")".toList ++ tail) = .mark ')' :: words tail := rfl
      simp only [Value.text, String.toList_append, List.append_assoc]
      rw [hopen, words_place hnamed hleft (stopsName_append ", " _ rfl), hcomma,
        words_place hnamed hright (stopsName_append ")" _ rfl), hclose]
      rfl

end Places

/-! ## Reading code -/

/-- The characters of some lines, each with its end. -/
def textOf (lines : List String) : List Char := lines.flatMap fun l => l.toList ++ ['\n']

theorem textOf_append (first second : List String) :
    textOf (first ++ second) = textOf first ++ textOf second := by
  simp [textOf]

theorem textOf_cons (l : String) (rest : List String) :
    textOf (l :: rest) = l.toList ++ ('\n' :: textOf rest) := by
  simp [textOf]

theorem words_line (level : Nat) (text : String) (rest : List Char) :
    words ((line level text).toList ++ rest) = words (text.toList ++ rest) := by
  rw [line, String.toList_append, String.toList_ofList, List.append_assoc, words_blanks]

theorem words_single (level : Nat) (text : String) (rest : List Char) :
    words (textOf [line level text] ++ rest) = words (text.toList ++ '\n' :: rest) := by
  rw [textOf_cons, List.append_assoc, words_line]
  rfl

theorem words_typed (type : Ty) (rest : List Char) :
    words (type.cName.toList ++ (" ".toList ++ rest)) = typeWords type ++ words rest := by
  cases type <;> rfl

theorem words_semicolon (rest : List Char) :
    words (";".toList ++ '\n' :: rest) = .mark ';' :: words rest := rfl

theorem words_equals (rest : List Char) :
    words (" = ".toList ++ rest) = .mark '=' :: words rest := rfl

section Statements

variable {symbols : List (String × Ty)} (hnamed : Named symbols) {scope : List (Nat × Ty)}
  (level : Nat) (rest : List Char)
include hnamed

theorem words_define {type : Ty} {value : Value} (hvalue : value.HasType symbols scope type)
    (index : Nat) :
    words (textOf (Instr.lines level (.define type index value)) ++ rest) =
      (Instr.define type index value).words ++ words rest := by
  rw [Instr.lines, words_single]
  simp only [String.toList_append, List.append_assoc]
  rw [words_typed, words_temporaryName index (stopsName_append " = " _ rfl), words_equals,
    words_value hnamed hvalue (stopsName_append ";" _ rfl), words_semicolon]
  simp [Instr.words]

theorem words_assign {target : String} {value : Place} {targetType type : Ty}
    (htarget : (Place.variable target).HasType symbols scope targetType)
    (hvalue : value.HasType symbols scope type) :
    words (textOf (Instr.lines level (.assign target value)) ++ rest) =
      (Instr.assign target value).words ++ words rest := by
  rw [Instr.lines, words_single]
  simp only [String.toList_append, List.append_assoc]
  have hplace := words_place hnamed htarget (stopsName_append " = "
    (value.text.toList ++ (";".toList ++ '\n' :: rest)) rfl)
  rw [Place.text] at hplace
  rw [hplace, words_equals, words_place hnamed hvalue (stopsName_append ";" _ rfl),
    words_semicolon]
  rfl

theorem words_print {value : Place} {type : Ty} (hvalue : value.HasType symbols scope type)
    (printed : Ty) :
    words (textOf (Instr.lines level (.print printed value)) ++ rest) =
      (Instr.print printed value).words ++ words rest := by
  have hopen (tail : List Char) :
      words ("printf(\"".toList ++ (printed.cConversion.toList ++ ("\\n\", ".toList ++ tail))) =
        .name "printf" :: .mark '(' :: .literal :: .mark ',' :: words tail := by
    cases printed <;> rfl
  have hclose (tail : List Char) :
      words (");".toList ++ '\n' :: tail) = .mark ')' :: .mark ';' :: words tail := rfl
  rw [Instr.lines, words_single]
  simp only [String.toList_append, List.append_assoc]
  rw [hopen, words_place hnamed hvalue (stopsName_append ");" _ rfl), hclose]
  rfl

theorem words_scan {target : String} {type : Ty}
    (htarget : (Place.variable target).HasType symbols scope type) (scanned : Ty) :
    words (textOf (Instr.lines level (.scan scanned target)) ++ rest) =
      (Instr.scan scanned target).words ++ words rest := by
  have hopen (tail : List Char) :
      words ("scanf(\"".toList ++ (scanned.cConversion.toList ++ ("\", &".toList ++ tail))) =
        .name "scanf" :: .mark '(' :: .literal :: .mark ',' :: .mark '&' :: words tail := by
    cases scanned <;> rfl
  have hclose (tail : List Char) :
      words (");".toList ++ '\n' :: tail) = .mark ')' :: .mark ';' :: words tail := rfl
  rw [Instr.lines, words_single]
  simp only [String.toList_append, List.append_assoc]
  have hplace := words_place hnamed htarget (stopsName_append ");" ('\n' :: rest) rfl)
  rw [Place.text] at hplace
  rw [hopen, hplace, hclose]
  rfl

theorem words_scanString {target : String} {type : Ty}
    (htarget : (Place.variable target).HasType symbols scope type) :
    words (textOf (Instr.lines level (.scanString target)) ++ rest) =
      (Instr.scanString target).words ++ words rest := by
  have hcall (tail : List Char) : words (" = ml_read_string();".toList ++ '\n' :: tail) =
      .mark '=' :: .name "ml_read_string" :: .mark '(' :: .mark ')' :: .mark ';' :: words tail :=
    rfl
  rw [Instr.lines, words_single]
  simp only [String.toList_append, List.append_assoc]
  have hplace := words_place hnamed htarget
    (stopsName_append " = ml_read_string();" ('\n' :: rest) rfl)
  rw [Place.text] at hplace
  rw [hplace, hcall]
  rfl

theorem words_leaveUnless {condition : Place} {type : Ty}
    (hcondition : condition.HasType symbols scope type) :
    words (textOf (Instr.lines level (.leaveUnless condition)) ++ rest) =
      (Instr.leaveUnless condition).words ++ words rest := by
  have hopen (tail : List Char) :
      words ("if (!".toList ++ tail) = .name "if" :: .mark '(' :: .mark '!' :: words tail := rfl
  have hclose (tail : List Char) : words (") break;".toList ++ '\n' :: tail) =
      .mark ')' :: .name "break" :: .mark ';' :: words tail := rfl
  rw [Instr.lines, words_single]
  simp only [String.toList_append, List.append_assoc]
  rw [hopen, words_place hnamed hcondition (stopsName_append ") break;" _ rfl), hclose]
  rfl

theorem words_condition {condition : Place} {type : Ty}
    (hcondition : condition.HasType symbols scope type) :
    words (textOf [line level ("if (" ++ condition.text ++ ") \x7b")] ++ rest) =
      [.name "if", .mark '(', .name condition.text, .mark ')', .mark '{'] ++ words rest := by
  have hopen (tail : List Char) :
      words ("if (".toList ++ tail) = .name "if" :: .mark '(' :: words tail := rfl
  have hclose (tail : List Char) : words (") \x7b".toList ++ '\n' :: tail) =
      .mark ')' :: .mark '{' :: words tail := rfl
  rw [words_single]
  simp only [String.toList_append, List.append_assoc]
  rw [hopen, words_place hnamed hcondition (stopsName_append ") \x7b" _ rfl), hclose]
  rfl

end Statements

/-- The lines of typed code have the words of the code. -/
theorem words_linesAll {symbols : List (String × Ty)} (hnamed : Named symbols)
    {scope scope' : List (Nat × Ty)} {code : List Instr} (h : Typed symbols scope code scope')
    (level : Nat) (rest : List Char) :
    words (textOf (Instr.linesAll level code) ++ rest) = Instr.wordsAll code ++ words rest := by
  have hcons {i : Instr} {others : List Instr} {level : Nat} {rest : List Char}
      (hi : ∀ tail, words (textOf (i.lines level) ++ tail) = i.words ++ words tail)
      (hothers : words (textOf (Instr.linesAll level others) ++ rest) =
        Instr.wordsAll others ++ words rest) :
      words (textOf (Instr.linesAll level (i :: others)) ++ rest) =
        Instr.wordsAll (i :: others) ++ words rest := by
    rw [Instr.linesAll, textOf_append, List.append_assoc, hi, hothers, Instr.wordsAll,
      List.append_assoc]
  have hclose (level : Nat) (tail : List Char) :
      words (textOf [line level "\x7d"] ++ tail) = .mark '}' :: words tail := by
    rw [words_single]
    rfl
  induction h generalizing level rest with
  | nil => rfl
  | define _ hvalue _ ih => exact hcons (fun tail => words_define hnamed _ tail hvalue _) (ih _ _)
  | assign htarget hvalue _ _ ih =>
      exact hcons (fun tail => words_assign hnamed _ tail htarget hvalue) (ih _ _)
  | print hvalue _ _ ih => exact hcons (fun tail => words_print hnamed _ tail hvalue _) (ih _ _)
  | scan htarget _ _ _ ih =>
      exact hcons (fun tail => words_scan hnamed _ tail htarget _) (ih _ _)
  | scanString htarget _ ih =>
      exact hcons (fun tail => words_scanString hnamed _ tail htarget) (ih _ _)
  | leaveUnless hcondition _ ih =>
      exact hcons (fun tail => words_leaveUnless hnamed _ tail hcondition) (ih _ _)
  | @loop _ _ _ _ body _ _ ihbody ih =>
      refine hcons (fun tail => ?_) (ih _ _)
      have hopen (tail : List Char) : words (textOf [line level "while (1) \x7b"] ++ tail) =
          [.name "while", .mark '(', .name "1", .mark ')', .mark '{'] ++ words tail := by
        rw [words_single]
        rfl
      have hlines : Instr.lines level (.loop body) =
          [line level "while (1) \x7b"] ++ (Instr.linesAll (level + 1) body ++
            [line level "\x7d"]) := rfl
      rw [hlines, textOf_append, textOf_append, List.append_assoc, hopen, List.append_assoc, ihbody,
        hclose]
      simp [Instr.words]
  | @branch _ _ _ _ _ yes no condition hcondition _ _ _ ihyes ihno ih =>
      refine hcons (fun tail => ?_) (ih _ _)
      cases no with
      | nil =>
          have hlines : Instr.lines level (.branch condition yes []) =
              [line level ("if (" ++ condition.text ++ ") \x7b")] ++
                (Instr.linesAll (level + 1) yes ++ [line level "\x7d"]) := by
            simp [Instr.lines]
          rw [hlines, textOf_append, textOf_append, List.append_assoc,
            words_condition hnamed _ _ hcondition, List.append_assoc, ihyes, hclose]
          simp [Instr.words]
      | cons first others =>
          have hlines : Instr.lines level (.branch condition yes (first :: others)) =
              [line level ("if (" ++ condition.text ++ ") \x7b")] ++
                (Instr.linesAll (level + 1) yes ++ ([line level "\x7d else \x7b"] ++
                  (Instr.linesAll (level + 1) (first :: others) ++ [line level "\x7d"]))) := by
            simp [Instr.lines]
          have helse (tail : List Char) : words (textOf [line level "\x7d else \x7b"] ++ tail) =
              [.mark '}', .name "else", .mark '{'] ++ words tail := by
            rw [words_single]
            rfl
          rw [hlines, textOf_append, textOf_append, textOf_append, textOf_append, List.append_assoc,
            words_condition hnamed _ _ hcondition, List.append_assoc, ihyes, List.append_assoc,
            helse, List.append_assoc, ihno, hclose]
          simp [Instr.words]

end ImpToC.C
