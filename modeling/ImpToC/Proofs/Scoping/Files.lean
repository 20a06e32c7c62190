import ImpToC.Proofs.Lowering.TypedCode
import ImpToC.Proofs.Scoping.Statements

/-!
# Generated files are well scoped

What stands in front of the main function of a generated file and what stands in it, down
to the words of the text: which names it declares, where they are visible, and that whatever
it calls is in front of it.
-/

namespace ImpToC.C

/-! ## Well-scoped texts -/

/-- The words with which the main function begins. -/
def mainHead : List Word := [.name "int", .name "main", .mark '(', .name "void", .mark ')']

/-- A text of lines in front of a main function and of lines in it, which declares some
variables and numbered temporaries and uses them only where they are visible. -/
structure WellScoped (text : List Char) (front body : List String) (names : List String)
    (temporaries : Nat) : Prop where
  layout : text = textOf (front ++ ["int main(void)", "\x7b"] ++ body ++ ["\x7d"])
  split : words text =
    words (textOf front) ++ mainHead ++ (.mark '{' :: words (textOf body) ++ [.mark '}'])
  balanced : Balanced (words text)
  /-- The main function reaches up to the end of the text. -/
  closed : Balanced (words (textOf body))
  /-- In front of the main function there is no other and no generated name. -/
  foreign : ∀ x, .name x ∈ words (textOf front) → x ≠ "main" ∧ ¬ IsGenerated x
  declared : (Context.start.after (words (textOf body))).declared =
    names.map variableName ++ (List.range' 1 temporaries).map temporaryName
  nodup : ((Context.start.after (words (textOf body))).declared ++
    (helperNames ++ ["main"])).Nodup
  /-- Where a generated name is used, it has been declared in a block that is still open. -/
  visible : ∀ before x after, words (textOf body) = before ++ .name x :: after → IsGenerated x →
    (Context.start.after before).afterType = false → x ∈ (Context.start.after before).visible
  /-- The helpers that are named and the headers that they need are in front. -/
  helpers : ∀ x ∈ helperNames, .name x ∈ words (textOf body) →
    "#include <stdlib.h>" ∈ front ∧ "#include <string.h>" ∈ front ∧
      concatFunction <:+: front ∧ readFunction <:+: front

/-! ## The front -/

/-- A word that is neither generated nor the name of the main function. -/
def Word.IsForeign : Word → Prop
  | .name x => x ≠ "main" ∧ ¬ IsGenerated x
  | .literal | .mark _ => True

instance : DecidablePred Word.IsForeign
  | .name x => inferInstanceAs (Decidable (x ≠ "main" ∧ ¬ IsGenerated x))
  | .literal | .mark _ => isTrue trivial

instance (ws : List Word) : Decidable (Balanced ws) :=
  inferInstanceAs (Decidable (_ = _))

/-- The front of a file ends outside of literals and of braces, without a generated name. -/
theorem preamble_foreign : ∀ usesStrings,
    (Reader.outside []).behind (textOf (preamble usesStrings)) = .outside [] ∧
      Balanced (words (textOf (preamble usesStrings))) ∧
      ∀ w ∈ words (textOf (preamble usesStrings)), w.IsForeign := by
  decide +kernel

/-- The front of a file with strings has the functions for them and their headers. -/
theorem preamble_helpers :
    "#include <stdlib.h>" ∈ preamble true ∧ "#include <string.h>" ∈ preamble true ∧
      concatFunction <:+: preamble true ∧ readFunction <:+: preamble true := by
  refine ⟨by simp [preamble], by simp [preamble], ?_, ?_⟩
  · exact ⟨["#include <stdio.h>", "#include <stdlib.h>", "#include <string.h>", ""],
      "" :: readFunction ++ [""], by simp [preamble]⟩
  · exact ⟨["#include <stdio.h>", "#include <stdlib.h>", "#include <string.h>", ""] ++
      concatFunction ++ [""], [""], by simp [preamble]⟩

/-! ## The main function -/

/-- The lines of the main function. -/
def File.bodyLines (f : File) : List String :=
  f.symbols.map variableLine ++ (if f.symbols.isEmpty then [] else [""]) ++
    Instr.linesAll 1 f.body ++ [line 1 "return 0;"]

theorem File.lines_eq (f : File) :
    f.lines = preamble f.usesStrings ++ ["int main(void)", "\x7b"] ++ f.bodyLines ++ ["\x7d"] := by
  simp [File.lines, File.bodyLines]

theorem textOf_intercalate {lines : List String} (h : lines ≠ []) :
    ("\n".intercalate lines ++ "\n").toList = textOf lines := by
  rw [String.toList_append, String.toList_intercalate]
  induction lines with
  | nil => exact absurd rfl h
  | cons l rest ih =>
      cases rest with
      | nil => simp [textOf]
      | cons next others =>
          have hrest := ih (List.cons_ne_nil _ _)
          rw [textOf_cons, ← hrest]
          simp [List.intercalate_cons_cons]

theorem File.text_eq (f : File) : f.text.toList = textOf f.lines := by
  rw [File.text, textOf_intercalate]
  simp [File.lines]

/-- The words of the declaration of a variable. -/
def variableWords (v : String × Ty) : List Word :=
  typeWords v.2 ++ [.name (variableName v.1)] ++ (.mark '=' :: zeroWords v.2 ++ [.mark ';'])

theorem words_variableLine {v : String × Ty} (hv : ∀ c ∈ v.1.toList, isNamePart c = true)
    (rest : List Char) :
    words (textOf [variableLine v] ++ rest) = variableWords v ++ words rest := by
  have hzero (tail : List Char) : words (v.2.cZero.toList ++ (";".toList ++ '\n' :: tail)) =
      zeroWords v.2 ++ .mark ';' :: words tail := by
    cases v.2 <;> rfl
  rw [variableLine, words_single]
  simp only [String.toList_append, List.append_assoc]
  rw [words_typed, words_variableName hv (stopsName_append " = " _ rfl), words_equals, hzero]
  simp [variableWords]

theorem words_variableLines {symbols : List (String × Ty)} (hnamed : Named symbols)
    (rest : List Char) :
    words (textOf (symbols.map variableLine) ++ rest) =
      symbols.flatMap variableWords ++ words rest := by
  induction symbols with
  | nil => rfl
  | cons v symbols ih =>
      obtain ⟨hv, hsymbols⟩ := List.forall_mem_cons.mp hnamed
      have hcons : textOf ((v :: symbols).map variableLine) =
          textOf [variableLine v] ++ textOf (symbols.map variableLine) := by
        rw [← textOf_append]
        rfl
      rw [hcons, List.append_assoc, words_variableLine hv, ih hsymbols, List.flatMap_cons,
        List.append_assoc]

/-- The words of a main function: its variables, its statements and its end. -/
def File.bodyWords (f : File) : List Word :=
  f.symbols.flatMap variableWords ++ (Instr.wordsAll f.body ++
    [.name "return", .name "0", .mark ';'])

theorem File.words_bodyLines {f : File} (hnamed : Named f.symbols) {scope : List (Nat × Ty)}
    (htyped : Typed f.symbols [] f.body scope) (rest : List Char) :
    words (textOf f.bodyLines ++ rest) = f.bodyWords ++ words rest := by
  have hgap (tail : List Char) :
      words (textOf (if f.symbols.isEmpty then [] else [""]) ++ tail) = words tail := by
    split <;> rfl
  have hreturn (tail : List Char) : words (textOf [line 1 "return 0;"] ++ tail) =
      [.name "return", .name "0", .mark ';'] ++ words tail := by
    rw [words_single]
    rfl
  rw [File.bodyLines, textOf_append, textOf_append, textOf_append]
  simp only [List.append_assoc]
  rw [words_variableLines hnamed, hgap, words_linesAll hnamed htyped, hreturn]
  simp [File.bodyWords]

/-- The variables of a file are declared before its statements. -/
theorem leads_variables (symbols : List (String × Ty)) (top : List String)
    (blocks : List (List String)) (declared : List String) {helpers : Prop} :
    ∃ top', Leads helpers ⟨false, top :: blocks, declared⟩ (symbols.flatMap variableWords)
      ⟨false, top' :: blocks, declared ++ symbols.map (variableName ∘ Prod.fst)⟩ ∧
        Covers symbols [] top' ∧ top ⊆ top' := by
  induction symbols generalizing top declared with
  | nil =>
      rw [List.map_nil, List.append_nil]
      exact ⟨top, .nil _, ⟨nofun, nofun⟩, List.Subset.refl _⟩
  | cons v symbols ih =>
      have hzero : ∀ w ∈ zeroWords v.2, w.IsFixed := by
        cases v.2 <;> decide
      have hv : Leads helpers ⟨false, top :: blocks, declared⟩ (variableWords v)
          ⟨false, (variableName v.1 :: top) :: blocks, declared ++ [variableName v.1]⟩ :=
        .initialized (isGenerated_variableName v.1) v.2 fun w hw => .fixed (hzero w hw)
      obtain ⟨top', hsymbols, hcovers, hsubset⟩ :=
        ih (variableName v.1 :: top) (declared ++ [variableName v.1])
      rw [List.append_assoc] at hsymbols
      refine ⟨top', hv.append hsymbols, ⟨?_, nofun⟩, fun x hx => hsubset (.tail _ hx)⟩
      exact List.forall_mem_cons.mpr ⟨hsubset List.mem_cons_self, hcovers.named⟩

/-! ## Files -/

section Files

variable {f : File} {scope : List (Nat × Ty)} (htyped : Typed f.symbols [] f.body scope)
include htyped

/-- The main function leads from no declaration to those of its variables and temporaries. -/
theorem File.leads_body :
    ∃ top, Leads (Instr.callsAny f.body = true) .start f.bodyWords
      ⟨false, [top], f.symbols.map (variableName ∘ Prod.fst) ++
        (Instr.definedAll f.body).map temporaryName⟩ := by
  obtain ⟨top, hvariables, hcovers, -⟩ := leads_variables f.symbols [] [] []
  have hflatten : top ⊆ [top].flatten := by
    rw [List.flatten_singleton]
    exact List.Subset.refl _
  obtain ⟨top', hcode⟩ := leads_wordsAll htyped top [] _ (hcovers.mono hflatten)
  have hreturn : ∀ w ∈ [Word.name "return", .name "0", .mark ';'], w.IsFixed := by decide
  exact ⟨top', hvariables.append (hcode.append (.fixed hreturn))⟩

variable (hnamed : Named f.symbols)
include hnamed

theorem File.words_text :
    words f.text.toList = words (textOf (preamble f.usesStrings)) ++ mainHead ++
      (.mark '{' :: f.bodyWords ++ [.mark '}']) := by
  have hhead (tail : List Char) : words (textOf ["int main(void)", "\x7b"] ++ tail) =
      mainHead ++ .mark '{' :: words tail := rfl
  have hend : words (textOf ["\x7d"]) = [.mark '}'] := rfl
  rw [f.text_eq, f.lines_eq, textOf_append, textOf_append, textOf_append]
  simp only [List.append_assoc]
  rw [words_append (preamble_foreign f.usesStrings).1, hhead, f.words_bodyLines hnamed htyped, hend]
  rfl

/-- A file is well scoped if its statements are well typed, its temporaries are numbered in
their order, and it has the helpers that it calls. -/
theorem File.wellScoped {n : Nat} (hsymbols : (f.symbols.map Prod.fst).Nodup)
    (hdefined : Instr.definedAll f.body = List.range' 1 n)
    (hcalls : Instr.callsAny f.body = true → f.usesStrings = true) :
    WellScoped f.text.toList (preamble f.usesStrings) f.bodyLines (f.symbols.map Prod.fst) n := by
  obtain ⟨hbehind, hbalanced, hforeign⟩ := preamble_foreign f.usesStrings
  obtain ⟨top, hleads⟩ := f.leads_body htyped
  have hbody : words (textOf f.bodyLines) = f.bodyWords := by
    have hall := f.words_bodyLines hnamed htyped []
    rwa [List.append_nil, show words [] = [] from rfl, List.append_nil] at hall
  have hdeclared : (Context.start.after f.bodyWords).declared =
      (f.symbols.map Prod.fst).map variableName ++ (List.range' 1 n).map temporaryName := by
    rw [hleads.after, hdefined, List.map_map]
  have hhead : Closes mainHead := .of_forall (by decide)
  have hwords := f.words_text htyped hnamed
  rw [← hbody] at hleads hdeclared hwords
  refine ⟨?_, hwords, ?_, hleads.closes.balanced, fun x hx => hforeign _ hx, hdeclared, ?_, ?_, ?_⟩
  · rw [f.text_eq, f.lines_eq]
  · rw [hwords]
    exact ((hbalanced.closes.append hhead).append hleads.closes.block).balanced
  · rw [hdeclared]
    exact nodup_names hsymbols List.nodup_range'
  · intro before x after hsplit hx huse
    rw [hsplit] at hleads
    exact hleads.resolves.mem_visible hx huse
  · intro x hx hmem
    rw [hcalls (hleads.calls x hx hmem)]
    exact preamble_helpers

end Files

theorem Lowered.wellScoped {p : Program} {t : Typing} {f : File} {g : Generator}
    (h : Lowered p f (.ofTables t.symbols t.types) g)
    (hnames : ∀ d ∈ p.declarations, ∀ c ∈ d.name.toList, isNamePart c = true) :
    WellScoped f.text.toList (preamble f.usesStrings) f.bodyLines t.symbols.keys
      (p.expressions.countP Expr.isComputed) := by
  obtain ⟨scope, htyped⟩ := h.typed
  have hallots := lowerAll_allots p.statements h.body
  have hkeys : t.symbols.keys = f.symbols.map Prod.fst := by
    rw [h.file, ← h.symbols]
    rfl
  have hnamed : Named f.symbols := by
    rw [h.file]
    simpa [Named, Program.symbols] using hnames
  have hcalls : Instr.callsAny f.body = true → f.usesStrings = true := by
    rw [h.usesStrings]
    exact lowerAll_provides p.statements h.body
  rw [hkeys, p.expressions_perm.countP_eq]
  exact f.wellScoped htyped hnamed (hkeys ▸ t.symbols.nodup) hallots.defined hcalls

/-- The text for a program that passes the check is well scoped, if its variables have names
of letters, digits and underscores. -/
theorem generate_wellScoped {p : Program} (hids : (p.expressions.map Expr.id).Nodup)
    (hnames : ∀ d ∈ p.declarations, ∀ c ∈ d.name.toList, isNamePart c = true) {t : Typing}
    (hcheck : Typing.empty.extend p = (none, t)) {f : File} {g : Generator}
    (hgenerate : (Generator.ofTables t.symbols t.types).generate p = (.ok f, g)) :
    ∃ front body, WellScoped f.text.toList front body t.symbols.keys
      (p.expressions.countP Expr.isComputed) :=
  ⟨_, _, (lowered_of_generate hids hcheck hgenerate).wellScoped hnames⟩

/-- The program `read s; if n then s = s + "!"; else n = 1; end` and its text. -/
theorem generate_wellScoped_choice :
    let file : File := ⟨true, [("s", .string), ("n", .int)],
      [.scanString "s", .branch (.variable "n")
        [.define .string 1 (.string "!"),
          .define .string 2 (.concat (.variable "s") (.temporary 1)), .assign "s" (.temporary 2)]
        [.define .int 3 (.int 1), .assign "n" (.temporary 3)]], 3⟩
    ∃ front body, WellScoped file.text.toList front body ["s", "n"] 3 := by
  let p : Program := ⟨[⟨default, "s", .string⟩, ⟨default, "n", .int⟩],
    [.read default "s", .branch default (.name ⟨0, default⟩ "n")
      [.assign default "s"
        (.binary ⟨3, default⟩ .add (.name ⟨1, default⟩ "s") (.string ⟨2, default⟩ "!"))]
      [.assign default "n" (.int ⟨4, default⟩ 1)]]⟩
  have hexpressions : p.expressions.map (fun e => (e.id, e.isComputed)) =
      [(0, false), (3, true), (1, false), (2, true), (4, true)] := by
    simp [p, Program.expressions, Visit.expressions, Visit.here, Visit.parts, Expr.operands,
      Expr.id, Expr.mark, Expr.isComputed]
  have hids : (p.expressions.map Expr.id).Nodup := by
    have hmap := congrArg (List.map Prod.fst) hexpressions
    rw [List.map_map] at hmap
    exact hmap ▸ (by decide : [0, 3, 1, 2, 4].Nodup)
  have hcount : p.expressions.countP Expr.isComputed = 3 := by
    have hmap := congrArg (List.countP Prod.snd) hexpressions
    rwa [List.countP_map] at hmap
  have hnames : ∀ d ∈ p.declarations, ∀ c ∈ d.name.toList, isNamePart c = true :=
    fun d hd => List.all_eq_true.mp
      ((by decide : ∀ d ∈ p.declarations, d.name.toList.all isNamePart = true) d hd)
  have hwellScoped := generate_wellScoped hids hnames rfl rfl
  rwa [hcount] at hwellScoped

end ImpToC.C
