import ImpToC.C.Code
import ImpToC.C.Literal

/-!
# The text of C code

How a file of C is laid out: the headers, the functions for strings where they
are needed, the variables with a zero of their type each, and the statements, one
a line and four further to the right in each block.
-/

namespace ImpToC

/-- The type of C for a type. -/
def Ty.cName : Ty → String
  | .int => "int"
  | .float => "float"
  | .string => "const char *"

/-- The first value of a variable. -/
def Ty.cZero : Ty → String
  | .int => "0"
  | .float => "0.0f"
  | .string => "\"\""

/-- The conversion by which a value is printed and read. -/
def Ty.cConversion : Ty → String
  | .int => "%d"
  | .float => "%f"
  | .string => "%s"

namespace C

def Place.text : Place → String
  | .variable name => variableName name
  | .temporary index => temporaryName index

def Value.text : Value → String
  | .int value => toString value
  | .float value => String.ofList (floatLiteral value.text)
  | .string text => String.ofList (stringLiteral text.toList)
  | .negate operand => "-" ++ operand.text
  | .operation op left right => left.text ++ " " ++ op.sign ++ " " ++ right.text
  | .concat left right => "ml_concat(" ++ left.text ++ ", " ++ right.text ++ ")"

/-- A line in a block of the given depth. -/
def line (level : Nat) (text : String) : String :=
  String.ofList (List.replicate (4 * level) ' ') ++ text

mutual

/-- The lines of a statement. -/
def Instr.lines (level : Nat) : Instr → List String
  | .define type index value =>
    [line level (type.cName ++ " " ++ temporaryName index ++ " = " ++ value.text ++ ";")]
  | .assign target value => [line level (variableName target ++ " = " ++ value.text ++ ";")]
  | .print type value =>
    [line level ("printf(\"" ++ type.cConversion ++ "\\n\", " ++ value.text ++ ");")]
  | .scan type target =>
    [line level ("scanf(\"" ++ type.cConversion ++ "\", &" ++ variableName target ++ ");")]
  | .scanString target => [line level (variableName target ++ " = ml_read_string();")]
  | .branch condition yes no =>
    line level ("if (" ++ condition.text ++ ") \x7b") :: Instr.linesAll (level + 1) yes ++
      (if no.isEmpty then []
        else line level "\x7d else \x7b" :: Instr.linesAll (level + 1) no) ++
      [line level "\x7d"]
  | .loop body =>
    line level "while (1) \x7b" :: Instr.linesAll (level + 1) body ++ [line level "\x7d"]
  | .leaveUnless condition => [line level ("if (!" ++ condition.text ++ ") break;")]

/-- The lines of statements. -/
def Instr.linesAll (level : Nat) : List Instr → List String
  | [] => []
  | i :: rest => Instr.lines level i ++ Instr.linesAll level rest

end

/-- The function that joins two strings in new memory. -/
def concatFunction : List String := [
  "static const char *ml_concat(const char *a, const char *b)",
  "\x7b",
  "    size_t la = strlen(a);",
  "    size_t lb = strlen(b);",
  "    char *s = malloc(la + lb + 1);",
  "    if (s == NULL) \x7b",
  "        fputs(\"out of memory\\n\", stderr);",
  "        exit(1);",
  "    \x7d",
  "    memcpy(s, a, la);",
  "    memcpy(s + la, b, lb + 1);",
  "    return s;",
  "\x7d"]

/-- The function that reads a word into new memory. -/
def readFunction : List String := [
  "static const char *ml_read_string(void)",
  "\x7b",
  "    char buf[256];",
  "    size_t len;",
  "    char *s;",
  "    if (scanf(\"%255s\", buf) != 1) \x7b",
  "        buf[0] = '\\0';",
  "    \x7d",
  "    len = strlen(buf);",
  "    s = malloc(len + 1);",
  "    if (s == NULL) \x7b",
  "        fputs(\"out of memory\\n\", stderr);",
  "        exit(1);",
  "    \x7d",
  "    memcpy(s, buf, len + 1);",
  "    return s;",
  "\x7d"]

/-- What stands in front of the main function. -/
def preamble (usesStrings : Bool) : List String :=
  "#include <stdio.h>" ::
    (if usesStrings then
      ["#include <stdlib.h>", "#include <string.h>", ""] ++ concatFunction ++ [""] ++ readFunction
    else []) ++ [""]

/-- The line that defines a variable. -/
def variableLine (v : String × Ty) : String :=
  line 1 (v.2.cName ++ " " ++ variableName v.1 ++ " = " ++ v.2.cZero ++ ";")

/-- The lines of a file. -/
def File.lines (f : File) : List String :=
  preamble f.usesStrings ++ ["int main(void)", "\x7b"] ++ f.symbols.map variableLine ++
    (if f.symbols.isEmpty then [] else [""]) ++ Instr.linesAll 1 f.body ++
    [line 1 "return 0;", "\x7d"]

/-- The text of a file; every line has an end. -/
def File.text (f : File) : String := "\n".intercalate f.lines ++ "\n"

end C

end ImpToC
