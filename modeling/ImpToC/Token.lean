import ImpToC.Location
import ImpToC.Text.Quoted

/-!
# Tokens

The words of the language. Punctuation marks and keywords have one spelling
each; literals and names carry their text. A text ends in one token of its own.
-/

namespace ImpToC

/-- A punctuation mark or a keyword. -/
inductive Symbol
  | plus
  | minus
  | star
  | slash
  | equals
  | openParen
  | closeParen
  | colon
  | semicolon
  | comma
  | ifWord
  | thenWord
  | elseWord
  | endWord
  | whileWord
  | doWord
  | doneWord
  | readWord
  | printWord
  | varWord
  | intWord
  | floatWord
  | stringWord
  deriving DecidableEq, Repr, Inhabited

namespace Symbol

/-- The punctuation marks. -/
def marks : List Symbol :=
  [.plus, .minus, .star, .slash, .equals, .openParen, .closeParen, .colon, .semicolon, .comma]

/-- The keywords. -/
def words : List Symbol :=
  [.ifWord, .thenWord, .elseWord, .endWord, .whileWord, .doWord, .doneWord, .readWord,
    .printWord, .varWord, .intWord, .floatWord, .stringWord]

/-- The spelling of a symbol. -/
def spelling : Symbol → String
  | .plus => "+"
  | .minus => "-"
  | .star => "*"
  | .slash => "/"
  | .equals => "="
  | .openParen => "("
  | .closeParen => ")"
  | .colon => ":"
  | .semicolon => ";"
  | .comma => ","
  | .ifWord => "if"
  | .thenWord => "then"
  | .elseWord => "else"
  | .endWord => "end"
  | .whileWord => "while"
  | .doWord => "do"
  | .doneWord => "done"
  | .readWord => "read"
  | .printWord => "print"
  | .varWord => "var"
  | .intWord => "int"
  | .floatWord => "float"
  | .stringWord => "string"

/-- The tag of a symbol in a listing of tokens. -/
def tag : Symbol → String
  | .plus => "PLUS"
  | .minus => "MINUS"
  | .star => "STAR"
  | .slash => "SLASH"
  | .equals => "EQUAL"
  | .openParen => "LPAREN"
  | .closeParen => "RPAREN"
  | .colon => "COLON"
  | .semicolon => "SEMICOLON"
  | .comma => "COMMA"
  | .ifWord => "IF"
  | .thenWord => "THEN"
  | .elseWord => "ELSE"
  | .endWord => "END"
  | .whileWord => "WHILE"
  | .doWord => "DO"
  | .doneWord => "DONE"
  | .readWord => "READ"
  | .printWord => "PRINT"
  | .varWord => "VAR"
  | .intWord => "TYPE_INT"
  | .floatWord => "TYPE_FLOAT"
  | .stringWord => "TYPE_STRING"

/-- The mark that a character is. -/
def ofMark? (c : Char) : Option Symbol := marks.find? fun s => s.spelling.toList = [c]

/-- The keyword that a text is. -/
def ofWord? (text : String) : Option Symbol := words.find? fun s => s.spelling = text

end Symbol

/-- The kind of a token: the text of literals and names left out. -/
inductive Kind
  | int
  | float
  | string
  | name
  | symbol (s : Symbol)
  | finish
  deriving DecidableEq, Repr, Inhabited

namespace Kind

/-- All kinds, in the order in which they are listed. -/
def all : List Kind :=
  [.int, .float, .string, .name] ++ (Symbol.marks ++ Symbol.words).map .symbol ++ [.finish]

/-- The kinds of a list without repetition, in the order of `all`. -/
def inOrder (kinds : List Kind) : List Kind := all.filter (kinds.contains ·)

/-- The tag of a kind in a listing of tokens. -/
def tag : Kind → String
  | .int => "INT"
  | .float => "FLOAT"
  | .string => "STRING"
  | .name => "IDENTIFIER"
  | .symbol s => s.tag
  | .finish => "EOF"

/-- How a kind is called in a message. -/
def display : Kind → String
  | .int => "integer literal"
  | .float => "float literal"
  | .string => "string literal"
  | .name => "identifier"
  | .symbol s => "'" ++ s.spelling ++ "'"
  | .finish => "end of input"

end Kind

/-- The decimal digits. -/
def isDigit (c : Char) : Bool := '0' ≤ c && c ≤ '9'

/-- Digits with at most one point in front of them, among them or behind them. -/
def isDecimal (text : List Char) : Bool :=
  !text.isEmpty &&
    match text.dropWhile isDigit with
    | [] => true
    | c :: rest => c = '.' && rest.all isDigit

/-- The text of an integer literal. -/
structure IntText where
  text : String
  digits : text.toList.all isDigit = true
  deriving DecidableEq, Repr

/-- The text of a float literal. -/
structure FloatText where
  text : String
  decimal : isDecimal text.toList = true
  deriving DecidableEq, Repr

/-- A word of the language. The text of a string is what stands between its
quotes. -/
inductive Lexeme
  | int (digits : IntText)
  | float (decimal : FloatText)
  | string (text : String)
  | name (text : String)
  | symbol (s : Symbol)
  | finish
  deriving DecidableEq, Repr, Inhabited

namespace Lexeme

def kind : Lexeme → Kind
  | .int _ => .int
  | .float _ => .float
  | .string _ => .string
  | .name _ => .name
  | .symbol s => .symbol s
  | .finish => .finish

/-- The text of a literal or a name. -/
def text? : Lexeme → Option String
  | .int digits => some digits.text
  | .float decimal => some decimal.text
  | .string text | .name text => some text
  | .symbol _ | .finish => none

/-- How a word is written in a source text. -/
def spelling : Lexeme → List Char
  | .int digits => digits.text.toList
  | .float decimal => decimal.text.toList
  | .name text => text.toList
  | .string text => '"' :: text.toList ++ ['"']
  | .symbol s => s.spelling.toList
  | .finish => []

/-- How a word is called in a message. -/
def describe : Lexeme → String
  | .string text => "string literal \"" ++ text ++ "\""
  | .int digits => Kind.int.display ++ " '" ++ digits.text ++ "'"
  | .float decimal => Kind.float.display ++ " '" ++ decimal.text ++ "'"
  | .name text => Kind.name.display ++ " '" ++ text ++ "'"
  | .symbol s => (Kind.symbol s).display
  | .finish => Kind.finish.display

end Lexeme

/-- A word at its place. -/
structure Token where
  lexeme : Lexeme
  location : Location
  deriving DecidableEq, Repr, Inhabited

namespace Token

def kind (t : Token) : Kind := t.lexeme.kind

/-- The text of a literal or a name; other tokens have none. -/
def text (t : Token) : String := t.lexeme.text?.getD ""

/-- The form of a token in a dump. -/
def dump (t : Token) : String :=
  let text :=
    match t.lexeme.text? with
    | some text => ", " ++ Text.Quoted.quote text
    | none => ""
  "Token(" ++ t.kind.tag ++ text ++ ", " ++ toString t.location.line ++ ":" ++
    toString t.location.column ++ ")"

/-- The line of a token in a listing: its place, its tag, and its text if it has
one, with tabs between them. -/
def listing (t : Token) : String :=
  let text :=
    match t.lexeme.text? with
    | some text => "\t" ++ text
    | none => ""
  toString t.location.line ++ ":" ++ toString t.location.column ++ "\t" ++ t.kind.tag ++ text

end Token

end ImpToC
