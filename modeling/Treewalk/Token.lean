import Treewalk.Value

/-!
# Tokens

A token is a piece of source text with its kind, the value it denotes if it is a number or a string, and the line
on which it ends.  The last token of a scanned text is the end mark, of kind `eof`.
-/

namespace Treewalk

/-- The kinds of tokens: marks, literals, the reserved words, and the end mark. -/
inductive TokenKind where
  | leftParen | rightParen | leftBrace | rightBrace
  | comma | dot | minus | plus | semicolon | slash | star
  | bang | bangEqual | equal | equalEqual | greater | greaterEqual | less | lessEqual
  | identifier | string | number
  | and_ | class_ | else_ | false_ | for_ | fun_ | if_ | nil_ | or_ | print_ | return_ | super_ | this_ | true_
  | var_ | while_
  | eof
deriving DecidableEq

namespace TokenKind

/-- All kinds, in the order of their declaration. -/
def all : List TokenKind :=
  [leftParen, rightParen, leftBrace, rightBrace, comma, dot, minus, plus, semicolon, slash, star,
    bang, bangEqual, equal, equalEqual, greater, greaterEqual, less, lessEqual, identifier, string, number,
    and_, class_, else_, false_, for_, fun_, if_, nil_, or_, print_, return_, super_, this_, true_, var_, while_, eof]

/-- The name of a kind in a token listing. -/
def name : TokenKind → String
  | leftParen => "LEFT_PAREN"
  | rightParen => "RIGHT_PAREN"
  | leftBrace => "LEFT_BRACE"
  | rightBrace => "RIGHT_BRACE"
  | comma => "COMMA"
  | dot => "DOT"
  | minus => "MINUS"
  | plus => "PLUS"
  | semicolon => "SEMICOLON"
  | slash => "SLASH"
  | star => "STAR"
  | bang => "BANG"
  | bangEqual => "BANG_EQUAL"
  | equal => "EQUAL"
  | equalEqual => "EQUAL_EQUAL"
  | greater => "GREATER"
  | greaterEqual => "GREATER_EQUAL"
  | less => "LESS"
  | lessEqual => "LESS_EQUAL"
  | identifier => "IDENTIFIER"
  | string => "STRING"
  | number => "NUMBER"
  | and_ => "AND"
  | class_ => "CLASS"
  | else_ => "ELSE"
  | false_ => "FALSE"
  | for_ => "FOR"
  | fun_ => "FUN"
  | if_ => "IF"
  | nil_ => "NIL"
  | or_ => "OR"
  | print_ => "PRINT"
  | return_ => "RETURN"
  | super_ => "SUPER"
  | this_ => "THIS"
  | true_ => "TRUE"
  | var_ => "VAR"
  | while_ => "WHILE"
  | eof => "EOF"

/-- The kind with a given name. -/
def ofName? (name : String) : Option TokenKind :=
  all.find? fun kind => kind.name = name

/-- The reserved words with their kinds. -/
def reservedWords : List (String × TokenKind) :=
  [("and", and_), ("class", class_), ("else", else_), ("false", false_), ("for", for_), ("fun", fun_), ("if", if_),
    ("nil", nil_), ("or", or_), ("print", print_), ("return", return_), ("super", super_), ("this", this_),
    ("true", true_), ("var", var_), ("while", while_)]

/-- The kind of a reserved word; any other word has none. -/
def reserved? (word : String) : Option TokenKind :=
  reservedWords.lookup word

end TokenKind

/-- A token: its kind, its text, the value of a number or string (`nil` for any other), and its line. -/
structure Token where
  kind : TokenKind
  lexeme : String
  literal : Value
  line : Int
deriving DecidableEq

/-- The end mark on a given line. -/
def Token.endMark (line : Int) : Token := ⟨.eof, "", .nil, line⟩

end Treewalk
