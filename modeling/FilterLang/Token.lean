/-!
# Tokens

* `Token.Kind` : the seven kinds, with `name` for messages and log records and `tag` for JSON (`ofTag?_eq_some_iff`);
* `Token` : a kind, a value and a position in characters;
* `Token.isEof`, `Token.isLogical` : the end of the input, and the words `and` and `or`;
* `Token.display` : the one-line form of a token.
-/

namespace FilterLang

inductive Token.Kind
  | identifier
  | stringLiteral
  | lparen
  | rparen
  | comma
  | eof
  | unknown
  deriving DecidableEq

namespace Token.Kind

def all : List Kind := [identifier, stringLiteral, lparen, rparen, comma, eof, unknown]

def name : Kind → String
  | identifier => "IDENTIFIER"
  | stringLiteral => "STRING_LITERAL"
  | lparen => "LPAREN"
  | rparen => "RPAREN"
  | comma => "COMMA"
  | eof => "EOF"
  | unknown => "UNKNOWN"

def tag : Kind → String
  | identifier => "Identifier"
  | stringLiteral => "StringLiteral"
  | lparen => "LParen"
  | rparen => "RParen"
  | comma => "Comma"
  | eof => "Eof"
  | unknown => "Unknown"

def ofTag? (tag : String) : Option Kind := all.find? (·.tag == tag)

/-- The kind of a token of one character. -/
def ofMark (c : Char) : Kind :=
  if c = '(' then lparen
  else if c = ')' then rparen
  else if c = ',' then comma
  else unknown

theorem tag_injective {j k : Kind} (h : j.tag = k.tag) : j = k := by
  cases j <;> cases k <;> first | rfl | exact absurd h (by decide)

theorem ofTag?_eq_some_iff {tag : String} {k : Kind} : ofTag? tag = some k ↔ tag = k.tag := by
  constructor
  · intro h
    have hk := List.find?_some (show all.find? (fun k : Kind => k.tag == tag) = some k from h)
    exact (beq_iff_eq.1 hk).symm
  · rintro rfl
    cases k <;> decide

end Token.Kind

/-- A token starts behind `position` characters. Its value is its spelling, but without the quotes for a string
literal and empty for the end of the input. -/
structure Token where
  kind : Token.Kind
  value : String
  position : Nat
  deriving DecidableEq

namespace Token

def endOfInput (position : Nat) : Token := ⟨.eof, "", position⟩

def isEof (t : Token) : Bool := t.kind == .eof

/-- The identifier `and` or `or`, in lower case. -/
def isLogical (t : Token) : Bool := t.kind == .identifier && (t.value == "and" || t.value == "or")

def display (t : Token) : String := s!"'{t.value}' ({t.kind.name}) at {t.position}"

theorem isEof_iff {t : Token} : t.isEof = true ↔ t.kind = .eof := by simp [isEof]

@[simp] theorem isEof_endOfInput (n : Nat) : (endOfInput n).isEof = true := rfl

end Token

end FilterLang
