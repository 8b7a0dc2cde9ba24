import FilterLang.Token.Stream

/-!
# Errors

* `GrammarError` : the seven errors of the grammar, each with the token that does not fit;
* `ParseError` : an error of the lexer, of the grammar, or of one of two limits;
* `ParseError.category`, `ParseError.position?`, `ParseError.message` : what is reported of it.
-/

namespace FilterLang

/-- The first token that does not fit, by what the grammar expects in its place. -/
inductive GrammarError
  /-- A call or an opening parenthesis. -/
  | expectedExpression (token : Token)
  /-- The parenthesis that opens the arguments of `name`. -/
  | expectedOpenParen (token : Token) (name : String)
  /-- The parenthesis that closes the arguments of `name`. -/
  | unclosedCall (token : Token) (name : String)
  /-- The parenthesis that closes a group. -/
  | unclosedGroup (token : Token)
  /-- A literal or a call. -/
  | invalidArgument (token : Token)
  /-- The end of the input. -/
  | trailingInput (token : Token)
  /-- The token is `and` or `or` behind a whole expression. -/
  | bareLogicalOperator (token : Token)
  deriving DecidableEq

namespace GrammarError

def token : GrammarError → Token
  | expectedExpression token | expectedOpenParen token _ | unclosedCall token _
  | unclosedGroup token | invalidArgument token | trailingInput token
  | bareLogicalOperator token => token

def name? : GrammarError → Option String
  | expectedOpenParen _ name | unclosedCall _ name => some name
  | _ => none

def message : GrammarError → String
  | expectedExpression ⟨kind, value, _⟩ =>
    s!"Unexpected token '{value}' (type {kind.name}). Expected a function call or a '('."
  | expectedOpenParen _ name => s!"Expected '(' after function name '{name}'."
  | unclosedCall _ name => s!"Expected ')' to close function call '{name}'."
  | unclosedGroup _ => "Expected ')' to close parenthesized expression."
  | invalidArgument ⟨kind, value, _⟩ =>
    s!"Unexpected token '{value}' (type {kind.name}). Expected a string literal or a nested " ++
      "function call as an argument."
  | trailingInput ⟨_, value, position⟩ =>
    s!"Unexpected token '{value}' at position {position}. Expected end of input."
  | bareLogicalOperator ⟨_, value, _⟩ =>
    s!"Unexpected logical operator '{value}' not in a function call."

end GrammarError

inductive ParseError
  | lexical (error : LexicalError)
  | grammar (error : GrammarError)
  /-- The text has `length` characters, more than `maxInputLen`. -/
  | inputTooLong (length maxInputLen : Nat)
  /-- The construct that starts at `position` would be open inside `maxDepth` others. -/
  | nestingTooDeep (maxDepth position : Nat)
  deriving DecidableEq

inductive ParseError.Category
  | lexical
  | grammar
  | limit
  deriving DecidableEq

namespace ParseError

def category : ParseError → Category
  | lexical _ => .lexical
  | grammar _ => .grammar
  | inputTooLong _ _ | nestingTooDeep _ _ => .limit

def position? : ParseError → Option Nat
  | lexical error => some error.position
  | grammar error => some error.token.position
  | inputTooLong _ _ => none
  | nestingTooDeep _ position => some position

def message : ParseError → String
  | lexical error => error.message
  | grammar error => error.message
  | inputTooLong length maxInputLen =>
    s!"Input of {length} characters exceeds the limit of {maxInputLen}."
  | nestingTooDeep maxDepth position =>
    s!"Expression nesting exceeds the limit of {maxDepth} at position {position}."

end ParseError

end FilterLang
