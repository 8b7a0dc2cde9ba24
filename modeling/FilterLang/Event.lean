import FilterLang.Error
import FilterLang.Json.Compact

/-!
# Events

* `Event` : a log record of the lexer, the parser or the configuration;
* `Event.level`, `Event.target`, `Event.message`, `Event.fields` : its parts (`Event.toJson`);
* `Event.lexing` : the records of a list of tokens, none for the end of the input.
-/

namespace FilterLang

inductive Event.Level
  | trace
  | debug
  | warn
  deriving DecidableEq

def Event.Level.name : Event.Level → String
  | trace => "TRACE"
  | debug => "DEBUG"
  | warn => "WARN"

inductive Event
  | lexed (token : Token)
  /-- The start of a parse, with the number of characters. -/
  | parsing (length : Nat)
  /-- A parse that succeeded, with the depth of the program. -/
  | parsed (depth : Nat)
  | rejected (error : ParseError)
  /-- The environment variable `name` holds `text`, which is no count. -/
  | ignoredLimit (name text : String) (error : CountError)
  deriving DecidableEq

namespace Event

def level : Event → Level
  | lexed _ => .trace
  | parsing _ | parsed _ | rejected _ => .debug
  | ignoredLimit _ _ _ => .warn

def target : Event → String
  | lexed _ => "filterexpr::lexer"
  | parsing _ | parsed _ | rejected _ => "filterexpr::parser"
  | ignoredLimit _ _ _ => "filterexpr::config"

def message : Event → String
  | lexed _ => "lexed token"
  | parsing _ => "parsing filter expression"
  | parsed _ => "parsed filter expression"
  | rejected _ => "rejected filter expression"
  | ignoredLimit _ _ _ => "ignoring invalid parser limit"

def fields : Event → List (String × Json)
  | lexed t =>
    [("kind", .string t.kind.name), ("value", .string t.value), ("position", .nat t.position)]
  | parsing length => [("input_len", .nat length)]
  | parsed depth => [("depth", .nat depth)]
  | rejected error => [("error", .string error.message)]
  | ignoredLimit name text error =>
    [("key", .string name), ("value", .string text), ("error", .string error.message)]

def toJson (e : Event) : Json :=
  .object [("level", .string e.level.name), ("target", .string e.target),
    ("message", .string e.message), ("fields", .object e.fields)]

/-- One record for each token but the end of the input. -/
def lexing (tokens : List Token) : List Event :=
  (tokens.filter fun t => !t.isEof).map lexed

end Event

end FilterLang
