import FilterLang.Event

/-!
# Limits from environment variables

* `Environment` : the bytes of each variable that is set, `Environment.text?` their UTF-8 text;
* `Environment.limit` : one limit from one variable, or the default with a warning;
* `Limits.ofEnvironment` : both limits, each from its own variable.
-/

namespace FilterLang

abbrev Environment := String → Option ByteArray

namespace Environment

/-- The text of the variable. Invalid UTF-8 counts as unset. -/
def text? (env : Environment) (name : String) : Option String :=
  (env name).bind String.fromUTF8?

/-- The count in the text of the variable without blanks at its ends. The default stands for an unset variable and,
with a warning, for a text that is no count. -/
def limit (env : Environment) (name : String) (default : Nat) : Nat × List Event :=
  match env.text? name with
  | none => (default, [])
  | some text =>
    match readCount (trimBlank text.toList) with
    | .ok value => (value, [])
    | .error e => (default, [.ignoredLimit name text e])

end Environment

def Limits.ofEnvironment (env : Environment) : Limits × List Event :=
  let default : Limits := {}
  let (maxDepth, depthEvents) := env.limit "FILTEREXPR_MAX_DEPTH" default.maxDepth
  let (maxInputLen, lengthEvents) := env.limit "FILTEREXPR_MAX_INPUT_LEN" default.maxInputLen
  (⟨maxDepth, maxInputLen⟩, depthEvents ++ lengthEvents)

end FilterLang
