import FilterLang.Json.Compact
import FilterLang.Token

/-!
# Tokens and limits in JSON

* `Token.toJson`, `Token.ofJson?` : a record of `kind`, `value` and `position`;
* `Token.Kind.toJson`, `Token.Kind.ofJson?` : the tag of the kind, which is also read as the only key of an object
  with the value `null`;
* `Limits.toJson`, `Limits.ofJson?` : a record of `maxDepth` and `maxInputLen`.
-/

namespace FilterLang

namespace Token.Kind

def toJson (k : Kind) : Json := .string k.tag

def ofJson? : Json → Option Kind
  | .string tag => ofTag? tag
  | .object [(tag, .null)] => ofTag? tag
  | _ => none

end Token.Kind

namespace Token

def toJson (t : Token) : Json :=
  .object [("kind", t.kind.toJson), ("value", .string t.value), ("position", .nat t.position)]

def ofJson? (j : Json) : Option Token :=
  match j.fields? ["kind", "value", "position"] with
  | some [kind, value, position] => do
    some ⟨← Kind.ofJson? kind, ← value.string?, ← position.count?⟩
  | _ => none

end Token

namespace Limits

def toJson (limits : Limits) : Json :=
  .object [("maxDepth", .nat limits.maxDepth), ("maxInputLen", .nat limits.maxInputLen)]

def ofJson? (j : Json) : Option Limits :=
  match j.fields? ["maxDepth", "maxInputLen"] with
  | some [maxDepth, maxInputLen] => do some ⟨← maxDepth.count?, ← maxInputLen.count?⟩
  | _ => none

end Limits

end FilterLang
