import FilterLang.Backend
import FilterLang.Json.Compact

/-!
# A backend that keeps a record

* `Visit` : a call of one of the two functions of a backend, with its arguments;
* `Refusals` : the visits at which a recorder fails;
* `recorder` : logs every visit, returns its text, and fails at refused visits.
-/

namespace FilterLang

inductive Visit
  | literal (enclosing value : String)
  | call (name : String) (args : List String)
  deriving DecidableEq

namespace Visit

def text : Visit → String
  | literal enclosing value => enclosing ++ ":" ++ value
  | call name args => name ++ "[" ++ ";".intercalate args ++ "]"

def toJson : Visit → Json
  | literal enclosing value =>
    .object [("literal", .string value), ("enclosing", .string enclosing)]
  | call name args => .object [("call", .string name), ("args", .array (args.map .string))]

end Visit

/-- The visits at which a recorder fails: by the name of the call, by the value of the literal, or by the number of
earlier visits. -/
structure Refusals where
  calls : List String := []
  literals : List String := []
  index? : Option Nat := none

def Refusals.refuse (r : Refusals) (earlier : Nat) (v : Visit) : Bool :=
  r.index? == some earlier ||
    match v with
    | .literal _ value => r.literals.contains value
    | .call name _ => r.calls.contains name

/-- The log of visits, with the text of the refused visit as error. -/
abbrev Recording := ExceptT String (StateM (Array Visit))

/-- Logs the visit, refused or not. -/
def Refusals.visit (r : Refusals) (v : Visit) : Recording String := do
  let refused := r.refuse (← get).size v
  modify (·.push v)
  if refused then throw v.text else pure v.text

def recorder (r : Refusals) : Backend Recording String where
  call name args := r.visit (.call name args)
  literal enclosing value := r.visit (.literal enclosing value)

end FilterLang
