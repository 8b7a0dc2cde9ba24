import FilterLang.Json.Compact
import FilterLang.Tree

/-!
# Trees in JSON

* `Program.toJson`, `Call.toJson`, `Literal.toJson` : records of `expression`, of `functionName` and `args`, and of
  `value`;
* `Argument.toJson` : the record of the literal or of the call, with the tag of its kind under `type` in front;
* `Program.ofJson?`, `Call.ofJson?`, `Argument.ofJson?`, `Literal.ofJson?` : decoding of objects and of arrays, as in
  `Json.fields?`; in an array the kind of an argument is the first item. Names and values are not validated;
* `Argument.Kind.ofJson?` : the kind by its tag (`ofJson?_outermost_eq_some_iff`), and inside another argument also by
  its number (`ofJson?_nested_eq_some_iff`).
-/

namespace FilterLang

/-! ## Kinds of argument -/

inductive Argument.Kind
  | literal
  | call
  deriving DecidableEq

/-- Whether an argument is decoded inside another argument, at any depth. -/
inductive Argument.Place
  | outermost
  | nested
  deriving DecidableEq

namespace Argument.Kind

def all : List Kind := [literal, call]

def tag : Kind → String
  | literal => "StringLiteral"
  | call => "CallExpression"

def number : Kind → Nat
  | literal => 0
  | call => 1

def ofTag? (tag : String) : Option Kind := all.find? (·.tag == tag)

def ofNumber? (number : Nat) : Option Kind := all.find? (·.number == number)

/-- The kind by its tag, or by its number in a nested argument. -/
def ofJson? : Place → Json → Option Kind
  | _, .string tag => ofTag? tag
  | .nested, .nat number => ofNumber? number
  | _, _ => none

theorem ofTag?_eq_some_iff {tag : String} {k : Kind} : ofTag? tag = some k ↔ tag = k.tag := by
  constructor
  · intro h
    have hk := List.find?_some (show all.find? (fun k : Kind => k.tag == tag) = some k from h)
    exact (beq_iff_eq.1 hk).symm
  · rintro rfl
    cases k <;> decide

theorem ofNumber?_eq_some_iff {number : Nat} {k : Kind} :
    ofNumber? number = some k ↔ number = k.number := by
  constructor
  · intro h
    have hk := List.find?_some
      (show all.find? (fun k : Kind => k.number == number) = some k from h)
    exact (beq_iff_eq.1 hk).symm
  · rintro rfl
    cases k <;> decide

theorem ofJson?_outermost_eq_some_iff {j : Json} {k : Kind} :
    ofJson? .outermost j = some k ↔ j = .string k.tag := by
  cases j <;> simp [ofJson?, ofTag?_eq_some_iff]

theorem ofJson?_nested_eq_some_iff {j : Json} {k : Kind} :
    ofJson? .nested j = some k ↔ j = .string k.tag ∨ j = .nat k.number := by
  cases j <;> simp [ofJson?, ofTag?_eq_some_iff, ofNumber?_eq_some_iff]

theorem ofJson?_tag (place : Place) (k : Kind) : ofJson? place (.string k.tag) = some k := by
  cases place
  · exact ofJson?_outermost_eq_some_iff.2 rfl
  · exact ofJson?_nested_eq_some_iff.2 (.inl rfl)

end Argument.Kind

/-! ## Writing -/

def Literal.toJson (lit : Literal) : Json := .object [("value", .string lit.value)]

mutual

def Call.toJson : Call → Json
  | ⟨name, args⟩ =>
    .object [("functionName", .string name), ("args", .array (Argument.toJsonList [] args))]

def Argument.toJson : Argument → Json
  | .literal lit =>
    .object [("type", .string Argument.Kind.literal.tag), ("value", .string lit.value)]
  | .call ⟨name, args⟩ =>
    .object [("type", .string Argument.Kind.call.tag), ("functionName", .string name),
      ("args", .array (Argument.toJsonList [] args))]

/-- The arguments in JSON behind the values `done`, a reversed list. -/
def Argument.toJsonList (done : List Json) : List Argument → List Json
  | [] => done.reverse
  | arg :: args => Argument.toJsonList (arg.toJson :: done) args

end

def Program.toJson (p : Program) : Json := .object [("expression", p.expression.toJson)]

theorem Argument.toJsonList_eq (done : List Json) (args : List Argument) :
    Argument.toJsonList done args = done.reverse ++ args.map Argument.toJson := by
  induction args generalizing done with
  | nil => simp [Argument.toJsonList]
  | cons arg args ih => simp [Argument.toJsonList, ih]

/-! ## Reading -/

def Literal.ofJson? (j : Json) : Option Literal :=
  match j.fields? ["value"] with
  | some [value] => value.string?.map Literal.mk
  | _ => none

mutual

/-- Decodes an argument. The arguments of a call are decoded as nested. -/
def Argument.ofJsonAt? (place : Argument.Place) : Json → Option Argument
  | .object fields => do
    match ← (fields.lookup "type").bind (Argument.Kind.ofJson? place) with
    | .literal => some (.literal ⟨← (fields.lookup "value").bind Json.string?⟩)
    | .call =>
      some (.call ⟨← (fields.lookup "functionName").bind Json.string?,
        ← Argument.listOfFields? .nested fields⟩)
  | .array [kind, value] => do
    match ← Argument.Kind.ofJson? place kind with
    | .literal => some (.literal ⟨← value.string?⟩)
    | .call => none
  | .array [kind, name, args] => do
    match ← Argument.Kind.ofJson? place kind with
    | .literal => none
    | .call => some (.call ⟨← name.string?, ← Argument.listOfJson? .nested args⟩)
  | _ => none

def Argument.listOfFields? (place : Argument.Place) :
    List (String × Json) → Option (List Argument)
  | [] => none
  | (key, value) :: fields =>
    if key = "args" then Argument.listOfJson? place value
    else Argument.listOfFields? place fields

def Argument.listOfJson? (place : Argument.Place) : Json → Option (List Argument)
  | .array items => Argument.listOfItems? place [] items
  | _ => none

/-- The arguments of the items behind `done`, a reversed list. -/
def Argument.listOfItems? (place : Argument.Place) (done : List Argument) :
    List Json → Option (List Argument)
  | [] => some done.reverse
  | item :: items => do
    Argument.listOfItems? place ((← Argument.ofJsonAt? place item) :: done) items

end

def Argument.ofJson? (j : Json) : Option Argument := Argument.ofJsonAt? .outermost j

def Call.ofJson? (j : Json) : Option Call :=
  match j.fields? ["functionName", "args"] with
  | some [name, args] => do some ⟨← name.string?, ← Argument.listOfJson? .outermost args⟩
  | _ => none

def Program.ofJson? (j : Json) : Option Program :=
  match j.fields? ["expression"] with
  | some [expression] => (Call.ofJson? expression).map Program.mk
  | _ => none

theorem Argument.listOfFields?_eq (place : Argument.Place) (fields : List (String × Json)) :
    Argument.listOfFields? place fields =
      (fields.lookup "args").bind (Argument.listOfJson? place) := by
  induction fields with
  | nil => rfl
  | cons field fields ih =>
    obtain ⟨key, value⟩ := field
    by_cases h : key = "args"
    · simp [Argument.listOfFields?, h]
    · simp [Argument.listOfFields?, h, ih, List.lookup_cons, beq_eq_false_iff_ne.2 (Ne.symm h)]

theorem Argument.listOfItems?_eq (place : Argument.Place) (done : List Argument)
    (items : List Json) :
    Argument.listOfItems? place done items =
      (items.mapM (Argument.ofJsonAt? place)).map fun args => done.reverse ++ args := by
  induction items generalizing done with
  | nil => simp [Argument.listOfItems?]
  | cons item items ih =>
    cases h : Argument.ofJsonAt? place item with
    | none => simp [Argument.listOfItems?, h]
    | some arg =>
      cases hs : items.mapM (Argument.ofJsonAt? place) <;> simp [Argument.listOfItems?, h, ih, hs]

end FilterLang
