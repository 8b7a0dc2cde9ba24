import FilterLang.Json.Compact
import FilterLang.Proofs.Json.RoundTrip

/-!
# Accepted and rejected JSON of a tree

A record is read from an object or from an array, and each record of a tree in either form.

* `Json.IsRecord own` : the JSON values of a record with the fields `own`: an object with these fields,
  in any order and perhaps with others, or the array of their values;
* `Json.IsFlawed own` : the same with one flaw, a missing field, a missing item or an extra item
  (`IsRecord.fields?_eq`, `IsFlawed.fields?_eq_none`);
* `Program.Spelled`, `Call.Spelled`, `Argument.Spelled`, `Literal.Spelled` : the JSON values of a
  tree, each of its records in either form;
* `Program.Misspelled`, `Call.Misspelled`, `Argument.Misspelled`, `Literal.Misspelled` : the same with
  one flaw in one of the records;
* `Argument.ofJsonAt?_of_isFlawed_literal`, `Argument.ofJsonAt?_of_isFlawed_call` : a flawed record of
  one variant of `Argument` is not read as the other;
* `Json.reads_every_spelling` : `Spelled` values are read as the tree, `Misspelled` ones are rejected.
-/

namespace FilterLang

/-! ## Records -/

namespace Json

variable {own fields : List (String × Json)} {keys : List String} {key : String} {value j : Json}

/-- Spellings of the record `own`: an object with further keys, or an array. -/
inductive IsRecord (own : List (String × Json)) : Json → Prop
  | object {fields : List (String × Json)} (hkeys : (fields.map Prod.fst).Nodup)
    (hown : own ⊆ fields) : IsRecord own (.object fields)
  | array : IsRecord own (.array (own.map Prod.snd))

/-- One slip in the record `own`: a missing key of an object, or an item of an array missing or too many. -/
inductive IsFlawed (own : List (String × Json)) : Json → Prop
  | missingKey {fields : List (String × Json)} {field : String × Json} (hfield : field ∈ own)
    (hkeys : (fields.map Prod.fst).Nodup) (hmissing : field.1 ∉ fields.map Prod.fst)
    (hothers : ∀ other ∈ own, other ≠ field → other ∈ fields) : IsFlawed own (.object fields)
  | missingItem {i : Nat} (hi : i < own.length) :
    IsFlawed own (.array ((own.map Prod.snd).eraseIdx i))
  | extraItem {i : Nat} (hi : i ≤ own.length) (extra : Json) :
    IsFlawed own (.array ((own.map Prod.snd).insertIdx i extra))

theorem lookup_eq_some_of_mem (hkeys : (fields.map Prod.fst).Nodup) (h : (key, value) ∈ fields) :
    fields.lookup key = some value := by
  obtain ⟨before, after, rfl⟩ := List.append_of_mem h
  rw [List.lookup_eq_some_iff]
  refine ⟨before, after, rfl, fun field hfield => bne_iff_ne.2 ?_⟩
  rintro rfl
  rw [List.map_append, List.nodup_append] at hkeys
  exact hkeys.2.2 _ (List.mem_map_of_mem hfield) _ List.mem_cons_self rfl

theorem lookup_eq_none_of_notMem (h : key ∉ fields.map Prod.fst) : fields.lookup key = none := by
  rw [List.lookup_eq_none_iff]
  refine fun field hfield => bne_iff_ne.2 ?_
  rintro rfl
  exact h (List.mem_map_of_mem hfield)

theorem fields?_object_eq_some (h : ∀ field ∈ own, fields.lookup field.1 = some field.2) :
    (object fields).fields? (own.map Prod.fst) = some (own.map Prod.snd) := by
  rw [fields?]
  induction own with
  | nil => rfl
  | cons field own ih =>
    rw [List.forall_mem_cons] at h
    rw [List.map_cons, List.mapM_cons, h.1, ih h.2]
    rfl

theorem fields?_object_eq_none (hkey : key ∈ keys) (h : fields.lookup key = none) :
    (object fields).fields? keys = none := by
  rw [fields?]
  induction keys with
  | nil => cases hkey
  | cons k keys ih =>
    rw [List.mapM_cons]
    obtain rfl | hkey := List.mem_cons.1 hkey
    · rw [h]
      rfl
    · rw [ih hkey]
      cases fields.lookup k <;> rfl

theorem fields?_array_eq_none {items : List Json} (h : items.length ≠ keys.length) :
    (array items).fields? keys = none := by
  rw [fields?, if_neg h]

/-- The fields of a spelling are those of the record. -/
theorem IsRecord.fields?_eq (h : IsRecord own j) :
    j.fields? (own.map Prod.fst) = some (own.map Prod.snd) := by
  cases h with
  | object hkeys hown =>
    exact fields?_object_eq_some fun field hfield => lookup_eq_some_of_mem hkeys (hown hfield)
  | array => simp [fields?]

theorem IsFlawed.fields?_eq_none (h : IsFlawed own j) : j.fields? (own.map Prod.fst) = none := by
  cases h with
  | missingKey hfield hkeys hmissing hothers =>
    exact fields?_object_eq_none (List.mem_map_of_mem hfield) (lookup_eq_none_of_notMem hmissing)
  | missingItem hi =>
    refine fields?_array_eq_none ?_
    rw [List.length_eraseIdx_of_lt (by simpa using hi), List.length_map, List.length_map]
    omega
  | extraItem hi extra =>
    refine fields?_array_eq_none ?_
    rw [List.length_insertIdx_of_le_length (by simpa using hi), List.length_map, List.length_map]
    omega

end Json

open Json (IsRecord IsFlawed)

/-! ## The records of a tree -/

def Literal.jsonFields (lit : Literal) : List (String × Json) := [("value", .string lit.value)]

def Call.jsonFields (name : String) (items : List Json) : List (String × Json) :=
  [("functionName", .string name), ("args", .array items)]

/-- The fields of a variant, with its tag first. -/
def Argument.Kind.jsonFields (kind : Argument.Kind) (own : List (String × Json)) :
    List (String × Json) :=
  ("type", .string kind.tag) :: own

def Program.jsonFields (expression : Json) : List (String × Json) := [("expression", expression)]

/-! ## Spellings -/

mutual

inductive Argument.Spelled : Argument → Json → Prop
  | literal {lit : Literal} {j : Json}
    (h : IsRecord (Argument.Kind.literal.jsonFields lit.jsonFields) j) : Spelled (.literal lit) j
  | call {name : String} {args : List Argument} {items : List Json} {j : Json}
    (hargs : Argument.SpelledList args items)
    (h : IsRecord (Argument.Kind.call.jsonFields (Call.jsonFields name items)) j) :
    Spelled (.call ⟨name, args⟩) j

inductive Argument.SpelledList : List Argument → List Json → Prop
  | nil : SpelledList [] []
  | cons {arg : Argument} {args : List Argument} {item : Json} {items : List Json}
    (harg : Argument.Spelled arg item) (hargs : Argument.SpelledList args items) :
    SpelledList (arg :: args) (item :: items)

end

mutual

/-- One record of the argument is flawed: its own, or one inside it. -/
inductive Argument.Misspelled : Argument → Json → Prop
  | literal {lit : Literal} {j : Json}
    (h : IsFlawed (Argument.Kind.literal.jsonFields lit.jsonFields) j) : Misspelled (.literal lit) j
  | call {name : String} {args : List Argument} {items : List Json} {j : Json}
    (hargs : Argument.SpelledList args items)
    (h : IsFlawed (Argument.Kind.call.jsonFields (Call.jsonFields name items)) j) :
    Misspelled (.call ⟨name, args⟩) j
  | inside {name : String} {args : List Argument} {items : List Json} {j : Json}
    (hargs : Argument.MisspelledList args items)
    (h : IsRecord (Argument.Kind.call.jsonFields (Call.jsonFields name items)) j) :
    Misspelled (.call ⟨name, args⟩) j

inductive Argument.MisspelledList : List Argument → List Json → Prop
  | here {arg : Argument} {args : List Argument} {item : Json} {items : List Json}
    (harg : Argument.Misspelled arg item) (hargs : Argument.SpelledList args items) :
    MisspelledList (arg :: args) (item :: items)
  | later {arg : Argument} {args : List Argument} {item : Json} {items : List Json}
    (harg : Argument.Spelled arg item) (hargs : Argument.MisspelledList args items) :
    MisspelledList (arg :: args) (item :: items)

end

def Literal.Spelled (lit : Literal) (j : Json) : Prop := IsRecord lit.jsonFields j

def Literal.Misspelled (lit : Literal) (j : Json) : Prop := IsFlawed lit.jsonFields j

inductive Call.Spelled : Call → Json → Prop
  | mk {name : String} {args : List Argument} {items : List Json} {j : Json}
    (hargs : Argument.SpelledList args items) (h : IsRecord (Call.jsonFields name items) j) :
    Spelled ⟨name, args⟩ j

inductive Call.Misspelled : Call → Json → Prop
  | here {name : String} {args : List Argument} {items : List Json} {j : Json}
    (hargs : Argument.SpelledList args items) (h : IsFlawed (Call.jsonFields name items) j) :
    Misspelled ⟨name, args⟩ j
  | inside {name : String} {args : List Argument} {items : List Json} {j : Json}
    (hargs : Argument.MisspelledList args items) (h : IsRecord (Call.jsonFields name items) j) :
    Misspelled ⟨name, args⟩ j

inductive Program.Spelled : Program → Json → Prop
  | mk {c : Call} {expression j : Json} (hc : c.Spelled expression)
    (h : IsRecord (Program.jsonFields expression) j) : Spelled ⟨c⟩ j

inductive Program.Misspelled : Program → Json → Prop
  | here {c : Call} {expression j : Json} (hc : c.Spelled expression)
    (h : IsFlawed (Program.jsonFields expression) j) : Misspelled ⟨c⟩ j
  | inside {c : Call} {expression j : Json} (hc : c.Misspelled expression)
    (h : IsRecord (Program.jsonFields expression) j) : Misspelled ⟨c⟩ j

/-! ## Arguments -/

namespace Argument

theorem ofJsonAt?_of_isRecord_literal {lit : Literal} {j : Json} (place : Place)
    (h : IsRecord (Kind.literal.jsonFields lit.jsonFields) j) :
    Argument.ofJsonAt? place j = some (.literal lit) := by
  cases h with
  | @object fields hkeys hown =>
    have htype : fields.lookup "type" = some (.string Kind.literal.tag) :=
      Json.lookup_eq_some_of_mem hkeys (hown (by simp [Kind.jsonFields]))
    have hvalue : fields.lookup "value" = some (.string lit.value) :=
      Json.lookup_eq_some_of_mem hkeys (hown (by simp [Kind.jsonFields, Literal.jsonFields]))
    simp [Argument.ofJsonAt?, htype, hvalue, Kind.ofJson?_tag, Json.string?]
  | array =>
    simp [Kind.jsonFields, Literal.jsonFields, Argument.ofJsonAt?, Kind.ofJson?_tag, Json.string?]

theorem ofJsonAt?_of_isRecord_call {name : String} {items : List Json} {j : Json} (place : Place)
    (h : IsRecord (Kind.call.jsonFields (Call.jsonFields name items)) j) :
    Argument.ofJsonAt? place j =
      (items.mapM (Argument.ofJsonAt? .nested)).map fun args => .call ⟨name, args⟩ := by
  rw [← Argument.listOfJson?_array]
  cases h with
  | @object fields hkeys hown =>
    have htype : fields.lookup "type" = some (.string Kind.call.tag) :=
      Json.lookup_eq_some_of_mem hkeys (hown (by simp [Kind.jsonFields]))
    have hname : fields.lookup "functionName" = some (.string name) :=
      Json.lookup_eq_some_of_mem hkeys (hown (by simp [Kind.jsonFields, Call.jsonFields]))
    have hargs : fields.lookup "args" = some (.array items) :=
      Json.lookup_eq_some_of_mem hkeys (hown (by simp [Kind.jsonFields, Call.jsonFields]))
    cases hlist : Argument.listOfJson? .nested (.array items) <;>
      simp [Argument.ofJsonAt?, htype, hname, hargs, Kind.ofJson?_tag, Json.string?,
        Argument.listOfFields?_eq, hlist]
  | array =>
    cases hlist : Argument.listOfJson? .nested (.array items) <;>
      simp [Kind.jsonFields, Call.jsonFields, Argument.ofJsonAt?, Kind.ofJson?_tag, Json.string?,
        hlist]

/-- A flawed literal is not read as a call: no array is in the place of the arguments. -/
theorem ofJsonAt?_of_isFlawed_literal {lit : Literal} {j : Json} (place : Place)
    (h : IsFlawed (Kind.literal.jsonFields lit.jsonFields) j) :
    Argument.ofJsonAt? place j = none := by
  cases h with
  | @missingKey fields field hfield hkeys hmissing hothers =>
    have hlookup := Json.lookup_eq_none_of_notMem hmissing
    simp only [Kind.jsonFields, Literal.jsonFields, List.mem_cons, List.not_mem_nil, or_false]
      at hfield hothers
    obtain rfl | rfl := hfield
    · simp [Argument.ofJsonAt?, hlookup]
    · have htype : fields.lookup "type" = some (.string Kind.literal.tag) :=
        Json.lookup_eq_some_of_mem hkeys (hothers _ (.inl rfl) (by simp))
      simp [Argument.ofJsonAt?, htype, Kind.ofJson?_tag, hlookup]
  | @missingItem i hi =>
    replace hi : i < 2 := hi
    obtain rfl | rfl : i = 0 ∨ i = 1 := by omega
    · rfl
    · rfl
  | @extraItem i hi extra =>
    replace hi : i ≤ 2 := hi
    obtain rfl | rfl | rfl : i = 0 ∨ i = 1 ∨ i = 2 := by omega
    · -- the extra item may be the tag of a call, and then the value stands for the arguments
      change Argument.ofJsonAt? place
        (.array [extra, .string Kind.literal.tag, .string lit.value]) = none
      cases hkind : Kind.ofJson? place extra with
      | none => simp [Argument.ofJsonAt?, hkind]
      | some kind => cases kind <;> simp [Argument.ofJsonAt?, hkind, Argument.listOfJson?]
    · simp [Kind.jsonFields, Literal.jsonFields, Argument.ofJsonAt?, Kind.ofJson?_tag]
    · simp [Kind.jsonFields, Literal.jsonFields, Argument.ofJsonAt?, Kind.ofJson?_tag]

/-- A flawed call is not read as a literal: no string is in the place of the value. -/
theorem ofJsonAt?_of_isFlawed_call {name : String} {items : List Json} {j : Json} (place : Place)
    (h : IsFlawed (Kind.call.jsonFields (Call.jsonFields name items)) j) :
    Argument.ofJsonAt? place j = none := by
  cases h with
  | @missingKey fields field hfield hkeys hmissing hothers =>
    have hlookup := Json.lookup_eq_none_of_notMem hmissing
    simp only [Kind.jsonFields, Call.jsonFields, List.mem_cons, List.not_mem_nil, or_false]
      at hfield hothers
    have htype (hne : ("type", Json.string Kind.call.tag) ≠ field) :
        fields.lookup "type" = some (.string Kind.call.tag) :=
      Json.lookup_eq_some_of_mem hkeys (hothers _ (.inl rfl) hne)
    obtain rfl | rfl | rfl := hfield
    · simp [Argument.ofJsonAt?, hlookup]
    · simp [Argument.ofJsonAt?, htype, Kind.ofJson?_tag, hlookup]
    · simp [Argument.ofJsonAt?, htype, Kind.ofJson?_tag, Argument.listOfFields?_eq, hlookup]
  | @missingItem i hi =>
    replace hi : i < 3 := hi
    obtain rfl | rfl | rfl : i = 0 ∨ i = 1 ∨ i = 2 := by omega
    · -- the name may be the tag of a literal, and then the arguments stand for its value
      change Argument.ofJsonAt? place (.array [.string name, .array items]) = none
      cases hkind : Kind.ofJson? place (.string name) with
      | none => simp [Argument.ofJsonAt?, hkind]
      | some kind => cases kind <;> simp [Argument.ofJsonAt?, hkind, Json.string?]
    · simp [Kind.jsonFields, Call.jsonFields, Argument.ofJsonAt?, Kind.ofJson?_tag]
    · simp [Kind.jsonFields, Call.jsonFields, Argument.ofJsonAt?, Kind.ofJson?_tag]
  | @extraItem i hi extra =>
    -- no argument is an array of four items, wherever the fourth was put in
    replace hi : i ≤ 3 := hi
    obtain rfl | rfl | rfl | rfl : i = 0 ∨ i = 1 ∨ i = 2 ∨ i = 3 := by omega
    all_goals rfl

mutual

/-- Soundness, by recursion on the spelling. -/
theorem Spelled.ofJsonAt?_eq (place : Place) {arg : Argument} {j : Json} :
    Argument.Spelled arg j → Argument.ofJsonAt? place j = some arg
  | .literal h => ofJsonAt?_of_isRecord_literal place h
  | .call hargs h => by
    rw [ofJsonAt?_of_isRecord_call place h, hargs.mapM_eq .nested, Option.map_some]

theorem SpelledList.mapM_eq (place : Place) {args : List Argument} {items : List Json} :
    Argument.SpelledList args items → items.mapM (Argument.ofJsonAt? place) = some args
  | .nil => rfl
  | .cons harg hargs => by
    rw [List.mapM_cons, harg.ofJsonAt?_eq place, hargs.mapM_eq place]
    rfl

end

mutual

/-- A slip at any depth is an error of the whole. -/
theorem Misspelled.ofJsonAt?_eq_none (place : Place) {arg : Argument} {j : Json} :
    Argument.Misspelled arg j → Argument.ofJsonAt? place j = none
  | .literal h => ofJsonAt?_of_isFlawed_literal place h
  | .call _ h => ofJsonAt?_of_isFlawed_call place h
  | .inside hargs h => by
    rw [ofJsonAt?_of_isRecord_call place h, hargs.mapM_eq_none .nested, Option.map_none]

theorem MisspelledList.mapM_eq_none (place : Place) {args : List Argument} {items : List Json} :
    Argument.MisspelledList args items → items.mapM (Argument.ofJsonAt? place) = none
  | .here harg _ => by
    rw [List.mapM_cons, harg.ofJsonAt?_eq_none place]
    rfl
  | .later harg hargs => by
    rw [List.mapM_cons, harg.ofJsonAt?_eq place, hargs.mapM_eq_none place]
    rfl

end

end Argument

/-! ## Literals, calls and programs -/

theorem Literal.Spelled.ofJson?_eq {lit : Literal} {j : Json} (h : lit.Spelled j) :
    Literal.ofJson? j = some lit := by
  have hfields : j.fields? ["value"] = some [.string lit.value] := IsRecord.fields?_eq h
  rw [Literal.ofJson?, hfields]
  rfl

theorem Literal.Misspelled.ofJson?_eq_none {lit : Literal} {j : Json} (h : lit.Misspelled j) :
    Literal.ofJson? j = none := by
  have hfields : j.fields? ["value"] = none := IsFlawed.fields?_eq_none h
  rw [Literal.ofJson?, hfields]

theorem Call.ofJson?_of_isRecord {name : String} {items : List Json} {j : Json}
    (h : IsRecord (Call.jsonFields name items) j) :
    Call.ofJson? j = (items.mapM (Argument.ofJsonAt? .outermost)).map (Call.mk name) := by
  have hfields : j.fields? ["functionName", "args"] = some [.string name, .array items] :=
    h.fields?_eq
  rw [Call.ofJson?, hfields]
  cases hargs : items.mapM (Argument.ofJsonAt? .outermost) <;>
    simp [Json.string?, Argument.listOfJson?_array, hargs]

theorem Call.Spelled.ofJson?_eq {c : Call} {j : Json} : c.Spelled j → Call.ofJson? j = some c
  | .mk hargs h => by
    rw [Call.ofJson?_of_isRecord h, hargs.mapM_eq .outermost, Option.map_some]

theorem Call.Misspelled.ofJson?_eq_none {c : Call} {j : Json} :
    c.Misspelled j → Call.ofJson? j = none
  | .here _ h => by
    have hfields : j.fields? ["functionName", "args"] = none := h.fields?_eq_none
    rw [Call.ofJson?, hfields]
  | .inside hargs h => by
    rw [Call.ofJson?_of_isRecord h, hargs.mapM_eq_none .outermost, Option.map_none]

theorem Program.ofJson?_of_isRecord {expression j : Json}
    (h : IsRecord (Program.jsonFields expression) j) :
    Program.ofJson? j = (Call.ofJson? expression).map Program.mk := by
  have hfields : j.fields? ["expression"] = some [expression] := h.fields?_eq
  rw [Program.ofJson?, hfields]

theorem Program.Spelled.ofJson?_eq {p : Program} {j : Json} :
    p.Spelled j → Program.ofJson? j = some p
  | .mk hc h => by rw [Program.ofJson?_of_isRecord h, hc.ofJson?_eq, Option.map_some]

theorem Program.Misspelled.ofJson?_eq_none {p : Program} {j : Json} :
    p.Misspelled j → Program.ofJson? j = none
  | .here _ h => by
    have hfields : j.fields? ["expression"] = none := h.fields?_eq_none
    rw [Program.ofJson?, hfields]
  | .inside hc h => by rw [Program.ofJson?_of_isRecord h, hc.ofJson?_eq_none, Option.map_none]

/-! ## The JSON that is written -/

theorem Json.IsRecord.of_nodup {own : List (String × Json)} (h : (own.map Prod.fst).Nodup) :
    IsRecord own (.object own) :=
  .object h (List.Subset.refl own)

mutual

theorem Argument.spelled_toJson : ∀ arg : Argument, arg.Spelled arg.toJson
  | .literal lit => by
    rw [Argument.toJson]
    exact .literal (.of_nodup (by simp [Argument.Kind.jsonFields, Literal.jsonFields]))
  | .call ⟨name, args⟩ => by
    rw [Argument.toJson]
    exact .call (Argument.spelledList_toJsonList args)
      (.of_nodup (by simp [Argument.Kind.jsonFields, Call.jsonFields]))

theorem Argument.spelledList_toJsonList :
    ∀ args : List Argument, Argument.SpelledList args (Argument.toJsonList [] args)
  | [] => .nil
  | arg :: args => by
    have hargs := Argument.spelledList_toJsonList args
    rw [Argument.toJsonList_eq] at hargs ⊢
    exact .cons (Argument.spelled_toJson arg) hargs

end

theorem Literal.spelled_toJson (lit : Literal) : lit.Spelled lit.toJson :=
  .of_nodup (by simp [Literal.jsonFields])

theorem Call.spelled_toJson : ∀ c : Call, c.Spelled c.toJson
  | ⟨name, args⟩ => by
    rw [Call.toJson]
    exact .mk (Argument.spelledList_toJsonList args) (.of_nodup (by simp [Call.jsonFields]))

theorem Program.spelled_toJson (p : Program) : p.Spelled p.toJson :=
  .mk p.expression.spelled_toJson (.of_nodup (by simp [Program.jsonFields]))

/-- **Every JSON value of a tree is read as that tree,** and writing it again gives the JSON of the tree.
With one flaw, in any of its records, it is rejected. -/
theorem Json.reads_every_spelling :
    (∀ (p : Program) (j : Json), p.Spelled j →
        Program.ofJson? j = some p ∧ (Program.ofJson? j).map Program.toJson = some p.toJson) ∧
      (∀ (c : Call) (j : Json), c.Spelled j →
        Call.ofJson? j = some c ∧ (Call.ofJson? j).map Call.toJson = some c.toJson) ∧
      (∀ (arg : Argument) (j : Json), arg.Spelled j →
        Argument.ofJson? j = some arg ∧
          (Argument.ofJson? j).map Argument.toJson = some arg.toJson) ∧
      (∀ (lit : Literal) (j : Json), lit.Spelled j →
        Literal.ofJson? j = some lit ∧ (Literal.ofJson? j).map Literal.toJson = some lit.toJson) ∧
      (∀ (p : Program) (j : Json), p.Misspelled j → Program.ofJson? j = none) ∧
      (∀ (c : Call) (j : Json), c.Misspelled j → Call.ofJson? j = none) ∧
      (∀ (arg : Argument) (j : Json), arg.Misspelled j → Argument.ofJson? j = none) ∧
      ∀ (lit : Literal) (j : Json), lit.Misspelled j → Literal.ofJson? j = none := by
  have rewritten {α : Type} {read : Option α} {x : α} (write : α → Json) (h : read = some x) :
      read = some x ∧ read.map write = some (write x) := ⟨h, by rw [h, Option.map_some]⟩
  refine ⟨fun p j h => rewritten Program.toJson h.ofJson?_eq,
    fun c j h => rewritten Call.toJson h.ofJson?_eq,
    fun arg j h => rewritten Argument.toJson (h.ofJsonAt?_eq .outermost),
    fun lit j h => rewritten Literal.toJson h.ofJson?_eq, fun p j h => h.ofJson?_eq_none,
    fun c j h => h.ofJson?_eq_none, fun arg j h => h.ofJsonAt?_eq_none .outermost,
    fun lit j h => h.ofJson?_eq_none⟩

theorem Json.reads_mixed_spellings :
    Program.ofJson? (.array [.object
        [("args", .array [.array [.string "StringLiteral", .string "a"]]), ("type", .nat 1),
          ("functionName", .string "f")]]) = some ⟨⟨"f", [.literal ⟨"a"⟩]⟩⟩ ∧
      Call.ofJson? (.object
        [("args", .array [.array [.string "StringLiteral", .string "a"]]), ("type", .nat 1),
          ("functionName", .string "f")]) = some ⟨"f", [.literal ⟨"a"⟩]⟩ ∧
      Argument.ofJson? (.object [("value", .null), ("args", .array []),
        ("functionName", .string "g"), ("type", .string "CallExpression")]) =
          some (.call ⟨"g", []⟩) ∧
      Literal.ofJson? (.array [.string "a"]) = some ⟨"a"⟩ ∧
      Program.ofJson? (.array [.array [.string "f", .array [.array [.string "StringLiteral"]]]]) =
        none ∧
      Call.ofJson? (.array [.string "f"]) = none ∧
      Argument.ofJson? (.array [.string "StringLiteral", .null, .string "a"]) = none ∧
      Literal.ofJson? (.object [("Value", .string "a")]) = none := by
  have hlist : Argument.SpelledList [.literal ⟨"a"⟩]
      [.array [.string "StringLiteral", .string "a"]] := .cons (.literal .array) .nil
  have hcall : Call.Spelled ⟨"f", [.literal ⟨"a"⟩]⟩ (.object
      [("args", .array [.array [.string "StringLiteral", .string "a"]]), ("type", .nat 1),
        ("functionName", .string "f")]) :=
    .mk hlist (.object (by simp) (by simp [Call.jsonFields]))
  have harg : Argument.Spelled (.call ⟨"g", []⟩) (.object [("value", .null), ("args", .array []),
      ("functionName", .string "g"), ("type", .string "CallExpression")]) :=
    .call .nil (.object (by simp)
      (by simp [Argument.Kind.jsonFields, Call.jsonFields, Argument.Kind.tag]))
  have hinside : Call.Misspelled ⟨"f", [.literal ⟨"a"⟩]⟩
      (.array [.string "f", .array [.array [.string "StringLiteral"]]]) :=
    .inside (.here (.literal (.missingItem (i := 1) (by decide))) .nil) .array
  obtain ⟨hprogram, hcalls, hargs, hliterals, hprogram', hcalls', hargs', hliterals'⟩ :=
    Json.reads_every_spelling
  refine ⟨(hprogram _ _ (.mk hcall .array)).1, (hcalls _ _ hcall).1, (hargs _ _ harg).1,
    (hliterals ⟨"a"⟩ _ .array).1, hprogram' _ _ (.inside hinside .array), ?_, ?_, ?_⟩
  · exact hcalls' ⟨"f", []⟩ _ (.here .nil (.missingItem (i := 1) (by decide)))
  · exact hargs' (.literal ⟨"a"⟩) _ (.literal (.extraItem (i := 1) (by decide) .null))
  · exact hliterals' ⟨"a"⟩ _ (.missingKey List.mem_cons_self (by simp) (by simp)
      (by simp [Literal.jsonFields]))

end FilterLang
