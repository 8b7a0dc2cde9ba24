import FilterLang.Limits

/-!
# JSON values and their compact text

* `Json` : a value, with the fields of an object in the order given;
* `Json.string?`, `Json.count?`, `Json.fields?` : a string, a count, the fields of a record;
* `Json.compact` : a value as text without blanks, by `writeOnto`, which appends to a text (`compact_string`,
  `compact_array`, `compact_object`, `quote_eq`).
-/

namespace FilterLang

inductive Json
  | null
  | bool (value : Bool)
  /-- A number spelled with decimal digits only. -/
  | nat (value : Nat)
  /-- Any other number, by its spelling. -/
  | numeral (spelling : String)
  | string (value : String)
  | array (items : List Json)
  | object (fields : List (String × Json))

namespace Json

def string? : Json → Option String
  | string value => some value
  | _ => none

/-- A natural number below `countBound`. -/
def count? : Json → Option Nat
  | nat value => if value < countBound then some value else none
  | _ => none

/-- The values under `keys`, in the order of `keys`: of an object, which may have further keys, or of an array of
exactly that many items. -/
def fields? (keys : List String) : Json → Option (List Json)
  | object fields => keys.mapM fun key => fields.lookup key
  | array items => if items.length = keys.length then some items else none
  | _ => none

/-- A character inside quotes. Control characters without an escape letter are written as `\u00XX`. -/
def escape (c : Char) : String :=
  if c = '"' then "\\\""
  else if c = '\\' then "\\\\"
  else if c = '\x08' then "\\b"
  else if c = '\t' then "\\t"
  else if c = '\n' then "\\n"
  else if c = '\x0c' then "\\f"
  else if c = '\r' then "\\r"
  else if c.toNat < 0x20 then
    (("\\u00".push (c.toNat / 16).digitChar).push (c.toNat % 16).digitChar)
  else c.toString

/-- `out` followed by `s` in quotes. -/
def quoteOnto (out : String) (s : String) : String :=
  (s.toList.foldl (fun out c => out ++ escape c) (out.push '"')).push '"'

mutual

/-- `out` followed by the compact text of the value. -/
def writeOnto (out : String) : Json → String
  | null => out ++ "null"
  | bool value => out ++ if value then "true" else "false"
  | nat value => out ++ value.repr
  | numeral spelling => out ++ spelling
  | string value => quoteOnto out value
  | array [] => out ++ "[]"
  | array (item :: items) => (writeItemsOnto (writeOnto (out.push '[') item) items).push ']'
  | object [] => (out.push '\x7b').push '\x7d'
  | object ((key, value) :: fields) =>
    (writeFieldsOnto (writeOnto ((quoteOnto (out.push '\x7b') key).push ':') value) fields).push
      '\x7d'

def writeItemsOnto (out : String) : List Json → String
  | [] => out
  | item :: items => writeItemsOnto (writeOnto (out.push ',') item) items

def writeFieldsOnto (out : String) : List (String × Json) → String
  | [] => out
  | (key, value) :: fields =>
    writeFieldsOnto (writeOnto ((quoteOnto (out.push ',') key).push ':') value) fields

end

def quote (s : String) : String := quoteOnto "" s

def compact (value : Json) : String := writeOnto "" value

/-! ## Writing onto a text appends -/

theorem foldl_escape (out : String) (cs : List Char) :
    cs.foldl (fun out c => out ++ escape c) out = out ++ String.join (cs.map escape) := by
  induction cs generalizing out with
  | nil => simp
  | cons c cs ih => simp [ih, String.append_assoc]

theorem quoteOnto_append (out s t : String) : quoteOnto (out ++ s) t = out ++ quoteOnto s t := by
  simp [quoteOnto, foldl_escape, String.push_eq_append, String.append_assoc]

theorem quote_eq (s : String) : quote s = "\"" ++ String.join (s.toList.map escape) ++ "\"" := by
  simp [quote, quoteOnto, foldl_escape, String.push_eq_append]

mutual

theorem writeOnto_append (out s : String) :
    ∀ value : Json, writeOnto (out ++ s) value = out ++ writeOnto s value
  | null | bool _ | nat _ | numeral _ | array [] | object [] => by
    simp [writeOnto, String.push_eq_append, String.append_assoc]
  | string _ => by simp [writeOnto, quoteOnto_append]
  | array (item :: items) => by
    simp only [writeOnto, String.push_eq_append, String.append_assoc,
      writeOnto_append out _ item, writeItemsOnto_append out _ items]
  | object ((key, value) :: fields) => by
    simp only [writeOnto, String.push_eq_append, String.append_assoc, quoteOnto_append,
      writeOnto_append out _ value, writeFieldsOnto_append out _ fields]

theorem writeItemsOnto_append (out s : String) :
    ∀ items : List Json, writeItemsOnto (out ++ s) items = out ++ writeItemsOnto s items
  | [] => rfl
  | item :: items => by
    simp only [writeItemsOnto, String.push_eq_append, String.append_assoc,
      writeOnto_append out _ item, writeItemsOnto_append out _ items]

theorem writeFieldsOnto_append (out s : String) :
    ∀ fields : List (String × Json),
      writeFieldsOnto (out ++ s) fields = out ++ writeFieldsOnto s fields
  | [] => rfl
  | (key, value) :: fields => by
    simp only [writeFieldsOnto, String.push_eq_append, String.append_assoc, quoteOnto_append,
      writeOnto_append out _ value, writeFieldsOnto_append out _ fields]

end

theorem quoteOnto_eq (out s : String) : quoteOnto out s = out ++ quote s := by
  simpa [quote] using quoteOnto_append out "" s

theorem writeOnto_eq (out : String) (value : Json) :
    writeOnto out value = out ++ compact value := by
  simpa [compact] using writeOnto_append out "" value

theorem writeItemsOnto_eq (first : String) (items : List Json) :
    writeItemsOnto first items = ",".intercalate (first :: items.map compact) := by
  induction items generalizing first with
  | nil => simp [writeItemsOnto]
  | cons item items ih =>
    rw [writeItemsOnto, writeOnto_eq, ih]
    simp [String.push_eq_append, String.append_assoc]

def compactField (field : String × Json) : String := quote field.1 ++ ":" ++ compact field.2

theorem writeFieldsOnto_eq (first : String) (fields : List (String × Json)) :
    writeFieldsOnto first fields = ",".intercalate (first :: fields.map compactField) := by
  induction fields generalizing first with
  | nil => simp [writeFieldsOnto]
  | cons field fields ih =>
    rw [writeFieldsOnto, quoteOnto_eq, writeOnto_eq, ih]
    simp [compactField, String.push_eq_append, String.append_assoc]

/-! ## The text of a value -/

theorem compact_string (s : String) : compact (string s) = quote s := by
  simp [compact, writeOnto, quoteOnto_eq]

theorem compact_array (items : List Json) :
    compact (array items) = "[" ++ ",".intercalate (items.map compact) ++ "]" := by
  cases items with
  | nil => simp [compact, writeOnto]
  | cons item items =>
    rw [compact, writeOnto, writeItemsOnto_eq, writeOnto_eq]
    simp [String.push_eq_append]

theorem compact_object (fields : List (String × Json)) :
    compact (object fields) = "\x7b" ++ ",".intercalate (fields.map compactField) ++ "\x7d" := by
  cases fields with
  | nil => simp [compact, writeOnto, String.push_eq_append]
  | cons field fields =>
    obtain ⟨key, value⟩ := field
    rw [compact, writeOnto, writeFieldsOnto_eq, writeOnto_eq, quoteOnto_eq]
    simp [compactField, String.push_eq_append, String.append_assoc]

end Json

end FilterLang
