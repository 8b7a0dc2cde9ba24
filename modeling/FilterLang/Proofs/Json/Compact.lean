import FilterLang.Json.Compact
import FilterLang.Proofs.Json.RoundTrip
import FilterLang.Proofs.Token.Segmentation

/-!
# The compact text is injective

* `Json.unescape?_escape`, `Json.quote_append_inj` : `escape` and `quote` have left inverses on prefixes;
* `Json.IsPlain` : values without `numeral`;
* `Json.IsPlain.chars_eq_cons` : the first character of a plain value determines its constructor;
* `Json.SelfDelimiting text among x` : `text x` followed by no digit is not a prefix of another text, so
  that both `x` and its end can be recovered (`Json.IsPlain.selfDelimiting`: by induction on the value);
* `Json.compact_injective` : trees and tokens with the same compact text are equal.
-/

namespace FilterLang.Json

/-! ## Escapes -/

/-- The value of a hexadecimal digit in lower case. -/
def hexValue (c : Char) : Nat := if c.isDigit then c.toNat - '0'.toNat else c.toNat - 'a'.toNat + 10

def escaped (c : Char) : Char :=
  if c = 'b' then '\x08'
  else if c = 't' then '\t'
  else if c = 'n' then '\n'
  else if c = 'f' then '\x0c'
  else if c = 'r' then '\r'
  else c

/-- The character at the head of a quoted text, with the rest: the inverse of `escape`. -/
def unescape? : List Char → Option (Char × List Char)
  | '\\' :: 'u' :: '0' :: '0' :: high :: low :: cs =>
    some (Char.ofNat (16 * hexValue high + hexValue low), cs)
  | '\\' :: c :: cs => some (escaped c, cs)
  | c :: cs => some (c, cs)
  | [] => none

theorem hexValue_digitChar {n : Nat} (h : n < 16) : hexValue n.digitChar = n := by
  revert n
  decide

/-- Decoding after encoding, with anything behind. -/
theorem unescape?_escape (c : Char) (cs : List Char) :
    unescape? ((escape c).toList ++ cs) = some (c, cs) := by
  unfold escape
  split_ifs with hquote hback hb ht hn hf hr hcontrol
  · subst hquote; rfl
  · subst hback; rfl
  · subst hb; rfl
  · subst ht; rfl
  · subst hn; rfl
  · subst hf; rfl
  · subst hr; rfl
  · have hhigh : hexValue (c.toNat / 16).digitChar = c.toNat / 16 := hexValue_digitChar (by omega)
    have hlow : hexValue (c.toNat % 16).digitChar = c.toNat % 16 := hexValue_digitChar (by omega)
    have hsum : 16 * (c.toNat / 16) + c.toNat % 16 = c.toNat := Nat.div_add_mod _ _
    have hchars (high low : Char) : (("\\u00".push high).push low).toList ++ cs =
        '\\' :: 'u' :: '0' :: '0' :: high :: low :: cs := by simp
    rw [hchars, unescape?, hhigh, hlow, hsum, Char.ofNat_toNat]
  · simp [unescape?, hback]

/-- Escapes form a prefix code. -/
theorem escape_append_inj {c d : Char} {r s : List Char}
    (h : (escape c).toList ++ r = (escape d).toList ++ s) : c = d ∧ r = s := by
  have hread := congrArg unescape? h
  rw [unescape?_escape, unescape?_escape] at hread
  exact Prod.mk.inj (Option.some.inj hread)

theorem escape_append_ne_quote (c : Char) (r s : List Char) :
    (escape c).toList ++ r ≠ '"' :: s := by
  intro h
  -- Both would be read as a double quote, and that one is escaped.
  have hread := congrArg unescape? h
  rw [unescape?_escape] at hread
  obtain ⟨rfl, -⟩ := Prod.mk.inj (Option.some.inj hread)
  cases h

/-! ## Quoted texts -/

def escapeAll (cs : List Char) : List Char := cs.flatMap fun c => (escape c).toList

theorem toList_quote (s : String) : (quote s).toList = '"' :: (escapeAll s.toList ++ ['"']) := by
  rw [quote_eq]
  simp [escapeAll, String.toList_join, List.flatMap_map]

theorem escapeAll_append_inj {cs ds r s : List Char}
    (h : escapeAll cs ++ '"' :: r = escapeAll ds ++ '"' :: s) : cs = ds ∧ r = s := by
  induction cs generalizing ds with
  | nil =>
    cases ds with
    | nil => exact ⟨rfl, (List.cons.inj h).2⟩
    | cons d ds =>
      rw [escapeAll, escapeAll, List.flatMap_cons, List.append_assoc] at h
      exact absurd h.symm (escape_append_ne_quote d _ _)
  | cons c cs ih =>
    cases ds with
    | nil =>
      rw [escapeAll, escapeAll, List.flatMap_cons, List.append_assoc] at h
      exact absurd h (escape_append_ne_quote c _ _)
    | cons d ds =>
      simp only [escapeAll, List.flatMap_cons, List.append_assoc] at h
      obtain ⟨rfl, hmore⟩ := escape_append_inj h
      obtain ⟨rfl, hrest⟩ := ih hmore
      exact ⟨rfl, hrest⟩

/-- Quoted texts form a prefix code. -/
theorem quote_append_inj {s t : String} {r u : List Char}
    (h : (quote s).toList ++ r = (quote t).toList ++ u) : s = t ∧ r = u := by
  simp only [toList_quote, List.cons_append, List.append_assoc, List.nil_append, List.cons.injEq,
    true_and] at h
  obtain ⟨hchars, hrest⟩ := escapeAll_append_inj h
  exact ⟨String.toList_injective hchars, hrest⟩

/-! ## Values as characters -/

def chars (v : Json) : List Char := v.compact.toList

def fieldChars (field : String × Json) : List Char :=
  (quote field.1).toList ++ ':' :: field.2.chars

/-- The elements after the first, each after a comma. -/
def moreParts {α : Type} (text : α → List Char) (xs : List α) : List Char :=
  xs.flatMap fun x => ',' :: text x

def joinParts {α : Type} (text : α → List Char) : List α → List Char
  | [] => []
  | x :: xs => text x ++ moreParts text xs

theorem toList_intercalate {α : Type} (text : α → String) (xs : List α) :
    (",".intercalate (xs.map text)).toList = joinParts (fun x => (text x).toList) xs := by
  cases xs with
  | nil => rfl
  | cons x xs =>
    induction xs generalizing x with
    | nil => simp [joinParts, moreParts]
    | cons y ys ih =>
      rw [List.map_cons, List.map_cons, String.intercalate_cons_cons, String.toList_append,
        ← List.map_cons, ih y]
      simp [joinParts, moreParts]

theorem chars_nat (n : Nat) : (nat n).chars = Nat.toDigits 10 n := by
  simp [chars, compact, writeOnto, Nat.repr]

theorem chars_string (s : String) : (string s).chars = (quote s).toList := by
  rw [chars, compact_string]

theorem chars_array (items : List Json) :
    (array items).chars = '[' :: (joinParts chars items ++ [']']) := by
  rw [chars, compact_array, String.toList_append, String.toList_append, toList_intercalate]
  rfl

theorem chars_object (fields : List (String × Json)) :
    (object fields).chars = '\x7b' :: (joinParts fieldChars fields ++ ['\x7d']) := by
  have hfield : (fun field => (compactField field).toList) = fieldChars := by
    funext field
    simp [compactField, fieldChars, chars]
  rw [chars, compact_object, String.toList_append, String.toList_append, toList_intercalate, hfield]
  rfl

/-! ## The first character -/

/-- The constructors of `Json`, both kinds of numbers as one. -/
inductive Shape
  | null
  | bool
  | number
  | string
  | array
  | object

def shape : Json → Shape
  | null => .null
  | bool _ => .bool
  | nat _ | numeral _ => .number
  | string _ => .string
  | array _ => .array
  | object _ => .object

def Shape.ofFirst? (c : Char) : Option Shape :=
  if c = 'n' then some null
  else if c = 't' ∨ c = 'f' then some bool
  else if c.isDigit then some number
  else if c = '"' then some string
  else if c = '[' then some array
  else if c = '\x7b' then some object
  else none

/-- No `numeral` occurs in the value. -/
inductive IsPlain : Json → Prop
  | null : IsPlain null
  | bool (value : Bool) : IsPlain (bool value)
  | nat (value : Nat) : IsPlain (nat value)
  | string (value : String) : IsPlain (string value)
  | array {items : List Json} (h : ∀ item ∈ items, IsPlain item) : IsPlain (array items)
  | object {fields : List (String × Json)} (h : ∀ field ∈ fields, IsPlain field.2) :
    IsPlain (object fields)

theorem Shape.ofFirst?_digit {c : Char} (h : c.isDigit = true) : ofFirst? c = some number := by
  have hn : c ≠ 'n' := by rintro rfl; cases h
  have hbool : ¬ (c = 't' ∨ c = 'f') := by rintro (rfl | rfl) <;> cases h
  rw [ofFirst?, if_neg hn, if_neg hbool, if_pos h]

theorem IsPlain.chars_eq_cons {v : Json} (hv : v.IsPlain) :
    ∃ c cs, v.chars = c :: cs ∧ Shape.ofFirst? c = some v.shape := by
  cases hv with
  | null => exact ⟨_, _, rfl, rfl⟩
  | bool value => cases value <;> exact ⟨_, _, rfl, rfl⟩
  | nat n =>
    obtain ⟨c, cs, hchars⟩ := List.exists_cons_of_ne_nil (Nat.toDigits_ne_nil (b := 10) (n := n))
    have hc : c.isDigit = true :=
      Nat.isDigit_of_mem_toDigits (by decide) (by decide) (hchars ▸ List.mem_cons_self)
    exact ⟨c, cs, (chars_nat n).trans hchars, Shape.ofFirst?_digit hc⟩
  | string value => exact ⟨'"', _, (chars_string value).trans (toList_quote value), rfl⟩
  | @array items _ => exact ⟨'[', _, chars_array items, rfl⟩
  | @object fields _ => exact ⟨'\x7b', _, chars_object fields, rfl⟩

/-- The kind of a value is determined by its first character. -/
theorem IsPlain.shape_eq {v w : Json} {r s : List Char} (hv : v.IsPlain) (hw : w.IsPlain)
    (h : v.chars ++ r = w.chars ++ s) : v.shape = w.shape := by
  obtain ⟨c, cs, hc, hcv⟩ := hv.chars_eq_cons
  obtain ⟨d, ds, hd, hdw⟩ := hw.chars_eq_cons
  rw [hc, hd, List.cons_append, List.cons_append, List.cons.injEq] at h
  exact Option.some.inj (hcv.symm.trans (h.1 ▸ hdw))

theorem IsPlain.chars_append_ne {v : Json} {c : Char} (hv : v.IsPlain)
    (hc : Shape.ofFirst? c = none) (r s : List Char) : v.chars ++ r ≠ c :: s := by
  intro h
  obtain ⟨d, ds, hd, hdv⟩ := hv.chars_eq_cons
  rw [hd, List.cons_append, List.cons.injEq] at h
  rw [h.1, hc] at hdv
  cases hdv

/-! ## The end of a value -/

/-- No digit follows, so that a number before `r` ends. -/
def NoDigit (r : List Char) : Prop := ∀ c ∈ r.head?, c.isDigit = false

theorem noDigit_cons {c : Char} {r : List Char} (h : c.isDigit = false) : NoDigit (c :: r) := by
  rintro d ⟨⟩
  exact h

section SelfDelimiting

variable {α : Type} {text : α → List Char} {among : α → Prop} {close : Char}

/-- If `text x` and the text of another element both start a list of characters, with no digit behind
either, the elements and their ends are the same. -/
def SelfDelimiting (text : α → List Char) (among : α → Prop) (x : α) : Prop :=
  ∀ {y : α} {r s : List Char}, among y → NoDigit r → NoDigit s →
    text x ++ r = text y ++ s → x = y ∧ r = s

theorem noDigit_moreParts {r : List Char} (hr : NoDigit r) :
    ∀ xs : List α, NoDigit (moreParts text xs ++ r)
  | [] => hr
  | _ :: _ => noDigit_cons rfl

theorem moreParts_append_inj {xs ys : List α} {r s : List Char} (hclose : close.isDigit = false)
    (hcomma : close ≠ ',') (hxs : ∀ x ∈ xs, SelfDelimiting text among x) (hys : ∀ y ∈ ys, among y)
    (h : moreParts text xs ++ close :: r = moreParts text ys ++ close :: s) : xs = ys ∧ r = s := by
  -- a comma says that there is one more part, and the closing mark that there is none
  induction xs generalizing ys with
  | nil =>
    cases ys with
    | nil => exact ⟨rfl, (List.cons.inj h).2⟩
    | cons y ys => exact absurd (List.cons.inj h).1 hcomma
  | cons x xs ih =>
    cases ys with
    | nil => exact absurd (List.cons.inj h).1.symm hcomma
    | cons y ys =>
      rw [List.forall_mem_cons] at hxs hys
      simp only [moreParts, List.flatMap_cons, List.cons_append, List.append_assoc,
        List.cons.injEq, true_and] at h
      obtain ⟨rfl, hmore⟩ := hxs.1 hys.1 (noDigit_moreParts (noDigit_cons hclose) xs)
        (noDigit_moreParts (noDigit_cons hclose) ys) h
      obtain ⟨rfl, hrest⟩ := ih hxs.2 hys.2 hmore
      exact ⟨rfl, hrest⟩

/-- Lists of self-delimiting parts are self-delimiting up to the closing mark. -/
theorem joinParts_append_inj {xs ys : List α} {r s : List Char} (hclose : close.isDigit = false)
    (hcomma : close ≠ ',') (hstart : ∀ x, among x → ∀ r s, text x ++ r ≠ close :: s)
    (hxs : ∀ x ∈ xs, among x ∧ SelfDelimiting text among x) (hys : ∀ y ∈ ys, among y)
    (h : joinParts text xs ++ close :: r = joinParts text ys ++ close :: s) :
    xs = ys ∧ r = s := by
  cases xs with
  | nil =>
    cases ys with
    | nil => exact ⟨rfl, (List.cons.inj h).2⟩
    | cons y ys =>
      rw [joinParts, joinParts, List.append_assoc] at h
      exact absurd h.symm (hstart y (hys y List.mem_cons_self) _ _)
  | cons x xs =>
    cases ys with
    | nil =>
      rw [joinParts, joinParts, List.append_assoc] at h
      exact absurd h (hstart x (hxs x List.mem_cons_self).1 _ _)
    | cons y ys =>
      rw [List.forall_mem_cons] at hxs hys
      rw [joinParts, joinParts, List.append_assoc, List.append_assoc] at h
      obtain ⟨rfl, hmore⟩ := hxs.1.2 hys.1 (noDigit_moreParts (noDigit_cons hclose) xs)
        (noDigit_moreParts (noDigit_cons hclose) ys) h
      obtain ⟨rfl, hrest⟩ :=
        moreParts_append_inj hclose hcomma (fun x hx => (hxs.2 x hx).2) hys.2 hmore
      exact ⟨rfl, hrest⟩

end SelfDelimiting

/-! ### Value by value -/

theorem selfDelimiting_null : SelfDelimiting chars IsPlain null := by
  intro w r s hw _ _ h
  -- as in the cases below, the first character leaves one constructor for the other side
  have hshape := IsPlain.null.shape_eq hw h
  cases hw with
  | null => exact ⟨rfl, List.append_cancel_left h⟩
  | _ => cases hshape

theorem selfDelimiting_bool (value : Bool) : SelfDelimiting chars IsPlain (bool value) := by
  intro w r s hw _ _ h
  have hshape := (IsPlain.bool value).shape_eq hw h
  cases hw with
  | bool other =>
    -- `true` and `false` differ in their first characters
    obtain rfl : value = other := by cases value <;> cases other <;> first | rfl | cases h
    exact ⟨rfl, List.append_cancel_left h⟩
  | _ => cases hshape

theorem selfDelimiting_nat (n : Nat) : SelfDelimiting chars IsPlain (nat n) := by
  intro w r s hw hr hs h
  have hshape := (IsPlain.nat n).shape_eq hw h
  cases hw with
  | nat m =>
    rw [chars_nat, chars_nat] at h
    have hdigits (k : Nat) : ∀ c ∈ Nat.toDigits 10 k, c.isDigit = true :=
      fun c => Nat.isDigit_of_mem_toDigits (by decide) (by decide)
    obtain ⟨heq, hrest⟩ := run_unique (hdigits n) (hdigits m) hr hs h
    have hvalue := congrArg (Nat.ofDigitChars 10 · 0) heq
    simp only [Nat.ofDigitChars_ten_toDigits] at hvalue
    exact ⟨congrArg nat hvalue, hrest⟩
  | _ => cases hshape

theorem selfDelimiting_string (value : String) : SelfDelimiting chars IsPlain (string value) := by
  intro w r s hw _ _ h
  have hshape := (IsPlain.string value).shape_eq hw h
  cases hw with
  | string other =>
    rw [chars_string, chars_string] at h
    obtain ⟨rfl, hrest⟩ := quote_append_inj h
    exact ⟨rfl, hrest⟩
  | _ => cases hshape

theorem selfDelimiting_array {items : List Json} (hplain : ∀ item ∈ items, item.IsPlain)
    (hitems : ∀ item ∈ items, SelfDelimiting chars IsPlain item) : SelfDelimiting chars IsPlain (array items) := by
  intro w r s hw _ _ h
  have hshape := (IsPlain.array hplain).shape_eq hw h
  cases hw with
  | @array others hothers =>
    simp only [chars_array, List.cons_append, List.append_assoc, List.nil_append, List.cons.injEq,
      true_and] at h
    obtain ⟨rfl, hrest⟩ := joinParts_append_inj rfl (by decide) (fun _ hv => hv.chars_append_ne rfl)
      (fun item hitem => ⟨hplain item hitem, hitems item hitem⟩) hothers h
    exact ⟨rfl, hrest⟩
  | _ => cases hshape

theorem selfDelimiting_field {field : String × Json} (hvalue : SelfDelimiting chars IsPlain field.2) :
    SelfDelimiting fieldChars (fun field => field.2.IsPlain) field := by
  intro other r s hother hr hs h
  simp only [fieldChars, List.append_assoc, List.cons_append] at h
  obtain ⟨hkey, hvalues⟩ := quote_append_inj h
  obtain ⟨hvalue, hrest⟩ := hvalue hother hr hs (List.cons.inj hvalues).2
  exact ⟨Prod.ext hkey hvalue, hrest⟩

theorem selfDelimiting_object {fields : List (String × Json)} (hplain : ∀ field ∈ fields, field.2.IsPlain)
    (hfields : ∀ field ∈ fields, SelfDelimiting chars IsPlain field.2) :
    SelfDelimiting chars IsPlain (object fields) := by
  intro w r s hw _ _ h
  have hshape := (IsPlain.object hplain).shape_eq hw h
  cases hw with
  | @object others hothers =>
    simp only [chars_object, List.cons_append, List.append_assoc, List.nil_append, List.cons.injEq,
      true_and] at h
    -- a field starts with the quote of its key
    have hstart (field : String × Json) (r s : List Char) :
        fieldChars field ++ r ≠ '\x7d' :: s := by
      rw [fieldChars, toList_quote]
      nofun
    obtain ⟨rfl, hrest⟩ := joinParts_append_inj rfl (by decide) (fun field _ => hstart field)
      (fun field hfield => ⟨hplain field hfield, selfDelimiting_field (hfields field hfield)⟩) hothers h
    exact ⟨rfl, hrest⟩
  | _ => cases hshape

theorem IsPlain.selfDelimiting {v : Json} (hv : v.IsPlain) : SelfDelimiting chars IsPlain v := by
  induction hv with
  | null => exact selfDelimiting_null
  | bool value => exact selfDelimiting_bool value
  | nat n => exact selfDelimiting_nat n
  | string value => exact selfDelimiting_string value
  | array hitems ih => exact selfDelimiting_array hitems ih
  | object hfields ih => exact selfDelimiting_object hfields ih

theorem IsPlain.compact_inj {v w : Json} (hv : v.IsPlain) (hw : w.IsPlain)
    (h : v.compact = w.compact) : v = w := by
  have hnil : NoDigit [] := fun c hc => by cases hc
  have hchars : v.chars ++ [] = w.chars ++ [] := by rw [chars, chars, h]
  exact (hv.selfDelimiting hw hnil hnil hchars).1

end FilterLang.Json

namespace FilterLang

open Json (IsPlain)

/-! ## Trees and tokens -/

mutual

theorem Argument.isPlain_toJson : ∀ arg : Argument, arg.toJson.IsPlain
  | .literal lit => by
    rw [Argument.toJson]
    exact .object (List.forall_mem_cons.2 ⟨.string _, List.forall_mem_singleton.2 (.string _)⟩)
  | .call ⟨name, args⟩ => by
    rw [Argument.toJson]
    refine .object (List.forall_mem_cons.2 ⟨.string _, List.forall_mem_cons.2 ⟨.string _, ?_⟩⟩)
    exact List.forall_mem_singleton.2 (.array (Argument.isPlain_toJsonList args))

theorem Argument.isPlain_toJsonList (args : List Argument) :
    ∀ item ∈ Argument.toJsonList [] args, item.IsPlain := by
  rw [Argument.toJsonList_eq, List.reverse_nil, List.nil_append]
  match args with
  | [] => exact List.forall_mem_nil _
  | arg :: args =>
    have hargs := Argument.isPlain_toJsonList args
    rw [Argument.toJsonList_eq, List.reverse_nil, List.nil_append] at hargs
    exact List.forall_mem_cons.2 ⟨Argument.isPlain_toJson arg, hargs⟩

end

theorem Call.isPlain_toJson : ∀ c : Call, c.toJson.IsPlain
  | ⟨name, args⟩ => by
    rw [Call.toJson]
    refine .object (List.forall_mem_cons.2 ⟨.string _, List.forall_mem_singleton.2 ?_⟩)
    exact .array (Argument.isPlain_toJsonList args)

theorem Program.isPlain_toJson (p : Program) : p.toJson.IsPlain :=
  .object (List.forall_mem_singleton.2 p.expression.isPlain_toJson)

theorem Token.isPlain_toJson (t : Token) : t.toJson.IsPlain := by
  refine .object (List.forall_mem_cons.2 ⟨.string _, List.forall_mem_cons.2 ⟨.string _, ?_⟩⟩)
  exact List.forall_mem_singleton.2 (.nat _)

theorem Token.toJson_injective : Function.Injective Token.toJson := by
  rintro ⟨kind, value, position⟩ ⟨kind', value', position'⟩ h
  simp only [Token.toJson, Token.Kind.toJson, Json.object.injEq, List.cons.injEq, Prod.mk.injEq,
    Json.string.injEq, Json.nat.injEq, true_and, and_true] at h
  obtain ⟨hkind, rfl, rfl⟩ := h
  rw [Token.Kind.tag_injective hkind]

theorem Json.injective_of_read {α : Type} {write : α → Json} {read? : Json → Option α}
    (hread : ∀ x, read? (write x) = some x) : Function.Injective write := fun x y h =>
  Option.some.inj ((hread x).symm.trans (h ▸ hread y))

theorem Json.compact_eq_iff {α : Type} {write : α → Json} (hinj : Function.Injective write)
    (hplain : ∀ x, (write x).IsPlain) (x y : α) :
    (write x).compact = (write y).compact ↔ x = y :=
  ⟨fun h => hinj ((hplain x).compact_inj (hplain y) h), fun h => h ▸ rfl⟩

/-- **The compact text is injective** on programs, calls, arguments and tokens, over arbitrary strings. -/
theorem Json.compact_injective :
    (∀ p q : Program, p.toJson.compact = q.toJson.compact ↔ p = q) ∧
      (∀ c d : Call, c.toJson.compact = d.toJson.compact ↔ c = d) ∧
      (∀ a b : Argument, a.toJson.compact = b.toJson.compact ↔ a = b) ∧
      ∀ t u : Token, t.toJson.compact = u.toJson.compact ↔ t = u :=
  ⟨compact_eq_iff (injective_of_read Program.ofJson?_toJson) Program.isPlain_toJson,
    compact_eq_iff (injective_of_read Call.ofJson?_toJson) Call.isPlain_toJson,
    compact_eq_iff (injective_of_read (Argument.ofJsonAt?_toJson .outermost))
      Argument.isPlain_toJson,
    compact_eq_iff Token.toJson_injective Token.isPlain_toJson⟩

example : (Argument.literal ⟨"\"\x7d"⟩).toJson.compact =
    "\x7b\"type\":\"StringLiteral\",\"value\":\"\\\"\x7d\"\x7d" := by decide

end FilterLang
