import FilterLang.Json.Record
import FilterLang.Json.Tree

/-!
# JSON round trips

* `Json.fields?_cons_of_notMem` : further keys of an object are ignored;
* `Argument.ofJsonAt?_toJson`, `Call.ofJson?_toJson`, `Call.ofJson?_toJson_call` : round trips of trees,
  of a call also through the JSON that it has as an argument;
* `Token.ofJson?_toJson_iff`, `Limits.ofJson?_toJson_iff` : round trips under the bound on numbers;
* `Json.reads_what_it_writes` : all of the types together.
-/

namespace FilterLang

/-! ## Fields -/

namespace Json

theorem fields?_cons_of_notMem {keys : List String} {key : String} (value : Json)
    (fields : List (String × Json)) (h : key ∉ keys) :
    (object ((key, value) :: fields)).fields? keys = (object fields).fields? keys := by
  induction keys with
  | nil => rfl
  | cons k keys ih =>
    obtain ⟨hk, hkeys⟩ := not_or.1 (mt List.mem_cons.2 h)
    have hlookup : ((key, value) :: fields).lookup k = fields.lookup k := by
      rw [List.lookup_cons, beq_eq_false_iff_ne.2 (Ne.symm hk)]
    simp only [fields?, List.mapM_cons] at ih ⊢
    rw [hlookup, ih hkeys]

theorem count?_nat_eq_some_iff {n : Nat} : (nat n).count? = some n ↔ n < countBound := by
  simp [count?]

end Json

/-! ## Trees -/

theorem Literal.ofJson?_toJson (lit : Literal) : Literal.ofJson? lit.toJson = some lit := by
  simp [Literal.toJson, Literal.ofJson?, Json.fields?, Json.string?]

theorem Argument.listOfJson?_array (place : Argument.Place) (items : List Json) :
    Argument.listOfJson? place (.array items) = items.mapM (Argument.ofJsonAt? place) := by
  simp [Argument.listOfJson?, Argument.listOfItems?_eq]

mutual

/-- Reading after writing, by recursion on the tree, with the list of arguments. -/
theorem Argument.ofJsonAt?_toJson (place : Argument.Place) :
    ∀ arg : Argument, Argument.ofJsonAt? place arg.toJson = some arg
  | .literal lit => by
    simp [Argument.toJson, Argument.ofJsonAt?, Argument.Kind.ofJson?_tag, Json.string?,
      List.lookup_cons]
  | .call ⟨name, args⟩ => by
    have hargs := Argument.listOfJson?_toJsonList .nested args
    simp [Argument.toJson, Argument.ofJsonAt?, Argument.Kind.ofJson?_tag, Json.string?,
      Argument.listOfFields?_eq, List.lookup_cons, hargs]

theorem Argument.listOfJson?_toJsonList (place : Argument.Place) :
    ∀ args : List Argument,
      Argument.listOfJson? place (.array (Argument.toJsonList [] args)) = some args
  | [] => rfl
  | arg :: args => by
    have harg := Argument.ofJsonAt?_toJson place arg
    have hargs := Argument.listOfJson?_toJsonList place args
    rw [Argument.listOfJson?_array, Argument.toJsonList_eq] at hargs ⊢
    rw [List.reverse_nil, List.nil_append] at hargs ⊢
    rw [List.map_cons, List.mapM_cons, harg, hargs]
    rfl

end

namespace Call

theorem ofJson?_toJson : ∀ c : Call, Call.ofJson? c.toJson = some c
  | ⟨name, args⟩ => by
    have hargs := Argument.listOfJson?_toJsonList .outermost args
    simp [Call.toJson, Call.ofJson?, Json.fields?, List.lookup_cons, Json.string?, hargs]

/-- The tag of the argument is ignored. -/
theorem ofJson?_toJson_call (c : Call) : Call.ofJson? (Argument.call c).toJson = some c := by
  obtain ⟨name, args⟩ := c
  have htag : (Argument.call ⟨name, args⟩).toJson.fields? ["functionName", "args"] =
      (Call.toJson ⟨name, args⟩).fields? ["functionName", "args"] := by
    rw [Argument.toJson, Call.toJson]
    exact Json.fields?_cons_of_notMem _ _ (by decide)
  rw [Call.ofJson?, htag]
  exact ofJson?_toJson ⟨name, args⟩

theorem ofJson?_toJson_literal (lit : Literal) :
    Call.ofJson? (Argument.literal lit).toJson = none := by
  simp [Argument.toJson, Call.ofJson?, Json.fields?, List.lookup_cons]

end Call

theorem Program.ofJson?_toJson (p : Program) : Program.ofJson? p.toJson = some p := by
  simp [Program.toJson, Program.ofJson?, Json.fields?, Call.ofJson?_toJson]

/-! ## Tokens and limits -/

theorem Token.Kind.ofJson?_toJson (k : Token.Kind) : Token.Kind.ofJson? k.toJson = some k :=
  Token.Kind.ofTag?_eq_some_iff.2 rfl

/-- A position is read back if and only if it is in range. -/
theorem Token.ofJson?_toJson_iff {t : Token} :
    Token.ofJson? t.toJson = some t ↔ t.position < countBound := by
  obtain ⟨kind, value, position⟩ := t
  rw [← Json.count?_nat_eq_some_iff]
  cases h : (Json.nat position).count? <;>
    simp [Token.toJson, Token.ofJson?, Json.fields?, List.lookup_cons, Token.Kind.ofJson?_toJson,
      Json.string?, h]

theorem Limits.ofJson?_toJson_iff {limits : Limits} :
    Limits.ofJson? limits.toJson = some limits ↔
      limits.maxDepth < countBound ∧ limits.maxInputLen < countBound := by
  obtain ⟨maxDepth, maxInputLen⟩ := limits
  rw [← Json.count?_nat_eq_some_iff, ← Json.count?_nat_eq_some_iff]
  cases h : (Json.nat maxDepth).count? <;> cases h' : (Json.nat maxInputLen).count? <;>
    simp [Limits.toJson, Limits.ofJson?, Json.fields?, List.lookup_cons, h, h']

/-- **JSON round trips,** for all trees, kinds of tokens, and tokens and limits below `countBound`. A call
is also read from the JSON of an argument; a literal is not. -/
theorem Json.reads_what_it_writes :
    (∀ p : Program, Program.ofJson? p.toJson = some p) ∧
      (∀ c : Call, Call.ofJson? c.toJson = some c) ∧
      (∀ arg : Argument, Argument.ofJson? arg.toJson = some arg) ∧
      (∀ lit : Literal, Literal.ofJson? lit.toJson = some lit) ∧
      (∀ t : Token, t.position < countBound → Token.ofJson? t.toJson = some t) ∧
      (∀ k : Token.Kind, Token.Kind.ofJson? k.toJson = some k) ∧
      (∀ limits : Limits, limits.maxDepth < countBound → limits.maxInputLen < countBound →
        Limits.ofJson? limits.toJson = some limits) ∧
      (∀ c : Call, Call.ofJson? (Argument.call c).toJson = some c) ∧
      ∀ lit : Literal, Call.ofJson? (Argument.literal lit).toJson = none :=
  ⟨Program.ofJson?_toJson, Call.ofJson?_toJson, Argument.ofJsonAt?_toJson .outermost,
    Literal.ofJson?_toJson, fun _ => Token.ofJson?_toJson_iff.2, Token.Kind.ofJson?_toJson,
    fun _ hdepth hlen => Limits.ofJson?_toJson_iff.2 ⟨hdepth, hlen⟩, Call.ofJson?_toJson_call,
    Call.ofJson?_toJson_literal⟩

theorem Json.reads_largest_counts :
    Token.ofJson? (Token.toJson ⟨.unknown, "é", 18446744073709551615⟩) =
        some ⟨.unknown, "é", 18446744073709551615⟩ ∧
      Limits.ofJson? (Limits.toJson ⟨18446744073709551615, 18446744073709551615⟩) =
        some ⟨18446744073709551615, 18446744073709551615⟩ := by
  obtain ⟨-, -, -, -, htoken, -, hlimits, -⟩ := Json.reads_what_it_writes
  exact ⟨htoken _ (by decide), hlimits _ (by decide) (by decide)⟩

end FilterLang
