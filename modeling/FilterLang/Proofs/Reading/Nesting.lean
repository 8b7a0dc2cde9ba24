import FilterLang.Proofs.Draft.Levels
import FilterLang.Proofs.Reading.Acceptance
import FilterLang.Proofs.Token.Stream

/-!
# Limits and lexical errors

* `TokenStream.Exceeds` : the first parenthesis of a stream to exceed the limit on nesting;
* `Program.parse_eq_nestingTooDeep_iff` : `NestingTooDeep` in terms of `Exceeds`;
* `Program.parse_eq_lexical_iff`, `Program.parse_of_tokenize_error` : a lexical error is reported iff the
  tokens before it are a viable prefix within the limit;
* `Draft.Refuses.mono`, `Draft.finish_mono`, `Draft.read_mono` : monotonicity of errors in the limit on
  nesting;
* `Program.parse_of_higher_limits` : monotonicity of `parse` in both limits.
-/

namespace FilterLang

/-! ## Nesting too deep -/

/-- `paren`, behind `before`, is the first parenthesis of the stream to exceed the limit, and the
construct that it opens starts at `position`. -/
structure TokenStream.Exceeds {text : String} (s : TokenStream text) (maxDepth position : Nat)
    (before : List Token) (paren : Token) : Prop where
  occurs : before ++ [paren] <+: s.tokens
  overruns : Overruns maxDepth before paren
  start : Paren.start before.reverse paren = position
  /-- A group is entered with the token behind its parenthesis, so that a lexical error there comes
  first. -/
  followed : Paren.opened before.reverse = .group → s.tokens = before ++ [paren] → s.failure? = none

theorem TokenStream.Exceeds.exists_mem {text : String} {s : TokenStream text}
    {maxDepth position : Nat} {before : List Token} {paren : Token}
    (h : s.Exceeds maxDepth position before paren) : ∃ t ∈ s.tokens, t.position = position := by
  obtain ⟨t, ht, hposition⟩ := Paren.exists_start before paren
  exact ⟨t, h.occurs.subset ht, hposition.trans h.start⟩

namespace Program

variable {limits : Limits} {text : String}

/-- Soundness of the error: the parenthesis over the limit exists. -/
theorem exists_exceeds {m p : Nat} (hlen : text.length ≤ limits.maxInputLen)
    (h : Program.parse limits text = .error (.nestingTooDeep m p)) :
    m = limits.maxDepth ∧
      ∃ before paren, (Cursor.start text).stream.Exceeds limits.maxDepth p before paren := by
  have hlex := (Cursor.segmented_start text).isLexeme
  obtain ⟨taken, position, hstops⟩ := exists_stops hlen
  rw [h] at hstops
  generalize herror : Except.error (ParseError.nestingTooDeep m p) = outcome at hstops
  cases hstops with
  | @atToken us vs t d err hs hd herr =>
    obtain rfl := Except.error.inj herror
    have hus : ∀ u ∈ us, u.IsLexeme := fun u hu => hlex u (by simp [hs, hu])
    have ht : t.IsLexeme := hlex t (by simp [hs])
    obtain ⟨hm, before, paren, hover, hstart, ⟨rfl, -⟩ | ⟨rfl, rfl, hcall⟩⟩ :=
      (Draft.feed_eq_error_iff.1 herr).overruns hus (fun _ => ht) hd
    · refine ⟨hm, before, paren, ⟨t :: vs, hs.symm⟩, hover, hstart, fun _ hall => ?_⟩
      rw [hall] at hs
      simp at hs
    · refine ⟨hm, us, t, ⟨vs, by simp [hs]⟩, hover, hstart, fun hgroup => ?_⟩
      exact absurd hgroup hcall
  | atEnd hgood hd =>
    have hfeed := (Draft.finish_eq_error_iff.1 herror.symm).1
    have hne : (Token.endOfInput (Cursor.start text).stream.stop.position).kind ≠ .lparen := by
      simp [Token.endOfInput]
    obtain ⟨hm, before, paren, hover, hstart, ⟨hs, -⟩ | ⟨-, rfl, -⟩⟩ :=
      (Draft.feed_eq_error_iff.1 hfeed).overruns hlex (fun hk => absurd hk hne) hd
    · exact ⟨hm, before, paren, hs ▸ List.prefix_rfl, hover, hstart, fun _ _ => hgood⟩
    · exact absurd hover.opens hne
  | atFailure _ _ => cases herror

/-- **`NestingTooDeep` is reported iff some parenthesis behind a viable prefix is the first to exceed the
limit.** The position is that of the name for a call, and that of the parenthesis for a group. -/
theorem parse_eq_nestingTooDeep_iff (hlen : text.length ≤ limits.maxInputLen) (m p : Nat) :
    Program.parse limits text = .error (.nestingTooDeep m p) ↔
      m = limits.maxDepth ∧
        ∃ before paren, (Cursor.start text).stream.Exceeds limits.maxDepth p before paren := by
  refine ⟨exists_exceeds hlen, ?_⟩
  rintro ⟨rfl, before, paren, ⟨rest, hs⟩, hover, rfl, hgood⟩
  have hseg := Cursor.segmented_start text
  have hlex := hseg.isLexeme
  rw [← hs] at hlex
  simp only [List.forall_mem_append, List.forall_mem_singleton] at hlex
  obtain ⟨⟨hbefore, hparen⟩, -⟩ := hlex
  rcases Draft.cases_of_overruns hbefore hparen hover with
    ⟨groups, hd, hgroup⟩ | ⟨groups, name, outer, hd, hstart⟩
  · rw [Paren.start_of_group hgroup]
    -- The group is entered with whatever follows, which may be the end of the input.
    have hrefuses : ∀ t, Draft.Refuses limits.maxDepth
        ⟨limits.maxDepth, groups, .opening (some paren.position)⟩ t
        (.nestingTooDeep limits.maxDepth paren.position) := fun t => .group (Nat.lt_succ_self _)
    cases rest with
    | nil =>
      rw [List.append_nil] at hs
      rw [← hs, hgood hgroup hs.symm] at hseg
      rw [parse_of_segmented hlen hseg hd]
      refine Draft.finish_eq_error_iff.2 ⟨Draft.feed_eq_error_iff.2 (hrefuses _), ?_⟩
      rintro ⟨c, hphase, -⟩
      cases hphase
    | cons t rest => exact parse_of_refuses hlen hs.symm hd (hrefuses t)
  · rw [List.append_assoc, List.singleton_append] at hs
    rw [hstart]
    exact parse_of_refuses hlen hs.symm hd (.call (Nat.lt_succ_self _) hover.opens)

theorem parse_of_fourth_level :
    "(and(a(), b(c(?".length ≤ 100 ∧
    Program.parse ⟨3, 100⟩ "(and(a(), b(c(?" = .error (.nestingTooDeep 3 12) ∧
    ∃ before paren, (Cursor.start "(and(a(), b(c(?").stream.Exceeds 3 12 before paren := by
  have h : Program.parse ⟨3, 100⟩ "(and(a(), b(c(?" = .error (.nestingTooDeep 3 12) := by decide +kernel
  exact ⟨by decide, h, ((parse_eq_nestingTooDeep_iff (by decide) 3 12).1 h).2⟩

end Program

/-! ## Unclosed literals -/

namespace Program

variable {limits : Limits} {text : String}

/-- A lexical error surfaces if and only if all tokens before it are accepted. -/
theorem parse_eq_lexical_iff (hlen : text.length ≤ limits.maxInputLen) {e : LexicalError} :
    Program.parse limits text = .error (.lexical e) ↔
      (Cursor.start text).stream.failure? = some e ∧
        ∃ d, Draft.empty.feedAll limits.maxDepth (Cursor.start text).stream.tokens = .ok d := by
  constructor
  · intro h
    obtain ⟨taken, position, hstops⟩ := exists_stops hlen
    rw [h] at hstops
    generalize herror : Except.error (ParseError.lexical e) = outcome at hstops
    cases hstops with
    | atToken hs hd herr =>
      obtain rfl := Except.error.inj herror
      cases Draft.feed_eq_error_iff.1 herr
    | atEnd hgood hd =>
      cases Draft.feed_eq_error_iff.1 (Draft.finish_eq_error_iff.1 herror.symm).1
    | atFailure hbad hd =>
      cases herror
      exact ⟨hbad, _, hd⟩
  · rintro ⟨hbad, d, hd⟩
    rw [parse_eq hlen, hd, hbad]
    rfl

/-- The three outcomes of a text with an unclosed literal. -/
theorem refused_of_failure (hlen : text.length ≤ limits.maxInputLen) {p : Nat}
    (hbad : (Cursor.start text).stream.failure? = some (.unterminatedString p)) :
    Program.parse limits text = .error (.lexical (.unterminatedString p)) ∨
      (∃ err, Program.parse limits text = .error (.grammar err) ∧
        err.token ∈ (Cursor.start text).stream.tokens) ∨
      ∃ q, Program.parse limits text = .error (.nestingTooDeep limits.maxDepth q) ∧ q < p := by
  have hseg := Cursor.segmented_start text
  rw [hbad] at hseg
  obtain ⟨taken, position, hstops⟩ := exists_stops hlen
  generalize hparse : Program.parse limits text = outcome at hstops ⊢
  cases hstops with
  | @atToken us vs t d err hs hd herr =>
    right
    cases err with
    | grammar err =>
      refine .inl ⟨err, rfl, ?_⟩
      rw [hs, (Draft.feed_eq_grammar herr).1]
      simp
    | nestingTooDeep m q =>
      obtain ⟨rfl, before, paren, hexceeds⟩ := exists_exceeds hlen hparse
      obtain ⟨u, hu, rfl⟩ := hexceeds.exists_mem
      exact .inr ⟨_, rfl, hseg.position_lt_of_failure u hu⟩
    | lexical _ => cases Draft.feed_eq_error_iff.1 herr
    | inputTooLong _ _ => cases Draft.feed_eq_error_iff.1 herr
  | atEnd hgood hd =>
    rw [hbad] at hgood
    cases hgood
  | atFailure hbad' hd =>
    rw [hbad] at hbad'
    cases hbad'
    exact .inl rfl

/-- **An unclosed literal is reported iff the tokens before it are a viable prefix that the limit admits.**
Otherwise the error is at one of these tokens, or `NestingTooDeep` before the literal. -/
theorem parse_of_tokenize_error (hlen : text.length ≤ limits.maxInputLen) {p : Nat}
    (hfail : (Cursor.start text).tokenize.1 = .error (.unterminatedString p)) :
    (Program.parse limits text = .error (.lexical (.unterminatedString p)) ↔
      Viable (Cursor.start text).stream.tokens ∧
        Admits limits.maxDepth (Cursor.start text).stream.tokens) ∧
    (Program.parse limits text = .error (.lexical (.unterminatedString p)) ∨
      (∃ err, Program.parse limits text = .error (.grammar err) ∧
        err.token ∈ (Cursor.start text).stream.tokens) ∨
      ∃ q, Program.parse limits text = .error (.nestingTooDeep limits.maxDepth q) ∧ q < p) := by
  obtain ⟨us, hus⟩ := Cursor.tokenize_eq_error_iff.1 hfail
  have hbad := (Cursor.segmented_start_iff.1 hus).2
  refine ⟨?_, refused_of_failure hlen hbad⟩
  rw [parse_eq_lexical_iff hlen, ← Draft.exists_feedAll_iff (Cursor.segmented_start text).isLexeme]
  exact and_iff_right hbad

/-- The second group exceeds the limit, but the lexical error behind its parenthesis comes first. -/
theorem parse_of_unclosed_in_group :
    "((\"open".length ≤ 100 ∧
    (Cursor.start "((\"open").tokenize.1 = .error (.unterminatedString 2) ∧
    Program.parse ⟨1, 100⟩ "((\"open" = .error (.lexical (.unterminatedString 2)) ∧
    Viable (Cursor.start "((\"open").stream.tokens ∧
    Admits 1 (Cursor.start "((\"open").stream.tokens := by
  have hfail : (Cursor.start "((\"open").tokenize.1 = .error (.unterminatedString 2) := by decide +kernel
  have h : Program.parse ⟨1, 100⟩ "((\"open" = .error (.lexical (.unterminatedString 2)) := by decide +kernel
  exact ⟨by decide, hfail, h, (parse_of_tokenize_error (by decide) hfail).1.1 h⟩

end Program

/-! ## Monotonicity in the limits -/

namespace Draft

variable {maxDepth maxDepth' : Nat} {d d' : Draft} {t : Token}

theorem Refuses.mono {err : ParseError} (hle : maxDepth ≤ maxDepth') (h : Refuses maxDepth d t err)
    (herr : ∀ m p, err ≠ .nestingTooDeep m p) : Refuses maxDepth' d t err := by
  cases h with
  | group _ => exact absurd rfl (herr _ _)
  | call _ _ => exact absurd rfl (herr _ _)
  | misfit he hno => exact .misfit (he.mono hle) hno

theorem feed_eq_error_mono {err : ParseError} (hle : maxDepth ≤ maxDepth')
    (h : d.feed maxDepth t = .error err) (herr : ∀ m p, err ≠ .nestingTooDeep m p) :
    d.feed maxDepth' t = .error err :=
  feed_eq_error_iff.2 ((feed_eq_error_iff.1 h).mono hle herr)

theorem finish_mono {position : Nat} (hle : maxDepth ≤ maxDepth')
    (h : ∀ m p, d.finish maxDepth position ≠ .error (.nestingTooDeep m p)) :
    d.finish maxDepth' position = d.finish maxDepth position := by
  cases hd : d.finish maxDepth position with
  | ok p => exact finish_eq_ok_iff.2 (finish_eq_ok_iff.1 hd)
  | error err =>
    obtain ⟨hfeed, hnot⟩ := finish_eq_error_iff.1 hd
    refine finish_eq_error_iff.2 ⟨feed_eq_error_mono hle hfeed fun m p herr => ?_, hnot⟩
    exact h m p (herr ▸ hd)

/-- A reading without the error of the limit is the same under a higher limit. -/
theorem read_mono {text : String} {taken : List Token} {c : Cursor text} (hle : maxDepth ≤ maxDepth')
    (h : ∀ m p, (d.read maxDepth taken c).outcome ≠ .error (.nestingTooDeep m p)) :
    d.read maxDepth' taken c = d.read maxDepth taken c := by
  fun_induction Draft.read maxDepth taken d c with
  | case1 taken d c e stop hscan => rw [Draft.read, hscan]
  | case2 taken d c stop hscan =>
    rw [Draft.read, hscan]
    dsimp only at h ⊢
    rw [finish_mono hle h]
  | case3 taken d c t rest _ hscan err hd =>
    have herr : ∀ m p, err ≠ .nestingTooDeep m p := by
      rintro m p rfl
      exact h m p rfl
    rw [Draft.read, hscan]
    dsimp only
    rw [feed_eq_error_mono hle hd herr]
  | case4 taken d c t rest _ hscan e hd ih =>
    rw [Draft.read, hscan]
    dsimp only
    rw [feed_mono hle hd]
    exact ih h

end Draft

/-- **`parse` is monotone in the limits:** an outcome other than `InputTooLong` and `NestingTooDeep` is the
same under limits that are not lower. -/
theorem Program.parse_of_higher_limits {limits limits' : Limits} {text : String}
    (hdepth : limits.maxDepth ≤ limits'.maxDepth)
    (hinput : limits.maxInputLen ≤ limits'.maxInputLen)
    (hlength : ∀ n m, Program.parse limits text ≠ .error (.inputTooLong n m))
    (hnesting : ∀ m p, Program.parse limits text ≠ .error (.nestingTooDeep m p)) :
    Program.parse limits' text = Program.parse limits text := by
  by_cases hlong : limits.maxInputLen < text.length
  · exact absurd (Program.parse_of_length_lt hlong) (hlength _ _)
  · have hlong' : ¬ limits'.maxInputLen < text.length := by omega
    unfold Program.parse Reading.of at hnesting ⊢
    rw [if_neg hlong] at hnesting ⊢
    rw [if_neg hlong', Draft.read_mono hdepth hnesting]

/-- Both outcomes under limits that are just met: an accepted text and a grammar error. -/
theorem Program.parse_of_more_room :
    (Program.parse ⟨3, 8⟩ "(f(g()))" = .ok ⟨⟨"f", [.call ⟨"g", []⟩]⟩⟩ ∧
      Program.parse ⟨4, 11⟩ "(f(g()))" = Program.parse ⟨3, 8⟩ "(f(g()))") ∧
    Program.parse ⟨3, 10⟩ "(f(g()) or" =
      .error (.grammar (.bareLogicalOperator ⟨.identifier, "or", 8⟩)) ∧
    Program.parse ⟨4, 11⟩ "(f(g()) or" = Program.parse ⟨3, 10⟩ "(f(g()) or" := by
  have hok : Program.parse ⟨3, 8⟩ "(f(g()))" = .ok ⟨⟨"f", [.call ⟨"g", []⟩]⟩⟩ := by decide +kernel
  have herr : Program.parse ⟨3, 10⟩ "(f(g()) or" =
      .error (.grammar (.bareLogicalOperator ⟨.identifier, "or", 8⟩)) := by decide +kernel
  refine ⟨⟨hok, ?_⟩, herr, ?_⟩
  · exact parse_of_higher_limits (by decide) (by decide) (by simp [hok]) (by simp [hok])
  · exact parse_of_higher_limits (by decide) (by decide) (by simp [herr]) (by simp [herr])

end FilterLang
