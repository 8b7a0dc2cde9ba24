import FilterLang.Proofs.Reading.Acceptance
import FilterLang.Proofs.Draft.Context
import FilterLang.Proofs.Token.Concatenation

/-!
# Grammar errors

* `Refused limits text err` : the prefix before the token of `err`, with its segmentation and draft
  (`Program.refused`);
* `Program.exists_completion`, `Program.parse_append_ne_ok` : that prefix can be completed to a program,
  and not together with the token;
* `Program.refused_at_first_misfit` : the viable-prefix property, from both;
* `Program.refusal_eq_complaint` : the error is the `complaint` of its token;
* `Program.CutOff text head err` : an error at the end of the prefix `head` of `text`;
* `Program.parse_of_cut` : a proper prefix of a program is refused with a `CutOff` error.
-/

namespace FilterLang

open Token (Shape)

/-! ## The prefix before the error -/

/-- The two ways to a grammar error: at the end of the input, or at a token behind the prefix `a`. -/
inductive Refused (limits : Limits) (text : String) (err : GrammarError) : Prop
  | atEnd {ts : List Token} {d : Draft} (hts : Segmented 0 text.toList ts none)
      (hd : Draft.empty.feedAll limits.maxDepth ts = .ok d)
      (herr : err.token = .endOfInput text.length)
  | atToken {a rest : List Char} {ts : List Token} {d : Draft}
      (htext : text.toList = a ++ (err.token.spelling ++ rest)) (hts : Segmented 0 a ts none)
      (hpos : err.token.position = a.length) (hlex : err.token.IsLexeme)
      (hapart : Apart a err.token.spelling)
      (hd : Draft.empty.feedAll limits.maxDepth ts = .ok d)
      (herr : d.feed limits.maxDepth err.token = .error (.grammar err))

namespace Program

variable {limits : Limits} {text : String} {err : GrammarError}

theorem refused (h : Program.parse limits text = .error (.grammar err)) :
    Refused limits text err := by
  obtain ⟨taken, position, hstops⟩ := stops_of_parse h
  have hseg := Cursor.segmented_start text
  generalize houtcome : Except.error (ParseError.grammar err) = outcome at hstops
  cases hstops with
  | atToken hs hd herr =>
    obtain rfl := Except.error.inj houtcome
    rw [hs] at hseg
    obtain ⟨a, rest, htext, ha, hpos, hlex, -, hapart, -⟩ := hseg.split
    obtain ⟨rfl, -⟩ := Draft.feed_eq_grammar herr
    exact .atToken htext ha (by simpa using hpos) hlex hapart hd herr
  | atEnd hgood hd =>
    have htoken := Draft.finish_eq_grammar houtcome.symm
    rw [Cursor.stream_start_stop] at htoken
    exact .atEnd (hgood ▸ hseg) hd htoken
  | atFailure _ _ => cases houtcome

/-! ## Completions -/

/-- An accepted prefix is completed to a program that all sufficient limits accept. -/
theorem exists_completion {maxDepth : Nat} {a : List Char} {ts : List Token} {d : Draft}
    (hts : Segmented 0 a ts none) (hd : Draft.empty.feedAll maxDepth ts = .ok d) :
    ∃ (r : String) (p : Program) (least : Limits), ∀ limits : Limits,
      least.maxDepth ≤ limits.maxDepth → least.maxInputLen ≤ limits.maxInputLen →
        Program.parse limits (String.ofList a ++ r) = .ok p := by
  obtain ⟨rest, k, c, hrest, hgroups⟩ := (Draft.feedAll_reads hts.isLexeme hd).viable
  obtain ⟨us, hus, rfl⟩ := spells_spaced hrest (0 + a.length)
  refine ⟨String.ofList (spaced (us.map Token.shape)), ⟨c⟩,
    ⟨k + c.depth, (a ++ spaced (us.map Token.shape)).length⟩, fun limits hdepth hlen => ?_⟩
  refine Program.parse_eq_ok_iff.2 ⟨?_, ts ++ us, k, ?_, ?_, hdepth⟩
  · simpa using hlen
  · simpa using hts.append hus (apart_spaced a _)
  · rw [List.map_append, hgroups]

end Program

/-! ## No completion -/

/-- A lexeme followed by anything is segmented with a first token of its kind: only a name can grow. -/
theorem Token.IsLexeme.exists_segmented {t : Token} (ht : t.IsLexeme) (r : List Char) :
    ∃ u ts failure?, u.kind = t.kind ∧
      Segmented t.position (t.spelling ++ r) (u :: ts) failure? := by
  by_cases hk : t.kind = .identifier
  · -- The letters at the start of `r` go with the name.
    let u : Token := ⟨.identifier, t.value ++ String.ofList (r.takeWhile Char.isAlpha), t.position⟩
    have hu : u.spelling = t.spelling ++ r.takeWhile Char.isAlpha := by
      rw [spelling_of_ne (by simp [u]), spelling_of_ne (by simp [hk])]
      simp [u]
    have hname : u.IsLexeme := by
      obtain ⟨hne, hall⟩ := isName_iff.1 (ht.name hk)
      refine isName_iff.2 ⟨by simp [u, hne], fun c hc => ?_⟩
      simp only [u, String.toList_append, String.toList_ofList, List.mem_append] at hc
      exact hc.elim (hall c) (List.all_eq_true.1 List.all_takeWhile c)
    have hstop : u.StopsBefore (r.dropWhile Char.isAlpha) := by
      intro _ c hc
      have hhead := List.head?_dropWhile_not Char.isAlpha r
      rwa [Option.mem_def.1 hc] at hhead
    obtain ⟨ts, failure?, hts⟩ :=
      Cursor.exists_segmented (u.position + u.spelling.length) (r.dropWhile Char.isAlpha)
    refine ⟨u, ts, failure?, hk.symm, ?_⟩
    have hseg := Segmented.token (w := []) (by simp) hname rfl hstop hts
    rwa [hu, List.append_assoc, List.takeWhile_append_dropWhile, List.nil_append] at hseg
  · obtain ⟨ts, failure?, hts⟩ := Cursor.exists_segmented (t.position + t.spelling.length) r
    exact ⟨t, ts, failure?, rfl,
      Segmented.token (w := []) (by simp) ht rfl (fun h => absurd h hk) hts⟩

namespace Program

/-- A refused lexeme is fatal under every limit and continuation. -/
theorem parse_append_ne_ok {maxDepth : Nat} {a : List Char} {ts : List Token} {d : Draft}
    {t : Token} {err : GrammarError} (hts : Segmented 0 a ts none)
    (hd : Draft.empty.feedAll maxDepth ts = .ok d) (hpos : t.position = a.length)
    (hlex : t.IsLexeme) (hapart : Apart a t.spelling)
    (herr : d.feed maxDepth t = .error (.grammar err)) (limits : Limits) (r : String) (p : Program) :
    Program.parse limits (String.ofList (a ++ t.spelling) ++ r) ≠ .ok p := by
  intro h
  obtain ⟨-, us, k, hus, hgroups, hdepth⟩ := Program.parse_eq_ok_iff.1 h
  obtain ⟨u, vs, failure?, hkind, hvs⟩ := hlex.exists_segmented r.toList
  -- The tokens of the text are those before `t`, one of the kind of `t`, and some others.
  have hsplit : us = ts ++ u :: vs := by
    obtain ⟨c, cs, hc, -, -⟩ := hlex.spelling_eq_cons
    have hfrom : Segmented (0 + a.length) (t.spelling ++ r.toList) (u :: vs) failure? := by
      rwa [Nat.zero_add, ← hpos]
    have happend := hts.append hfrom (hapart.append_right (by simp [hc]) _)
    rw [String.toList_append, String.toList_ofList, List.append_assoc] at hus
    exact (hus.unique happend).1
  have hall := Draft.feedAll_groups hgroups hdepth
  rw [hsplit, Draft.feedAll_append_eq_ok_iff] at hall
  obtain ⟨d', hd', hmore⟩ := hall
  obtain rfl := Draft.feedAll_unique hd hd'
  obtain ⟨e, he, -⟩ := Draft.feedAll_cons_eq_ok_iff.1 hmore
  exact (Draft.feed_eq_grammar herr).2 _ u e hkind he

/-- **A text is refused at the first token with which no program continues.** The text before the token
is a prefix of a program under all limits that are high enough; the text up to its end is a prefix of
none under any limits, unless the token is `Eof`. -/
theorem refused_at_first_misfit {limits : Limits} {text : String} {err : GrammarError}
    (h : Program.parse limits text = .error (.grammar err)) :
    (∃ (r : String) (p : Program) (least : Limits), ∀ limits' : Limits,
      least.maxDepth ≤ limits'.maxDepth → least.maxInputLen ≤ limits'.maxInputLen →
        Program.parse limits' ((text.take err.token.position).copy ++ r) = .ok p) ∧
    (err.token.isEof = false → ∀ (r : String) (limits' : Limits) (p : Program),
      Program.parse limits' ((text.take err.token.stop).copy ++ r) ≠ .ok p) := by
  have htake : ∀ n, (text.take n).copy = String.ofList (text.toList.take n) := by
    intro n
    rw [← String.toList_inj, String.toList_copy_take, String.toList_ofList]
  rw [htake, htake]
  cases refused h with
  | atEnd hts hd herr =>
    constructor
    · have hall : text.toList.take err.token.position = text.toList := by
        rw [herr, Token.endOfInput, ← String.length_toList, List.take_length]
      rw [hall]
      exact exists_completion hts hd
    · intro hne
      rw [herr, Token.isEof_endOfInput] at hne
      cases hne
  | @atToken a rest ts d htext hts hpos hlex hapart hd herr =>
    constructor
    · rw [hpos, htext, List.take_left]
      exact exists_completion hts hd
    · intro _ r limits' p
      have hupto : text.toList.take err.token.stop = a ++ err.token.spelling := by
        rw [Token.stop_eq, hpos, htext, ← List.append_assoc, ← List.length_append, List.take_left]
      rw [hupto]
      exact parse_append_ne_ok hts hd hpos hlex hapart herr limits' r p

theorem refused_at_second_name :
    Program.parse {} "f(a b)" =
      .error (.grammar (.expectedOpenParen ⟨.identifier, "b", 4⟩ "a")) ∧
    (∃ (r : String) (p : Program) (least : Limits), ∀ limits' : Limits,
      least.maxDepth ≤ limits'.maxDepth → least.maxInputLen ≤ limits'.maxInputLen →
        Program.parse limits' ("f(a " ++ r) = .ok p) ∧
    ∀ (r : String) (limits' : Limits) (p : Program),
      Program.parse limits' ("f(a b" ++ r) ≠ .ok p := by
  have h : Program.parse {} "f(a b)" =
      .error (.grammar (.expectedOpenParen ⟨.identifier, "b", 4⟩ "a")) := by decide +kernel
  obtain ⟨hbefore, hupto⟩ := refused_at_first_misfit h
  have hfour : ("f(a b)".take 4).copy = "f(a " := by decide +kernel
  have hfive : ("f(a b)".take 5).copy = "f(a b" := by decide +kernel
  exact ⟨h, hfour ▸ hbefore, hfive ▸ hupto rfl⟩

end Program

/-! ## The error of the refused token -/

namespace Program

/-- **A grammar error is determined by its token, the token before it and the innermost open
parenthesis,** `Eof` included. -/
theorem refusal_eq_complaint {limits : Limits} {text : String} {err : GrammarError}
    (h : Program.parse limits text = .error (.grammar err)) :
    err.token ∈ (Cursor.start text).stream.given ∧
      ∀ ts rest, (Cursor.start text).stream.given = ts ++ err.token :: rest →
        complaint ts.reverse err.token = some err := by
  obtain ⟨taken, position, hstops⟩ := stops_of_parse h
  obtain ⟨us, vs, d, hgiven, hd, herr⟩ := hstops.exists_misfit
  refine ⟨by simp [hgiven], fun ts rest hts => ?_⟩
  obtain ⟨rfl, -⟩ := Cursor.eq_of_given_eq hgiven hts
  have hbehind := Draft.feedAll_behind hd
  generalize htoken : err.token = t at herr ⊢
  cases Draft.feed_eq_error_iff.1 herr with
  | misfit he _ => exact (hbehind.enters he).complaint_eq he.settled t

theorem refusal_of_bare_or :
    Program.parse {} "((f(\"x\") or g()))" =
      .error (.grammar (.bareLogicalOperator ⟨.identifier, "or", 9⟩)) ∧
    (Cursor.start "((f(\"x\") or g()))").stream.given =
      [⟨.lparen, "(", 0⟩, ⟨.lparen, "(", 1⟩, ⟨.identifier, "f", 2⟩, ⟨.lparen, "(", 3⟩,
        ⟨.stringLiteral, "x", 4⟩, ⟨.rparen, ")", 7⟩] ++ ⟨.identifier, "or", 9⟩ ::
      [⟨.identifier, "g", 12⟩, ⟨.lparen, "(", 13⟩, ⟨.rparen, ")", 14⟩, ⟨.rparen, ")", 15⟩,
        ⟨.rparen, ")", 16⟩, ⟨.eof, "", 17⟩] ∧
    complaint [⟨.rparen, ")", 7⟩, ⟨.stringLiteral, "x", 4⟩, ⟨.lparen, "(", 3⟩,
        ⟨.identifier, "f", 2⟩, ⟨.lparen, "(", 1⟩, ⟨.lparen, "(", 0⟩] ⟨.identifier, "or", 9⟩ =
      some (.bareLogicalOperator ⟨.identifier, "or", 9⟩) := by
  have h : Program.parse {} "((f(\"x\") or g()))" =
      .error (.grammar (.bareLogicalOperator ⟨.identifier, "or", 9⟩)) := by decide +kernel
  have hgiven : (Cursor.start "((f(\"x\") or g()))").stream.given =
      [⟨.lparen, "(", 0⟩, ⟨.lparen, "(", 1⟩, ⟨.identifier, "f", 2⟩, ⟨.lparen, "(", 3⟩,
        ⟨.stringLiteral, "x", 4⟩, ⟨.rparen, ")", 7⟩] ++ ⟨.identifier, "or", 9⟩ ::
      [⟨.identifier, "g", 12⟩, ⟨.lparen, "(", 13⟩, ⟨.rparen, ")", 14⟩, ⟨.rparen, ")", 15⟩,
        ⟨.rparen, ")", 16⟩, ⟨.eof, "", 17⟩] := by decide +kernel
  exact ⟨h, hgiven, (refusal_eq_complaint h).2 _ _ hgiven⟩

end Program

/-! ## Proper prefixes of programs -/

namespace Program

/-- An error at the end of `head`: of the literal that the cut is in, or of `Eof`. -/
inductive CutOff (text head : String) : ParseError → Prop
  | inLiteral {t : Token} (ht : t ∈ (Cursor.start text).stream.tokens)
      (hkind : t.kind = .stringLiteral) (hopen : t.position < head.length)
      (hclose : head.length < t.stop) : CutOff text head (.lexical (.unterminatedString t.position))
  | atEnd {err : GrammarError} (htoken : err.token = .endOfInput head.length)
      (hbare : ∀ u, err ≠ .bareLogicalOperator u) (htrailing : ∀ u, err ≠ .trailingInput u) :
      CutOff text head (.grammar err)

theorem CutOff.of_step {text head : String} {maxDepth maxDepth' : Nat} {d e d' : Draft} {t : Token}
    (he : Draft.Enters maxDepth d e) (h : Draft.Step maxDepth' e t d') :
    ∃ err, d.finish maxDepth head.length = .error err ∧ CutOff text head err := by
  refine ⟨_, Draft.finish_of_step he h head.length, .atEnd (Draft.refusal_token _ _) ?_ ?_⟩
  · exact fun u => (Draft.refusal_endOfInput_of_step h _ u).1
  · exact fun u => (Draft.refusal_endOfInput_of_step h _ u).2

/-- **A proper prefix of a program is refused at its end,** if more than blanks is missing. In particular
no program is a prefix of another. -/
theorem parse_of_cut {limits : Limits} {head rest : String} {p : Program}
    (h : Program.parse limits (head ++ rest) = .ok p)
    (hrest : ∃ c ∈ rest.toList, isBlank c = false) :
    ∃ err, Program.parse limits head = .error err ∧ CutOff (head ++ rest) head err := by
  obtain ⟨hlen, ts, k, hseg, hshapes, hdepth⟩ := parse_eq_ok_iff.1 h
  have hlen' : head.length ≤ limits.maxInputLen := by
    rw [String.length_append] at hlen
    omega
  have hts : (Cursor.start (head ++ rest)).stream.tokens = ts :=
    (Cursor.segmented_start_iff.1 hseg).1
  have hall := Draft.feedAll_groups hshapes hdepth
  rw [String.toList_append] at hseg
  obtain ⟨us, t, vs, rfl, hcut⟩ := hseg.cut hrest
  -- The tokens before the cut are taken, and the one at the cut would be.
  obtain ⟨d, hd, hmore⟩ := Draft.feedAll_append_eq_ok_iff.1 hall
  obtain ⟨d', hd', -⟩ := Draft.feedAll_cons_eq_ok_iff.1 hmore
  obtain ⟨e, he, hstep⟩ := Draft.feed_eq_ok_iff.1 hd'
  cases hcut with
  | before hhead =>
    rw [parse_of_segmented hlen' hhead hd]
    exact CutOff.of_step he hstep
  | @name u ht hu hhead =>
    obtain ⟨f, hstep'⟩ := hstep.of_kind (hu.trans ht.symm)
    have hf := Draft.feed_eq_ok_iff.2 ⟨e, he, hstep'⟩
    have hfall := Draft.feedAll_append_eq_ok_iff.2
      ⟨d, hd, Draft.feedAll_cons_eq_ok_iff.2 ⟨f, hf, Draft.feedAll_nil _ f⟩⟩
    rw [parse_of_segmented hlen' hhead hfall]
    obtain ⟨_, paren, g, hparen⟩ := hstep'.exists_openCall hu
    exact CutOff.of_step (.already hparen.settled) hparen
  | literal hkind hopen hclose hhead =>
    rw [Nat.zero_add, String.length_toList] at hopen hclose
    exact ⟨_, parse_of_unclosed hlen' hhead hd, .inLiteral (by simp [hts]) hkind hopen hclose⟩

theorem parse_of_cut_in_literal :
    Program.parse {} ("not(f(\"a \\\"" ++ " b\"), g())") =
      .ok ⟨⟨"not", [.call ⟨"f", [.literal ⟨"a \\\" b"⟩]⟩, .call ⟨"g", []⟩]⟩⟩ ∧
    (∃ c ∈ " b\"), g())".toList, isBlank c = false) ∧
    ∃ err, Program.parse {} "not(f(\"a \\\"" = .error err ∧
      CutOff ("not(f(\"a \\\"" ++ " b\"), g())") "not(f(\"a \\\"" err := by
  have h : Program.parse {} ("not(f(\"a \\\"" ++ " b\"), g())") =
      .ok ⟨⟨"not", [.call ⟨"f", [.literal ⟨"a \\\" b"⟩]⟩, .call ⟨"g", []⟩]⟩⟩ := by decide +kernel
  have hrest : ∃ c ∈ " b\"), g())".toList, isBlank c = false := ⟨'b', by decide, by decide⟩
  exact ⟨h, hrest, parse_of_cut h hrest⟩

end Program

end FilterLang
