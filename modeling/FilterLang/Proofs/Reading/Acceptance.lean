import FilterLang.Proofs.Draft.Step
import FilterLang.Proofs.Token.Stream
import FilterLang.Reading
import FilterLang.Proofs.Draft.Grammar

/-!
# The outcome of a parse

* `Draft.Stops d s outcome taken position` : the big-step relation of `Draft.read` from the draft `d` on
  the stream `s` (`Draft.read_stops`, `Stops.unique`);
* `Stops.outcome_eq` : the outcome in terms of the whole stream, as if it were tokenized first;
* `Stops.exists_misfit`, `Stops.position_eq` : the token of a grammar error, and the cursor behind the
  last token taken;
* `Program.parse_of_segmented`, `Program.parse_of_unclosed`, `Program.parse_of_refuses` : the outcome
  from a segmentation of the text;
* `Program.parse_eq_ok_iff`, `Program.parse_accepts_iff` : the accepted texts.
-/

namespace FilterLang

namespace Draft

variable {text : String} {maxDepth position position' : Nat} {d e : Draft} {t : Token}
  {s : TokenStream text} {taken taken' : List Token}
  {outcome outcome' : Except ParseError Program}

/-- The ways in which `Draft.read` stops, with the tokens taken and the position of the cursor. -/
inductive Stops (maxDepth : Nat) (d : Draft) (s : TokenStream text) :
    Except ParseError Program → List Token → Nat → Prop
  | atToken {us vs : List Token} {t : Token} {e : Draft} {err : ParseError}
      (hs : s.tokens = us ++ t :: vs) (hd : d.feedAll maxDepth us = .ok e)
      (herr : e.feed maxDepth t = .error err) : Stops maxDepth d s (.error err) (us ++ [t]) t.stop
  | atEnd {e : Draft} (hgood : s.failure? = none) (hd : d.feedAll maxDepth s.tokens = .ok e) :
      Stops maxDepth d s (e.finish maxDepth s.stop.position)
        (s.tokens ++ [.endOfInput s.stop.position]) s.stop.position
  | atFailure {e : Draft} {err : LexicalError} (hbad : s.failure? = some err)
      (hd : d.feedAll maxDepth s.tokens = .ok e) :
      Stops maxDepth d s (.error (.lexical err)) s.tokens s.stop.position

theorem eq_of_misfit {us vs us' vs' : List Token} {t t' : Token} {e e' : Draft} {err : ParseError}
    (h : us ++ t :: vs = us' ++ t' :: vs') (hle : us.length ≤ us'.length)
    (hd : d.feedAll maxDepth us = .ok e) (herr : e.feed maxDepth t = .error err)
    (hd' : d.feedAll maxDepth us' = .ok e') : us = us' ∧ t = t' := by
  rcases List.append_eq_append_iff.1 h with ⟨more, rfl, hmore⟩ | ⟨more, rfl, hmore⟩
  · rcases more with _ | ⟨u, more⟩
    · have hheads := (List.cons.inj hmore).1
      exact ⟨(List.append_nil us).symm, hheads⟩
    · -- The token `t` would be taken on the way to `t'`.
      obtain ⟨rfl, -⟩ := List.cons.inj hmore
      rw [feedAll_of_misfit hd herr] at hd'
      cases hd'
  · obtain rfl : more = [] := by
      rw [List.length_append] at hle
      exact List.length_eq_zero_iff.1 (by omega)
    have hheads := (List.cons.inj hmore).1
    exact ⟨List.append_nil us', hheads.symm⟩

theorem Stops.unique (h : Stops maxDepth d s outcome taken position)
    (h' : Stops maxDepth d s outcome' taken' position') :
    outcome = outcome' ∧ taken = taken' ∧ position = position' := by
  have hall : ∀ {us vs : List Token} {t : Token} {e f : Draft} {err : ParseError},
      s.tokens = us ++ t :: vs → d.feedAll maxDepth us = .ok e → e.feed maxDepth t = .error err →
      d.feedAll maxDepth s.tokens ≠ .ok f := by
    intro us vs t e f err hs hd herr hf
    rw [hs, feedAll_of_misfit hd herr] at hf
    cases hf
  cases h with
  | @atToken us vs t e err hs hd herr =>
    cases h' with
    | @atToken us' vs' t' e' err' hs' hd' herr' =>
      have heq := hs.symm.trans hs'
      have hboth : us = us' ∧ t = t' := by
        rcases Nat.le_total us.length us'.length with hle | hle
        · exact eq_of_misfit heq hle hd herr hd'
        · exact (eq_of_misfit heq.symm hle hd' herr' hd).imp Eq.symm Eq.symm
      obtain ⟨rfl, rfl⟩ := hboth
      obtain rfl := feedAll_unique hd hd'
      rw [herr] at herr'
      obtain rfl := Except.error.inj herr'
      exact ⟨rfl, rfl, rfl⟩
    | atEnd _ hd' => exact absurd hd' (hall hs hd herr)
    | atFailure _ hd' => exact absurd hd' (hall hs hd herr)
  | @atEnd e hgood hd =>
    cases h' with
    | atToken hs' hd' herr' => exact absurd hd (hall hs' hd' herr')
    | atEnd _ hd' =>
      obtain rfl := feedAll_unique hd hd'
      exact ⟨rfl, rfl, rfl⟩
    | atFailure hbad _ =>
      rw [hgood] at hbad
      cases hbad
  | @atFailure e err hbad hd =>
    cases h' with
    | atToken hs' hd' herr' => exact absurd hd (hall hs' hd' herr')
    | atEnd hgood _ =>
      rw [hgood] at hbad
      cases hbad
    | atFailure hbad' _ =>
      rw [hbad] at hbad'
      obtain rfl := Option.some.inj hbad'
      exact ⟨rfl, rfl, rfl⟩

/-- Lexing on demand gives the same outcome as lexing the whole stream first, but for the order of
errors: a grammar error comes before a lexical one. -/
theorem Stops.outcome_eq (h : Stops maxDepth d s outcome taken position) :
    outcome = (do
      let e ← d.feedAll maxDepth s.tokens
      match s.failure? with
      | some err => .error (.lexical err)
      | none => e.finish maxDepth s.stop.position) := by
  cases h with
  | atToken hs hd herr =>
    rw [hs, feedAll_of_misfit hd herr]
    rfl
  | atEnd hgood hd =>
    rw [hgood, hd]
    rfl
  | atFailure hbad hd =>
    rw [hbad, hd]
    rfl

/-- A grammar error is about the first token that the draft before it refuses. -/
theorem Stops.exists_misfit {err : GrammarError}
    (h : Stops maxDepth d s (.error (.grammar err)) taken position) :
    ∃ ts rest e, s.given = ts ++ err.token :: rest ∧ d.feedAll maxDepth ts = .ok e ∧
      e.feed maxDepth err.token = .error (.grammar err) := by
  generalize houtcome : Except.error (ParseError.grammar err) = outcome at h
  cases h with
  | @atToken us vs t e _ hs hd herr =>
    obtain rfl := Except.error.inj houtcome
    have htoken : err.token = t := (feed_eq_grammar herr).1
    obtain ⟨last, hlast⟩ := s.exists_given_eq
    refine ⟨us, vs ++ last, e, ?_, hd, htoken ▸ herr⟩
    rw [hlast, hs, htoken, List.append_assoc, List.cons_append]
  | @atEnd e hgood hd =>
    have hfeed := (finish_eq_error_iff.1 houtcome.symm).1
    have htoken : err.token = .endOfInput s.stop.position := (feed_eq_grammar hfeed).1
    exact ⟨s.tokens, [], e, htoken ▸ TokenStream.given_of_failure_eq_none hgood, hd,
      htoken ▸ hfeed⟩
  | atFailure _ _ => cases houtcome

/-- Behind a grammar error the cursor is at the end of the refused token, which is the last one taken. -/
theorem Stops.position_eq {err : GrammarError}
    (h : Stops maxDepth d s (.error (.grammar err)) taken position) :
    taken.getLast? = some err.token ∧ position = err.token.stop := by
  generalize houtcome : Except.error (ParseError.grammar err) = outcome at h
  cases h with
  | @atToken us vs t e _ hs hd herr =>
    obtain rfl := Except.error.inj houtcome
    obtain ⟨rfl, -⟩ := feed_eq_grammar herr
    exact ⟨List.getLast?_concat, rfl⟩
  | @atEnd e hgood hd =>
    rw [finish_eq_grammar houtcome.symm]
    exact ⟨List.getLast?_concat, rfl⟩
  | atFailure _ _ => cases houtcome

/-! ## `Draft.read` -/

theorem Stops.cons (hd : d.feed maxDepth t = .ok e)
    (h : Stops maxDepth e s outcome taken position) :
    Stops maxDepth d ⟨t :: s.tokens, s.failure?, s.stop⟩ outcome (t :: taken) position := by
  cases h with
  | @atToken us vs u f err hs hus herr =>
    have hcons : t :: s.tokens = (t :: us) ++ u :: vs := by rw [hs, List.cons_append]
    exact .atToken hcons (feedAll_cons_eq_ok_iff.2 ⟨e, hd, hus⟩) herr
  | atEnd hgood hall => exact .atEnd hgood (feedAll_cons_eq_ok_iff.2 ⟨e, hd, hall⟩)
  | atFailure hbad hall => exact .atFailure hbad (feedAll_cons_eq_ok_iff.2 ⟨e, hd, hall⟩)

/-- Correctness of `read` against `Stops`, by induction on the scans. -/
theorem read_stops (maxDepth : Nat) (d : Draft) (c : Cursor text) :
    Stops maxDepth d c.stream (d.read maxDepth [] c).outcome (d.read maxDepth [] c).tokens
      (d.read maxDepth [] c).stop.position := by
  induction c using Cursor.scanInduction generalizing d with
  | ended c stop h =>
    rw [Cursor.stream_of_ended h, Draft.read, h]
    exact .atEnd rfl rfl
  | failed c e stop h =>
    rw [Cursor.stream_of_failed h, Draft.read, h]
    exact .atFailure rfl rfl
  | token c t rest hlt h ih =>
    obtain ⟨w, -, -, hp, -, hw⟩ := h ▸ c.scan_describes
    have hstop : rest.position = t.stop := by
      rw [hw.position, Token.stop_eq, hp, List.length_append, Nat.add_assoc]
    rw [Cursor.stream_of_token h, Draft.read, h]
    dsimp only
    cases hd : d.feed maxDepth t with
    | error e =>
      have hcons : t :: rest.stream.tokens = [] ++ t :: rest.stream.tokens := rfl
      show Stops maxDepth d _ (.error e) [t] rest.position
      rw [hstop]
      exact .atToken hcons (feedAll_nil maxDepth d) hd
    | ok d' =>
      dsimp only
      rw [Draft.read_eq]
      exact (ih d').cons hd

end Draft

theorem Reading.of_stops {limits : Limits} {text : String}
    (hlen : text.length ≤ limits.maxInputLen) :
    Draft.empty.Stops limits.maxDepth (Cursor.start text).stream (Reading.of limits text).outcome
      (Reading.of limits text).tokens (Reading.of limits text).stop.position := by
  rw [Reading.of, if_neg (Nat.not_lt.2 hlen)]
  exact Draft.read_stops _ _ _

theorem Program.exists_stops {limits : Limits} {text : String}
    (hlen : text.length ≤ limits.maxInputLen) :
    ∃ taken position, Draft.empty.Stops limits.maxDepth (Cursor.start text).stream
      (Program.parse limits text) taken position :=
  ⟨_, _, Reading.of_stops hlen⟩

theorem Program.stops_of_parse {limits : Limits} {text : String} {err : GrammarError}
    (h : Program.parse limits text = .error (.grammar err)) :
    ∃ taken position, Draft.empty.Stops limits.maxDepth (Cursor.start text).stream
      (.error (.grammar err)) taken position := by
  by_cases hlen : text.length ≤ limits.maxInputLen
  · exact h ▸ Program.exists_stops hlen
  · rw [Program.parse, Reading.of, if_pos (Nat.lt_of_not_le hlen)] at h
    cases h

/-! ## Accepted texts -/

open Token (Shape)
open Token.Shape (lparen rparen eof)

/-- A parse as a run over the tokens of the text, with the failure or the end behind it. -/
theorem Program.parse_eq {limits : Limits} {text : String}
    (hlen : text.length ≤ limits.maxInputLen) :
    Program.parse limits text = (do
      let d ← Draft.empty.feedAll limits.maxDepth (Cursor.start text).stream.tokens
      match (Cursor.start text).stream.failure? with
      | some e => .error (.lexical e)
      | none => d.finish limits.maxDepth text.length) := by
  rw [Program.parse, ← Cursor.stream_start_stop]
  exact (Reading.of_stops hlen).outcome_eq

theorem Program.parse_of_length_lt {limits : Limits} {text : String}
    (hlen : limits.maxInputLen < text.length) :
    Program.parse limits text = .error (.inputTooLong text.length limits.maxInputLen) := by
  rw [Program.parse, Reading.of, if_pos hlen]

theorem Program.parse_of_segmented {limits : Limits} {text : String} {ts : List Token} {d : Draft}
    (hlen : text.length ≤ limits.maxInputLen) (hts : Segmented 0 text.toList ts none)
    (hd : Draft.empty.feedAll limits.maxDepth ts = .ok d) :
    Program.parse limits text = d.finish limits.maxDepth text.length := by
  obtain ⟨rfl, hgood⟩ := Cursor.segmented_start_iff.1 hts
  rw [Program.parse_eq hlen, hd, hgood]
  rfl

theorem Program.parse_of_unclosed {limits : Limits} {text : String} {ts : List Token} {d : Draft}
    {e : LexicalError} (hlen : text.length ≤ limits.maxInputLen)
    (hts : Segmented 0 text.toList ts (some e))
    (hd : Draft.empty.feedAll limits.maxDepth ts = .ok d) :
    Program.parse limits text = .error (.lexical e) := by
  obtain ⟨rfl, hbad⟩ := Cursor.segmented_start_iff.1 hts
  rw [Program.parse_eq hlen, hd, hbad]
  rfl

theorem Program.parse_of_refuses {limits : Limits} {text : String} {us vs : List Token} {t : Token}
    {d : Draft} {err : ParseError} (hlen : text.length ≤ limits.maxInputLen)
    (hs : (Cursor.start text).stream.tokens = us ++ t :: vs)
    (hd : Draft.empty.feedAll limits.maxDepth us = .ok d)
    (h : Draft.Refuses limits.maxDepth d t err) : Program.parse limits text = .error err := by
  rw [Program.parse_eq hlen, hs, Draft.feedAll_of_misfit hd (Draft.feed_eq_error_iff.2 h)]
  rfl

/-- Accepted texts, by their segmentation. -/
theorem Program.parse_eq_ok_iff {limits : Limits} {text : String} {p : Program} :
    Program.parse limits text = .ok p ↔
      text.length ≤ limits.maxInputLen ∧ ∃ ts k, Segmented 0 text.toList ts none ∧
        ts.map Token.shape = Shape.groups k p.expression.flat ∧
        k + p.expression.depth ≤ limits.maxDepth := by
  by_cases hlen : text.length ≤ limits.maxInputLen
  · constructor
    · intro h
      rw [Program.parse_eq hlen, bind_eq_ok_iff] at h
      obtain ⟨d, hd, h⟩ := h
      split at h
      · cases h
      next hgood =>
      have hseg := hgood ▸ Cursor.segmented_start text
      obtain ⟨hphase, hgroups⟩ := Draft.finish_eq_ok_iff.1 h
      obtain ⟨k, hts, hdepth⟩ := (Draft.feedAll_reads hseg.isLexeme hd).whole hphase hgroups
      exact ⟨hlen, _, k, hseg, hts, hdepth⟩
    · rintro ⟨-, ts, k, hseg, hts, hdepth⟩
      rw [Program.parse_of_segmented hlen hseg (Draft.feedAll_groups hts hdepth)]
      exact Draft.finish_eq_ok_iff.2 ⟨rfl, rfl⟩
  · rw [Program.parse_of_length_lt (Nat.lt_of_not_le hlen)]
    simp [hlen]

/-- **The accepted texts** are those within `maxInputLen` that tokenize to a call in `g` groups, where
`g` and the depth of the call together are within `maxDepth`. -/
theorem Program.parse_accepts_iff (limits : Limits) (text : String) (c : Call) :
    Program.parse limits text = .ok ⟨c⟩ ↔
      text.length ≤ limits.maxInputLen ∧ ∃ ts, (Cursor.start text).tokenize.1 = .ok ts ∧
        ∃ g, ts.map Token.shape =
            List.replicate g lparen ++ c.flat ++ List.replicate g rparen ++ [eof] ∧
          g + c.depth ≤ limits.maxDepth := by
  rw [Program.parse_eq_ok_iff]
  refine and_congr_right fun _ => ?_
  simp only [Cursor.tokenize_eq_ok_iff]
  have heof : (Token.endOfInput text.length).shape = eof := rfl
  constructor
  · rintro ⟨ts, g, hseg, hts, hdepth⟩
    refine ⟨_, ⟨ts, hseg, rfl⟩, g, ?_, hdepth⟩
    rw [List.map_append, hts, List.map_singleton, heof, Shape.groups]
  · rintro ⟨_, ⟨ts, hseg, rfl⟩, g, hts, hdepth⟩
    rw [List.map_append, List.map_singleton, heof] at hts
    exact ⟨ts, g, hseg, List.append_cancel_right hts, hdepth⟩

end FilterLang
