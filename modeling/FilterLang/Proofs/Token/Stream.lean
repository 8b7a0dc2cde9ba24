import FilterLang.Proofs.Text.Cursor
import FilterLang.Proofs.Token.Segmentation
import Mathlib.Data.List.Basic

/-!
# Token streams are segmentations

* `Cursor.Scan.Describes` : the specification of one scan (`scan_describes`);
* `Cursor.scanInduction` : induction along the scans of a text;
* `Cursor.stream_segmented`, `Cursor.segmented_iff` : the stream of a cursor is the one segmentation
  of the text that remains there; `stream_stop` : it stops at the end of the text;
* `Cursor.tokenize_segmentation` : the same for `tokenize` on a whole text;
* `TokenStream.given` : the tokens of a stream and its `Eof`, if it has one; `TokenStream.places` :
  their positions, or that of the failure;
* `Segmented.increasing`, `Cursor.given_increasing` : positions increase strictly, so that
  `Cursor.eq_of_given_eq` : no token occurs twice in a stream.
-/

namespace FilterLang

namespace Cursor

variable {text : String}

/-! ## One scan -/

/-- The specification of a scan at `c`: after the blanks `w` stands a lexeme, the end of the text, or
the quote of an unclosed literal. -/
def Scan.Describes {c : Cursor text} : Scan c → Prop
  | .token t rest _ => ∃ w, (∀ ch ∈ w, isBlank ch = true) ∧ t.IsLexeme ∧
      t.position = c.position + w.length ∧ t.StopsBefore rest.remaining ∧
      c.Passes rest (w ++ t.spelling)
  | .ended stop => ∃ w, (∀ ch ∈ w, isBlank ch = true) ∧ c.Passes stop w ∧ stop.remaining = []
  | .failed e stop => ∃ w cs, (∀ ch ∈ w, isBlank ch = true) ∧ Unclosed cs ∧
      e = .unterminatedString (c.position + w.length) ∧ c.Passes stop (w ++ '"' :: cs) ∧
      stop.remaining = []

/-- Specification of `scan`. -/
theorem scan_describes (c : Cursor text) : c.scan.Describes := by
  obtain ⟨w, hw, hblank, hfirst⟩ := skipWhile_passes isBlank c
  rw [scan]
  dsimp only
  split
  · next hstep => exact ⟨w, hblank, hw, step?_eq_none_iff.1 hstep⟩
  next ch d hd hstep =>
  have hch := passes_of_step? hstep
  have hnb : isBlank ch = false := hfirst ch (by simp [hch.remaining])
  split
  · next hq =>
    subst hq
    obtain ⟨v, hv, hend⟩ := toClosingQuote_passes d
    split
    · next hstep' =>
      have hnil := step?_eq_none_iff.1 hstep'
      rcases hend with ⟨-, rest, hrest⟩ | ⟨-, hunclosed⟩
      · simp [hnil] at hrest
      · have hcs : d.remaining = v := by rw [hv.remaining, hnil, List.append_nil]
        refine ⟨w, v, hblank, hcs ▸ hunclosed, by rw [hw.position], ?_, hnil⟩
        simpa using hw.trans (hch.trans hv)
    · next q after hafter hstep' =>
      have hquote := passes_of_step? hstep'
      rcases hend with ⟨hclosed, rest, hrest⟩ | ⟨hnil, -⟩
      · have hq : q = '"' := by
          simpa [hquote.remaining] using congrArg List.head? hrest
        subst hq
        have hvalue : d.textTo d.toClosingQuote = String.ofList v :=
          hv.textTo (offset_le_toClosingQuote d)
        refine ⟨w, hblank, ?_, hw.position, by simp [Token.StopsBefore], ?_⟩
        · rw [hvalue]
          simpa [Token.IsLexeme] using hclosed
        · rw [Token.spelling_of_eq rfl, hvalue]
          simpa using hw.trans (hch.trans (hv.trans hquote))
      · simp [hquote.remaining] at hnil
  next hq =>
  split
  · next halpha =>
    obtain ⟨v, hv, hall, hnext⟩ := skipWhile_passes Char.isAlpha d
    have hname := hch.trans hv
    have hvalue : (c.skipWhile isBlank).textTo (d.skipWhile Char.isAlpha) = String.ofList (ch :: v) :=
      hname.textTo (String.Pos.le_trans (String.Pos.le_of_lt hd) (offset_le_skipWhile _ d))
    refine ⟨w, hblank, ?_, hw.position, fun _ => hnext, ?_⟩
    · rw [hvalue]
      refine Token.isName_iff.2 ⟨by simp, ?_⟩
      simpa [halpha] using hall
    · rw [Token.spelling_of_ne (by simp), hvalue]
      simpa using hw.trans hname
  · next halpha =>
    refine ⟨w, hblank, Token.isLexeme_ofMark hnb (by simpa using halpha) hq _, hw.position, ?_, ?_⟩
    · intro hk
      exact absurd hk (Token.ofMark_ne_identifier ch)
    · rw [Token.spelling_ofMark rfl rfl]
      exact hw.trans hch

/-! ## The stream of a cursor -/

theorem stream_of_token {c rest : Cursor text} {t : Token} {hlt : c.offset < rest.offset}
    (h : c.scan = .token t rest hlt) :
    c.stream = ⟨t :: rest.stream.tokens, rest.stream.failure?, rest.stream.stop⟩ := by
  rw [stream, streamAfter, h]
  exact streamAfter_eq [t] rest

theorem stream_of_ended {c stop : Cursor text} (h : c.scan = .ended stop) :
    c.stream = ⟨[], none, stop⟩ := by
  rw [stream, streamAfter, h]
  rfl

theorem stream_of_failed {c stop : Cursor text} {e : LexicalError} (h : c.scan = .failed e stop) :
    c.stream = ⟨[], some e, stop⟩ := by
  rw [stream, streamAfter, h]
  rfl

/-- Induction along the scans of a text, from its end backwards. -/
theorem scanInduction {motive : Cursor text → Prop}
    (ended : ∀ c stop, c.scan = .ended stop → motive c)
    (failed : ∀ c e stop, c.scan = .failed e stop → motive c)
    (token : ∀ c t rest hlt, c.scan = .token t rest hlt → motive rest → motive c)
    (c : Cursor text) : motive c := by
  refine streamAfter.induct (fun _ c => motive c) ?_ ?_ ?_ [] c
  · intro _ c t rest hlt h ih
    exact token c t rest hlt h ih
  · intro _ c stop h
    exact ended c stop h
  · intro _ c e stop h
    exact failed c e stop h

/-- Soundness of `stream`: it is a segmentation of the remaining characters. -/
theorem stream_segmented (c : Cursor text) :
    Segmented c.position c.remaining c.stream.tokens c.stream.failure? := by
  induction c using scanInduction with
  | ended c stop h =>
    obtain ⟨w, hblank, hw, hnil⟩ := h ▸ scan_describes c
    rw [stream_of_ended h, hw.remaining, hnil, List.append_nil]
    exact .blank hblank
  | failed c e stop h =>
    obtain ⟨w, cs, hblank, hcs, rfl, hw, hnil⟩ := h ▸ scan_describes c
    rw [stream_of_failed h, hw.remaining, hnil, List.append_nil]
    exact .unclosed hblank hcs
  | token c t rest hlt h ih =>
    obtain ⟨w, hblank, ht, hp, hstop, hw⟩ := h ▸ scan_describes c
    rw [stream_of_token h, hw.remaining, List.append_assoc]
    refine .token hblank ht hp hstop ?_
    have hpos : rest.position = t.position + t.spelling.length := by
      rw [hw.position, hp, List.length_append, Nat.add_assoc]
    exact hpos ▸ ih

/-- Soundness and completeness of `stream`. -/
theorem segmented_iff {c : Cursor text} {ts : List Token} {failure? : Option LexicalError} :
    Segmented c.position c.remaining ts failure? ↔
      c.stream.tokens = ts ∧ c.stream.failure? = failure? := by
  constructor
  · intro h
    exact c.stream_segmented.unique h
  · rintro ⟨rfl, rfl⟩
    exact c.stream_segmented

/-- The stream stops at the end of the text, at a failure, too. -/
theorem stream_stop (c : Cursor text) :
    c.stream.stop.remaining = [] ∧ c.stream.stop.position = c.position + c.remaining.length := by
  induction c using scanInduction with
  | ended c stop h =>
    obtain ⟨w, hblank, hw, hnil⟩ := h ▸ scan_describes c
    rw [stream_of_ended h]
    exact ⟨hnil, by simpa [hnil] using hw.position_add_length⟩
  | failed c e stop h =>
    obtain ⟨w, cs, hblank, hcs, rfl, hw, hnil⟩ := h ▸ scan_describes c
    rw [stream_of_failed h]
    exact ⟨hnil, by simpa [hnil] using hw.position_add_length⟩
  | token c t rest hlt h ih =>
    obtain ⟨w, hblank, ht, hp, hstop, hw⟩ := h ▸ scan_describes c
    rw [stream_of_token h, ← hw.position_add_length]
    exact ih

theorem exists_segmented (n : Nat) (cs : List Char) : ∃ ts failure?, Segmented n cs ts failure? := by
  let c : Cursor (String.ofList cs) := ⟨(String.ofList cs).startPos, n⟩
  have hc : c.remaining = cs :=
    (@remaining_start (String.ofList cs)).trans String.toList_ofList
  exact ⟨_, _, hc ▸ c.stream_segmented⟩

/-! ## Whole texts -/

theorem segmented_start_iff {ts : List Token} {failure? : Option LexicalError} :
    Segmented 0 text.toList ts failure? ↔
      (start text).stream.tokens = ts ∧ (start text).stream.failure? = failure? := by
  rw [← segmented_iff, remaining_start]
  rfl

theorem segmented_start (text : String) :
    Segmented 0 text.toList (start text).stream.tokens (start text).stream.failure? :=
  segmented_start_iff.2 ⟨rfl, rfl⟩

theorem stream_start_stop : (start text).stream.stop.position = text.length := by
  rw [(stream_stop _).2, remaining_start, String.length_toList]
  exact Nat.zero_add _

theorem tokenize_eq_ok_iff {ts : List Token} :
    (start text).tokenize.1 = .ok ts ↔
      ∃ us, Segmented 0 text.toList us none ∧ ts = us ++ [.endOfInput text.length] := by
  simp only [segmented_start_iff, tokenize, TokenStream.toList]
  split
  · next h => simp [h, stream_start_stop, eq_comm]
  · next e h => simp [h]

theorem tokenize_eq_error_iff {e : LexicalError} :
    (start text).tokenize.1 = .error e ↔ ∃ us, Segmented 0 text.toList us (some e) := by
  simp only [segmented_start_iff, tokenize, TokenStream.toList]
  split
  · next h => simp [h]
  · next e h => simp [h]

/-- **Tokenizing is segmentation.** `tokenize` succeeds with exactly the segmentation of the text,
which is unique; where there is none, it fails at the quote `p` of an unclosed literal, and the
text before `p` is segmented. -/
theorem tokenize_segmentation (text : String) :
    (∀ ts, (start text).tokenize.1 = .ok ts ↔
      ∃ us, Segmented 0 text.toList us none ∧ ts = us ++ [.endOfInput text.length]) ∧
    (∀ us vs, Segmented 0 text.toList us none → Segmented 0 text.toList vs none → us = vs) ∧
    ((∀ us, ¬ Segmented 0 text.toList us none) →
      ∃ p, (start text).tokenize.1 = .error (.unterminatedString p)) ∧
    ∀ p, (start text).tokenize.1 = .error (.unterminatedString p) ↔
      text.toList[p]? = some '"' ∧ Unclosed (text.toList.drop (p + 1)) ∧
      ∃ us, Segmented 0 (text.toList.take p) us none ∧
        ∀ t ∈ us, t.position + t.spelling.length ≤ p := by
  refine ⟨fun ts => tokenize_eq_ok_iff, fun us vs hu hv => (hu.unique hv).1, fun hnone => ?_,
    fun p => ?_⟩
  · cases h : (start text).tokenize.1 with
    | ok ts =>
      obtain ⟨us, hus, -⟩ := tokenize_eq_ok_iff.1 h
      exact absurd hus (hnone us)
    | error e =>
      obtain ⟨p⟩ := e
      exact ⟨p, rfl⟩
  · simp only [tokenize_eq_error_iff, Segmented.failure_iff, Nat.zero_add]
    constructor
    · rintro ⟨us, a, b, htext, rfl, ha, hb⟩
      rw [htext]
      refine ⟨by simp, by simpa using hb, us, by simpa using ha, fun t ht => ?_⟩
      simpa using ha.within t ht
    · rintro ⟨hquote, hunclosed, us, hus, -⟩
      obtain ⟨hlt, hget⟩ := List.getElem?_eq_some_iff.1 hquote
      refine ⟨us, text.toList.take p, text.toList.drop (p + 1), ?_, ?_, hus, hunclosed⟩
      · rw [← hget, List.getElem_cons_drop, List.take_append_drop]
      · rw [List.length_take, Nat.min_eq_left (Nat.le_of_lt hlt)]

end Cursor

/-! ## Tokens in order -/

namespace TokenStream

variable {text : String}

/-- The tokens of the stream, with its `Eof` unless the stream fails. -/
def given (s : TokenStream text) : List Token :=
  match s.failure? with
  | none => s.tokens ++ [.endOfInput s.stop.position]
  | some _ => s.tokens

/-- The position of `Eof` or of the failure. -/
def lastPlace (s : TokenStream text) : Nat :=
  match s.failure? with
  | none => s.stop.position
  | some e => e.position

def places (s : TokenStream text) : List Nat := s.tokens.map Token.position ++ [s.lastPlace]

theorem given_of_failure_eq_none {s : TokenStream text} (h : s.failure? = none) :
    s.given = s.tokens ++ [.endOfInput s.stop.position] := by
  unfold given
  rw [h]

theorem exists_given_eq (s : TokenStream text) : ∃ last, s.given = s.tokens ++ last := by
  unfold given
  split
  · exact ⟨_, rfl⟩
  · exact ⟨[], (List.append_nil _).symm⟩

end TokenStream

theorem Token.IsLexeme.length_pos {t : Token} (h : t.IsLexeme) : 0 < t.spelling.length := by
  obtain ⟨c, cs, hc, -, -⟩ := h.spelling_eq_cons
  simp [hc]

namespace Segmented

variable {n : Nat} {cs : List Char} {ts : List Token} {failure? : Option LexicalError}

theorem le_position (h : Segmented n cs ts failure?) : ∀ t ∈ ts, n ≤ t.position := by
  induction h with
  | blank _ => simp
  | unclosed _ _ => simp
  | @token n w cs t ts _ hw ht hp hstop hcs ih =>
    intro u hu
    rcases List.mem_cons.1 hu with rfl | hu
    · omega
    · have hle := ih u hu
      omega

theorem increasing (h : Segmented n cs ts failure?) :
    ts.Pairwise fun t u => t.position < u.position := by
  induction h with
  | blank _ => exact .nil
  | unclosed _ _ => exact .nil
  | @token n w cs t ts _ hw ht hp hstop hcs ih =>
    refine List.pairwise_cons.2 ⟨fun u hu => ?_, ih⟩
    have hle := hcs.le_position u hu
    have hpos := ht.length_pos
    omega

theorem length_le (h : Segmented n cs ts failure?) : ts.length ≤ cs.length := by
  induction h with
  | blank _ => exact Nat.zero_le _
  | unclosed _ _ => exact Nat.zero_le _
  | token _ ht _ _ _ ih =>
    have hpos := ht.length_pos
    simp only [List.length_cons, List.length_append]
    omega

theorem position_lt_of_failure {p : Nat} (h : Segmented n cs ts (some (.unterminatedString p))) :
    ∀ t ∈ ts, t.position < p := by
  obtain ⟨a, b, -, rfl, ha, -⟩ := failure_iff.1 h
  intro t ht
  have hwithin := ha.within t ht
  have hpos := (ha.isLexeme t ht).length_pos
  omega

end Segmented

namespace Cursor

variable {text : String}

theorem given_increasing (c : Cursor text) :
    c.stream.given.Pairwise fun t u => t.position < u.position := by
  have hseg := c.stream_segmented
  have hinc := hseg.increasing
  unfold TokenStream.given
  split
  · refine List.pairwise_append.2 ⟨hinc, List.pairwise_singleton _ _, fun t ht u hu => ?_⟩
    obtain rfl := List.mem_singleton.1 hu
    have hwithin := hseg.within t ht
    have hpos := (hseg.isLexeme t ht).length_pos
    show t.position < c.stream.stop.position
    rw [(stream_stop c).2]
    omega
  · exact hinc

/-- No token occurs twice in a stream. -/
theorem eq_of_given_eq {c : Cursor text} {t : Token} {ts us vs ws : List Token}
    (h : c.stream.given = ts ++ t :: us) (h' : c.stream.given = vs ++ t :: ws) :
    ts = vs ∧ us = ws := by
  have hinc := c.given_increasing
  rw [h] at hinc
  obtain ⟨-, hbehind, hbefore⟩ := List.pairwise_append.1 hinc
  have hts : t ∉ ts := fun ht => Nat.lt_irrefl _ (hbefore t ht t List.mem_cons_self)
  have hus : t ∉ us := fun ht => Nat.lt_irrefl _ (List.rel_of_pairwise_cons hbehind ht)
  obtain ⟨hvs, -, hws⟩ := (List.append_cons_inj_of_notMem hts hus).1 (h.symm.trans h')
  exact ⟨hvs, hws⟩

end Cursor

end FilterLang
