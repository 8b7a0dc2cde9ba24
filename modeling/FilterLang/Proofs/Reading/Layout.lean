import FilterLang.Proofs.Draft.Alike
import FilterLang.Proofs.Reading.Acceptance
import FilterLang.Proofs.Token.Stream
import FilterLang.Proofs.Token.Shape
import FilterLang.Proofs.Tree.Flat

/-!
# Texts with the same outcome

* `SamePlace s s' p q` : `p` and `q` are the positions of tokens of the same index in two streams;
* `Program.parse_of_layout` : texts with the same shapes have outcomes that are equal up to `SamePlace`;
* `AgreesTo n text text'` : the same first `n` characters and the same character behind them;
* `Draft.Stops.agrees`, `Reading.of_agreesTo` : the text behind the cursor of a stopped parse, and one
  character of lookahead, does not matter;
* `inParens k cs` : the characters in `k` pairs of parentheses (`Spells.inParens`,
  `Segmented.of_inParens`: their segmentation);
* `Token.Shape.exists_of_groups_eq` : cancellation of groups;
* `Program.parse_in_parentheses` : redundant parentheses cost one level and two characters each.
-/

namespace FilterLang

/-! ## Layout -/

variable {text text' : String} {s : TokenStream text} {s' : TokenStream text'}

/-- `p` and `q` are positions of the same index in the two streams. -/
def SamePlace (s : TokenStream text) (s' : TokenStream text') (p q : Nat) : Prop :=
  ∃ i : Nat, s.places[i]? = some p ∧ s'.places[i]? = some q

namespace TokenStream

theorem places_getElem? {i : Nat} (hi : i < s.tokens.length) :
    s.places[i]? = some s.tokens[i].position := by
  have hmap : i < (s.tokens.map Token.position).length := by rwa [List.length_map]
  rw [places, List.getElem?_append_left hmap, List.getElem?_map, List.getElem?_eq_getElem hi]
  rfl

theorem places_getElem?_length (s : TokenStream text) :
    s.places[s.tokens.length]? = some s.lastPlace := by
  have hmap : (s.tokens.map Token.position).length = s.tokens.length := List.length_map _
  rw [places, ← hmap, List.getElem?_concat_length]

theorem samePlace_last (h : s.tokens.length = s'.tokens.length) :
    SamePlace s s' s.lastPlace s'.lastPlace :=
  ⟨_, s.places_getElem?_length, h ▸ s'.places_getElem?_length⟩

theorem tokens_alike (h : s.tokens.map Token.shape = s'.tokens.map Token.shape) :
    List.Forall₂ (Token.Alike (SamePlace s s')) s.tokens s'.tokens := by
  have hlen : s.tokens.length = s'.tokens.length := by simpa using congrArg List.length h
  refine List.forall₂_iff_get.2 ⟨hlen, fun i hi hi' => ⟨?_, i, ?_, ?_⟩⟩
  · have hshapes := congrArg (fun shapes => shapes[i]?) h
    simpa [hi, hi'] using hshapes.symm
  · exact places_getElem? hi
  · exact places_getElem? hi'

end TokenStream

/-- **Layout does not matter.** Two texts with the same shapes, both or neither with a lexical failure,
have the same program or the same error up to `SamePlace`. -/
theorem Program.parse_of_layout {limits : Limits} (hlen : text.length ≤ limits.maxInputLen)
    (hlen' : text'.length ≤ limits.maxInputLen)
    (htokens : (Cursor.start text).stream.tokens.map Token.shape =
      (Cursor.start text').stream.tokens.map Token.shape)
    (hend : (Cursor.start text).stream.failure?.isSome =
      (Cursor.start text').stream.failure?.isSome) :
    Outcome.Alike (SamePlace (Cursor.start text).stream (Cursor.start text').stream) Eq
      (Program.parse limits text) (Program.parse limits text') := by
  have hlast := TokenStream.samePlace_last (by simpa using congrArg List.length htokens)
  rw [parse_eq hlen, parse_eq hlen']
  refine (Draft.feedAll_alike (TokenStream.tokens_alike htokens) .opening).bind fun d e hd => ?_
  unfold TokenStream.lastPlace at hlast
  rcases hfail : (Cursor.start text).stream.failure? with _ | ⟨p⟩
  · have hfail' : (Cursor.start text').stream.failure? = none := by
      rwa [hfail, Option.isSome_none, eq_comm, Option.isSome_eq_false_iff,
        Option.isNone_iff_eq_none] at hend
    rw [hfail'] at hlast ⊢
    rw [hfail] at hlast
    dsimp only at hlast ⊢
    rw [Cursor.stream_start_stop, Cursor.stream_start_stop] at hlast
    exact Draft.finish_alike hd hlast
  · obtain ⟨⟨q⟩, hfail'⟩ : ∃ e', (Cursor.start text').stream.failure? = some e' := by
      rwa [hfail, Option.isSome_some, eq_comm, Option.isSome_iff_exists] at hend
    rw [hfail'] at hlast ⊢
    rw [hfail] at hlast
    exact .error (.lexical hlast)

theorem Program.parse_of_spread_out :
    (Cursor.start "f(\"a\",)").stream.tokens.map Token.shape =
      (Cursor.start " f (\n\"a\" , )").stream.tokens.map Token.shape ∧
    Program.parse {} "f(\"a\",)" = .error (.grammar (.invalidArgument ⟨.rparen, ")", 6⟩)) ∧
    Outcome.Alike (SamePlace (Cursor.start "f(\"a\",)").stream
        (Cursor.start " f (\n\"a\" , )").stream) Eq
      (Program.parse {} "f(\"a\",)") (Program.parse {} " f (\n\"a\" , )") := by
  have htokens : (Cursor.start "f(\"a\",)").stream.tokens.map Token.shape =
      (Cursor.start " f (\n\"a\" , )").stream.tokens.map Token.shape := by decide +kernel
  have hend : (Cursor.start "f(\"a\",)").stream.failure?.isSome =
      (Cursor.start " f (\n\"a\" , )").stream.failure?.isSome := by decide +kernel
  exact ⟨htokens, by decide +kernel, parse_of_layout (by decide) (by decide) htokens hend⟩

/-! ## Lookahead -/

/-- The texts agree on the first `n` characters and on the one behind them, which may be missing in both. -/
structure AgreesTo (n : Nat) (text text' : String) : Prop where
  before : text'.toList.take n = text.toList.take n
  next : text'.toList[n]? = text.toList[n]?

variable {text text' : String} {n maxDepth : Nat}

theorem getElem?_append_length (a b : List Char) : (a ++ b)[a.length]? = b.head? := by
  rw [List.getElem?_append_right (Nat.le_refl _), Nat.sub_self, List.head?_eq_getElem?]

theorem AgreesTo.eq (h : AgreesTo text.length text text') : text' = text := by
  have hnone : text'.toList[text.length]? = none := by
    rw [h.next, ← String.length_toList]
    exact List.getElem?_eq_none (Nat.le_refl _)
  have hbefore := h.before
  rw [List.take_of_length_le (List.getElem?_eq_none_iff.1 hnone), ← String.length_toList,
    List.take_length] at hbefore
  exact String.toList_inj.1 hbefore

namespace Segmented

variable {ts us : List Token} {t : Token} {failure? : Option LexicalError}

/-- The tokens up to `t` depend only on the characters up to its end and the one behind. -/
theorem agrees (h : Segmented 0 text.toList (ts ++ t :: us) failure?)
    (hagree : AgreesTo t.stop text text') :
    ∃ us' failure?', Segmented 0 text'.toList (ts ++ t :: us') failure?' := by
  obtain ⟨a, rest, htext, ha, hpos, ht, hstop, hapart, -⟩ := h.split
  have hlen : t.stop = (a ++ t.spelling).length := by
    rw [Token.stop_eq, hpos, List.length_append, Nat.zero_add]
  have hbefore := hagree.before
  have hnext := hagree.next
  rw [htext, ← List.append_assoc, hlen] at hbefore hnext
  rw [List.take_left] at hbefore
  -- The other text goes on in its own way behind `t`.
  obtain ⟨rest', hrest'⟩ : ∃ rest', text'.toList = (a ++ t.spelling) ++ rest' :=
    ⟨_, by rw [← hbefore, List.take_append_drop]⟩
  rw [hrest', getElem?_append_length, getElem?_append_length] at hnext
  have hstop' : t.StopsBefore rest' := fun hk c hc => hstop hk c (hnext ▸ hc)
  obtain ⟨us', failure?', hus'⟩ :=
    Cursor.exists_segmented (t.position + t.spelling.length) rest'
  have htoken : Segmented t.position (t.spelling ++ rest') (t :: us') failure?' :=
    .token (w := []) (by simp) ht rfl hstop' hus'
  have hne : t.spelling ≠ [] := List.length_pos_iff.1 ht.length_pos
  refine ⟨us', failure?', ?_⟩
  rw [hrest', List.append_assoc]
  exact ha.append (hpos ▸ htoken) (hapart.append_right hne rest')

end Segmented

/-- A stop depends only on the characters before it. -/
theorem Draft.Stops.agrees {d : Draft} {outcome : Except ParseError Program} {taken : List Token}
    (h : d.Stops maxDepth (Cursor.start text).stream outcome taken n)
    (hagree : AgreesTo n text text') :
    d.Stops maxDepth (Cursor.start text').stream outcome taken n := by
  have hseg := Cursor.segmented_start text
  cases h with
  | atToken hs hd herr =>
    rw [hs] at hseg
    obtain ⟨vs', failure?', hseg'⟩ := hseg.agrees hagree
    exact .atToken (Cursor.segmented_start_iff.1 hseg').1 hd herr
  | atEnd hgood hd =>
    rw [Cursor.stream_start_stop] at hagree
    obtain rfl := hagree.eq
    exact .atEnd hgood hd
  | atFailure hbad hd =>
    rw [Cursor.stream_start_stop] at hagree
    obtain rfl := hagree.eq
    exact .atFailure hbad hd

/-- **The text behind the cursor of a stopped parse does not matter,** but for one character of
lookahead: outcome, tokens and cursor are the same. At a grammar error the cursor is at the end of the
refused token, so that an unclosed literal behind it is never reported. -/
theorem Reading.of_agreesTo {limits : Limits} (hlen : text.length ≤ limits.maxInputLen)
    (hlen' : text'.length ≤ limits.maxInputLen)
    (hagree : AgreesTo (Reading.of limits text).stop.position text text') :
    (Reading.of limits text').outcome = (Reading.of limits text).outcome ∧
      (Reading.of limits text').tokens = (Reading.of limits text).tokens ∧
      (Reading.of limits text').stop.position = (Reading.of limits text).stop.position ∧
      ∀ err, Program.parse limits text = .error (.grammar err) →
        (Reading.of limits text).tokens.getLast? = some err.token ∧
        (Reading.of limits text).stop.position = err.token.stop ∧
        ∀ e, Program.parse limits text' ≠ .error (.lexical e) := by
  have hstops := Reading.of_stops hlen
  obtain ⟨houtcome, htokens, hposition⟩ := (Reading.of_stops hlen').unique (hstops.agrees hagree)
  refine ⟨houtcome, htokens, hposition, fun err herr => ?_⟩
  have hgrammar : (Reading.of limits text).outcome = .error (.grammar err) := herr
  rw [hgrammar] at hstops houtcome
  obtain ⟨hlast, hstop⟩ := hstops.position_eq
  refine ⟨hlast, hstop, fun e he => ?_⟩
  have hsame : Program.parse limits text' = .error (.grammar err) := houtcome
  rw [he] at hsame
  cases hsame

/-- An unclosed literal behind the refused one. -/
theorem Reading.of_agreesTo_unclosed :
    (Reading.of {} "f(x \"ok\")").stop.position = 8 ∧
    AgreesTo 8 "f(x \"ok\")" "f(x \"ok\") \"open" ∧
    Program.parse {} "f(x \"ok\")" =
      .error (.grammar (.expectedOpenParen ⟨.stringLiteral, "ok", 4⟩ "x")) ∧
    (Reading.of {} "f(x \"ok\") \"open").outcome = (Reading.of {} "f(x \"ok\")").outcome ∧
    (Reading.of {} "f(x \"ok\") \"open").tokens = (Reading.of {} "f(x \"ok\")").tokens ∧
    (Reading.of {} "f(x \"ok\")").tokens.getLast? = some ⟨.stringLiteral, "ok", 4⟩ := by
  have hstop : (Reading.of {} "f(x \"ok\")").stop.position = 8 := by decide +kernel
  have hagree : AgreesTo 8 "f(x \"ok\")" "f(x \"ok\") \"open" := ⟨by decide, by decide⟩
  have hstop' : AgreesTo (Reading.of {} "f(x \"ok\")").stop.position "f(x \"ok\")"
      "f(x \"ok\") \"open" := hstop.symm ▸ hagree
  have herr : Program.parse {} "f(x \"ok\")" =
      .error (.grammar (.expectedOpenParen ⟨.stringLiteral, "ok", 4⟩ "x")) := by decide +kernel
  obtain ⟨houtcome, htokens, -, hgrammar⟩ := Reading.of_agreesTo (by decide) (by decide) hstop'
  exact ⟨hstop, hagree, herr, houtcome, htokens, (hgrammar _ herr).1⟩

/-! ## Redundant parentheses -/

namespace Token.Shape

theorem groups_groups (j k : Nat) (shapes : List Shape) :
    groups j (groups k shapes) = groups (j + k) shapes := by
  unfold groups
  rw [List.replicate_add j k lparen, Nat.add_comm j k, List.replicate_add k j rparen]
  simp only [List.append_assoc]

/-- Groups around a call are cancelled from the outside. -/
theorem exists_of_groups_eq {k g : Nat} {shapes : List Shape} {c : Call}
    (h : groups k shapes = groups g c.flat) : ∃ j, g = k + j ∧ shapes = groups j c.flat := by
  induction k generalizing g with
  | zero => exact ⟨g, (Nat.zero_add g).symm, by simpa [groups] using h⟩
  | succ k ih =>
    rw [groups_succ] at h
    cases g with
    | zero =>
      rw [Call.flat_eq] at h
      simp [groups] at h
    | succ g =>
      rw [groups_succ] at h
      obtain ⟨j, rfl, hshapes⟩ := ih (List.append_cancel_right (List.cons.inj h).2)
      exact ⟨j, by omega, hshapes⟩

end Token.Shape

open Token.Shape (lparen rparen groups isLexeme_lparen isLexeme_rparen)

theorem Segmented.append_of_failure {n : Nat} {a b : List Char} {ts : List Token} {e : LexicalError}
    (h : Segmented n a ts (some e)) (hb : '"' ∉ b) : Segmented n (a ++ b) ts (some e) := by
  obtain ⟨p⟩ := e
  obtain ⟨v, w, rfl, rfl, hv, hw⟩ := failure_iff.1 h
  exact failure_iff.2 ⟨v, w ++ b, by simp, rfl, hv, hw.append hb⟩

theorem spells_replicate {s : Token.Shape} {c : Char} (hs : s.IsLexeme)
    (hspelling : (s.token 0).spelling = [c]) (hc : c.isAlpha = false) (k : Nat) :
    Spells (List.replicate k c) (List.replicate k s) := by
  induction k with
  | zero => exact spells_nil
  | succ k ih => exact (hspelling ▸ spells_single hs).append ih (apart_single hc _)

theorem spells_lparens (k : Nat) : Spells (List.replicate k '(') (List.replicate k lparen) :=
  spells_replicate isLexeme_lparen rfl (by decide) k

theorem spells_rparens (k : Nat) : Spells (List.replicate k ')') (List.replicate k rparen) :=
  spells_replicate isLexeme_rparen rfl (by decide) k

theorem apart_replicate_left {c : Char} (hc : c.isAlpha = false) (k : Nat) (b : List Char) :
    Apart (List.replicate k c) b := by
  rintro d hd e - ⟨halpha, -⟩
  obtain rfl := List.eq_of_mem_replicate (List.mem_of_getLast? hd)
  rw [hc] at halpha
  cases halpha

theorem apart_replicate_right {c : Char} (hc : c.isAlpha = false) (a : List Char) (k : Nat) :
    Apart a (List.replicate k c) := by
  cases k with
  | zero => simp [Apart]
  | succ k => exact apart_cons hc a _

def inParens (k : Nat) (cs : List Char) : List Char :=
  List.replicate k '(' ++ (cs ++ List.replicate k ')')

theorem Spells.inParens {cs : List Char} {shapes : List Token.Shape} (h : Spells cs shapes) (k : Nat) :
    Spells (inParens k cs) (groups k shapes) := by
  have hinside := h.append (spells_rparens k) (apart_replicate_right (by decide) cs k)
  rw [groups, List.append_assoc]
  exact (spells_lparens k).append hinside (apart_replicate_left (by decide) k _)

theorem Segmented.inParens_of_failure {cs : List Char} {ts : List Token} {e : LexicalError}
    (h : Segmented 0 cs ts (some e)) (k : Nat) :
    ∃ us e', Segmented 0 (inParens k cs) us (some e') := by
  obtain ⟨ls, hls, -⟩ := spells_lparens k 0
  have hquote : '"' ∉ List.replicate k ')' := by simp [List.mem_replicate]
  have hinside := (h.shift k).append_of_failure hquote
  have hbehind : k + 0 = 0 + (List.replicate k '(').length := by simp
  rw [hbehind] at hinside
  exact ⟨_, _, hls.append hinside (apart_replicate_left (by decide) k _)⟩

theorem Segmented.of_inParens {k : Nat} {cs : List Char} {ts : List Token}
    (h : Segmented 0 (inParens k cs) ts none) :
    ∃ us, Segmented 0 cs us none ∧ ts.map Token.shape = groups k (us.map Token.shape) := by
  obtain ⟨us, failure?, hus⟩ := Cursor.exists_segmented 0 cs
  cases failure? with
  | some e =>
    obtain ⟨vs, e', hvs⟩ := hus.inParens_of_failure k
    cases (h.unique hvs).2
  | none =>
    obtain ⟨vs, hvs, hshapes⟩ := hus.spells.inParens k 0
    obtain ⟨rfl, -⟩ := h.unique hvs
    exact ⟨us, hus, hshapes⟩

/-- **Redundant parentheses do not change the program:** `k` pairs of them cost `k` levels and `2 * k`
characters, around any text. -/
theorem Program.parse_in_parentheses (maxDepth maxInputLen k : Nat) (text : String) (p : Program) :
    Program.parse ⟨maxDepth + k, maxInputLen + 2 * k⟩
        (String.ofList (List.replicate k '(') ++ text ++ String.ofList (List.replicate k ')')) =
      .ok p ↔ Program.parse ⟨maxDepth, maxInputLen⟩ text = .ok p := by
  generalize hwrapped : String.ofList (List.replicate k '(') ++ text ++
    String.ofList (List.replicate k ')') = wrapped
  have hcs : wrapped.toList = inParens k text.toList := by
    simp [← hwrapped, inParens]
  have hlen : wrapped.length = text.length + 2 * k := by
    rw [← String.length_toList, hcs, inParens, ← String.length_toList]
    simp only [List.length_append, List.length_replicate]
    omega
  simp only [parse_eq_ok_iff, hcs, hlen]
  constructor
  · rintro ⟨hle, ts, g, hts, hshapes, hdepth⟩
    obtain ⟨us, hus, hgroups⟩ := hts.of_inParens
    obtain ⟨j, rfl, hj⟩ := Token.Shape.exists_of_groups_eq (hgroups.symm.trans hshapes)
    exact ⟨by omega, us, j, hus, hj, by omega⟩
  · rintro ⟨hle, ts, g, hts, hshapes, hdepth⟩
    obtain ⟨us, hus, hgroups⟩ := hts.spells.inParens k 0
    refine ⟨by omega, us, k + g, hus, ?_, by omega⟩
    rw [hgroups, hshapes, Token.Shape.groups_groups]

/-- Two groups need two levels more than the call in them, and not one. -/
example :
    Program.parse ⟨1, 3⟩ "f()" = .ok ⟨⟨"f", []⟩⟩ ∧
    Program.parse ⟨3, 7⟩ "((f()))" = .ok ⟨⟨"f", []⟩⟩ ∧
    Program.parse ⟨2, 7⟩ "((f()))" = .error (.nestingTooDeep 2 2) := by
  decide +kernel

end FilterLang
