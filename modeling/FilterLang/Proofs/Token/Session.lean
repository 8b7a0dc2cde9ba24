import FilterLang.Proofs.Token.Stream

/-!
# Sessions of cursors

A session holds several cursors into one text. Each can be asked for its next token or for all tokens,
reset to the start, and cloned.

* `Session text history cs` : the cursors `cs` after the exchanges `history` (`Session.inv`: the
  invariant rule);
* `Exchange.Ends`, `Spent` : an answer with `Eof` or a failure, and a cursor with no reset since one;
* `tokenize_eq` : `tokenize` as repeated `next`;
* `nextAt` : the specification of `next`, from the position and the segmentation of the text;
* `Cursor.StandsIn` : the invariant, a cursor at a boundary of the segmentation (`StandsIn.next`,
  `StandsIn.tokenize`, `StandsIn.next_eq`);
* `Session.stays_between_tokens` : it holds of every cursor of a session, and a spent cursor answers
  `Eof`;
* `gather ask left` : the loop of `tokenize` over any state `σ` with a step `ask` and a measure `left`
  (`gather_eq`: its correctness by simulation).
-/

namespace FilterLang

/-! ## Sessions -/

/-- A request to the cursor with index `i`, with its answer. -/
inductive Exchange
  | next (i : Nat) (answer : Except LexicalError Token)
  | tokenize (i : Nat) (answer : Except LexicalError (List Token))
  | reset (i : Nat)
  | clone (i : Nat)

namespace Exchange

def cursor : Exchange → Nat
  | next i _ | tokenize i _ | reset i | clone i => i

/-- The exchange is with cursor `i`, and its answer is a failure or contains `Eof`. -/
def Ends (i : Nat) : Exchange → Prop
  | next j answer => j = i ∧ ∀ t, answer = .ok t → t.isEof = true
  | tokenize j answer => j = i ∧ ∀ ts, answer = .ok ts → ∃ t ∈ ts, t.isEof = true
  | reset _ | clone _ => False

theorem Ends.cursor_eq {e : Exchange} {i : Nat} (h : e.Ends i) : e.cursor = i := by
  cases e with
  | next j answer => exact h.1
  | tokenize j answer => exact h.1
  | reset j => exact h.elim
  | clone j => exact h.elim

end Exchange

/-- The cursors after these exchanges, in the order of their indices. A clone is appended. -/
inductive Session (text : String) : List Exchange → List (Cursor text) → Prop
  | start : Session text [] [Cursor.start text]
  | next {history : List Exchange} {cs : List (Cursor text)} {i : Nat} {c : Cursor text}
      (h : Session text history cs) (hc : cs[i]? = some c) :
      Session text (history ++ [.next i c.next.1]) (cs.set i c.next.2)
  | tokenize {history : List Exchange} {cs : List (Cursor text)} {i : Nat} {c : Cursor text}
      (h : Session text history cs) (hc : cs[i]? = some c) :
      Session text (history ++ [.tokenize i c.tokenize.1]) (cs.set i c.tokenize.2)
  | reset {history : List Exchange} {cs : List (Cursor text)} {i : Nat} {c : Cursor text}
      (h : Session text history cs) (hc : cs[i]? = some c) :
      Session text (history ++ [.reset i]) (cs.set i (.start text))
  | clone {history : List Exchange} {cs : List (Cursor text)} {i : Nat} {c : Cursor text}
      (h : Session text history cs) (hc : cs[i]? = some c) :
      Session text (history ++ [.clone i]) (cs ++ [c])

/-- Cursor `i` has answered `Eof` or a failure, and was not reset since. -/
def Spent (history : List Exchange) (i : Nat) : Prop :=
  ∃ earlier e later, history = earlier ++ e :: later ∧ e.Ends i ∧ .reset i ∉ later

theorem Spent.of_concat {history : List Exchange} {e : Exchange} {i : Nat}
    (h : Spent (history ++ [e]) i) : e.Ends i ∨ Spent history i ∧ e ≠ .reset i := by
  obtain ⟨earlier, d, later, heq, hd, hreset⟩ := h
  rcases List.eq_nil_or_concat later with rfl | ⟨later, d', rfl⟩
  · obtain ⟨-, hlast⟩ := List.append_inj' heq rfl
    obtain rfl := (List.cons.inj hlast).1
    exact .inl hd
  · rw [List.concat_eq_append, ← List.cons_append, ← List.append_assoc] at heq
    obtain ⟨rfl, hlast⟩ := List.append_inj' heq rfl
    obtain rfl := (List.cons.inj hlast).1
    simp only [List.concat_eq_append, List.mem_append, List.mem_singleton, not_or] at hreset
    exact .inr ⟨⟨earlier, d, later, rfl, hd, hreset.1⟩, fun h => hreset.2 h.symm⟩

theorem Spent.of_other {history : List Exchange} {e : Exchange} {i : Nat} (h : Spent (history ++ [e]) i)
    (he : e.cursor ≠ i) : Spent history i := by
  rcases h.of_concat with hends | ⟨h, -⟩
  · exact absurd hends.cursor_eq he
  · exact h

namespace Session

variable {text : String} {history : List Exchange} {cs : List (Cursor text)}

/-- The invariant rule: `I` holds at the start and is kept by both requests. -/
theorem inv (I : Cursor text → Prop) (hstart : I (.start text)) (hnext : ∀ c, I c → I c.next.2)
    (htokenize : ∀ c, I c → I c.tokenize.2) (h : Session text history cs) : ∀ c ∈ cs, I c := by
  have hset : ∀ {cs : List (Cursor text)} {i : Nat} {d : Cursor text}, (∀ c ∈ cs, I c) → I d →
      ∀ c ∈ cs.set i d, I c := by
    intro cs i d hcs hd c hc
    rcases List.mem_or_eq_of_mem_set hc with hc | rfl
    · exact hcs c hc
    · exact hd
  induction h with
  | start => exact List.forall_mem_singleton.2 hstart
  | next _ hc ih => exact hset ih (hnext _ (ih _ (List.mem_of_getElem? hc)))
  | tokenize _ hc ih => exact hset ih (htokenize _ (ih _ (List.mem_of_getElem? hc)))
  | reset _ _ ih => exact hset ih hstart
  | clone _ hc ih =>
    exact List.forall_mem_append.2 ⟨ih, List.forall_mem_singleton.2 (ih _ (List.mem_of_getElem? hc))⟩

theorem cursor_lt (h : Session text history cs) : ∀ e ∈ history, e.cursor < cs.length := by
  have hlt : ∀ {cs : List (Cursor text)} {i : Nat} {c : Cursor text}, cs[i]? = some c → i < cs.length :=
    fun hc => (List.getElem?_eq_some_iff.1 hc).1
  induction h with
  | start => simp
  | next _ hc ih => simpa [or_imp, forall_and, Exchange.cursor, hlt hc] using ih
  | tokenize _ hc ih => simpa [or_imp, forall_and, Exchange.cursor, hlt hc] using ih
  | reset _ hc ih => simpa [or_imp, forall_and, Exchange.cursor, hlt hc] using ih
  | clone _ hc ih =>
    intro e he
    rw [List.length_append]
    rcases List.mem_append.1 he with he | he
    · exact Nat.lt_add_right _ (ih e he)
    · obtain rfl := List.mem_singleton.1 he
      exact Nat.lt_add_right _ (hlt hc)

theorem lt_of_spent (h : Session text history cs) {i : Nat} (hi : Spent history i) : i < cs.length := by
  obtain ⟨earlier, e, later, rfl, he, -⟩ := hi
  rw [← he.cursor_eq]
  exact h.cursor_lt e (List.mem_append_right _ List.mem_cons_self)

end Session

/-! ## `next` and `tokenize` in terms of the stream -/

namespace Segmented

variable {n : Nat} {cs : List Char} {ts : List Token} {e : LexicalError}

theorem stop_le_length {text : String} {failure? : Option LexicalError}
    (h : Segmented 0 text.toList ts failure?) : ∀ t ∈ ts, t.stop ≤ text.length := by
  intro t ht
  have hwithin := h.within t ht
  rwa [← Token.stop_eq, Nat.zero_add, String.length_toList] at hwithin

theorem position_lt_stop {failure? : Option LexicalError} (h : Segmented n cs ts failure?) :
    ∀ t ∈ ts, t.position < t.stop := by
  intro t ht
  rw [Token.stop_eq]
  exact Nat.lt_add_of_pos_right (h.isLexeme t ht).length_pos

theorem failure_within (h : Segmented n cs ts (some e)) :
    n ≤ e.position ∧ e.position < n + cs.length := by
  obtain ⟨p⟩ := e
  obtain ⟨a, b, rfl, rfl, -, -⟩ := failure_iff.1 h
  show n ≤ n + a.length ∧ n + a.length < n + (a ++ '"' :: b).length
  rw [List.length_append, List.length_cons]
  omega

end Segmented

namespace Cursor

variable {text : String} {c : Cursor text}

theorem next_of_tokens_cons {t : Token} {ts : List Token} (h : c.stream.tokens = t :: ts) :
    c.next.1 = .ok t ∧ c.next.2.position = t.stop ∧ c.next.2.stream.tokens = ts ∧
      c.next.2.stream.failure? = c.stream.failure? ∧
      c.next.2.position + c.next.2.remaining.length = c.position + c.remaining.length := by
  have hdescribes := c.scan_describes
  unfold next
  cases hscan : c.scan with
  | token u rest hlt =>
    rw [hscan] at hdescribes
    obtain ⟨w, -, -, hp, -, hpasses⟩ := hdescribes
    rw [stream_of_token hscan] at h ⊢
    obtain ⟨rfl, hrest⟩ := List.cons.inj h
    refine ⟨rfl, ?_, hrest, rfl, hpasses.position_add_length⟩
    rw [Token.stop_eq, hp, hpasses.position, List.length_append, Nat.add_assoc]
  | ended stop => simp [stream_of_ended hscan] at h
  | failed e stop => simp [stream_of_failed hscan] at h

theorem next_of_tokens_nil (h : c.stream.tokens = []) :
    c.next.2 = c.stream.stop ∧ c.next.1 =
      match c.stream.failure? with
      | none => .ok (.endOfInput c.stream.stop.position)
      | some e => .error e := by
  unfold next
  cases hscan : c.scan with
  | token u rest hlt => simp [stream_of_token hscan] at h
  | ended stop => simp [stream_of_ended hscan]
  | failed e stop => simp [stream_of_failed hscan]

/-- Recursion equation of `tokenize`, by one request. -/
theorem tokenize_eq (c : Cursor text) :
    c.tokenize =
      match c.next with
      | (.ok t, d) => if t.isEof then (.ok [t], d) else (d.tokenize.1.map (t :: ·), d.tokenize.2)
      | (.error e, d) => (.error e, d) := by
  unfold tokenize next
  cases hscan : c.scan with
  | token t rest hlt =>
    have hlexeme : t.IsLexeme := c.stream_segmented.isLexeme t (by simp [stream_of_token hscan])
    rw [stream_of_token hscan]
    simp only [TokenStream.toList, hlexeme.isEof_eq_false]
    cases rest.stream.failure? with
    | none => simp [Except.map]
    | some e => simp [Except.map]
  | ended stop => simp [stream_of_ended hscan, TokenStream.toList]
  | failed e stop => simp [stream_of_failed hscan, TokenStream.toList]

theorem stream_of_remaining_nil (h : c.remaining = []) :
    c.stream.tokens = [] ∧ c.stream.failure? = none :=
  segmented_iff.1 (h ▸ .blank (by simp))

theorem remaining_next_of_nil (h : c.remaining = []) : c.next.2.remaining = [] := by
  rw [(next_of_tokens_nil (stream_of_remaining_nil h).1).1]
  exact (stream_stop c).1

theorem tokens_eq_nil (h : ∀ t, c.next.1 = .ok t → t.isEof = true) : c.stream.tokens = [] := by
  cases htokens : c.stream.tokens with
  | nil => rfl
  | cons t ts =>
    have hlexeme := c.stream_segmented.isLexeme t (htokens ▸ List.mem_cons_self)
    have heof := h t (next_of_tokens_cons htokens).1
    rw [hlexeme.isEof_eq_false] at heof
    cases heof

theorem remaining_next (h : ∀ t, c.next.1 = .ok t → t.isEof = true) : c.next.2.remaining = [] := by
  rw [(next_of_tokens_nil (tokens_eq_nil h)).1]
  exact (stream_stop c).1

end Cursor

/-! ## Cursors at token boundaries -/

/-- The answer at a position, with the position behind it, in a text with the segmentation `ts`,
`failure?`: the first token that does not start before `place`, else the failure unless it is before
`place`, else `Eof`. -/
def nextAt (length : Nat) (ts : List Token) (failure? : Option LexicalError) (place : Nat) :
    Except LexicalError Token × Nat :=
  match ts.find? fun t => place ≤ t.position with
  | some t => (.ok t, t.stop)
  | none =>
    match failure?.filter fun e => place ≤ e.position with
    | some e => (.error e, length)
    | none => (.ok (.endOfInput length), length)

namespace Cursor

variable {text : String} {c : Cursor text} {ts : List Token} {failure? : Option LexicalError}

/-- The cursor is at the end of the text, or at the boundary between the tokens `us` and its stream. -/
structure StandsIn (ts : List Token) (failure? : Option LexicalError) (c : Cursor text) : Prop where
  total : c.position + c.remaining.length = text.length
  place : c.remaining = [] ∨ ∃ us, ts = us ++ c.stream.tokens ∧ failure? = c.stream.failure? ∧
    c.position = (us.getLast?.map Token.stop).getD 0 ∧ ∀ u ∈ us, u.stop ≤ c.position

theorem standsIn_start (h : Segmented 0 text.toList ts failure?) :
    (start text).StandsIn ts failure? := by
  obtain ⟨rfl, rfl⟩ := segmented_start_iff.1 h
  refine ⟨?_, .inr ⟨[], rfl, rfl, rfl, by simp⟩⟩
  rw [remaining_start, String.length_toList]
  exact Nat.zero_add _

theorem standsIn_stop (h : c.StandsIn ts failure?) : c.stream.stop.StandsIn ts failure? := by
  obtain ⟨hnil, hpos⟩ := stream_stop c
  refine ⟨?_, .inl hnil⟩
  rw [hnil, hpos, List.length_nil, Nat.add_zero]
  exact h.total

namespace StandsIn

theorem next (h : c.StandsIn ts failure?) : c.next.2.StandsIn ts failure? := by
  cases htokens : c.stream.tokens with
  | nil =>
    rw [(next_of_tokens_nil htokens).1]
    exact standsIn_stop h
  | cons t vs =>
    obtain ⟨-, hpos, hvs, hfailure, htotal⟩ := next_of_tokens_cons htokens
    refine ⟨htotal.trans h.total, .inr ?_⟩
    rcases h.place with hnil | ⟨us, hts, hfail, -, hus⟩
    · rw [(stream_of_remaining_nil hnil).1] at htokens
      cases htokens
    · have hle : c.position ≤ t.position :=
        c.stream_segmented.le_position t (htokens ▸ List.mem_cons_self)
      have hstop : t.position ≤ t.stop := t.stop_eq ▸ Nat.le_add_right _ _
      refine ⟨us ++ [t], ?_, hfail.trans hfailure.symm, by simpa using hpos, ?_⟩
      · rw [hts, htokens, hvs, List.append_assoc, List.singleton_append]
      · intro u hu
        rw [hpos]
        rcases List.mem_append.1 hu with hu | hu
        · have := hus u hu
          omega
        · obtain rfl := List.mem_singleton.1 hu
          exact Nat.le_refl _

theorem tokenize (h : c.StandsIn ts failure?) : c.tokenize.2.StandsIn ts failure? :=
  standsIn_stop h

theorem position_of_nil (h : c.StandsIn ts failure?) (hnil : c.remaining = []) :
    c.position = text.length := by
  have htotal := h.total
  rw [hnil] at htotal
  exact htotal

theorem position_eq (h : c.StandsIn ts failure?) :
    c.position = 0 ∨ c.position = text.length ∨ ∃ t ∈ ts, c.position = t.stop := by
  rcases h.place with hnil | ⟨us, rfl, -, hpos, -⟩
  · exact .inr (.inl (h.position_of_nil hnil))
  · cases hlast : us.getLast? with
    | none => exact .inl (by rw [hpos, hlast]; rfl)
    | some t =>
      refine .inr (.inr ⟨t, List.mem_append_left _ (List.mem_of_getLast? hlast), ?_⟩)
      rw [hpos, hlast]
      rfl

theorem not_inside (h : c.StandsIn ts failure?) (hseg : Segmented 0 text.toList ts failure?) :
    ∀ t ∈ ts, t.stop ≤ c.position ∨ c.position ≤ t.position := by
  intro t ht
  rcases h.place with hnil | ⟨us, rfl, -, -, hus⟩
  · exact .inl (h.position_of_nil hnil ▸ hseg.stop_le_length t ht)
  · rcases List.mem_append.1 ht with ht | ht
    · exact .inl (hus t ht)
    · exact .inr (c.stream_segmented.le_position t ht)

theorem find?_eq_head? (h : c.StandsIn ts failure?) (hseg : Segmented 0 text.toList ts failure?) :
    (ts.find? fun t => c.position ≤ t.position) = c.stream.tokens.head? := by
  have hbefore : ∀ (us : List Token) (n : Nat), (∀ u ∈ us, u ∈ ts) → (∀ u ∈ us, u.stop ≤ n) →
      (us.find? fun t => n ≤ t.position) = none := by
    intro us n hmem hus
    rw [List.find?_eq_none]
    intro u hu
    have hlt := Nat.lt_of_lt_of_le (hseg.position_lt_stop u (hmem u hu)) (hus u hu)
    simpa using hlt
  rcases h.place with hnil | ⟨us, rfl, -, -, hus⟩
  · rw [(stream_of_remaining_nil hnil).1, h.position_of_nil hnil]
    exact hbefore ts text.length (fun _ hu => hu) hseg.stop_le_length
  · rw [List.find?_append, hbefore us c.position (fun _ hu => List.mem_append_left _ hu) hus]
    cases htokens : c.stream.tokens with
    | nil => rfl
    | cons t vs =>
      have hle := c.stream_segmented.le_position t (htokens ▸ List.mem_cons_self)
      rw [List.find?_cons_of_pos (by simpa using hle)]
      rfl

theorem filter_failure?_eq (h : c.StandsIn ts failure?) (hseg : Segmented 0 text.toList ts failure?) :
    (failure?.filter fun e => c.position ≤ e.position) = c.stream.failure? := by
  rcases h.place with hnil | ⟨us, -, hfail, -, -⟩
  · rw [(stream_of_remaining_nil hnil).2, h.position_of_nil hnil, Option.filter_eq_none_iff]
    rintro e rfl
    have hlt := hseg.failure_within.2
    rw [Nat.zero_add, String.length_toList] at hlt
    simpa using hlt
  · rw [← hfail]
    cases failure? with
    | none => rfl
    | some e =>
      have hrest := c.stream_segmented
      rw [← hfail] at hrest
      rw [Option.filter_some, if_pos (by simpa using hrest.failure_within.1)]

/-- Correctness of `next` against `nextAt`, at each boundary. -/
theorem next_eq (h : c.StandsIn ts failure?) (hseg : Segmented 0 text.toList ts failure?) :
    (c.next.1, c.next.2.position) = nextAt text.length ts failure? c.position := by
  unfold nextAt
  rw [h.find?_eq_head? hseg, h.filter_failure?_eq hseg]
  cases htokens : c.stream.tokens with
  | cons t vs =>
    obtain ⟨ht, hpos, -⟩ := next_of_tokens_cons htokens
    rw [ht, hpos]
    rfl
  | nil =>
    obtain ⟨hstop, hanswer⟩ := next_of_tokens_nil htokens
    have hlength : c.stream.stop.position = text.length := (stream_stop c).2.trans h.total
    rw [hanswer, hstop, hlength]
    cases c.stream.failure? with
    | none => rfl
    | some e => rfl

end StandsIn

end Cursor

namespace Session

variable {text : String} {history : List Exchange} {cs : List (Cursor text)}

theorem standsIn (h : Session text history cs) {ts : List Token} {failure? : Option LexicalError}
    (hseg : Segmented 0 text.toList ts failure?) : ∀ c ∈ cs, c.StandsIn ts failure? :=
  h.inv (Cursor.StandsIn ts failure?) (Cursor.standsIn_start hseg) (fun _ hc => hc.next)
    fun _ hc => hc.tokenize

theorem remaining_of_spent (h : Session text history cs) {i : Nat} (hi : Spent history i) :
    ∀ c ∈ cs[i]?, c.remaining = [] := by
  have hself : ∀ {cs : List (Cursor text)} {c d : Cursor text}, c ∈ (cs.set i d)[i]? → c = d := by
    intro cs c d hc
    rw [Option.mem_def, List.getElem?_set, if_pos rfl] at hc
    split at hc
    · exact (Option.some.inj hc).symm
    · cases hc
  induction h with
  | start =>
    obtain ⟨earlier, e, later, heq, -⟩ := hi
    simp at heq
  | @next history cs j c h hc ih =>
    by_cases hji : j = i
    · subst hji
      intro d hd
      rw [hself hd]
      rcases hi.of_concat with ⟨-, hanswer⟩ | ⟨hi, -⟩
      · exact Cursor.remaining_next hanswer
      · exact Cursor.remaining_next_of_nil (ih hi c hc)
    · rw [List.getElem?_set_ne hji]
      exact ih (hi.of_other hji)
  | @tokenize history cs j c h hc ih =>
    by_cases hji : j = i
    · subst hji
      intro d hd
      rw [hself hd]
      exact (Cursor.stream_stop c).1
    · rw [List.getElem?_set_ne hji]
      exact ih (hi.of_other hji)
  | @reset history cs j c h hc ih =>
    by_cases hji : j = i
    · subst hji
      rcases hi.of_concat with hends | ⟨-, hne⟩
      · exact hends.elim
      · exact absurd rfl hne
    · rw [List.getElem?_set_ne hji]
      exact ih (hi.of_other hji)
  | clone h hc ih =>
    rcases hi.of_concat with hends | ⟨hi, -⟩
    · exact hends.elim
    · rw [List.getElem?_append_left (h.lt_of_spent hi)]
      exact ih hi

/-- **Every cursor of a session is at a token boundary or at an end of the text.** Its next answer is
`nextAt` of its position. A spent cursor answers `Eof` until it is reset. -/
theorem stays_between_tokens (h : Session text history cs) {ts : List Token}
    {failure? : Option LexicalError} (hseg : Segmented 0 text.toList ts failure?) :
    (∀ c ∈ cs,
      (c.position = 0 ∨ c.position = text.length ∨ ∃ t ∈ ts, c.position = t.stop) ∧
      (∀ t ∈ ts, t.stop ≤ c.position ∨ c.position ≤ t.position) ∧
      (c.next.1, c.next.2.position) = nextAt text.length ts failure? c.position) ∧
    ∀ i, Spent history i → ∀ c ∈ cs[i]?,
      c.next.1 = .ok (.endOfInput text.length) ∧ c.next.2.position = text.length ∧
      c.tokenize.1 = .ok [.endOfInput text.length] := by
  have hstands := h.standsIn hseg
  refine ⟨fun c hc => ?_, fun i hi c hc => ?_⟩
  · have hc := hstands c hc
    exact ⟨hc.position_eq, hc.not_inside hseg, hc.next_eq hseg⟩
  · have hnil := h.remaining_of_spent hi c hc
    have hpos := (hstands c (List.mem_of_getElem? hc)).position_of_nil hnil
    obtain ⟨htokens, hfailure⟩ := Cursor.stream_of_remaining_nil hnil
    obtain ⟨hstop, hanswer⟩ := Cursor.next_of_tokens_nil htokens
    have hend : c.stream.stop.position = text.length := by
      rw [(Cursor.stream_stop c).2, hnil, hpos]
      rfl
    rw [hfailure, hend] at hanswer
    refine ⟨hanswer, hstop ▸ hend, ?_⟩
    rw [Cursor.tokenize, TokenStream.toList, hfailure, htokens, hend]
    rfl

/-- A name and an unclosed literal: the spent cursor answers `Eof`, its clone behind the name the
failure. -/
theorem stays_between_tokens_of_unclosed :
    Session "f \"g" [.next 0 (.ok ⟨.identifier, "f", 0⟩), .clone 0,
        .next 0 (.error (.unterminatedString 2))]
      [(Cursor.start "f \"g").next.2.next.2, (Cursor.start "f \"g").next.2] ∧
    Segmented 0 "f \"g".toList [⟨.identifier, "f", 0⟩] (some (.unterminatedString 2)) ∧
    (Cursor.start "f \"g").next.2.next.2.next.1 = .ok (.endOfInput 4) ∧
    ((Cursor.start "f \"g").next.2.next.1, (Cursor.start "f \"g").next.2.next.2.position) =
      (.error (.unterminatedString 2), 4) := by
  have hname : (Cursor.start "f \"g").next.1 = .ok ⟨.identifier, "f", 0⟩ := by decide +kernel
  have hfails : (Cursor.start "f \"g").next.2.next.1 = .error (.unterminatedString 2) := by decide +kernel
  have hplace : (Cursor.start "f \"g").next.2.position = 1 := by decide +kernel
  have hsession : Session "f \"g" [.next 0 (.ok ⟨.identifier, "f", 0⟩), .clone 0,
      .next 0 (.error (.unterminatedString 2))]
      [(Cursor.start "f \"g").next.2.next.2, (Cursor.start "f \"g").next.2] := by
    have hstart : Session "f \"g" [] [Cursor.start "f \"g"] := .start
    have h := ((hstart.next (i := 0) rfl).clone (i := 0) rfl).next (i := 0) rfl
    rw [hname, hfails] at h
    simpa only [List.nil_append, List.cons_append, List.set_cons_zero] using h
  have hseg : Segmented 0 "f \"g".toList [⟨.identifier, "f", 0⟩] (some (.unterminatedString 2)) := by
    refine Cursor.segmented_start_iff.2 ⟨?_, ?_⟩
    · decide +kernel
    · decide +kernel
  have hzero : Spent [.next 0 (.ok ⟨.identifier, "f", 0⟩), .clone 0,
      .next 0 (.error (.unterminatedString 2))] 0 :=
    ⟨[_, _], .next 0 (.error (.unterminatedString 2)), [], rfl, ⟨rfl, fun t ht => by cases ht⟩, by simp⟩
  obtain ⟨hbetween, hspent⟩ := stays_between_tokens hsession hseg
  refine ⟨hsession, hseg, (hspent 0 hzero _ rfl).1, ?_⟩
  rw [(hbetween _ (List.mem_cons_of_mem _ List.mem_cons_self)).2.2, hplace]
  rfl

end Session

/-! ## The loop over a step function -/

variable {text : String} {σ : Type}

/-- Asks until `Eof` or a failure, with the tokens so far in `seen`, last first. The result is `none`
where `ask` has no answer or a token does not lower the measure `left`: progress is proved, not built in. -/
def gather (ask : σ → Option (Except LexicalError Token × σ)) (left : σ → Nat) (seen : List Token) (s : σ) :
    Option (Except LexicalError (List Token) × σ) := do
  match ← ask s with
  | (.error e, s') => some (.error e, s')
  | (.ok t, s') =>
    if t.isEof then some (.ok (t :: seen).reverse, s')
    else if left s' < left s then gather ask left (t :: seen) s'
    else none
termination_by left s

/-- Simulation: if `ask` on a state related to a cursor by `R` answers as `next` does, and each token
keeps `R` and lowers the measure, then `gather` gives what `tokenize` gives. `R'` holds behind the last
answer. -/
theorem gather_eq {ask : σ → Option (Except LexicalError Token × σ)} {left : σ → Nat}
    {R R' : Cursor text → σ → Prop}
    (hask : ∀ c s, R c s → ∃ s', ask s = some (c.next.1, s') ∧
      (∀ t, c.next.1 = .ok t → t.isEof = false → R c.next.2 s' ∧ left s' < left s) ∧
      ((∀ t, c.next.1 = .ok t → t.isEof = true) → R' c.next.2 s'))
    {c : Cursor text} {s : σ} (h : R c s) (seen : List Token) :
    ∃ s', gather ask left seen s = some (c.tokenize.1.map (seen.reverse ++ ·), s') ∧ R' c.tokenize.2 s' := by
  induction c using Cursor.scanInduction generalizing s seen with
  | ended c stop hscan =>
    obtain ⟨s', hs', -, hlast⟩ := hask c s h
    have hnext : c.next = (.ok (.endOfInput stop.position), stop) := by rw [Cursor.next, hscan]
    rw [hnext] at hs' hlast
    have hend := hlast fun t ht => by cases ht; rfl
    refine ⟨s', ?_, ?_⟩
    · rw [gather, hs', Cursor.tokenize_eq, hnext]
      simp [Except.map]
    · rw [Cursor.tokenize_eq, hnext]
      exact hend
  | failed c e stop hscan =>
    obtain ⟨s', hs', -, hlast⟩ := hask c s h
    have hnext : c.next = (.error e, stop) := by rw [Cursor.next, hscan]
    rw [hnext] at hs' hlast
    have hend := hlast fun t ht => by cases ht
    refine ⟨s', ?_, ?_⟩
    · rw [gather, hs', Cursor.tokenize_eq, hnext]
      rfl
    · rw [Cursor.tokenize_eq, hnext]
      exact hend
  | token c t rest hlt hscan ih =>
    obtain ⟨s', hs', hmore, -⟩ := hask c s h
    have hnext : c.next = (.ok t, rest) := by rw [Cursor.next, hscan]
    have heof : t.isEof = false := by
      have hlexeme : t.IsLexeme := c.stream_segmented.isLexeme t (by simp [Cursor.stream_of_token hscan])
      exact hlexeme.isEof_eq_false
    rw [hnext] at hs' hmore
    obtain ⟨hrest, hleft⟩ := hmore t rfl heof
    obtain ⟨last, hgathered, hend⟩ := ih hrest (t :: seen)
    refine ⟨last, ?_, ?_⟩
    · rw [gather, hs', Cursor.tokenize_eq, hnext]
      simp only [Option.bind_eq_bind, Option.bind_some, heof, Bool.false_eq_true, if_false, hleft, if_true, hgathered]
      cases rest.tokenize.1 with
      | error e => rfl
      | ok ts => simp [Except.map]
    · rw [Cursor.tokenize_eq, hnext]
      simp only [heof, Bool.false_eq_true, if_false]
      exact hend

end FilterLang
