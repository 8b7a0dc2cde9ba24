import FilterLang.Proofs.Draft.Levels
import FilterLang.Proofs.Reading.Acceptance

/-!
# The log of a parse

* `TokenStream.TakenFor s outcome k` : a parse of the stream `s` with this outcome takes `k` tokens
  (`TakenFor.unique`: the outcome determines `k`);
* `Draft.Stops.exists_takenFor` : the tokens taken are the first `k` of the stream;
* `Reading.events_of_takenFor` : the log is the start, one record for each of these, and the outcome.
-/

namespace FilterLang

variable {text : String}

/-- The number of tokens other than `Eof` that are taken for an outcome. -/
inductive TokenStream.TakenFor (s : TokenStream text) : Except ParseError Program → Nat → Prop
  | tooLong {length maxInputLen : Nat} : TakenFor s (.error (.inputTooLong length maxInputLen)) 0
  | program {p : Program} : TakenFor s (.ok p) s.tokens.length
  | failure {e : LexicalError} : TakenFor s (.error (.lexical e)) s.tokens.length
  | misfit {err : GrammarError} {i : Nat} (htoken : s.tokens[i]? = some err.token) :
      TakenFor s (.error (.grammar err)) (i + 1)
  | atEnd {err : GrammarError} (heof : err.token.isEof = true) :
      TakenFor s (.error (.grammar err)) s.tokens.length
  /-- A call is entered with its parenthesis, which is behind its name. -/
  | call {m i : Nat} {name : Token} (hname : s.tokens[i]? = some name)
      (hkind : name.kind = .identifier) :
      TakenFor s (.error (.nestingTooDeep m name.position)) (i + 2)
  /-- A group is entered with the token behind its parenthesis. -/
  | group {m i : Nat} {paren : Token} (hparen : s.tokens[i]? = some paren)
      (hkind : paren.kind = .lparen) (hmore : i + 1 < s.tokens.length) :
      TakenFor s (.error (.nestingTooDeep m paren.position)) (i + 2)
  | groupAtEnd {m i : Nat} {paren : Token} (hparen : s.tokens[i]? = some paren)
      (hkind : paren.kind = .lparen) (hend : i + 1 = s.tokens.length) :
      TakenFor s (.error (.nestingTooDeep m paren.position)) (i + 1)

/-! ## Uniqueness -/

namespace Cursor

variable {c : Cursor text} {t u : Token} {i j : Nat}

theorem isEof_of_getElem? (ht : c.stream.tokens[i]? = some t) : t.isEof = false :=
  (c.stream_segmented.isLexeme t (List.mem_of_getElem? ht)).isEof_eq_false

/-- A token of a stream is determined by its position. -/
theorem eq_of_position_eq (ht : c.stream.tokens[i]? = some t) (hu : c.stream.tokens[j]? = some u)
    (h : t.position = u.position) : i = j := by
  have hinc := List.pairwise_iff_getElem.1 c.stream_segmented.increasing
  obtain ⟨hi, rfl⟩ := List.getElem?_eq_some_iff.1 ht
  obtain ⟨hj, rfl⟩ := List.getElem?_eq_some_iff.1 hu
  rcases Nat.lt_trichotomy i j with hlt | heq | hlt
  · have := hinc i j hi hj hlt
    omega
  · exact heq
  · have := hinc j i hj hi hlt
    omega

end Cursor

namespace TokenStream.TakenFor

variable {s : TokenStream text} {c : Cursor text} {outcome : Except ParseError Program} {k k' : Nat}

theorem of_nestingTooDeep {m p : Nat} (h : s.TakenFor (.error (.nestingTooDeep m p)) k) :
    ∃ i t, s.tokens[i]? = some t ∧ t.position = p ∧
      (t.kind = .identifier ∧ k = i + 2 ∨ t.kind = .lparen ∧ k = min (i + 2) s.tokens.length) := by
  generalize houtcome : Except.error (ParseError.nestingTooDeep m p) = outcome at h
  cases h with
  | call hname hkind =>
    cases houtcome
    exact ⟨_, _, hname, rfl, .inl ⟨hkind, rfl⟩⟩
  | group hparen hkind hmore =>
    cases houtcome
    exact ⟨_, _, hparen, rfl, .inr ⟨hkind, by omega⟩⟩
  | groupAtEnd hparen hkind hend =>
    cases houtcome
    exact ⟨_, _, hparen, rfl, .inr ⟨hkind, by omega⟩⟩
  | _ => cases houtcome

theorem unique (h : c.stream.TakenFor outcome k) (h' : c.stream.TakenFor outcome k') : k = k' := by
  match outcome with
  | .ok p =>
    cases h
    cases h'
    rfl
  | .error (.lexical e) =>
    cases h
    cases h'
    rfl
  | .error (.inputTooLong _ _) =>
    cases h
    cases h'
    rfl
  | .error (.grammar err) =>
    cases h with
    | misfit ht =>
      cases h' with
      | misfit hu => rw [Cursor.eq_of_position_eq ht hu rfl]
      | atEnd heof =>
        rw [Cursor.isEof_of_getElem? ht] at heof
        cases heof
    | atEnd heof =>
      cases h' with
      | misfit hu =>
        rw [Cursor.isEof_of_getElem? hu] at heof
        cases heof
      | atEnd _ => rfl
  | .error (.nestingTooDeep m p) =>
    obtain ⟨i, t, ht, rfl, hkind⟩ := h.of_nestingTooDeep
    obtain ⟨j, u, hu, hplace, hkind'⟩ := h'.of_nestingTooDeep
    obtain rfl := Cursor.eq_of_position_eq ht hu hplace.symm
    obtain rfl := Option.some.inj (ht.symm.trans hu)
    rcases hkind with ⟨hname, rfl⟩ | ⟨hparen, rfl⟩
    · rcases hkind' with ⟨-, rfl⟩ | ⟨hparen', -⟩
      · rfl
      · rw [hname] at hparen'
        cases hparen'
    · rcases hkind' with ⟨hname', -⟩ | ⟨-, rfl⟩
      · rw [hparen] at hname'
        cases hname'
      · rfl

end TokenStream.TakenFor

/-! ## The tokens taken -/

namespace Draft

variable {maxDepth position : Nat} {d : Draft} {t : Token} {us vs taken : List Token}
  {s : TokenStream text} {err : ParseError} {outcome : Except ParseError Program}

theorem exists_of_naming {depth groups : Nat} {name : Token} {outer : List OpenCall}
    (hd : empty.feedAll maxDepth us = .ok ⟨depth, groups, .naming name outer⟩) :
    ∃ before, us = before ++ [name] ∧ name.kind = .identifier := by
  have hfollows := (feedAll_behind hd).follows
  generalize hreverse : us.reverse = rev at hfollows
  cases hfollows with
  | @naming _ before _ hkind =>
    exact ⟨before.reverse, by rw [← List.reverse_cons, ← hreverse, List.reverse_reverse], hkind⟩

theorem Refuses.takenFor (h : Refuses maxDepth d t err) (hs : s.tokens = us ++ t :: vs)
    (hd : empty.feedAll maxDepth us = .ok d) : s.TakenFor (.error err) (us.length + 1) := by
  cases h with
  | group _ =>
    obtain ⟨before, paren, _, rfl, hkind, rfl, -⟩ := exists_of_opening hd
    rw [List.length_append, List.length_singleton]
    exact .group (by simp [hs]) hkind (by simp [hs])
  | call _ _ =>
    obtain ⟨before, rfl, hkind⟩ := exists_of_naming hd
    rw [List.length_append, List.length_singleton]
    exact .call (by simp [hs]) hkind
  | misfit _ _ => exact .misfit (by simp [hs])

theorem Refuses.takenFor_endOfInput (h : Refuses maxDepth d (.endOfInput position) err)
    (hd : empty.feedAll maxDepth s.tokens = .ok d) : s.TakenFor (.error err) s.tokens.length := by
  generalize ht : Token.endOfInput position = t at h
  cases h with
  | group _ =>
    obtain ⟨before, paren, _, hs, hkind, rfl, -⟩ := exists_of_opening hd
    have hlength : s.tokens.length = before.length + 1 := by simp [hs]
    rw [hlength]
    exact .groupAtEnd (by simp [hs]) hkind hlength.symm
  | call _ hkind =>
    rw [← ht] at hkind
    cases hkind
  | misfit _ _ => exact .atEnd (by simp [← ht])

/-- The tokens taken are a prefix of the stream, of a length that fits the outcome. -/
theorem Stops.exists_takenFor (hlex : ∀ u ∈ s.tokens, u.IsLexeme)
    (h : empty.Stops maxDepth s outcome taken position) :
    ∃ k, k ≤ s.tokens.length ∧ s.TakenFor outcome k ∧
      Event.lexing taken = (s.tokens.take k).map Event.lexed := by
  have hlexing : ∀ ts, ts <+: s.tokens → Event.lexing ts = ts.map Event.lexed := by
    intro ts hts
    have hall : ∀ u ∈ ts, (!u.isEof) = true := by
      intro u hu
      rw [(hlex u (hts.subset hu)).isEof_eq_false]
      rfl
    rw [Event.lexing, List.filter_eq_self.2 hall]
  cases h with
  | @atToken us vs t e err hs hd herr =>
    have htake : s.tokens.take (us.length + 1) = us ++ [t] := by
      rw [hs, ← List.singleton_append, ← List.append_assoc]
      exact List.take_left' (by simp)
    refine ⟨us.length + 1, by simp [hs], (feed_eq_error_iff.1 herr).takenFor hs hd, ?_⟩
    rw [htake]
    exact hlexing _ ⟨vs, by simp [hs]⟩
  | @atEnd e hgood hd =>
    refine ⟨s.tokens.length, Nat.le_refl _, ?_, ?_⟩
    · cases hfinish : e.finish maxDepth s.stop.position with
      | ok p => exact .program
      | error err =>
        have hrefuses := feed_eq_error_iff.1 (finish_eq_error_iff.1 hfinish).1
        exact hrefuses.takenFor_endOfInput hd
    · rw [List.take_length, ← hlexing _ List.prefix_rfl]
      simp [Event.lexing]
  | atFailure hbad hd =>
    refine ⟨s.tokens.length, Nat.le_refl _, .failure, ?_⟩
    rw [List.take_length]
    exact hlexing _ List.prefix_rfl

end Draft

/-! ## Whole texts -/

namespace Reading

variable {limits : Limits}

theorem exists_takenFor (limits : Limits) (text : String) :
    ∃ k, k ≤ (Cursor.start text).stream.tokens.length ∧
      (Cursor.start text).stream.TakenFor (Program.parse limits text) k ∧
      Event.lexing (Reading.of limits text).tokens =
        ((Cursor.start text).stream.tokens.take k).map Event.lexed := by
  by_cases hlen : text.length ≤ limits.maxInputLen
  · exact (of_stops hlen).exists_takenFor (Cursor.segmented_start text).isLexeme
  · have hlong := Nat.lt_of_not_le hlen
    refine ⟨0, Nat.zero_le _, ?_, ?_⟩
    · rw [Program.parse, of, if_pos hlong]
      exact .tooLong
    · rw [of, if_pos hlong]
      rfl

/-- **The log of a parse** is the start with the length of the text, the first `k` tokens of the stream in
order, and the outcome, where `k` exists and is determined by the outcome. -/
theorem events_of_takenFor (limits : Limits) (text : String) :
    (∃ k, k ≤ (Cursor.start text).stream.tokens.length ∧
      (Cursor.start text).stream.TakenFor (Program.parse limits text) k) ∧
    ∀ k, (Cursor.start text).stream.TakenFor (Program.parse limits text) k →
      (Reading.of limits text).events =
        .parsing text.length :: (((Cursor.start text).stream.tokens.take k).map Event.lexed ++
          [match Program.parse limits text with
            | .ok p => .parsed p.depth
            | .error e => .rejected e]) := by
  obtain ⟨k, hle, hk, hlexing⟩ := exists_takenFor limits text
  refine ⟨⟨k, hle, hk⟩, fun k' hk' => ?_⟩
  obtain rfl := hk.unique hk'
  rw [events, hlexing]
  rfl

/-- The second group is entered with `f`, and the last parenthesis is not taken. -/
theorem events_of_second_group :
    (Cursor.start "((f(").stream.TakenFor (Program.parse ⟨1, 4⟩ "((f(") 3 ∧
    (Reading.of ⟨1, 4⟩ "((f(").events =
      [.parsing 4, .lexed ⟨.lparen, "(", 0⟩, .lexed ⟨.lparen, "(", 1⟩, .lexed ⟨.identifier, "f", 2⟩,
        .rejected (.nestingTooDeep 1 1)] := by
  have htokens : (Cursor.start "((f(").stream.tokens =
      [⟨.lparen, "(", 0⟩, ⟨.lparen, "(", 1⟩, ⟨.identifier, "f", 2⟩, ⟨.lparen, "(", 3⟩] := by decide +kernel
  have hparse : Program.parse ⟨1, 4⟩ "((f(" = .error (.nestingTooDeep 1 1) := by decide +kernel
  have hparen : (Cursor.start "((f(").stream.tokens[1]? = some ⟨.lparen, "(", 1⟩ := by
    rw [htokens]
    rfl
  have hmore : 1 + 1 < (Cursor.start "((f(").stream.tokens.length := by
    rw [htokens]
    decide
  have htaken : (Cursor.start "((f(").stream.TakenFor (Program.parse ⟨1, 4⟩ "((f(") 3 := by
    rw [hparse]
    exact .group hparen rfl hmore
  have hevents := (events_of_takenFor ⟨1, 4⟩ "((f(").2 3 htaken
  rw [htokens, hparse] at hevents
  exact ⟨htaken, hevents⟩

end Reading

end FilterLang
