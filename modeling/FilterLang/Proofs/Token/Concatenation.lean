import FilterLang.Proofs.Token.Segmentation
import FilterLang.Proofs.Token.Shape
import FilterLang.Proofs.Token.Stream

/-!
# Texts cut and concatenated

* `Segmented.CutAt n a us t` : the segmentation of a prefix `a` that ends before or inside the
  token `t`, after the tokens `us`;
* `Segmented.cut` : every cut that removes more than blanks is a `CutAt`;
* `Segmented.append_shift` : the segmentation of `a ++ b` for texts that are `Apart`;
* `Segmented.apart_of_append` : the converse, so that `Cursor.tokenize_append_iff` : `Apart` is the
  only obstacle to tokenizing two texts separately;
* `Cursor.tokenize_append` : `tokenize` of a concatenation, failures of the second text included.
-/

namespace FilterLang

/-! ## Cuts -/

/-- Every prefix of the content of a literal is unclosed. -/
theorem unclosed_of_isEscapeClosed_append {v w : List Char} (h : isEscapeClosed (v ++ w) = true) :
    Unclosed v := by
  intro u rest huv
  rw [Bool.eq_false_iff]
  intro hu
  have hnot := not_isEscapeClosed_append hu (rest ++ w)
  rw [huv, List.append_assoc, List.cons_append, hnot] at h
  cases h

namespace Segmented

variable {n : Nat} {a b cs : List Char} {ts us : List Token} {t : Token}

/-- The prefix `a`, at position `n`, consists of the tokens `us` and a proper prefix of the token
`t`. -/
inductive CutAt (n : Nat) (a : List Char) (us : List Token) (t : Token) : Prop
  | before (ha : Segmented n a us none)
  | name {u : Token} (ht : t.kind = .identifier) (hu : u.kind = .identifier)
      (ha : Segmented n a (us ++ [u]) none)
  | literal (ht : t.kind = .stringLiteral) (hopen : t.position < n + a.length)
      (hclose : n + a.length < t.stop)
      (ha : Segmented n a us (some (.unterminatedString t.position)))

theorem CutAt.cons {w : List Char} {u : Token} (hw : ∀ c ∈ w, isBlank c = true) (hu : u.IsLexeme)
    (hp : u.position = n + w.length) (hstop : u.StopsBefore a)
    (h : CutAt (u.position + u.spelling.length) a us t) :
    CutAt n (w ++ (u.spelling ++ a)) (u :: us) t := by
  have hlen : n + (w ++ (u.spelling ++ a)).length = u.position + u.spelling.length + a.length := by
    simp only [hp, List.length_append]
    omega
  cases h with
  | before ha => exact .before (.token hw hu hp hstop ha)
  | name ht hv ha => exact .name ht hv (.token hw hu hp hstop ha)
  | literal ht hopen hclose ha =>
    refine .literal ht ?_ ?_ (.token hw hu hp hstop ha)
    · rwa [hlen]
    · rwa [hlen]

/-- A token of more than one character is a name or a string literal, and either can be cut inside. -/
theorem CutAt.inside {w v s : List Char} (hw : ∀ c ∈ w, isBlank c = true) (ht : t.IsLexeme)
    (hp : t.position = n + w.length) (hts : t.spelling = v ++ s) (hv : v ≠ []) (hs : s ≠ []) :
    CutAt n (w ++ v) [] t := by
  have hsum : t.spelling.length = v.length + s.length := by rw [hts, List.length_append]
  have hvpos := List.length_pos_iff.2 hv
  have hspos := List.length_pos_iff.2 hs
  rcases ht.cases with ⟨hk, hname⟩ | ⟨hk, hclosed⟩ | ⟨c, hk, hval, -⟩
  · let u : Token := ⟨.identifier, String.ofList v, t.position⟩
    have hspell : u.spelling = v := by
      rw [Token.spelling_of_ne (by simp [u])]
      exact String.toList_ofList
    have hu : u.IsLexeme := by
      obtain ⟨-, hall⟩ := Token.isName_iff.1 hname
      rw [← Token.spelling_of_ne (by simp [hk]), hts] at hall
      have hletters : ∀ c ∈ v, c.isAlpha = true := fun c hc => hall c (List.mem_append_left s hc)
      exact Token.isName_iff.2 (by simpa [u] using ⟨hv, hletters⟩)
    have hend : Segmented (u.position + u.spelling.length) [] [] none := .blank (by simp)
    have hseg := Segmented.token hw hu hp (by simp [Token.StopsBefore]) hend
    rw [hspell, List.append_nil] at hseg
    exact .name hk rfl hseg
  · rw [Token.spelling_of_eq hk] at hts
    obtain ⟨c, v, rfl⟩ := List.exists_cons_of_ne_nil hv
    obtain ⟨rfl, hrest⟩ := List.cons.inj hts
    obtain ⟨s, q, rfl⟩ := (List.eq_nil_or_concat s).resolve_left hs
    have hvalue : t.value.toList = v ++ s := by
      rw [List.append_eq, List.concat_eq_append, ← List.append_assoc] at hrest
      exact (List.append_inj' hrest rfl).1
    have hseg : Segmented n (w ++ '"' :: v) [] (some (.unterminatedString t.position)) :=
      hp ▸ .unclosed hw (unclosed_of_isEscapeClosed_append (hvalue ▸ hclosed))
    have hlen : (w ++ '"' :: v).length = w.length + ('"' :: v).length := List.length_append
    refine .literal hk ?_ ?_ hseg
    · omega
    · rw [Token.stop_eq]
      omega
  · rw [Token.spelling_ofMark hk hval, List.length_singleton] at hsum
    omega

/-- A cut with more than blanks behind it falls before a token, in a name or in a literal. -/
theorem cut (h : Segmented n (a ++ b) ts none) (hb : ∃ c ∈ b, isBlank c = false) :
    ∃ us t vs, ts = us ++ t :: vs ∧ CutAt n a us t := by
  generalize htext : a ++ b = cs at h
  generalize hnone : (none : Option LexicalError) = good at h
  induction h generalizing a with
  | @blank n w hw =>
    obtain ⟨c, hc, hblank⟩ := hb
    rw [hw c (by simp [← htext, hc])] at hblank
    cases hblank
  | unclosed _ _ => cases hnone
  | @token n w cs t ts _ hw ht hp hstop hcs ih =>
    rcases List.append_eq_append_iff.1 htext with ⟨x, rfl, -⟩ | ⟨x, rfl, hx⟩
    · have hblank : ∀ c ∈ a, isBlank c = true := fun c hc => hw c (List.mem_append_left x hc)
      exact ⟨[], t, ts, rfl, .before (.blank hblank)⟩
    by_cases hall : t.spelling.length ≤ x.length
    · -- The whole token is in front of the cut.
      obtain ⟨y, rfl⟩ : ∃ y, x = t.spelling ++ y :=
        List.prefix_of_prefix_length_le ⟨cs, hx⟩ ⟨b, rfl⟩ hall |>.imp fun _ => Eq.symm
      rw [List.append_assoc] at hx
      have hcs := List.append_cancel_left hx
      have hstop' : t.StopsBefore y := by
        intro hk d hd
        exact hstop hk d (by simp [hcs, List.head?_append, Option.mem_def.1 hd])
      obtain ⟨us, u, vs, rfl, hcut⟩ := ih hcs.symm hnone
      exact ⟨t :: us, u, vs, rfl, hcut.cons hw ht hp hstop'⟩
    · obtain ⟨s, hspell⟩ : ∃ s, t.spelling = x ++ s :=
        List.prefix_of_prefix_length_le ⟨b, hx.symm⟩ ⟨cs, rfl⟩ (by omega) |>.imp fun _ => Eq.symm
      have hs : s ≠ [] := by
        rintro rfl
        rw [hspell, List.append_nil] at hall
        exact hall (Nat.le_refl _)
      refine ⟨[], t, ts, rfl, ?_⟩
      by_cases hx : x = []
      · rw [hx, List.append_nil]
        exact .before (.blank hw)
      · exact .inside hw ht hp hspell hx hs

end Segmented

/-! ## Concatenation -/

namespace Segmented

variable {n : Nat} {a b : List Char} {ts us : List Token} {failure? : Option LexicalError}

theorem append_shift (ha : Segmented 0 a ts none) (hb : Segmented 0 b us failure?) (hab : Apart a b) :
    Segmented 0 (a ++ b) (ts ++ us.map (Token.shift a.length))
      (failure?.map (LexicalError.shift a.length)) := by
  have hbehind := hb.shift a.length
  rw [Nat.add_comm] at hbehind
  exact ha.append hbehind hab

/-- A text that starts with a letter starts with a token. -/
theorem exists_first (h : Segmented n b us none) {d : Char} (hd : d ∈ b.head?)
    (halpha : d.isAlpha = true) :
    ∃ u vs rest, us = u :: vs ∧ u.position = n ∧ u.IsLexeme ∧ b = u.spelling ++ rest := by
  have hnot : ∀ {w : List Char}, (∀ c ∈ w, isBlank c = true) → d ∉ w := by
    intro w hw hmem
    have hblank := hw d hmem
    rw [isBlank_of_isAlpha halpha] at hblank
    cases hblank
  cases h with
  | blank hw => exact absurd (List.mem_of_head? hd) (hnot hw)
  | @token _ w cs u vs _ hw hu hp hstop hcs =>
    cases w with
    | nil => exact ⟨u, vs, cs, rfl, hp, hu, rfl⟩
    | cons c w =>
      obtain rfl : c = d := Option.some.inj hd
      exact absurd List.mem_cons_self (hnot hw)

/-- If the tokens of `b` occur unchanged after those of `a`, no name spans the boundary. -/
theorem apart_of_append (hb : Segmented 0 b us none)
    (h : Segmented 0 (a ++ b) (ts ++ us.map (Token.shift a.length)) none) : Apart a b := by
  intro c hc d hd hletters
  -- The first token of `b` starts where `b` does, also in the longer text, and there the text can be
  -- taken apart.
  obtain ⟨u, vs, rest, rfl, hpos, hu, rfl⟩ := hb.exists_first hd hletters.2
  obtain ⟨a', rest', htext, -, hpos', -, -, hapart, -⟩ := h.split
  have hlen : a.length = a'.length := by
    rw [Token.position_shift, hpos] at hpos'
    omega
  obtain ⟨rfl, -⟩ := List.append_inj htext hlen
  have hne : u.spelling ≠ [] := by
    obtain ⟨e, es, he, -, -⟩ := hu.spelling_eq_cons
    simp [he]
  exact (hapart.append_right hne rest) c hc d hd hletters

end Segmented

namespace Cursor

variable {a b : String} {ts us : List Token}

/-- Where both texts are cut into tokens, `Apart` is necessary and sufficient for concatenation. -/
theorem tokenize_append_iff {eof : Token} (ha : (start a).tokenize.1 = .ok (ts ++ [eof]))
    (hb : (start b).tokenize.1 = .ok us) :
    (start (a ++ b)).tokenize.1 = .ok (ts ++ us.map (Token.shift a.length)) ↔
      Apart a.toList b.toList := by
  obtain ⟨ts', hts, heq⟩ := tokenize_eq_ok_iff.1 ha
  obtain ⟨rfl, -⟩ := List.append_inj' heq rfl
  obtain ⟨vs, hvs, rfl⟩ := tokenize_eq_ok_iff.1 hb
  have hend : (Token.endOfInput b.length).shift a.length = .endOfInput (a ++ b).length := by
    rw [String.length_append]
    rfl
  have hlist : ts ++ (vs ++ [Token.endOfInput b.length]).map (Token.shift a.length) =
      ts ++ vs.map (Token.shift a.length) ++ [.endOfInput (a ++ b).length] := by
    rw [List.map_append, List.map_singleton, hend, List.append_assoc]
  rw [hlist, tokenize_eq_ok_iff, String.toList_append, ← String.length_toList]
  constructor
  · rintro ⟨ws, hws, hmore⟩
    obtain ⟨rfl, -⟩ := List.append_inj' hmore rfl
    exact hvs.apart_of_append hws
  · intro hab
    exact ⟨_, hts.append_shift hvs hab, rfl⟩

/-- **Tokenizing distributes over concatenation.** If `a` tokenizes and no name spans the boundary,
the tokens of `a ++ b` are those of `a`, without its `Eof`, and those of `b` moved by the length of
`a`; a failure of `b` is moved likewise. -/
theorem tokenize_append {eof : Token} (ha : (start a).tokenize.1 = .ok (ts ++ [eof]))
    (hab : Apart a.toList b.toList) :
    (start (a ++ b)).tokenize.1 =
      match (start b).tokenize.1 with
      | .ok us => .ok (ts ++ us.map (Token.shift a.length))
      | .error (.unterminatedString p) => .error (.unterminatedString (p + a.length)) := by
  split
  · next us hb => exact (tokenize_append_iff ha hb).2 hab
  · next p hb =>
    obtain ⟨ts', hts, heq⟩ := tokenize_eq_ok_iff.1 ha
    obtain ⟨us, hus⟩ := tokenize_eq_error_iff.1 hb
    have h := hts.append_shift hus hab
    rw [← String.toList_append, String.length_toList] at h
    rw [Nat.add_comm]
    exact tokenize_eq_error_iff.2 ⟨_, h⟩

theorem tokenize_append_at_blanks :
    (start "f(\"é\" ").tokenize.1 = .ok ([⟨.identifier, "f", 0⟩, ⟨.lparen, "(", 1⟩,
      ⟨.stringLiteral, "é", 2⟩] ++ [⟨.eof, "", 6⟩]) ∧
    Apart "f(\"é\" ".toList " ,g".toList ∧
    (start ("f(\"é\" " ++ " ,g")).tokenize.1 = .ok [⟨.identifier, "f", 0⟩, ⟨.lparen, "(", 1⟩,
      ⟨.stringLiteral, "é", 2⟩, ⟨.comma, ",", 7⟩, ⟨.identifier, "g", 8⟩, ⟨.eof, "", 9⟩] := by
  have ha : (start "f(\"é\" ").tokenize.1 = .ok ([⟨.identifier, "f", 0⟩, ⟨.lparen, "(", 1⟩,
      ⟨.stringLiteral, "é", 2⟩] ++ [⟨.eof, "", 6⟩]) := by decide +kernel
  have hb : (start " ,g").tokenize.1 =
      .ok [⟨.comma, ",", 1⟩, ⟨.identifier, "g", 2⟩, ⟨.eof, "", 3⟩] := by decide +kernel
  have hab : Apart "f(\"é\" ".toList " ,g".toList := by
    rintro c hc d hd ⟨-, halpha⟩
    obtain rfl : ' ' = d := Option.some.inj hd
    exact absurd halpha (by decide)
  have h := tokenize_append ha hab
  rw [hb] at h
  exact ⟨ha, hab, h⟩

end Cursor

end FilterLang
