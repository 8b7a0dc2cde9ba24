import FilterLang.Proofs.Text.Cursor
import FilterLang.Token.Stream
import FilterLang.Tree
import Mathlib.Tactic.SplitIfs

/-!
# Segmentations

The tokens of a text, as a relation on lists of characters.

* `Token.spelling t` : the characters of `t`;
* `Token.IsLexeme t` : the value of `t` is one of its kind;
* `Token.StopsBefore t rest` : `t` is maximal in front of `rest`;
* `Segmented n cs ts failure?` : `cs`, at position `n`, consists of blanks and the tokens `ts`, up to its end or up to
  an unterminated string literal;
* `Segmented.unique` : `ts` and `failure?` are determined by `cs`;
* `Segmented.append`, `Segmented.split` : concatenation of texts that are `Apart`, and the two sides of a token.
-/

namespace FilterLang

/-! ## Lexemes -/

attribute [ext] Token

namespace Token

/-- The characters of a token in a text, quotes included. -/
def spelling (t : Token) : List Char :=
  if t.kind = .stringLiteral then '"' :: (t.value.toList ++ ['"']) else t.value.toList

/-- The value is one of the kind. The end of the input has no spelling and is no lexeme. -/
def IsLexeme (t : Token) : Prop :=
  match t.kind with
  | .identifier => isName t.value = true
  | .stringLiteral => isEscapeClosed t.value.toList = true
  | .lparen => t.value = "("
  | .rparen => t.value = ")"
  | .comma => t.value = ","
  | .unknown => ∃ c, t.value = c.toString ∧ isBlank c = false ∧ c.isAlpha = false ∧
      c ≠ '(' ∧ c ≠ ')' ∧ c ≠ ',' ∧ c ≠ '"'
  | .eof => False

/-- An identifier is not followed by a letter. -/
def StopsBefore (t : Token) (rest : List Char) : Prop :=
  t.kind = .identifier → ∀ c ∈ rest.head?, c.isAlpha = false

/-- The kind of a lexeme by its first character. -/
def Kind.ofFirst (c : Char) : Kind :=
  if c = '"' then .stringLiteral else if c.isAlpha then .identifier else .ofMark c

end Token

theorem isBlank_of_isAlpha {c : Char} (h : c.isAlpha = true) : isBlank c = false := by
  have hletter : (decide (c.val ≥ 'A'.val ∧ c.val ≤ 'Z'.val) ||
      (c.val ≥ 'a'.val && c.val ≤ 'z'.val)) = true := h
  have hc : 65 ≤ c.toNat ∧ c.toNat ≤ 90 ∨ 97 ≤ c.toNat ∧ c.toNat ≤ 122 := by
    simpa [UInt32.le_iff_toNat_le] using hletter
  rw [Bool.eq_false_iff]
  intro hb
  simp only [isBlank, blankRanges, List.any_cons, List.any_nil, Bool.or_eq_true, Bool.and_eq_true,
    decide_eq_true_eq, Bool.false_eq_true, or_false] at hb
  omega

theorem quote_not_blank (cs : List Char) : ∀ c ∈ ('"' :: cs).head?, isBlank c = false := by
  intro c hc
  cases hc
  decide

/-- The maximal prefix of characters that satisfy `p` is unique. -/
theorem run_unique {p : Char → Bool} {v w r s : List Char} (hv : ∀ c ∈ v, p c = true)
    (hw : ∀ c ∈ w, p c = true) (hr : ∀ c ∈ r.head?, p c = false)
    (hs : ∀ c ∈ s.head?, p c = false) (h : v ++ r = w ++ s) : v = w ∧ r = s := by
  -- The shorter run would be followed by a character of the longer one.
  rcases List.append_eq_append_iff.1 h with ⟨u, rfl, rfl⟩ | ⟨u, rfl, rfl⟩
  · cases u with
    | nil => simp
    | cons c u =>
      have hc := hw c (by simp)
      rw [hr c (by simp)] at hc
      cases hc
  · cases u with
    | nil => simp
    | cons c u =>
      have hc := hv c (by simp)
      rw [hs c (by simp)] at hc
      cases hc

namespace Token

theorem spelling_of_ne {t : Token} (h : t.kind ≠ .stringLiteral) : t.spelling = t.value.toList :=
  if_neg h

theorem spelling_of_eq {t : Token} (h : t.kind = .stringLiteral) :
    t.spelling = '"' :: (t.value.toList ++ ['"']) :=
  if_pos h

/-- The position behind the token. -/
def stop (t : Token) : Nat :=
  t.position + t.value.length + if t.kind = .stringLiteral then 2 else 0

theorem stop_eq (t : Token) : t.stop = t.position + t.spelling.length := by
  unfold stop spelling
  split
  · simp only [List.length_cons, List.length_append, List.length_nil, String.length_toList]
    omega
  · rw [String.length_toList, Nat.add_zero]

theorem IsLexeme.name {t : Token} (h : t.IsLexeme) (hk : t.kind = .identifier) :
    isName t.value = true := by
  rw [IsLexeme, hk] at h
  exact h

theorem IsLexeme.closed {t : Token} (h : t.IsLexeme) (hk : t.kind = .stringLiteral) :
    isEscapeClosed t.value.toList = true := by
  rw [IsLexeme, hk] at h
  exact h

/-- Inversion of `IsLexeme`: a name, a literal or a mark. -/
theorem IsLexeme.cases {t : Token} (h : t.IsLexeme) :
    (t.kind = .identifier ∧ isName t.value = true) ∨
    (t.kind = .stringLiteral ∧ isEscapeClosed t.value.toList = true) ∨
    ∃ c, t.kind = .ofMark c ∧ t.value = c.toString ∧ isBlank c = false ∧ c.isAlpha = false ∧
      c ≠ '"' := by
  obtain ⟨kind, value, position⟩ := t
  cases kind with
  | identifier => exact .inl ⟨rfl, h⟩
  | stringLiteral => exact .inr (.inl ⟨rfl, h⟩)
  | lparen => exact .inr (.inr ⟨'(', rfl, h, by decide⟩)
  | rparen => exact .inr (.inr ⟨')', rfl, h, by decide⟩)
  | comma => exact .inr (.inr ⟨',', rfl, h, by decide⟩)
  | eof => exact h.elim
  | unknown =>
    obtain ⟨c, hc, hblank, halpha, h1, h2, h3, hq⟩ := h
    exact .inr (.inr ⟨c, by simp [Kind.ofMark, h1, h2, h3], hc, hblank, halpha, hq⟩)

theorem isLexeme_ofMark {c : Char} (hblank : isBlank c = false) (halpha : c.isAlpha = false)
    (hq : c ≠ '"') (position : Nat) : IsLexeme ⟨.ofMark c, c.toString, position⟩ := by
  by_cases h1 : c = '('
  · subst h1; rfl
  by_cases h2 : c = ')'
  · subst h2; rfl
  by_cases h3 : c = ','
  · subst h3; rfl
  rw [Kind.ofMark, if_neg h1, if_neg h2, if_neg h3]
  exact ⟨c, rfl, hblank, halpha, h1, h2, h3, hq⟩

theorem ofMark_ne_stringLiteral (c : Char) : Kind.ofMark c ≠ .stringLiteral := by
  unfold Kind.ofMark
  split_ifs <;> simp

theorem ofMark_ne_identifier (c : Char) : Kind.ofMark c ≠ .identifier := by
  unfold Kind.ofMark
  split_ifs <;> simp

theorem spelling_ofMark {t : Token} {c : Char} (hk : t.kind = .ofMark c)
    (hv : t.value = c.toString) : t.spelling = [c] := by
  rw [spelling_of_ne (hk ▸ ofMark_ne_stringLiteral c), hv]
  simp

theorem isName_iff {s : String} :
    isName s = true ↔ s.toList ≠ [] ∧ ∀ c ∈ s.toList, c.isAlpha = true := by
  simp [isName]

/-- The first character determines the kind. -/
theorem IsLexeme.spelling_eq_cons {t : Token} (h : t.IsLexeme) :
    ∃ c cs, t.spelling = c :: cs ∧ t.kind = .ofFirst c ∧ isBlank c = false := by
  rcases h.cases with ⟨hk, hv⟩ | ⟨hk, hv⟩ | ⟨c, hk, hv, hblank, halpha, hq⟩
  · obtain ⟨hne, hall⟩ := isName_iff.1 hv
    obtain ⟨c, cs, hcs⟩ := List.exists_cons_of_ne_nil hne
    have hc : c.isAlpha = true := hall c (by simp [hcs])
    have hq : c ≠ '"' := by
      rintro rfl
      exact absurd hc (by decide)
    refine ⟨c, cs, by rw [spelling_of_ne (by simp [hk]), hcs], ?_, isBlank_of_isAlpha hc⟩
    rw [hk, Kind.ofFirst, if_neg hq, if_pos hc]
  · exact ⟨'"', _, spelling_of_eq hk, hk, by decide⟩
  · refine ⟨c, [], spelling_ofMark hk hv, ?_, hblank⟩
    rw [hk, Kind.ofFirst, if_neg hq, if_neg (by simp [halpha])]

theorem IsLexeme.kind_of_getLast? {t : Token} (h : t.IsLexeme) {c : Char}
    (hc : c ∈ t.spelling.getLast?) (halpha : c.isAlpha = true) : t.kind = .identifier := by
  rcases h.cases with ⟨hk, hv⟩ | ⟨hk, hv⟩ | ⟨d, hk, hv, -, hd, -⟩
  · exact hk
  · rw [spelling_of_eq hk, ← List.cons_append, List.getLast?_concat] at hc
    cases hc
    exact absurd halpha (by decide)
  · rw [spelling_ofMark hk hv] at hc
    obtain rfl : d = c := by simpa using hc
    rw [hd] at halpha
    cases halpha

/-- Maximal munch: at most one lexeme starts a text and stops where it has to. -/
theorem IsLexeme.unique {t u : Token} (ht : t.IsLexeme) (hu : u.IsLexeme) {r s : List Char}
    (hr : t.StopsBefore r) (hs : u.StopsBefore s) (h : t.spelling ++ r = u.spelling ++ s) :
    t.kind = u.kind ∧ t.value = u.value ∧ r = s := by
  have hkind : t.kind = u.kind := by
    obtain ⟨c, cs, hc, hk, -⟩ := ht.spelling_eq_cons
    obtain ⟨d, ds, hd, hk', -⟩ := hu.spelling_eq_cons
    rw [hc, hd] at h
    rw [hk, hk', (List.cons.inj h).1]
  refine ⟨hkind, ?_⟩
  rcases ht.cases with ⟨hk, hv⟩ | ⟨hk, hv⟩ | ⟨c, hk, hv, -⟩
  · have hk' : u.kind = .identifier := hkind ▸ hk
    rw [spelling_of_ne (by simp [hk]), spelling_of_ne (by simp [hk'])] at h
    obtain ⟨hval, hrest⟩ :=
      run_unique (isName_iff.1 hv).2 (isName_iff.1 (hu.name hk')).2 (hr hk) (hs hk') h
    exact ⟨String.toList_injective hval, hrest⟩
  · have hk' : u.kind = .stringLiteral := hkind ▸ hk
    rw [spelling_of_eq hk, spelling_of_eq hk'] at h
    simp only [List.cons_append, List.append_assoc, List.nil_append, List.cons.injEq,
      true_and] at h
    obtain ⟨hval, hrest⟩ := closingQuote_unique hv (hu.closed hk') h
    exact ⟨String.toList_injective hval, hrest⟩
  · obtain ⟨d, hk', hv'⟩ : ∃ d, u.kind = .ofMark d ∧ u.value = d.toString := by
      rcases hu.cases with ⟨hk', -⟩ | ⟨hk', -⟩ | ⟨d, hk', hv', -⟩
      · exact absurd (hk.symm.trans (hkind.trans hk')) (ofMark_ne_identifier c)
      · exact absurd (hk.symm.trans (hkind.trans hk')) (ofMark_ne_stringLiteral c)
      · exact ⟨d, hk', hv'⟩
    rw [spelling_ofMark hk hv, spelling_ofMark hk' hv'] at h
    obtain ⟨rfl, hrest⟩ := List.cons.inj h
    exact ⟨hv.trans hv'.symm, hrest⟩

theorem IsLexeme.head_not_blank {t : Token} (h : t.IsLexeme) (rest : List Char) :
    ∀ c ∈ (t.spelling ++ rest).head?, isBlank c = false := by
  obtain ⟨c, cs, hc, -, hblank⟩ := h.spelling_eq_cons
  simpa [hc] using hblank

theorem IsLexeme.not_blank {t : Token} (h : t.IsLexeme) (w rest : List Char) :
    ¬ ∀ c ∈ w ++ (t.spelling ++ rest), isBlank c = true := by
  intro hall
  obtain ⟨c, cs, hc, -, hblank⟩ := h.spelling_eq_cons
  rw [hall c (by simp [hc])] at hblank
  cases hblank

theorem IsLexeme.isEof_eq_false {t : Token} (h : t.IsLexeme) : t.isEof = false := by
  rw [Bool.eq_false_iff]
  intro heof
  rw [IsLexeme, isEof_iff.1 heof] at h
  exact h

/-- No lexeme starts at the quote of an unclosed literal. -/
theorem IsLexeme.ne_unclosed {t : Token} (h : t.IsLexeme) {cs : List Char} (hcs : Unclosed cs)
    (rest : List Char) : '"' :: cs ≠ t.spelling ++ rest := by
  intro heq
  obtain ⟨c, ds, hc, hk, -⟩ := h.spelling_eq_cons
  rw [hc] at heq
  obtain ⟨rfl, -⟩ := List.cons.inj heq
  rw [← hc, spelling_of_eq hk] at heq
  simp only [List.cons_append, List.append_assoc, List.nil_append, List.cons.injEq,
    true_and] at heq
  exact not_unclosed_append (h.closed hk) rest (heq ▸ hcs)

end Token

/-! ## Texts made of tokens -/

/-- `cs`, which starts at position `n`, consists of the tokens `ts` with blanks around them, up to its end or up to an
unterminated string literal. -/
inductive Segmented : Nat → List Char → List Token → Option LexicalError → Prop
  | blank {n : Nat} {w : List Char} (hw : ∀ c ∈ w, isBlank c = true) : Segmented n w [] none
  | unclosed {n : Nat} {w cs : List Char} (hw : ∀ c ∈ w, isBlank c = true) (hcs : Unclosed cs) :
      Segmented n (w ++ '"' :: cs) [] (some (.unterminatedString (n + w.length)))
  | token {n : Nat} {w cs : List Char} {t : Token} {ts : List Token}
      {failure? : Option LexicalError} (hw : ∀ c ∈ w, isBlank c = true) (ht : t.IsLexeme)
      (hp : t.position = n + w.length) (hstop : t.StopsBefore cs)
      (hcs : Segmented (t.position + t.spelling.length) cs ts failure?) :
      Segmented n (w ++ (t.spelling ++ cs)) (t :: ts) failure?

/-- No identifier continues from `a` into `b`. -/
def Apart (a b : List Char) : Prop :=
  ∀ c ∈ a.getLast?, ∀ d ∈ b.head?, ¬ (c.isAlpha = true ∧ d.isAlpha = true)

theorem Apart.append_right {a b : List Char} (h : Apart a b) (hb : b ≠ []) (r : List Char) :
    Apart a (b ++ r) := by
  cases b with
  | nil => exact absurd rfl hb
  | cons d b => exact h

namespace Segmented

variable {n : Nat} {a b cs : List Char} {ts us : List Token} {t : Token}
  {failure? other? : Option LexicalError}

theorem isLexeme (h : Segmented n cs ts failure?) : ∀ t ∈ ts, t.IsLexeme := by
  induction h with
  | blank _ => simp
  | unclosed _ _ => simp
  | token _ ht _ _ _ ih => simpa [ht] using ih

theorem blank_append {w : List Char} (hw : ∀ c ∈ w, isBlank c = true)
    (h : Segmented (n + w.length) cs ts failure?) : Segmented n (w ++ cs) ts failure? := by
  have hall : ∀ {v : List Char}, (∀ c ∈ v, isBlank c = true) → ∀ c ∈ w ++ v, isBlank c = true := by
    intro v hv c hc
    exact (List.mem_append.1 hc).elim (hw c) (hv c)
  generalize hm : n + w.length = m at h
  cases h with
  | blank hv => exact .blank (hall hv)
  | @unclosed _ v cs hv hcs =>
    rw [← List.append_assoc, ← hm, Nat.add_assoc, ← List.length_append]
    exact .unclosed (hall hv) hcs
  | @token _ v cs t ts _ hv ht hp hstop hcs =>
    rw [← List.append_assoc]
    refine .token (hall hv) ht ?_ hstop hcs
    rw [hp, ← hm, List.length_append, Nat.add_assoc]

theorem single (ht : t.IsLexeme) : Segmented t.position t.spelling [t] none := by
  have h : Segmented (t.position + t.spelling.length) [] [] none := .blank (by simp)
  simpa using Segmented.token (w := []) (by simp) ht rfl (by simp [Token.StopsBefore]) h

/-- Segmentations concatenate unless a name continues from one into the other. -/
theorem append (ha : Segmented n a ts none) (hb : Segmented (n + a.length) b us failure?)
    (hab : Apart a b) : Segmented n (a ++ b) (ts ++ us) failure? := by
  generalize hnone : (none : Option LexicalError) = good at ha
  induction ha with
  | blank hw => exact blank_append hw hb
  | unclosed _ _ => cases hnone
  | @token n w cs t ts _ hw ht hp hstop _ ih =>
    have hlen : t.position + t.spelling.length + cs.length =
        n + (w ++ (t.spelling ++ cs)).length := by
      simp only [hp, List.length_append]
      omega
    -- If `cs` is empty, the last character of `t` decides, and that is a letter only for an identifier.
    have hapart : Apart cs b := by
      intro c hc
      refine hab c ?_
      simp [List.getLast?_append, Option.mem_def.1 hc]
    have hstop' : t.StopsBefore (cs ++ b) := by
      intro hk d hd
      cases cs with
      | cons c cs => exact hstop hk d hd
      | nil =>
        rw [Bool.eq_false_iff]
        intro halpha
        obtain ⟨hne, hall⟩ := Token.isName_iff.1 (ht.name hk)
        rw [Token.spelling_of_ne (by simp [hk])] at hab
        refine hab (t.value.toList.getLast hne) ?_ d hd ⟨hall _ (List.getLast_mem hne), halpha⟩
        simp [List.getLast?_append, List.getLast?_eq_some_getLast hne]
    rw [List.append_assoc, List.append_assoc, List.cons_append]
    exact .token hw ht hp hstop' (ih (hlen ▸ hb) hapart hnone)

/-- A list of characters has at most one segmentation, failure included. -/
theorem unique (h : Segmented n cs ts failure?) (h' : Segmented n cs us other?) :
    ts = us ∧ failure? = other? := by
  -- `run_unique` equates the leading blanks, and the character behind them determines the rule.
  induction h generalizing us other? with
  | @blank n w hw =>
    cases h' with
    | blank _ => exact ⟨rfl, rfl⟩
    | unclosed _ _ => exact absurd (hw '"' (by simp)) (by decide)
    | token _ ht _ _ _ => exact absurd hw (ht.not_blank _ _)
  | @unclosed n w cs hw hcs =>
    generalize htext : w ++ '"' :: cs = text at h'
    cases h' with
    | blank hv => exact absurd (hv '"' (by simp [← htext])) (by decide)
    | unclosed hv _ =>
      obtain ⟨rfl, -⟩ := run_unique hw hv (quote_not_blank _) (quote_not_blank _) htext
      exact ⟨rfl, rfl⟩
    | token hv ht _ _ _ =>
      exact absurd (run_unique hw hv (quote_not_blank _) (ht.head_not_blank _) htext).2 (ht.ne_unclosed hcs _)
  | @token n w cs t ts _ hw ht hp hstop hcs ih =>
    generalize htext : w ++ (t.spelling ++ cs) = text at h'
    cases h' with
    | blank hv => exact absurd (htext ▸ hv) (ht.not_blank _ _)
    | unclosed hv hcs' =>
      exact absurd (run_unique hv hw (quote_not_blank _) (ht.head_not_blank _) htext.symm).2
        (ht.ne_unclosed hcs' _)
    | @token _ v cs' u us _ hv hu hp' hstop' hcs' =>
      obtain ⟨rfl, h⟩ := run_unique hw hv (ht.head_not_blank _) (hu.head_not_blank _) htext
      obtain ⟨hkind, hval, rfl⟩ := ht.unique hu hstop hstop' h
      obtain rfl : t = u := Token.ext hkind hval (hp.trans hp'.symm)
      obtain ⟨rfl, rfl⟩ := ih hcs'
      exact ⟨rfl, rfl⟩

theorem within (h : Segmented n cs ts failure?) :
    ∀ t ∈ ts, t.position + t.spelling.length ≤ n + cs.length := by
  induction h with
  | blank _ => simp
  | unclosed _ _ => simp
  | @token n w cs t ts _ hw ht hp hstop hcs ih =>
    have hlen : (w ++ (t.spelling ++ cs)).length = w.length + t.spelling.length + cs.length := by
      simp only [List.length_append]
      omega
    rintro u (_ | ⟨_, hu⟩)
    · omega
    · have := ih u hu
      omega

/-- An unterminated literal starts at a quote that is not inside a token, with nothing behind it that closes it. -/
theorem failure_iff {p : Nat} :
    Segmented n cs ts (some (.unterminatedString p)) ↔
      ∃ a b, cs = a ++ '"' :: b ∧ p = n + a.length ∧ Segmented n a ts none ∧ Unclosed b := by
  constructor
  · generalize hbad : some (LexicalError.unterminatedString p) = bad
    intro h
    induction h with
    | blank _ => cases hbad
    | @unclosed n w cs hw hcs =>
      cases hbad
      exact ⟨w, cs, rfl, rfl, .blank hw, hcs⟩
    | @token n w cs t ts _ hw ht hp hstop _ ih =>
      obtain ⟨a, b, rfl, rfl, ha, hb⟩ := ih hbad
      refine ⟨w ++ (t.spelling ++ a), b, by simp, ?_, .token hw ht hp ?_ ha, hb⟩
      · simp only [hp, List.length_append]
        omega
      · intro hk d hd
        exact hstop hk d (by simp [List.head?_append, Option.mem_def.1 hd])
  · rintro ⟨a, b, rfl, rfl, ha, hb⟩
    have hquote : Segmented (n + a.length) ('"' :: b) [] (some (.unterminatedString (n + a.length))) :=
      .unclosed (w := []) (by simp) hb
    simpa using ha.append hquote (by simp [Apart])

/-- A token of a segmentation splits it into one before and one behind the token. -/
theorem split (h : Segmented n cs (ts ++ t :: us) failure?) :
    ∃ a rest, cs = a ++ (t.spelling ++ rest) ∧ Segmented n a ts none ∧
      t.position = n + a.length ∧ t.IsLexeme ∧ t.StopsBefore rest ∧ Apart a t.spelling ∧
      Segmented (t.position + t.spelling.length) rest us failure? := by
  generalize htokens : ts ++ t :: us = all at h
  induction h generalizing ts with
  | blank _ => simp at htokens
  | unclosed _ _ => simp at htokens
  | @token n w cs u all _ hw hu hp hstop hcs ih =>
    cases ts with
    | nil =>
      obtain ⟨rfl, rfl⟩ := List.cons.inj htokens
      refine ⟨w, cs, rfl, .blank hw, hp, hu, hstop, fun c hc d _ => ?_, hcs⟩
      rintro ⟨halpha, -⟩
      have hblank := hw c (List.mem_of_getLast? hc)
      rw [isBlank_of_isAlpha halpha] at hblank
      cases hblank
    | cons u' ts =>
      obtain ⟨rfl, hmore⟩ := List.cons.inj htokens
      obtain ⟨a, rest, rfl, ha, hpos, ht, hstop', hapart, hrest⟩ := ih hmore
      have hstopa : u'.StopsBefore a := by
        intro hk d hd
        exact hstop hk d (by simp [List.head?_append, Option.mem_def.1 hd])
      refine ⟨w ++ (u'.spelling ++ a), rest, by simp, .token hw hu hp hstopa ha, ?_, ht, hstop', ?_,
        hrest⟩
      · rw [hpos, hp, List.length_append, List.length_append]
        omega
      · intro c hc d hd
        cases a with
        | cons e a => exact hapart c (by simpa [List.getLast?_append] using hc) d hd
        | nil =>
          rintro ⟨hcalpha, hdalpha⟩
          obtain ⟨e, es, he, -, -⟩ := hu.spelling_eq_cons
          have hlast : c ∈ u'.spelling.getLast? := by
            simpa [List.getLast?_append, he] using hc
          have hd' := hstop (hu.kind_of_getLast? hlast hcalpha) d
            (by simp [List.head?_append, Option.mem_def.1 hd])
          rw [hdalpha] at hd'
          cases hd'

end Segmented

end FilterLang
