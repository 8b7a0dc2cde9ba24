import FilterLang.Proofs.Token.Stream
import Mathlib.Algebra.Ring.Parity
import Mathlib.Data.List.DropRight

/-!
# The closing quote of a literal

`isEscapeClosed` scans from the left: a backslash escapes the character behind it. The same quotes are
found by looking back: a quote is unescaped if an even number of backslashes stands right before it.

* `trailingBackslashes v` : the length of the run of backslashes at the end of `v`;
* `QuotesEscaped u v` : behind `u`, each quote in `v` has an odd number of backslashes right before it;
* `isEscapeClosed_iff_even`, `unclosed_iff_odd` : the left-to-right scan in terms of these parities;
* `ClosesAt cs v rest` : `cs` is `v`, its first unescaped quote and `rest` (`closesAt_iff`);
* `Cursor.next_at_quote` : the token, or the failure, at an opening quote.
-/

namespace FilterLang

/-- The length of the run of backslashes at the end of `v`. -/
def trailingBackslashes (v : List Char) : Nat := (v.rtakeWhile (· == '\\')).length

@[simp] theorem trailingBackslashes_nil : trailingBackslashes [] = 0 := rfl

theorem trailingBackslashes_concat (v : List Char) (c : Char) :
    trailingBackslashes (v ++ [c]) = if c = '\\' then trailingBackslashes v + 1 else 0 := by
  unfold trailingBackslashes
  rw [List.rtakeWhile_concat]
  by_cases hc : c = '\\'
  · simp [hc]
  · simp [hc]

/-- In `u ++ v`, each quote of `v` is behind an odd run of backslashes. -/
def QuotesEscaped (u v : List Char) : Prop :=
  ∀ x s, v = x ++ '"' :: s → Odd (trailingBackslashes (u ++ x))

theorem quotesEscaped_nil (u : List Char) : QuotesEscaped u [] := by
  intro x s h
  simp at h

theorem quotesEscaped_cons {u v : List Char} {c : Char} :
    QuotesEscaped u (c :: v) ↔
      (c = '"' → Odd (trailingBackslashes u)) ∧ QuotesEscaped (u ++ [c]) v := by
  constructor
  · intro h
    refine ⟨?_, ?_⟩
    · rintro rfl
      simpa using h [] v rfl
    · intro x s hv
      simpa using h (c :: x) s (by rw [hv, List.cons_append])
  · rintro ⟨hc, hv⟩ x s h
    cases x with
    | nil => simpa using hc (List.cons.inj h).1
    | cons d x =>
      obtain ⟨rfl, htail⟩ := List.cons.inj h
      simpa using hv x s htail

/-! ## Parity of the backslashes before a quote -/

/-- The scan over escapes agrees with the parity of the run before each quote. -/
theorem isEscapeClosed_iff_behind {u v : List Char} (hu : Even (trailingBackslashes u)) :
    isEscapeClosed v = true ↔ Even (trailingBackslashes (u ++ v)) ∧ QuotesEscaped u v := by
  -- Each step passes over a plain character or over a backslash with the character after it. Behind
  -- either, the number of trailing backslashes is even again.
  fun_induction isEscapeClosed v generalizing u with
  | case1 => simpa [quotesEscaped_nil] using hu
  | case2 cs =>
    rw [quotesEscaped_cons]
    simpa using fun _ hodd => absurd hu (Nat.not_even_iff_odd.2 hodd)
  | case3 h =>
    have hodd : Odd (trailingBackslashes (u ++ ['\\'])) := by
      rw [trailingBackslashes_concat, if_pos rfl]
      exact hu.add_one
    simpa using fun heven => absurd heven (Nat.not_even_iff_odd.2 hodd)
  | case4 c cs h ih =>
    have hodd : Odd (trailingBackslashes (u ++ ['\\'])) := by
      rw [trailingBackslashes_concat, if_pos rfl]
      exact hu.add_one
    have heven : Even (trailingBackslashes (u ++ ['\\'] ++ [c])) := by
      rw [trailingBackslashes_concat]
      split
      · exact hodd.add_one
      · exact Even.zero
    rw [ih heven, quotesEscaped_cons, quotesEscaped_cons]
    simp [hodd]
  | case5 c cs hq hb ih =>
    have heven : Even (trailingBackslashes (u ++ [c])) := by
      rw [trailingBackslashes_concat, if_neg hb]
      exact Even.zero
    rw [ih heven, quotesEscaped_cons]
    simp [hq]

theorem isEscapeClosed_iff_even {v : List Char} :
    isEscapeClosed v = true ↔ Even (trailingBackslashes v) ∧ QuotesEscaped [] v :=
  isEscapeClosed_iff_behind (u := []) Even.zero

theorem unclosed_iff_odd {cs : List Char} :
    Unclosed cs ↔ ∀ v rest, cs = v ++ '"' :: rest → Odd (trailingBackslashes v) := by
  constructor
  · intro h v
    -- At the first quote that is not escaped `v` would be closed.
    induction hlen : v.length using Nat.strong_induction_on generalizing v with
    | _ k ih =>
      intro rest hv
      have hescaped : QuotesEscaped [] v := by
        intro x s hx
        have hshort : x.length < k := by
          rw [← hlen, hx, List.length_append, List.length_cons]
          omega
        refine ih x.length hshort x rfl (s ++ '"' :: rest) ?_
        rw [hv, hx, List.append_assoc, List.cons_append]
      rw [← Nat.not_even_iff_odd]
      intro heven
      have hclosed := isEscapeClosed_iff_even.2 ⟨heven, hescaped⟩
      rw [h v rest hv] at hclosed
      cases hclosed
  · intro h v rest hv
    rw [Bool.eq_false_iff]
    intro hclosed
    exact Nat.not_even_iff_odd.2 (h v rest hv) (isEscapeClosed_iff_even.1 hclosed).1

/-- The quote between `v` and `rest` is the first in `cs` with an even number of backslashes right
before it. -/
structure ClosesAt (cs v rest : List Char) : Prop where
  text : cs = v ++ '"' :: rest
  even : Even (trailingBackslashes v)
  first : ∀ u s, cs = u ++ '"' :: s → Even (trailingBackslashes u) → v.length ≤ u.length

theorem closesAt_iff {cs v rest : List Char} :
    ClosesAt cs v rest ↔ cs = v ++ '"' :: rest ∧ isEscapeClosed v = true := by
  constructor
  · rintro ⟨rfl, heven, hfirst⟩
    refine ⟨rfl, isEscapeClosed_iff_even.2 ⟨heven, ?_⟩⟩
    intro x s hx
    rw [← Nat.not_even_iff_odd]
    intro hx'
    have hle := hfirst x (s ++ '"' :: rest) (by simp [hx]) hx'
    rw [hx, List.length_append, List.length_cons] at hle
    omega
  · rintro ⟨rfl, hclosed⟩
    obtain ⟨heven, hescaped⟩ := isEscapeClosed_iff_even.1 hclosed
    refine ⟨rfl, heven, ?_⟩
    intro u s hu heven'
    by_contra hlt
    -- A shorter text before a quote of the same text is followed by that quote inside `v`.
    obtain ⟨x, rfl⟩ : ∃ x, v = u ++ '"' :: x := by
      rcases List.append_eq_append_iff.1 hu with ⟨x, rfl, -⟩ | ⟨x, rfl, hx⟩
      · rw [List.length_append] at hlt
        omega
      · cases x with
        | nil => simp at hlt
        | cons d x => exact ⟨x, by rw [(List.cons.inj hx).1]⟩
    exact Nat.not_even_iff_odd.2 (hescaped u x rfl) heven'

/-! ## Scanning a literal -/

namespace Cursor

variable {text : String} {c : Cursor text} {w cs : List Char}

/-- Specification of `scan` at a quote: the literal up to its closing quote, or a failure. -/
theorem scan_at_quote (hw : ∀ ch ∈ w, isBlank ch = true) (h : c.remaining = w ++ '"' :: cs) :
    (∃ v after hlt, c.scan = .token ⟨.stringLiteral, String.ofList v, c.position + w.length⟩ after hlt ∧
      isEscapeClosed v = true ∧ cs = v ++ '"' :: after.remaining ∧
      after.position = c.position + w.length + v.length + 2) ∨
    ∃ stop, c.scan = .failed (.unterminatedString (c.position + w.length)) stop ∧ Unclosed cs := by
  have hdescribes := c.scan_describes
  cases hscan : c.scan with
  | token t after hlt =>
    rw [hscan] at hdescribes
    obtain ⟨w', hw', ht, hp, -, hpasses⟩ := hdescribes
    have htext := hpasses.remaining
    rw [h, List.append_assoc] at htext
    obtain ⟨rfl, hbehind⟩ := run_unique hw hw' (quote_not_blank _) (ht.head_not_blank _) htext
    have hkind : t.kind = .stringLiteral := by
      obtain ⟨d, ds, hd, hk, -⟩ := ht.spelling_eq_cons
      rw [hd] at hbehind
      rw [hk, ← (List.cons.inj hbehind).1]
      rfl
    rw [Token.spelling_of_eq hkind] at hbehind
    have hcs : cs = t.value.toList ++ '"' :: after.remaining := by
      simpa using hbehind
    have hpos := hpasses.position
    rw [Token.spelling_of_eq hkind] at hpos
    refine .inl ⟨t.value.toList, after, hlt, ?_, ht.closed hkind, hcs, ?_⟩
    · congr 1
      exact Token.ext hkind String.ofList_toList.symm hp
    · simp only [hpos, List.length_append, List.length_cons, List.length_nil]
      omega
  | ended stop =>
    rw [hscan] at hdescribes
    obtain ⟨w', hw', hpasses, hnil⟩ := hdescribes
    have hmem : '"' ∈ w' := by
      have htext := hpasses.remaining
      rw [h, hnil, List.append_nil] at htext
      simp [← htext]
    exact absurd (hw' _ hmem) (by decide)
  | failed e stop =>
    rw [hscan] at hdescribes
    obtain ⟨w', cs', hw', hcs', rfl, hpasses, hnil⟩ := hdescribes
    have htext := hpasses.remaining
    rw [h, hnil, List.append_nil] at htext
    obtain ⟨rfl, hbehind⟩ := run_unique hw hw' (quote_not_blank _) (quote_not_blank _) htext
    obtain rfl := (List.cons.inj hbehind).2
    exact .inr ⟨stop, rfl, hcs'⟩

/-- **A literal closes at the first quote with an even number of backslashes right before it.** Its
value is the text between the quotes, unchanged, and the cursor moves behind the closing one. If there
is no such quote, the failure is at the opening quote. -/
theorem next_at_quote (hw : ∀ ch ∈ w, isBlank ch = true) (h : c.remaining = w ++ '"' :: cs) :
    (∀ t, c.next.1 = .ok t ↔ ∃ v rest, ClosesAt cs v rest ∧
      t = ⟨.stringLiteral, String.ofList v, c.position + w.length⟩ ∧
      c.next.2.remaining = rest ∧ c.next.2.position = c.position + w.length + v.length + 2) ∧
    ∀ e, c.next.1 = .error e ↔
      (∀ v rest, cs = v ++ '"' :: rest → Odd (trailingBackslashes v)) ∧
      e = .unterminatedString (c.position + w.length) := by
  unfold next
  rcases scan_at_quote hw h with ⟨v, after, hlt, hscan, hclosed, rfl, hpos⟩ | ⟨stop, hscan, hcs⟩
  · rw [hscan]
    refine ⟨fun t => ⟨?_, ?_⟩, fun e => ⟨?_, ?_⟩⟩
    · intro ht
      exact ⟨v, after.remaining, closesAt_iff.2 ⟨rfl, hclosed⟩, (Except.ok.inj ht).symm, rfl, hpos⟩
    · rintro ⟨u, rest, hcloses, rfl, -, -⟩
      obtain ⟨htext, hu⟩ := closesAt_iff.1 hcloses
      obtain ⟨rfl, -⟩ := closingQuote_unique hclosed hu htext
      rfl
    · intro he
      cases he
    · rintro ⟨hodd, -⟩
      exact absurd (unclosed_iff_odd.2 hodd) (not_unclosed_append hclosed _)
  · rw [hscan]
    refine ⟨fun t => ⟨?_, ?_⟩, fun e => ⟨?_, ?_⟩⟩
    · intro ht
      cases ht
    · rintro ⟨v, rest, hcloses, -⟩
      obtain ⟨rfl, hv⟩ := closesAt_iff.1 hcloses
      exact absurd hcs (not_unclosed_append hv rest)
    · intro he
      exact ⟨unclosed_iff_odd.1 hcs, (Except.error.inj he).symm⟩
    · rintro ⟨-, rfl⟩
      rfl

/-- The second quote is escaped, and the third one has two backslashes before it. -/
theorem next_at_third_quote :
    (∀ ch ∈ [' '], isBlank ch = true) ∧
    (start " \"a\\\"\\\\\" \"").remaining = [' '] ++ '"' :: ['a', '\\', '"', '\\', '\\', '"', ' ', '"'] ∧
    ClosesAt ['a', '\\', '"', '\\', '\\', '"', ' ', '"'] ['a', '\\', '"', '\\', '\\'] [' ', '"'] ∧
    (start " \"a\\\"\\\\\" \"").next.1 = .ok ⟨.stringLiteral, "a\\\"\\\\", 1⟩ := by
  have hw : ∀ ch ∈ [' '], isBlank ch = true := List.forall_mem_singleton.2 (by decide)
  have h : (start " \"a\\\"\\\\\" \"").remaining =
      [' '] ++ '"' :: ['a', '\\', '"', '\\', '\\', '"', ' ', '"'] := by
    rw [remaining_start]
    decide
  have hnext : (start " \"a\\\"\\\\\" \"").next.1 = .ok ⟨.stringLiteral, "a\\\"\\\\", 1⟩ := by decide +kernel
  obtain ⟨v, rest, hcloses, ht, -⟩ := ((next_at_quote hw h).1 _).1 hnext
  obtain rfl : ['a', '\\', '"', '\\', '\\'] = v := by
    have hvalue : "a\\\"\\\\" = String.ofList v := congrArg Token.value ht
    rw [← String.toList_ofList (l := v), ← hvalue]
    decide
  obtain rfl : [' ', '"'] = rest := by
    simpa using hcloses.text
  exact ⟨hw, h, hcloses, hnext⟩

end Cursor

end FilterLang
