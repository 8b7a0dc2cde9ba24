import FilterLang.Limits.Environment
import Mathlib.Data.List.TakeWhile
import Mathlib.Tactic.SplitIfs

/-!
# Limits from environment variables

* `DigitRun cs digits rest` : `digits` is the maximal prefix of digits of `cs`;
* `readDigits_of_run` : the bound is tested on all of `digits` before `rest` is looked at;
* `StandsFor cs outcome` : the specification of `readCount` (`readCount_iff`);
* `IsTrimmed cs core` : the specification of `trimBlank` (`trimBlank_eq_iff`);
* `Environment.Sets` : the specification of `Environment.limit` (`limit_eq_iff`);
* `Limits.ofEnvironment_iff` : both limits.
-/

namespace FilterLang

/-! ## Counts -/

/-- The list without a leading plus sign, unless that is all of it. -/
def unsigned : List Char → List Char
  | '+' :: c :: cs => c :: cs
  | cs => cs

/-- The maximal run of digits at the start of `cs`, and what follows it. -/
structure DigitRun (cs digits rest : List Char) : Prop where
  text : cs = digits ++ rest
  digits : ∀ c ∈ digits, c.isDigit = true
  stops : ∀ c ∈ rest.head?, c.isDigit = false

theorem of_mem_head?_dropWhile {p : Char → Bool} {cs : List Char} :
    ∀ c ∈ (cs.dropWhile p).head?, p c = false := by
  intro c hc
  have h := List.head?_dropWhile_not p cs
  rw [Option.mem_def.1 hc] at h
  simpa using h

theorem exists_digitRun (cs : List Char) : ∃ digits rest, DigitRun cs digits rest := by
  refine ⟨cs.takeWhile Char.isDigit, cs.dropWhile Char.isDigit, ?_, ?_, of_mem_head?_dropWhile⟩
  · exact List.takeWhile_append_dropWhile.symm
  · intro c hc
    exact List.mem_takeWhile_imp hc

theorem DigitRun.cons_digit {cs digits rest : List Char} {c : Char} (h : DigitRun (c :: cs) digits rest)
    (hc : c.isDigit = true) : ∃ more, digits = c :: more ∧ DigitRun cs more rest := by
  obtain ⟨htext, hdigits, hstops⟩ := h
  cases digits with
  | nil =>
    obtain rfl : c :: cs = rest := htext
    rw [hstops c rfl] at hc
    cases hc
  | cons d more =>
    obtain ⟨rfl, hcs⟩ := List.cons.inj htext
    exact ⟨more, rfl, hcs, fun d hd => hdigits d (List.mem_cons_of_mem _ hd), hstops⟩

theorem DigitRun.of_not_digit {cs digits rest : List Char} {c : Char}
    (h : DigitRun (c :: cs) digits rest) (hc : c.isDigit = false) : digits = [] ∧ rest = c :: cs := by
  obtain ⟨htext, hdigits, -⟩ := h
  cases digits with
  | nil => exact ⟨rfl, htext.symm⟩
  | cons d more =>
    obtain ⟨rfl, -⟩ := List.cons.inj htext
    rw [hdigits c List.mem_cons_self] at hc
    cases hc

theorem le_ofDigitChars (digits : List Char) (value : Nat) :
    value ≤ Nat.ofDigitChars 10 digits value := by
  rw [Nat.ofDigitChars_eq_ofDigitChars_zero]
  have hpos : 1 * value ≤ 10 ^ digits.length * value := Nat.mul_le_mul_right _ (Nat.pow_pos (by decide))
  omega

/-- `Nat.ofDigitChars` of the whole run decides about `tooLarge`, and `rest` only then about `invalidDigit`. -/
theorem readDigits_of_run {value : Nat} {cs digits rest : List Char} (hvalue : value < countBound)
    (h : DigitRun cs digits rest) :
    readDigits value cs =
      if countBound ≤ Nat.ofDigitChars 10 digits value then .error .tooLarge
      else if rest = [] then .ok (Nat.ofDigitChars 10 digits value)
      else .error .invalidDigit := by
  induction cs generalizing value digits with
  | nil =>
    obtain ⟨rfl, rfl⟩ := List.append_eq_nil_iff.1 h.text.symm
    rw [Nat.ofDigitChars_nil, if_neg (Nat.not_le.2 hvalue), if_pos rfl, readDigits]
  | cons c cs ih =>
    unfold readDigits
    by_cases hc : c.isDigit = true
    · obtain ⟨more, rfl, hmore⟩ := h.cons_digit hc
      rw [if_pos hc, Nat.ofDigitChars_cons, Nat.mul_comm 10]
      by_cases hlt : value * 10 + (c.toNat - '0'.toNat) < countBound
      · rw [if_pos hlt]
        exact ih hlt hmore
      · rw [if_neg hlt, if_pos]
        exact Nat.le_trans (Nat.not_lt.1 hlt) (le_ofDigitChars more _)
    · obtain ⟨rfl, rfl⟩ := h.of_not_digit (by simpa using hc)
      rw [if_neg hc, Nat.ofDigitChars_nil, if_neg (Nat.not_le.2 hvalue), if_neg (List.cons_ne_nil c cs)]

theorem unsigned_ne_nil {cs : List Char} (h : cs ≠ []) : unsigned cs ≠ [] := by
  fun_cases unsigned cs with
  | case1 c cs => exact List.cons_ne_nil c cs
  | case2 => exact h

theorem readCount_eq {cs : List Char} (h : cs ≠ []) : readCount cs = readDigits 0 (unsigned cs) := by
  fun_cases readCount cs with
  | case1 => exact absurd rfl h
  | case2 => rfl
  | case3 cs hne =>
    cases cs with
    | nil => exact absurd rfl hne
    | cons c cs => rfl
  | case4 cs _ _ hplus =>
    rw [unsigned.eq_def]
    split
    · next c cs => exact absurd rfl (hplus _)
    · rfl

/-- A text that is not empty is read by its run of digits; the bound is tested first. -/
theorem readCount_of_run {cs digits rest : List Char} (hne : cs ≠ [])
    (h : DigitRun (unsigned cs) digits rest) :
    readCount cs =
      if countBound ≤ Nat.ofDigitChars 10 digits 0 then .error .tooLarge
      else if rest = [] then .ok (Nat.ofDigitChars 10 digits 0)
      else .error .invalidDigit := by
  rw [readCount_eq hne, readDigits_of_run (by decide) h]

/-- `outcome` is the count that `cs` denotes, or the error. The largest count is `2 ^ 64 - 1`; a longer run of digits is
`tooLarge` whatever follows it. -/
inductive StandsFor (cs : List Char) : Except CountError Nat → Prop
  | empty (h : cs = []) : StandsFor cs (.error .empty)
  | tooLarge {digits rest : List Char} (h : DigitRun (unsigned cs) digits rest)
      (hlarge : 18446744073709551615 < Nat.ofDigitChars 10 digits 0) : StandsFor cs (.error .tooLarge)
  | invalidDigit {digits rest : List Char} (hne : cs ≠ []) (h : DigitRun (unsigned cs) digits rest)
      (hsmall : Nat.ofDigitChars 10 digits 0 ≤ 18446744073709551615)
      (hbad : digits = [] ∨ digits ≠ unsigned cs) : StandsFor cs (.error .invalidDigit)
  | count {digits : List Char} (hne : digits ≠ []) (h : DigitRun (unsigned cs) digits [])
      (hsmall : Nat.ofDigitChars 10 digits 0 ≤ 18446744073709551615) :
      StandsFor cs (.ok (Nat.ofDigitChars 10 digits 0))

theorem standsFor_readCount (cs : List Char) : StandsFor cs (readCount cs) := by
  have hbound : countBound = 18446744073709551615 + 1 := rfl
  by_cases hne : cs = []
  · rw [hne]
    exact .empty rfl
  obtain ⟨digits, rest, hrun⟩ := exists_digitRun (unsigned cs)
  have htext := hrun.text
  rw [readCount_of_run hne hrun]
  split_ifs with hlarge hrest
  · exact .tooLarge hrun (by omega)
  · subst hrest
    rw [List.append_nil] at htext
    exact .count (htext ▸ unsigned_ne_nil hne) hrun (by omega)
  · refine .invalidDigit hne hrun (by omega) (.inr ?_)
    intro heq
    rw [← heq, List.self_eq_append_right] at htext
    exact hrest htext

theorem StandsFor.readCount_eq {cs : List Char} {outcome : Except CountError Nat}
    (h : StandsFor cs outcome) : readCount cs = outcome := by
  have hbound : countBound = 18446744073709551615 + 1 := rfl
  have hnonempty : ∀ {digits rest : List Char}, DigitRun (unsigned cs) digits rest → digits ≠ [] →
      cs ≠ [] := by
    rintro digits rest hrun hne rfl
    exact hne (List.append_eq_nil_iff.1 hrun.text.symm).1
  cases h with
  | empty h =>
    rw [h]
    rfl
  | @tooLarge digits rest hrun hlarge =>
    have hdigits : digits ≠ [] := by
      rintro rfl
      rw [Nat.ofDigitChars_nil] at hlarge
      omega
    rw [readCount_of_run (hnonempty hrun hdigits) hrun, if_pos (by omega)]
  | @invalidDigit digits rest hne hrun hsmall hbad =>
    have hrest : rest ≠ [] := by
      rintro rfl
      have htext := hrun.text
      rw [List.append_nil] at htext
      rcases hbad with rfl | hbad
      · exact unsigned_ne_nil hne htext
      · exact hbad htext.symm
    rw [readCount_of_run hne hrun, if_neg (by omega), if_neg hrest]
  | @count digits hdigits hrun hsmall =>
    rw [readCount_of_run (hnonempty hrun hdigits) hrun, if_neg (by omega), if_pos rfl]

/-- Correctness of `readCount` against `StandsFor`. -/
theorem readCount_iff {cs : List Char} {outcome : Except CountError Nat} :
    readCount cs = outcome ↔ StandsFor cs outcome := by
  constructor
  · rintro rfl
    exact standsFor_readCount cs
  · intro h
    exact h.readCount_eq

example : readCount "+018446744073709551616x".toList = .error .tooLarge := by decide

/-! ## Blanks at the ends -/

/-- The text `core` is `cs` without the blanks at both ends. -/
structure IsTrimmed (cs core : List Char) : Prop where
  text : ∃ v w, cs = v ++ (core ++ w) ∧ (∀ c ∈ v, isBlank c = true) ∧ ∀ c ∈ w, isBlank c = true
  first : ∀ c ∈ core.head?, isBlank c = false
  last : ∀ c ∈ core.getLast?, isBlank c = false

theorem dropWhile_blanks_append {w cs : List Char} (hw : ∀ c ∈ w, isBlank c = true)
    (hcs : ∀ c ∈ cs.head?, isBlank c = false) : (w ++ cs).dropWhile isBlank = cs := by
  rw [List.dropWhile_append_of_pos hw]
  cases cs with
  | nil => rfl
  | cons c cs => rw [List.dropWhile_cons_of_neg (by simp [hcs c rfl])]

theorem isTrimmed_trimBlank (cs : List Char) : IsTrimmed cs (trimBlank cs) := by
  let inner := cs.dropWhile isBlank
  have hinner : inner = trimBlank cs ++ (inner.reverse.takeWhile isBlank).reverse := by
    have h := congrArg List.reverse (List.takeWhile_append_dropWhile (p := isBlank) (l := inner.reverse))
    rw [List.reverse_append, List.reverse_reverse] at h
    exact h.symm
  refine ⟨⟨cs.takeWhile isBlank, (inner.reverse.takeWhile isBlank).reverse, ?_, ?_, ?_⟩, ?_, ?_⟩
  · rw [← hinner]
    exact List.takeWhile_append_dropWhile.symm
  · intro c hc
    exact List.mem_takeWhile_imp hc
  · intro c hc
    exact List.mem_takeWhile_imp (List.mem_reverse.1 hc)
  · intro c hc
    have hc' : c ∈ inner.head? := by
      rw [hinner, List.head?_append, Option.mem_def.1 hc]
      rfl
    exact of_mem_head?_dropWhile c hc'
  · intro c hc
    rw [trimBlank, List.getLast?_reverse] at hc
    exact of_mem_head?_dropWhile c hc

/-- Correctness of `trimBlank` against `IsTrimmed`. -/
theorem trimBlank_eq_iff {cs core : List Char} : trimBlank cs = core ↔ IsTrimmed cs core := by
  constructor
  · rintro rfl
    exact isTrimmed_trimBlank cs
  · rintro ⟨⟨v, w, rfl, hv, hw⟩, hfirst, hlast⟩
    have hw' : ∀ c ∈ w.reverse, isBlank c = true := fun c hc => hw c (List.mem_reverse.1 hc)
    unfold trimBlank
    cases core with
    | nil =>
      -- All of `cs` is blank.
      have hall : ∀ c ∈ v ++ w, isBlank c = true := by
        intro c hc
        exact (List.mem_append.1 hc).elim (hv c) (hw c)
      rw [List.nil_append, ← List.append_nil (v ++ w), dropWhile_blanks_append hall (by simp)]
      rfl
    | cons d core =>
      have hfirst' : ∀ c ∈ (d :: core ++ w).head?, isBlank c = false := hfirst
      have hlast' : ∀ c ∈ (d :: core).reverse.head?, isBlank c = false := by
        rw [List.head?_reverse]
        exact hlast
      rw [dropWhile_blanks_append hv hfirst', List.reverse_append, dropWhile_blanks_append hw' hlast',
        List.reverse_reverse]

/-! ## One variable -/

namespace Environment

variable {env : Environment} {name : String}

theorem fromUTF8?_eq_some_iff {bytes : ByteArray} {text : String} :
    String.fromUTF8? bytes = some text ↔ bytes = text.toByteArray := by
  unfold String.fromUTF8?
  constructor
  · intro h
    split at h
    · obtain rfl := Option.some.inj h
      rfl
    · cases h
  · rintro rfl
    rw [dif_pos text.isValidUTF8]
    rfl

theorem text?_eq_some_iff {text : String} :
    env.text? name = some text ↔ env name = some text.toByteArray := by
  simp [text?, Option.bind_eq_some_iff, fromUTF8?_eq_some_iff]

/-- The limit and the warnings for the bytes of the variable `name`. An unset variable and bytes that are not UTF-8
leave the default without a warning; a text that denotes no count leaves it with one. -/
inductive Sets (name : String) (default : Nat) (bytes? : Option ByteArray) : Nat → List Event → Prop
  | unset (h : ∀ text : String, bytes? ≠ some text.toByteArray) : Sets name default bytes? default []
  | count {text : String} {core : List Char} {value : Nat} (h : bytes? = some text.toByteArray)
      (hcore : IsTrimmed text.toList core) (hvalue : StandsFor core (.ok value)) :
      Sets name default bytes? value []
  | refused {text : String} {core : List Char} {e : CountError} (h : bytes? = some text.toByteArray)
      (hcore : IsTrimmed text.toList core) (he : StandsFor core (.error e)) :
      Sets name default bytes? default [.ignoredLimit name text e]

/-- Correctness of `limit` against `Sets`. -/
theorem limit_eq_iff {default value : Nat} {events : List Event} :
    env.limit name default = (value, events) ↔ Sets name default (env name) value events := by
  unfold limit
  constructor
  · intro h
    split at h
    · next hnone =>
      obtain ⟨rfl, rfl⟩ := Prod.mk.inj h
      refine .unset fun text htext => ?_
      rw [text?_eq_some_iff.2 htext] at hnone
      cases hnone
    · next text htext =>
      have hbytes := text?_eq_some_iff.1 htext
      split at h
      · next hread =>
        obtain ⟨rfl, rfl⟩ := Prod.mk.inj h
        exact .count hbytes (isTrimmed_trimBlank _) (readCount_iff.1 hread)
      · next e hread =>
        obtain ⟨rfl, rfl⟩ := Prod.mk.inj h
        exact .refused hbytes (isTrimmed_trimBlank _) (readCount_iff.1 hread)
  · intro h
    cases h with
    | unset h =>
      have hnone : env.text? name = none := by
        rw [Option.eq_none_iff_forall_ne_some]
        intro text htext
        exact h text (text?_eq_some_iff.1 htext)
      rw [hnone]
    | count h hcore hvalue =>
      rw [text?_eq_some_iff.2 h]
      simp only [trimBlank_eq_iff.2 hcore, readCount_iff.2 hvalue]
    | refused h hcore he =>
      rw [text?_eq_some_iff.2 h]
      simp only [trimBlank_eq_iff.2 hcore, readCount_iff.2 he]

end Environment

/-- **Both limits from the environment.** Each depends on its own variable only, and the warning about `maxDepth` comes
first. -/
theorem Limits.ofEnvironment_iff {env : Environment} {limits : Limits} {events : List Event} :
    Limits.ofEnvironment env = (limits, events) ↔
      ∃ depthEvents lengthEvents, events = depthEvents ++ lengthEvents ∧
        Environment.Sets "FILTEREXPR_MAX_DEPTH" ({} : Limits).maxDepth (env "FILTEREXPR_MAX_DEPTH")
          limits.maxDepth depthEvents ∧
        Environment.Sets "FILTEREXPR_MAX_INPUT_LEN" ({} : Limits).maxInputLen
          (env "FILTEREXPR_MAX_INPUT_LEN") limits.maxInputLen lengthEvents := by
  simp only [← Environment.limit_eq_iff]
  unfold Limits.ofEnvironment
  constructor
  · intro h
    obtain ⟨rfl, rfl⟩ := Prod.mk.inj h
    exact ⟨_, _, rfl, rfl, rfl⟩
  · rintro ⟨depthEvents, lengthEvents, rfl, hdepth, hlength⟩
    simp only [hdepth, hlength]

end FilterLang
