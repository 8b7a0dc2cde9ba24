import FilterLang.Text.Cursor

/-!
# Loops over characters

* `isEscapeClosed v` : `v` may stand between quotes, so that every quote in it is escaped and no backslash is left
  over;
* `Unclosed cs` : no double quote in `cs` closes a literal that was opened before `cs`;
* `closingQuote_unique` : at most one double quote closes a literal;
* `Cursor.Passes c d cs` : `cs` are the characters from `c` to `d` (`Passes.refl`, `Passes.trans`);
* `Cursor.skipWhile_passes`, `Cursor.toClosingQuote_passes` : the characters that the two loops pass.
-/

namespace FilterLang

/-- Read from the left, where a backslash escapes the next character, the list has no unescaped double quote and no
backslash at its end. -/
def isEscapeClosed : List Char → Bool
  | [] => true
  | c :: cs =>
    if c = '"' then false
    else if c = '\\' then
      match cs with
      | [] => false
      | _ :: cs => isEscapeClosed cs
    else isEscapeClosed cs

/-- No prefix of `cs` before a double quote is the content of a literal. -/
def Unclosed (cs : List Char) : Prop :=
  ∀ v rest, cs = v ++ '"' :: rest → isEscapeClosed v = false

@[simp] theorem isEscapeClosed_nil : isEscapeClosed [] = true := rfl

@[simp] theorem isEscapeClosed_quote (cs : List Char) : isEscapeClosed ('"' :: cs) = false := by
  rw [isEscapeClosed.eq_def]
  rfl

@[simp] theorem isEscapeClosed_backslash : isEscapeClosed ['\\'] = false := rfl

@[simp] theorem isEscapeClosed_escape (c : Char) (cs : List Char) :
    isEscapeClosed ('\\' :: c :: cs) = isEscapeClosed cs := rfl

theorem isEscapeClosed_cons {c : Char} (hq : c ≠ '"') (hb : c ≠ '\\') (cs : List Char) :
    isEscapeClosed (c :: cs) = isEscapeClosed cs := by
  rw [isEscapeClosed.eq_def]
  simp only [if_neg hq, if_neg hb]

theorem not_isEscapeClosed_append {v : List Char} (hv : isEscapeClosed v = true)
    (rest : List Char) : isEscapeClosed (v ++ '"' :: rest) = false := by
  fun_induction isEscapeClosed v with
  | case1 => exact isEscapeClosed_quote rest
  | case2 cs => cases hv
  | case3 h => cases hv
  | case4 h c cs ih => exact ih hv
  | case5 c cs hq hb ih =>
    rw [List.cons_append, isEscapeClosed_cons hq hb]
    exact ih hv

/-- The content of a literal is determined by the text from its opening quote on. -/
theorem closingQuote_unique {v w r s : List Char} (hv : isEscapeClosed v = true)
    (hw : isEscapeClosed w = true) (h : v ++ '"' :: r = w ++ '"' :: s) : v = w ∧ r = s := by
  -- One content is a prefix of the other. A proper prefix would put its closing quote inside the other content.
  rcases List.append_eq_append_iff.1 h with ⟨u, rfl, hu⟩ | ⟨u, rfl, hu⟩
  · cases u with
    | nil => simpa using hu
    | cons c u =>
      obtain ⟨rfl, rfl⟩ := List.cons.inj hu
      rw [not_isEscapeClosed_append hv] at hw
      cases hw
  · cases u with
    | nil => simpa using hu.symm
    | cons c u =>
      obtain ⟨rfl, rfl⟩ := List.cons.inj hu
      rw [not_isEscapeClosed_append hw] at hv
      cases hv

theorem not_unclosed_append {v : List Char} (hv : isEscapeClosed v = true) (rest : List Char) :
    ¬ Unclosed (v ++ '"' :: rest) := by
  intro h
  rw [h v rest rfl] at hv
  cases hv

/-! ## `Unclosed` by the rules of the scan -/

theorem unclosed_nil : Unclosed [] := by
  intro v rest h
  simp at h

theorem unclosed_backslash : Unclosed ['\\'] := by
  intro v rest h
  cases v with
  | nil => simp at h
  | cons c v => simp at h

theorem Unclosed.escape {cs : List Char} (h : Unclosed cs) (c : Char) :
    Unclosed ('\\' :: c :: cs) := by
  intro v rest hv
  rcases v with _ | ⟨b, _ | ⟨d, v⟩⟩
  · simp at hv
  · simp only [List.cons_append, List.cons.injEq] at hv
    rw [← hv.1]
    rfl
  · simp only [List.cons_append, List.cons.injEq] at hv
    obtain ⟨rfl, -, rfl⟩ := hv
    exact h v rest rfl

theorem Unclosed.cons {cs : List Char} (h : Unclosed cs) {c : Char} (hq : c ≠ '"')
    (hb : c ≠ '\\') : Unclosed (c :: cs) := by
  intro v rest hv
  cases v with
  | nil => exact absurd (List.cons.inj hv).1 hq
  | cons d v =>
    obtain ⟨rfl, rfl⟩ := List.cons.inj hv
    rw [isEscapeClosed_cons hq hb]
    exact h v rest rfl

theorem Unclosed.append {cs w : List Char} (h : Unclosed cs) (hw : '"' ∉ w) :
    Unclosed (cs ++ w) := by
  intro v rest hv
  rcases List.append_eq_append_iff.1 hv with ⟨u, rfl, hu⟩ | ⟨u, rfl, hu⟩
  · exact absurd (hu ▸ List.mem_append_right u List.mem_cons_self) hw
  · cases u with
    | nil =>
      obtain rfl : '"' :: rest = w := hu
      exact absurd List.mem_cons_self hw
    | cons c u =>
      obtain ⟨rfl, -⟩ := List.cons.inj hu
      exact h v u rfl

/-! ## Characters between cursors -/

namespace Cursor

variable {text : String}

/-- The text between the cursors `c` and `d` is `cs`. -/
structure Passes (c d : Cursor text) (cs : List Char) : Prop where
  remaining : c.remaining = cs ++ d.remaining
  position : d.position = c.position + cs.length

theorem Passes.refl (c : Cursor text) : c.Passes c [] :=
  ⟨(List.nil_append _).symm, (Nat.add_zero _).symm⟩

theorem Passes.trans {c d e : Cursor text} {v w : List Char} (h : c.Passes d v)
    (h' : d.Passes e w) : c.Passes e (v ++ w) :=
  ⟨by rw [h.remaining, h'.remaining, List.append_assoc],
    by rw [h'.position, h.position, List.length_append, Nat.add_assoc]⟩

theorem Passes.position_add_length {c d : Cursor text} {cs : List Char} (h : c.Passes d cs) :
    d.position + d.remaining.length = c.position + c.remaining.length := by
  rw [h.position, h.remaining, List.length_append, Nat.add_assoc]

theorem Passes.textTo {c d : Cursor text} {cs : List Char} (h : c.Passes d cs)
    (hle : c.offset ≤ d.offset) : c.textTo d = String.ofList cs :=
  textTo_eq hle h.remaining

theorem passes_of_step? {c d : Cursor text} {hlt : c.offset < d.offset} {ch : Char}
    (h : c.step? = some (ch, ⟨d, hlt⟩)) : c.Passes d [ch] :=
  ⟨remaining_of_step? h, position_of_step? h⟩

/-- Specification of `skipWhile`: a maximal run of characters with `p`. -/
theorem skipWhile_passes (p : Char → Bool) (c : Cursor text) :
    ∃ w, c.Passes (c.skipWhile p) w ∧ (∀ ch ∈ w, p ch = true) ∧
      ∀ ch ∈ (c.skipWhile p).remaining.head?, p ch = false := by
  fun_induction skipWhile p c with
  | case1 c h =>
    refine ⟨[], .refl c, by simp, ?_⟩
    simp [step?_eq_none_iff.1 h]
  | case2 c ch d hlt h hp ih =>
    obtain ⟨w, hw, hall, hnext⟩ := ih
    refine ⟨ch :: w, (passes_of_step? h).trans hw, ?_, hnext⟩
    simpa [hp] using hall
  | case3 c ch d hlt h hp =>
    refine ⟨[], .refl c, by simp, ?_⟩
    simpa [remaining_of_step? h] using hp

/-- The loop ends at the closing quote, or at the end of the text if there is none. -/
theorem toClosingQuote_passes (c : Cursor text) :
    ∃ v, c.Passes c.toClosingQuote v ∧
      (isEscapeClosed v = true ∧ (∃ rest, c.toClosingQuote.remaining = '"' :: rest) ∨
        c.toClosingQuote.remaining = [] ∧ Unclosed c.remaining) := by
  fun_induction toClosingQuote c with
  | case1 c h =>
    refine ⟨[], .refl c, .inr ⟨step?_eq_none_iff.1 h, ?_⟩⟩
    rw [step?_eq_none_iff.1 h]
    exact unclosed_nil
  | case2 c d hlt h =>
    exact ⟨[], .refl c, .inl ⟨rfl, d.remaining, remaining_of_step? h⟩⟩
  | case3 c d hlt hd h hq =>
    refine ⟨['\\'], passes_of_step? h, .inr ⟨step?_eq_none_iff.1 hd, ?_⟩⟩
    rw [remaining_of_step? h, step?_eq_none_iff.1 hd]
    exact unclosed_backslash
  | case4 c d hlt ch e he hd _ h hq ih =>
    obtain ⟨v, hv, hend⟩ := ih
    refine ⟨'\\' :: ch :: v, (passes_of_step? h).trans ((passes_of_step? hd).trans hv), ?_⟩
    rw [remaining_of_step? h, remaining_of_step? hd]
    exact hend.imp_right fun hend => ⟨hend.1, hend.2.escape ch⟩
  | case5 c ch d hlt h hq hb ih =>
    obtain ⟨v, hv, hend⟩ := ih
    refine ⟨ch :: v, (passes_of_step? h).trans hv, ?_⟩
    rw [remaining_of_step? h, isEscapeClosed_cons hq hb]
    exact hend.imp_right fun hend => ⟨hend.1, hend.2.cons hq hb⟩

end Cursor

end FilterLang
