/-!
# Blanks and cursors

* `isBlank` : the Unicode property `White_Space`; `trimBlank` drops it at both ends;
* `Cursor text` : a position in `text`, in bytes and in characters;
* `Cursor.step?` : one character forward;
* `Cursor.skipWhile p`, `Cursor.toClosingQuote` : the loops over characters, with `remainingBytes` as measure;
* `Cursor.textTo` : the substring between two cursors (`textTo_eq`);
* `Cursor.remaining` : the suffix at a cursor as a list of characters (`remaining_of_step?`, `step?_eq_none_iff`).
-/

namespace FilterLang

/-! ## The property `White_Space` -/

/-- The first and last code point of each run of `White_Space` characters, in ascending order. -/
def blankRanges : List (Nat × Nat) :=
  [(0x0009, 0x000D), (0x0020, 0x0020), (0x0085, 0x0085), (0x00A0, 0x00A0), (0x1680, 0x1680),
   (0x2000, 0x200A), (0x2028, 0x2029), (0x202F, 0x202F), (0x205F, 0x205F), (0x3000, 0x3000)]

def isBlank (c : Char) : Bool :=
  blankRanges.any fun (first, last) => first ≤ c.toNat && c.toNat ≤ last

/-- `cs` without its leading and trailing blanks. -/
def trimBlank (cs : List Char) : List Char :=
  ((cs.dropWhile isBlank).reverse.dropWhile isBlank).reverse

/-! ## Cursors -/

/-- A position in `text`: the byte offset of a character boundary, and the number of characters before it. -/
structure Cursor (text : String) where
  offset : text.Pos
  position : Nat
  deriving DecidableEq

namespace Cursor

variable {text : String}

def start (text : String) : Cursor text := ⟨text.startPos, 0⟩

/-- The character at the cursor with the cursor behind it, or `none` at the end of the text. -/
def step? (c : Cursor text) : Option (Char × { d : Cursor text // c.offset < d.offset }) :=
  if h : c.offset = text.endPos then none
  else
    let after : Cursor text := ⟨c.offset.next h, c.position + 1⟩
    some (c.offset.get h, ⟨after, String.Pos.lt_next (h := h)⟩)

/-- The cursor at the first character that fails `p`, or at the end of the text. -/
def skipWhile (p : Char → Bool) (c : Cursor text) : Cursor text :=
  match c.step? with
  | none => c
  | some (ch, ⟨d, _⟩) => if p ch then d.skipWhile p else c
termination_by c.offset.remainingBytes
decreasing_by exact (String.Pos.lt_iff_remainingBytes_lt _ _).1 ‹_›

/-- The cursor at the first double quote that is not escaped, or at the end of the text. A backslash
escapes the character behind it, whatever that is. -/
def toClosingQuote (c : Cursor text) : Cursor text :=
  match c.step? with
  | none => c
  | some (ch, ⟨d, hd⟩) =>
    if ch = '"' then c
    else if ch = '\\' then
      match d.step? with
      | none => d
      | some (_, ⟨e, he⟩) =>
        have := String.Pos.lt_trans hd he
        e.toClosingQuote
    else d.toClosingQuote
termination_by c.offset.remainingBytes
decreasing_by all_goals exact (String.Pos.lt_iff_remainingBytes_lt _ _).1 ‹_›

/-- The substring between two cursors. -/
def textTo (c d : Cursor text) : String := text.extract c.offset d.offset

theorem offset_le_skipWhile (p : Char → Bool) (c : Cursor text) :
    c.offset ≤ (c.skipWhile p).offset := by
  fun_induction skipWhile p c with
  | case1 c _ => exact String.Pos.le_refl _
  | case2 c ch d hlt _ _ ih => exact String.Pos.le_trans (String.Pos.le_of_lt hlt) ih
  | case3 c ch d _ _ _ => exact String.Pos.le_refl _

theorem offset_le_toClosingQuote (c : Cursor text) : c.offset ≤ c.toClosingQuote.offset := by
  fun_induction toClosingQuote c with
  | case1 c _ => exact String.Pos.le_refl _
  | case2 c d _ _ => exact String.Pos.le_refl _
  | case3 c d hlt _ _ _ => exact String.Pos.le_of_lt hlt
  | case4 c d _ ch e _ _ hlt _ _ ih => exact String.Pos.le_trans (String.Pos.le_of_lt hlt) ih
  | case5 c ch d hlt _ _ _ ih => exact String.Pos.le_trans (String.Pos.le_of_lt hlt) ih

/-! ## What is left of the text -/

/-- The characters from the cursor to the end of the text. -/
def remaining (c : Cursor text) : List Char := (text.sliceFrom c.offset).copy.toList

theorem remaining_start : (start text).remaining = text.toList := by
  rw [remaining, start,
    String.Pos.Splits.eq_right text.startPos.splits (String.splits_startPos text)]

theorem remaining_of_step? {c d : Cursor text} {hlt : c.offset < d.offset} {ch : Char}
    (h : c.step? = some (ch, ⟨d, hlt⟩)) : c.remaining = ch :: d.remaining := by
  unfold step? at h
  split at h
  · simp at h
  · next hne =>
    simp only [Option.some.injEq, Prod.mk.injEq, Subtype.mk.injEq] at h
    obtain ⟨rfl, rfl⟩ := h
    rw [remaining, String.Pos.Splits.eq_right c.offset.splits (String.Pos.splits_next_right _ hne),
      remaining]
    simp

theorem position_of_step? {c d : Cursor text} {hlt : c.offset < d.offset} {ch : Char}
    (h : c.step? = some (ch, ⟨d, hlt⟩)) : d.position = c.position + 1 := by
  unfold step? at h
  split at h
  · simp at h
  · simp only [Option.some.injEq, Prod.mk.injEq, Subtype.mk.injEq] at h
    rw [← h.2]

theorem step?_eq_none_iff {c : Cursor text} : c.step? = none ↔ c.remaining = [] := by
  constructor
  · intro h
    unfold step? at h
    split at h
    · next he =>
      rw [remaining, he, String.Pos.Splits.eq_right text.endPos.splits (String.splits_endPos text)]
      rfl
    · simp at h
  · intro h
    cases hs : c.step? with
    | none => rfl
    | some s =>
      obtain ⟨ch, d, hlt⟩ := s
      simp [remaining_of_step? hs] at h

theorem textTo_eq {c d : Cursor text} {cs : List Char} (hle : c.offset ≤ d.offset)
    (h : c.remaining = cs ++ d.remaining) : c.textTo d = String.ofList cs := by
  have hc := c.offset.splits
  have hd := d.offset.splits
  have hright : (text.sliceFrom c.offset).copy =
      String.ofList cs ++ (text.sliceFrom d.offset).copy := by
    apply String.toList_injective
    simpa [remaining] using h
  rw [hright] at hc
  have hleft : (text.sliceTo d.offset).copy =
      (text.sliceTo c.offset).copy ++ String.ofList cs := by
    have := hd.eq_append.symm.trans hc.eq_append
    rw [← String.append_assoc] at this
    exact (String.append_left_inj _).1 this
  obtain ⟨_, hslice⟩ := String.copy_slice_eq_iff_splits.2 ⟨_, _, hc, hleft ▸ hd⟩
  rw [textTo, String.extract_eq_copy_slice _ _ hle, hslice]

end Cursor

end FilterLang
