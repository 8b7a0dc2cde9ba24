import FilterLang.Text.Cursor
import FilterLang.Proofs.Token.Session
import Mathlib.Algebra.GroupWithZero.Nat

/-!
# Cursors as byte and character counters

A `Cursor` is at a character boundary by its type. `Counters` are two plain numbers, a byte offset and
a character position, that are advanced separately; the texts of tokens are sliced out at byte offsets,
and slicing fails off a boundary.

* `slice?` : the substring between two byte offsets;
* `Counters.peek`, `Counters.bump`, `Counters.step?`, `Counters.skipWhile`, `Counters.literal`,
  `Counters.next`, `Counters.tokenize` : the operations of a cursor on the two counters;
* `Cursor.counters` : the counters of a cursor; each operation commutes with it (`slice?_counters`,
  `step?_counters_of_some`, `skipWhile_counters`, `literal_counters`, `next_counters`,
  `tokenize_counters`);
* `Cursor.offset_eq` : the byte offset from the character position;
* `Counters.InUse text ls` : the counters reachable by requests, resets and clones
  (`InUse.exists_session`: those of the cursors of a session);
* `Counters.never_drift` : on reachable counters, offset and position agree and no slice fails.
-/

namespace FilterLang

/-! ## Characters -/

/-- The substring between two byte offsets, if both are character boundaries and in order. -/
def slice? (text : String) (first last : Nat) : Option String :=
  if h : String.Pos.Raw.IsValid text ⟨first⟩ ∧ String.Pos.Raw.IsValid text ⟨last⟩ ∧ first ≤ last then
    some (text.extract (text.pos ⟨first⟩ h.1) (text.pos ⟨last⟩ h.2.1))
  else none

/-- A byte offset and a character position. -/
structure Counters where
  offset : Nat
  position : Nat
  deriving DecidableEq

namespace Counters

def start : Counters := ⟨0, 0⟩

def bump (ch : Char) (l : Counters) : Counters := ⟨l.offset + ch.utf8Size, l.position + 1⟩

/-- The measure of the loops: the bytes behind the offset. -/
def left (text : String) (l : Counters) : Nat := text.utf8ByteSize - l.offset

/-- The first character of the slice from the offset to the end of the text. -/
def peek (text : String) (l : Counters) : Option (Option Char) :=
  (slice? text l.offset text.utf8ByteSize).map fun rest => rest.toList.head?

end Counters

namespace Cursor

variable {text : String}

def counters (c : Cursor text) : Counters := ⟨c.offset.offset.byteIdx, c.position⟩

theorem counters_start (text : String) : (start text).counters = .start := rfl

/-- A slice between two cursors does not fail. -/
theorem slice?_counters {c d : Cursor text} (h : c.offset ≤ d.offset) :
    slice? text c.counters.offset d.counters.offset = some (c.textTo d) := by
  unfold slice?
  rw [dif_pos ⟨c.offset.isValid, d.offset.isValid, h⟩]
  rfl

theorem slice?_rest (c : Cursor text) :
    slice? text c.counters.offset text.utf8ByteSize = some (String.ofList c.remaining) := by
  let stop : Cursor text := ⟨text.endPos, 0⟩
  have hle : c.offset ≤ stop.offset := c.offset.le_endPos
  have hremaining : c.remaining = c.remaining ++ stop.remaining := by
    have hnil : stop.remaining = [] := step?_eq_none_iff.1 (dif_pos rfl)
    rw [hnil, List.append_nil]
  have hslice := slice?_counters hle
  rw [textTo_eq hle hremaining] at hslice
  exact hslice

theorem peek_counters (c : Cursor text) : c.counters.peek text = some (c.step?.map Prod.fst) := by
  rw [Counters.peek, slice?_rest, Option.map_some, String.toList_ofList]
  cases h : c.step? with
  | none => rw [step?_eq_none_iff.1 h]; rfl
  | some step =>
    obtain ⟨ch, d, hlt⟩ := step
    rw [remaining_of_step? h]
    rfl

theorem bump_counters {c d : Cursor text} {hlt : c.offset < d.offset} {ch : Char}
    (h : c.step? = some (ch, ⟨d, hlt⟩)) : c.counters.bump ch = d.counters := by
  unfold step? at h
  split at h
  · cases h
  · simp only [Option.some.injEq, Prod.mk.injEq, Subtype.mk.injEq] at h
    obtain ⟨rfl, rfl⟩ := h
    rw [counters, counters, Counters.bump, String.Pos.byteIdx_offset_next]

theorem left_counters_lt {c d : Cursor text} (h : c.offset < d.offset) :
    d.counters.left text < c.counters.left text := by
  have hlt : c.counters.offset < d.counters.offset := h
  have hle : d.counters.offset ≤ text.utf8ByteSize := d.offset.le_endPos
  simp only [Counters.left]
  omega

end Cursor

/-! ## Loops over characters -/

namespace Counters

/-- The measure decreases with each character, whatever the counters are. -/
theorem left_bump_lt {text : String} {l : Counters} {ch : Char} (h : l.peek text = some (some ch)) :
    (l.bump ch).left text < l.left text := by
  by_cases hvalid : String.Pos.Raw.IsValid text ⟨l.offset⟩
  · let c : Cursor text := ⟨text.pos ⟨l.offset⟩ hvalid, l.position⟩
    have hpeek : c.step?.map Prod.fst = some ch := Option.some.inj (c.peek_counters.symm.trans h)
    obtain ⟨⟨_, d, hlt⟩, hstep, rfl⟩ := Option.map_eq_some_iff.1 hpeek
    have hbump : l.bump _ = d.counters := Cursor.bump_counters hstep
    rw [hbump]
    exact Cursor.left_counters_lt hlt
  · simp [peek, slice?, hvalid] at h

/-- `peek` and `bump`, with the decrease of the measure. -/
def step? (text : String) (l : Counters) :
    Option (Option (Char × { l' : Counters // l'.left text < l.left text })) :=
  match _h : l.peek text with
  | none => none
  | some none => some none
  | some (some ch) => some (some (ch, ⟨l.bump ch, left_bump_lt _h⟩))

def skipWhile (text : String) (p : Char → Bool) (l : Counters) : Option Counters :=
  match l.step? text with
  | none => none
  | some none => some l
  | some (some (ch, ⟨l', _⟩)) => if p ch then l'.skipWhile text p else some l
termination_by l.left text

end Counters

namespace Cursor

theorem step?_counters_of_none {c : Cursor text} (h : c.step? = none) : c.counters.step? text = some none := by
  have hpeek : c.counters.peek text = some none := by rw [peek_counters, h, Option.map_none]
  unfold Counters.step?
  split <;> simp_all

theorem step?_counters_of_some {c d : Cursor text} {hlt : c.offset < d.offset} {ch : Char}
    (h : c.step? = some (ch, ⟨d, hlt⟩)) :
    ∃ hleft, c.counters.step? text = some (some (ch, ⟨d.counters, hleft⟩)) := by
  have hpeek : c.counters.peek text = some (some ch) := by rw [peek_counters, h, Option.map_some]
  refine ⟨bump_counters h ▸ Counters.left_bump_lt hpeek, ?_⟩
  unfold Counters.step?
  split
  · next hpeek' => cases hpeek.symm.trans hpeek'
  · next hpeek' => cases hpeek.symm.trans hpeek'
  · next hpeek' =>
    cases hpeek.symm.trans hpeek'
    simp only [bump_counters h]

theorem skipWhile_counters (p : Char → Bool) (c : Cursor text) :
    c.counters.skipWhile text p = some (c.skipWhile p).counters := by
  fun_induction skipWhile p c with
  | case1 c h => rw [Counters.skipWhile, step?_counters_of_none h]
  | case2 c ch d hlt h hp ih =>
    obtain ⟨_, hstep⟩ := step?_counters_of_some h
    rw [Counters.skipWhile, hstep]
    simp only [hp, if_true, ih]
  | case3 c ch d hlt h hp =>
    obtain ⟨_, hstep⟩ := step?_counters_of_some h
    rw [Counters.skipWhile, hstep]
    simp only [hp, if_false, Bool.false_eq_true]

/-! ## Bytes and characters -/

theorem utf8ByteSize_eq (s : String) : s.utf8ByteSize = (s.toList.map Char.utf8Size).sum := by
  induction s using String.push_induction with
  | empty => rfl
  | push s ch ih => simp [ih]

/-- The byte offset is the UTF-8 size of the first `position` characters. -/
theorem offset_eq {c : Cursor text} (h : c.position + c.remaining.length = text.length) :
    c.counters.offset = ((text.toList.take c.position).map Char.utf8Size).sum := by
  have hsplits := c.offset.splits
  have htext : text.toList = (text.sliceTo c.offset).copy.toList ++ c.remaining := by
    have := congrArg String.toList hsplits.eq_append
    rwa [String.toList_append] at this
  have hlength : c.position = (text.sliceTo c.offset).copy.toList.length := by
    have := congrArg List.length htext
    rw [List.length_append, String.length_toList] at this
    omega
  have hbytes : c.counters.offset = (text.sliceTo c.offset).copy.utf8ByteSize := by
    have := congrArg String.Pos.Raw.byteIdx hsplits.offset_eq_rawEndPos
    exact this
  rw [hbytes, utf8ByteSize_eq, htext, hlength, List.take_left]

end Cursor

/-! ## Tokens -/

namespace Counters

/-- The loop inside a literal. Its opening quote is at `position`, its content starts at offset `first`. -/
def literal (text : String) (position first : Nat) (l : Counters) :
    Option (Except LexicalError Token × Counters) :=
  match l.step? text with
  | none => none
  | some none => some (.error (.unterminatedString position), l)
  | some (some (ch, ⟨l', hl'⟩)) =>
    if ch = '"' then (slice? text first l.offset).map fun value => (.ok ⟨.stringLiteral, value, position⟩, l')
    else if ch = '\\' then
      match l'.step? text with
      | none => none
      | some none => some (.error (.unterminatedString position), l')
      | some (some (_, ⟨l'', hl''⟩)) =>
        have := Nat.lt_trans hl'' hl'
        l''.literal text position first
    else l'.literal text position first
termination_by l.left text

def next (text : String) (l : Counters) : Option (Except LexicalError Token × Counters) := do
  let l ← l.skipWhile text isBlank
  match ← l.peek text with
  | none => some (.ok (.endOfInput l.position), l)
  | some ch =>
    if ch = '"' then
      let content := l.bump '"'
      content.literal text l.position content.offset
    else if ch.isAlpha then
      let last ← l.skipWhile text Char.isAlpha
      let value ← slice? text l.offset last.offset
      some (.ok ⟨.identifier, value, l.position⟩, last)
    else some (.ok ⟨.ofMark ch, ch.toString, l.position⟩, l.bump ch)

def tokenize (text : String) (l : Counters) : Option (Except LexicalError (List Token) × Counters) :=
  gather (next text) (left text) [] l

end Counters

namespace Cursor

variable {text : String}

/-- The result of a literal with the content from `first` to `last`, where `last` is at its closing quote
or at the end of the text. -/
def closing (position : Nat) (first last : Cursor text) : Except LexicalError Token × Counters :=
  match last.step? with
  | none => (.error (.unterminatedString position), last.counters)
  | some (_, ⟨after, _⟩) => (.ok ⟨.stringLiteral, first.textTo last, position⟩, after.counters)

/-- Simulation of the scan of a literal. -/
theorem literal_counters {first c : Cursor text} (h : first.offset ≤ c.offset) (position : Nat) :
    c.counters.literal text position first.counters.offset =
      some (closing position first c.toClosingQuote) := by
  induction c using toClosingQuote.induct with
  | case1 c hstep =>
    rw [Counters.literal, toClosingQuote, step?_counters_of_none hstep, hstep, closing, hstep]
  | case2 c d hlt hstep =>
    obtain ⟨_, hquote⟩ := step?_counters_of_some hstep
    rw [Counters.literal, toClosingQuote, hquote, hstep]
    simp only [if_true, slice?_counters h, Option.map_some]
    rw [closing, hstep]
  | case3 c d hlt hstep' hstep hq =>
    obtain ⟨_, hbackslash⟩ := step?_counters_of_some hstep
    rw [Counters.literal, toClosingQuote, hbackslash, hstep]
    simp only [hq, if_true, if_false, step?_counters_of_none hstep', hstep']
    rw [closing, hstep']
  | case4 c d hlt ch e he hstep' _ hstep hq ih =>
    have hle := String.Pos.le_trans h (String.Pos.le_of_lt (String.Pos.lt_trans hlt he))
    obtain ⟨_, hbackslash⟩ := step?_counters_of_some hstep
    obtain ⟨_, hescaped⟩ := step?_counters_of_some hstep'
    rw [Counters.literal, toClosingQuote, hbackslash, hstep]
    simp only [hq, if_true, if_false, hescaped, hstep', ih hle]
  | case5 c ch d hlt hstep hq hb ih =>
    have hle := String.Pos.le_trans h (String.Pos.le_of_lt hlt)
    obtain ⟨_, hplain⟩ := step?_counters_of_some hstep
    rw [Counters.literal, toClosingQuote, hplain, hstep]
    simp only [hq, hb, if_false, ih hle]

/-- Simulation of `next`: it answers as on the cursor, and no slice fails. -/
theorem next_counters (c : Cursor text) :
    c.counters.next text = some (c.next.1, c.next.2.counters) := by
  unfold Counters.next next
  rw [skipWhile_counters]
  simp only [Option.bind_eq_bind, Option.bind_some, peek_counters]
  generalize hscan : c.scan = s
  rw [scan] at hscan
  dsimp only at hscan
  split at hscan
  · next hstep =>
    subst hscan
    rw [hstep]
    rfl
  next ch rest hlt hstep =>
  rw [hstep, Option.map_some]
  dsimp only
  split at hscan
  · next hq =>
    rw [if_pos hq, ← hq, bump_counters hstep, literal_counters (String.Pos.le_refl _)]
    split at hscan
    · next hlast =>
      subst hscan
      unfold closing
      rw [hlast]
      rfl
    · next q after _ hlast =>
      subst hscan
      unfold closing
      rw [hlast]
      rfl
  next hq =>
  rw [if_neg hq]
  split at hscan
  · next halpha =>
    subst hscan
    have hword : (c.skipWhile isBlank).skipWhile Char.isAlpha = rest.skipWhile Char.isAlpha := by
      rw [skipWhile, hstep]
      exact if_pos halpha
    have hle := String.Pos.le_trans (String.Pos.le_of_lt hlt) (offset_le_skipWhile Char.isAlpha rest)
    rw [if_pos halpha, skipWhile_counters, hword, Option.bind_some, slice?_counters hle]
    rfl
  · next halpha =>
    subst hscan
    rw [if_neg halpha, bump_counters hstep]
    rfl

theorem tokenize_counters (c : Cursor text) :
    c.counters.tokenize text = some (c.tokenize.1, c.tokenize.2.counters) := by
  let Same (c : Cursor text) (l : Counters) : Prop := l = c.counters
  have hnext : ∀ c l, Same c l → ∃ l', l.next text = some (c.next.1, l') ∧
      (∀ t, c.next.1 = .ok t → t.isEof = false → Same c.next.2 l' ∧ l'.left text < l.left text) ∧
      ((∀ t, c.next.1 = .ok t → t.isEof = true) → Same c.next.2 l') := by
    rintro c _ rfl
    refine ⟨c.next.2.counters, c.next_counters, fun t ht heof => ⟨rfl, ?_⟩, fun _ => rfl⟩
    unfold next at ht ⊢
    cases hscan : c.scan with
    | token u rest hlt => exact left_counters_lt hlt
    | ended stop =>
      rw [hscan] at ht
      cases ht
      cases heof
    | failed e stop =>
      rw [hscan] at ht
      cases ht
  obtain ⟨l, hl, rfl⟩ := gather_eq hnext (rfl : Same c c.counters) []
  rw [Counters.tokenize, hl]
  cases c.tokenize.1 <;> rfl

end Cursor

namespace Counters

/-- The counters reachable from one pair at the start of the text by `next` and `tokenize`, whatever they
answer, by resets and by clones. -/
inductive InUse (text : String) : List Counters → Prop
  | start : InUse text [.start]
  | next {ls : List Counters} {i : Nat} {l l' : Counters} {answer : Except LexicalError Token}
      (h : InUse text ls) (hl : ls[i]? = some l) (hanswer : l.next text = some (answer, l')) :
      InUse text (ls.set i l')
  | tokenize {ls : List Counters} {i : Nat} {l l' : Counters} {answer : Except LexicalError (List Token)}
      (h : InUse text ls) (hl : ls[i]? = some l) (hanswer : l.tokenize text = some (answer, l')) :
      InUse text (ls.set i l')
  | reset {ls : List Counters} {i : Nat} {l : Counters} (h : InUse text ls) (hl : ls[i]? = some l) :
      InUse text (ls.set i .start)
  | clone {ls : List Counters} {i : Nat} {l : Counters} (h : InUse text ls) (hl : ls[i]? = some l) :
      InUse text (ls ++ [l])

variable {text : String} {ls : List Counters}

/-- Reachable counters are the counters of the cursors of a session. -/
theorem InUse.exists_session (h : InUse text ls) :
    ∃ history cs, Session text history cs ∧ ls = cs.map Cursor.counters := by
  have hfind : ∀ {cs : List (Cursor text)} {i : Nat} {l : Counters},
      (cs.map Cursor.counters)[i]? = some l → ∃ c, cs[i]? = some c ∧ c.counters = l := by
    intro cs i l hl
    rwa [List.getElem?_map, Option.map_eq_some_iff] at hl
  induction h with
  | start => exact ⟨[], _, .start, rfl⟩
  | next _ hl hanswer ih =>
    obtain ⟨history, cs, hsession, rfl⟩ := ih
    obtain ⟨c, hc, rfl⟩ := hfind hl
    rw [c.next_counters] at hanswer
    cases hanswer
    exact ⟨_, _, hsession.next hc, List.map_set.symm⟩
  | tokenize _ hl hanswer ih =>
    obtain ⟨history, cs, hsession, rfl⟩ := ih
    obtain ⟨c, hc, rfl⟩ := hfind hl
    rw [c.tokenize_counters] at hanswer
    cases hanswer
    exact ⟨_, _, hsession.tokenize hc, List.map_set.symm⟩
  | reset _ hl ih =>
    obtain ⟨history, cs, hsession, rfl⟩ := ih
    obtain ⟨c, hc, rfl⟩ := hfind hl
    exact ⟨_, _, hsession.reset hc, by rw [List.map_set, Cursor.counters_start]⟩
  | clone _ hl ih =>
    obtain ⟨history, cs, hsession, rfl⟩ := ih
    obtain ⟨c, hc, rfl⟩ := hfind hl
    exact ⟨_, _, hsession.clone hc, by rw [List.map_append, List.map_singleton]⟩

/-- **The two counters never drift apart, and no slice fails.** On reachable counters the offset is the
UTF-8 size of the first `position` characters of the text, hence a boundary, and both requests answer as
those of a cursor there do. -/
theorem never_drift (h : InUse text ls) :
    ∀ l ∈ ls, l.position ≤ text.length ∧
      l.offset = ((text.toList.take l.position).map Char.utf8Size).sum ∧
      String.Pos.Raw.IsValid text ⟨l.offset⟩ ∧
      ∃ c : Cursor text, l = c.counters ∧ l.next text = some (c.next.1, c.next.2.counters) ∧
        l.tokenize text = some (c.tokenize.1, c.tokenize.2.counters) := by
  obtain ⟨history, cs, hsession, rfl⟩ := h.exists_session
  intro l hl
  obtain ⟨c, hc, rfl⟩ := List.mem_map.1 hl
  have htotal := (hsession.standsIn (Cursor.segmented_start text) c hc).total
  have hposition : c.counters.position ≤ text.length := by
    show c.position ≤ text.length
    omega
  exact ⟨hposition, Cursor.offset_eq htotal, c.offset.isValid, c, rfl, c.next_counters,
    c.tokenize_counters⟩

theorem never_drift_past_failure :
    InUse "é\"ü\\" [⟨6, 4⟩, ⟨2, 1⟩] ∧
      6 = (("é\"ü\\".toList.take 4).map Char.utf8Size).sum ∧
      ∃ c : Cursor "é\"ü\\", ⟨6, 4⟩ = c.counters ∧
        next "é\"ü\\" ⟨6, 4⟩ = some (c.next.1, c.next.2.counters) := by
  have hfirst : (Cursor.start "é\"ü\\").next.2.counters = ⟨2, 1⟩ := by decide +kernel
  have hfailed : (Cursor.start "é\"ü\\").next.2.next.2.counters = ⟨6, 4⟩ := by decide +kernel
  have huse : InUse "é\"ü\\" [⟨6, 4⟩, ⟨2, 1⟩] := by
    have hstart : InUse "é\"ü\\" [.start] := .start
    have hcopied := (hstart.next (i := 0) rfl (Cursor.start "é\"ü\\").next_counters).clone (i := 0) rfl
    have h := hcopied.next (i := 0) rfl (Cursor.start "é\"ü\\").next.2.next_counters
    rw [hfirst, hfailed] at h
    exact h
  obtain ⟨-, hbytes, -, c, hc, hnext, -⟩ := never_drift huse ⟨6, 4⟩ List.mem_cons_self
  exact ⟨huse, hbytes, c, hc, hnext⟩

end Counters

end FilterLang
