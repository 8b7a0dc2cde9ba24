import FilterLang.Proofs.Token.Segmentation

/-!
# Shapes of tokens and their places

* `Token.Shape`, `Token.shape` : the kind and the value of a token, without its position;
* `Token.Shape.groups` : the shapes of an expression in `n` pairs of parentheses;
* `Spells cs shapes` : at every position, `cs` is segmented without failure into tokens of these
  shapes (`Spells.append`, `spells_spaced`);
* `Token.shift`, `LexicalError.shift` : the position moved by `k`;
* `Segmented.shift` : the segmentation of a text moved by `k`, so that `Segmented.spells` : a text
  without failure spells the shapes of its tokens.
-/

namespace FilterLang

/-- A token without its position. -/
abbrev Token.Shape := Token.Kind × String

def Token.shape (t : Token) : Token.Shape := (t.kind, t.value)

namespace Token.Shape

abbrev word (s : String) : Shape := (.identifier, s)

abbrev quoted (s : String) : Shape := (.stringLiteral, s)

abbrev lparen : Shape := (.lparen, "(")

abbrev rparen : Shape := (.rparen, ")")

abbrev comma : Shape := (.comma, ",")

abbrev eof : Shape := (.eof, "")

/-- The shapes inside `n` pairs of parentheses. -/
def groups (n : Nat) (shapes : List Shape) : List Shape :=
  List.replicate n lparen ++ shapes ++ List.replicate n rparen

def token (s : Shape) (position : Nat) : Token := ⟨s.1, s.2, position⟩

def IsLexeme (s : Shape) : Prop := (s.token 0).IsLexeme

theorem isLexeme_word {n : String} : (word n).IsLexeme ↔ isName n = true := Iff.rfl

theorem isLexeme_quoted {v : String} : (quoted v).IsLexeme ↔ isEscapeClosed v.toList = true :=
  Iff.rfl

theorem isLexeme_lparen : lparen.IsLexeme := rfl

theorem isLexeme_rparen : rparen.IsLexeme := rfl

theorem isLexeme_comma : comma.IsLexeme := rfl

end Token.Shape

namespace Token

theorem shape_eq_iff {t : Token} {k : Kind} {v : String} :
    t.shape = (k, v) ↔ t.kind = k ∧ t.value = v := by
  rw [shape, Prod.mk.injEq]

/-- The value of a parenthesis or a comma is determined by its kind. -/
theorem IsLexeme.shape_eq {t : Token} {s : Shape} (h : t.IsLexeme)
    (hs : s ∈ [Shape.lparen, Shape.rparen, Shape.comma]) (hk : t.kind = s.1) : t.shape = s := by
  rw [IsLexeme, hk] at h
  simp only [List.mem_cons, List.not_mem_nil, or_false] at hs
  rcases hs with rfl | rfl | rfl
  · exact shape_eq_iff.2 ⟨hk, h⟩
  · exact shape_eq_iff.2 ⟨hk, h⟩
  · exact shape_eq_iff.2 ⟨hk, h⟩

end Token

/-! ## Texts of given shapes -/

open Token (Shape)

theorem Segmented.isLexeme_shape {n : Nat} {cs : List Char} {ts : List Token}
    {failure? : Option LexicalError} (h : Segmented n cs ts failure?) :
    ∀ s ∈ ts.map Token.shape, s.IsLexeme := by
  intro s hs
  obtain ⟨t, ht, rfl⟩ := List.mem_map.1 hs
  exact h.isLexeme t ht

/-- `cs` is segmented into tokens of these shapes, whatever its position. -/
def Spells (cs : List Char) (shapes : List Shape) : Prop :=
  ∀ n, ∃ ts, Segmented n cs ts none ∧ ts.map Token.shape = shapes

/-- Spellings concatenate unless a name continues from one into the other. -/
theorem Spells.append {a b : List Char} {shapes more : List Shape} (ha : Spells a shapes)
    (hb : Spells b more) (hab : Apart a b) : Spells (a ++ b) (shapes ++ more) := by
  intro n
  obtain ⟨ts, hts, rfl⟩ := ha n
  obtain ⟨us, hus, rfl⟩ := hb (n + a.length)
  exact ⟨ts ++ us, hts.append hus hab, List.map_append⟩

theorem spells_nil : Spells [] [] := fun _ => ⟨[], .blank (by simp), rfl⟩

theorem Spells.blank {cs : List Char} {shapes : List Shape} (h : Spells cs shapes) :
    Spells (' ' :: cs) shapes := by
  intro n
  obtain ⟨ts, hts, rfl⟩ := h (n + 1)
  have hblank : ∀ c ∈ [' '], isBlank c = true := List.forall_mem_singleton.2 (by decide)
  exact ⟨ts, Segmented.blank_append hblank hts, rfl⟩

theorem spells_single {s : Shape} (h : s.IsLexeme) : Spells (s.token 0).spelling [s] := by
  intro n
  exact ⟨[s.token n], Segmented.single (t := s.token n) h, rfl⟩

theorem apart_single {c : Char} (hc : c.isAlpha = false) (b : List Char) : Apart [c] b := by
  rintro d hd e - ⟨halpha, -⟩
  obtain rfl : c = d := Option.some.inj hd
  rw [hc] at halpha
  cases halpha

theorem apart_cons {d : Char} (hd : d.isAlpha = false) (a cs : List Char) : Apart a (d :: cs) := by
  rintro c - e he ⟨-, halpha⟩
  cases he
  rw [hd] at halpha
  cases halpha

/-- The spellings of the shapes, with a blank before each. -/
def spaced (shapes : List Shape) : List Char := shapes.flatMap fun s => ' ' :: (s.token 0).spelling

theorem apart_spaced (a : List Char) (shapes : List Shape) : Apart a (spaced shapes) := by
  cases shapes with
  | nil => simp [Apart, spaced]
  | cons s shapes => exact apart_cons (by decide) a _

/-- Lexemes with a blank before each are a text of their shapes. -/
theorem spells_spaced {shapes : List Shape} (h : ∀ s ∈ shapes, s.IsLexeme) :
    Spells (spaced shapes) shapes := by
  induction shapes with
  | nil => exact spells_nil
  | cons s shapes ih =>
    obtain ⟨hs, hmore⟩ := List.forall_mem_cons.1 h
    exact (spells_single hs).blank.append (ih hmore) (apart_spaced _ shapes)

/-! ## Moving a segmentation -/

def Token.shift (k : Nat) (t : Token) : Token := { t with position := k + t.position }

namespace Token

variable {k : Nat} {t : Token}

@[simp] theorem shape_shift : (t.shift k).shape = t.shape := rfl

@[simp] theorem spelling_shift : (t.shift k).spelling = t.spelling := rfl

@[simp] theorem position_shift : (t.shift k).position = k + t.position := rfl

theorem IsLexeme.shift (h : t.IsLexeme) (k : Nat) : (t.shift k).IsLexeme := h

theorem StopsBefore.shift {rest : List Char} (h : t.StopsBefore rest) (k : Nat) :
    (t.shift k).StopsBefore rest := h

end Token

def LexicalError.shift (k : Nat) : LexicalError → LexicalError
  | unterminatedString position => unterminatedString (k + position)

namespace Segmented

variable {n : Nat} {cs : List Char} {ts : List Token} {failure? : Option LexicalError}

/-- A segmentation behind `k` more characters. -/
theorem shift (h : Segmented n cs ts failure?) (k : Nat) :
    Segmented (k + n) cs (ts.map (Token.shift k)) (failure?.map (LexicalError.shift k)) := by
  induction h with
  | blank hw => exact .blank hw
  | unclosed hw hcs =>
    rw [Option.map_some, LexicalError.shift, ← Nat.add_assoc]
    exact .unclosed hw hcs
  | @token n w cs t ts failure? hw ht hp hstop _ ih =>
    rw [List.map_cons, ← Token.spelling_shift]
    refine .token hw (ht.shift k) ?_ (hstop.shift k) ?_
    · rw [Token.position_shift, hp, Nat.add_assoc]
    · rw [Token.position_shift, Token.spelling_shift, Nat.add_assoc]
      exact ih

theorem spells (h : Segmented 0 cs ts none) : Spells cs (ts.map Token.shape) := by
  intro n
  refine ⟨ts.map (Token.shift n), h.shift n, ?_⟩
  rw [List.map_map]
  rfl

end Segmented

end FilterLang
