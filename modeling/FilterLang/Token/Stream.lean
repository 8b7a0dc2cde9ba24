import FilterLang.Text.Cursor
import FilterLang.Token

/-!
# Token streams

* `LexicalError` : an unterminated string literal;
* `Cursor.scan` : the token behind a cursor, the end of the input, or a failure. A token moves the cursor forward;
* `Cursor.next` : the same as one request, with the end of the input as a token;
* `TokenStream`, `Cursor.stream` : all tokens behind a cursor and the failure, if there is one;
* `Cursor.tokenize` : the stream as one list with the end of the input, or as its failure.
-/

namespace FilterLang

inductive LexicalError
  /-- The string literal that starts at `position` has no closing quote. -/
  | unterminatedString (position : Nat)
  deriving DecidableEq

namespace LexicalError

def position : LexicalError → Nat
  | unterminatedString position => position

def message : LexicalError → String
  | unterminatedString position => s!"Unterminated string literal starting at position {position}."

end LexicalError

/-- The result of a scan from `c`, with the cursor behind it. -/
inductive Cursor.Scan {text : String} (c : Cursor text)
  | token (token : Token) (rest : Cursor text) (advances : c.offset < rest.offset)
  | ended (stop : Cursor text)
  | failed (error : LexicalError) (stop : Cursor text)

namespace Cursor

variable {text : String}

/-- Skips blanks and reads one token: a string literal, a maximal run of ASCII letters, or one character. -/
def scan (c : Cursor text) : Scan c :=
  let first := c.skipWhile isBlank
  match first.step? with
  | none => .ended first
  | some (ch, ⟨rest, hrest⟩) =>
    have hrest := Std.lt_of_le_of_lt (offset_le_skipWhile isBlank c) hrest
    if ch = '"' then
      let last := rest.toClosingQuote
      match last.step? with
      | none => .failed (.unterminatedString first.position) last
      | some (_, ⟨after, hafter⟩) =>
        .token ⟨.stringLiteral, rest.textTo last, first.position⟩ after
          (Std.lt_of_lt_of_le hrest
            (String.Pos.le_trans (offset_le_toClosingQuote rest) (String.Pos.le_of_lt hafter)))
    else if ch.isAlpha then
      let after := rest.skipWhile Char.isAlpha
      .token ⟨.identifier, first.textTo after, first.position⟩ after
        (Std.lt_of_lt_of_le hrest (offset_le_skipWhile Char.isAlpha rest))
    else .token ⟨.ofMark ch, ch.toString, first.position⟩ rest hrest

/-- One request: a token, `Eof` or a failure. -/
def next (c : Cursor text) : Except LexicalError Token × Cursor text :=
  match c.scan with
  | .token t rest _ => (.ok t, rest)
  | .ended stop => (.ok (.endOfInput stop.position), stop)
  | .failed e stop => (.error e, stop)

end Cursor

/-- The tokens up to `Eof` or a failure. -/
structure TokenStream (text : String) where
  /-- The tokens before the end of the input or before the failure. -/
  tokens : List Token
  failure? : Option LexicalError
  stop : Cursor text

namespace Cursor

variable {text : String}

/-- The stream from `c` behind the tokens `seen`, a reversed list. -/
def streamAfter (seen : List Token) (c : Cursor text) : TokenStream text :=
  match c.scan with
  | .token t rest _ => rest.streamAfter (t :: seen)
  | .ended stop => ⟨seen.reverse, none, stop⟩
  | .failed e stop => ⟨seen.reverse, some e, stop⟩
termination_by c.offset.remainingBytes
decreasing_by exact (String.Pos.lt_iff_remainingBytes_lt _ _).1 ‹_›

def stream (c : Cursor text) : TokenStream text := c.streamAfter []

end Cursor

def TokenStream.toList {text : String} (s : TokenStream text) : Except LexicalError (List Token) :=
  match s.failure? with
  | none => .ok (s.tokens ++ [.endOfInput s.stop.position])
  | some e => .error e

namespace Cursor

variable {text : String}

def tokenize (c : Cursor text) : Except LexicalError (List Token) × Cursor text :=
  (c.stream.toList, c.stream.stop)

theorem streamAfter_append (seen earlier : List Token) (c : Cursor text) :
    c.streamAfter (seen ++ earlier) =
      ⟨earlier.reverse ++ (c.streamAfter seen).tokens, (c.streamAfter seen).failure?,
        (c.streamAfter seen).stop⟩ := by
  fun_induction streamAfter seen c with
  | case1 seen c t rest _ h ih => rw [streamAfter, h, ← ih]; rfl
  | case2 seen c stop h => rw [streamAfter, h]; simp
  | case3 seen c e stop h => rw [streamAfter, h]; simp

theorem streamAfter_eq (seen : List Token) (c : Cursor text) :
    c.streamAfter seen = ⟨seen.reverse ++ c.stream.tokens, c.stream.failure?, c.stream.stop⟩ :=
  streamAfter_append [] seen c

end Cursor

end FilterLang
