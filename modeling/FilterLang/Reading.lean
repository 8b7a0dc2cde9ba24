import FilterLang.Draft
import FilterLang.Event

/-!
# Parsing

* `Reading` : the outcome of a parse, the tokens taken and the cursor behind them;
* `Draft.read` : feeds tokens to a draft up to the end of the input or the first error;
* `Reading.of`, `Program.parse` : a whole text under limits;
* `Reading.events` : the log records of a parse.
-/

namespace FilterLang

structure Reading (text : String) where
  outcome : Except ParseError Program
  /-- The tokens taken from the text, in order. -/
  tokens : List Token
  /-- The cursor behind the last of them. -/
  stop : Cursor text

/-- Feeds the tokens behind the cursor to the draft. `taken` is the reversed list of earlier tokens. -/
def Draft.read {text : String} (maxDepth : Nat) (taken : List Token) (d : Draft)
    (c : Cursor text) : Reading text :=
  match c.scan with
  | .failed e stop => ⟨.error (.lexical e), taken.reverse, stop⟩
  | .ended stop =>
    ⟨d.finish maxDepth stop.position, (.endOfInput stop.position :: taken).reverse, stop⟩
  | .token t rest _ =>
    match d.feed maxDepth t with
    | .error e => ⟨.error e, (t :: taken).reverse, rest⟩
    | .ok d => d.read maxDepth (t :: taken) rest
termination_by c.offset.remainingBytes
decreasing_by exact (String.Pos.lt_iff_remainingBytes_lt _ _).1 ‹_›

theorem Draft.read_append {text : String} (maxDepth : Nat) (taken earlier : List Token)
    (d : Draft) (c : Cursor text) :
    d.read maxDepth (taken ++ earlier) c =
      ⟨(d.read maxDepth taken c).outcome, earlier.reverse ++ (d.read maxDepth taken c).tokens,
        (d.read maxDepth taken c).stop⟩ := by
  fun_induction Draft.read maxDepth taken d c with
  | case1 taken d c e stop h => rw [Draft.read, h]; simp
  | case2 taken d c stop h => rw [Draft.read, h]; simp
  | case3 taken d c t rest _ h e hd => rw [Draft.read, h]; simp [hd]
  | case4 taken d c t rest _ h d' hd ih => rw [Draft.read, h, ← ih]; simp [hd]

theorem Draft.read_eq {text : String} (maxDepth : Nat) (taken : List Token) (d : Draft)
    (c : Cursor text) :
    d.read maxDepth taken c =
      ⟨(d.read maxDepth [] c).outcome, taken.reverse ++ (d.read maxDepth [] c).tokens,
        (d.read maxDepth [] c).stop⟩ :=
  d.read_append maxDepth [] taken c

/-- A text that is too long is not scanned. -/
def Reading.of (limits : Limits) (text : String) : Reading text :=
  if limits.maxInputLen < text.length then
    ⟨.error (.inputTooLong text.length limits.maxInputLen), [], .start text⟩
  else Draft.empty.read limits.maxDepth [] (.start text)

def Program.parse (limits : Limits) (text : String) : Except ParseError Program :=
  (Reading.of limits text).outcome

/-- The start, one record for each token taken but the end of the input, and the outcome. -/
def Reading.events {text : String} (r : Reading text) : List Event :=
  let outcome := match r.outcome with
    | .ok p => .parsed p.depth
    | .error e => .rejected e
  .parsing text.length :: Event.lexing r.tokens ++ [outcome]

end FilterLang
