import FilterLang.Error
import FilterLang.Limits
import FilterLang.Tree

/-!
# Drafts

The grammar is

    program    = expression end
    expression = call | "(" expression ")"
    call       = name "(" [ argument { "," argument } ] ")"
    argument   = literal | call

and a text is parsed one token at a time. The state between two tokens is a `Draft`.

* `OpenCall` : a call whose closing parenthesis was not read;
* `Draft.Phase` : what was read last, with the stack of open calls. Groups only stand around the outermost call, so
  they are counted and not kept;
* `Draft.accept`, `Draft.feed` : the transition by one token, or its error;
* `Draft.finish` : the program at the end of the input, or the error;
* `Draft.refusal` : the error of a token that does not fit;
* `Draft.nesting` : how many groups and calls are open (`Draft.depth` is the counter of the same).
-/

namespace FilterLang

/-- A call whose arguments are being read. -/
structure OpenCall where
  name : String
  /-- A reversed list. -/
  args : List Argument

namespace OpenCall

def add (c : OpenCall) (arg : Argument) : OpenCall := { c with args := arg :: c.args }

def close (c : OpenCall) : Call := ⟨c.name, c.args.reverse⟩

end OpenCall

/-- The position inside a list of arguments: behind the parenthesis, behind a comma, behind an argument. -/
inductive Draft.Slot
  | first
  | next
  | filled
  deriving DecidableEq

/-- What was read last, with the open calls around it, innermost first. -/
inductive Draft.Phase
  /-- Opening parentheses only. The last one is at `entering` as long as its group is not entered. -/
  | opening (entering : Option Nat)
  | naming (name : Token) (outer : List OpenCall)
  | arguing (slot : Draft.Slot) (call : OpenCall) (outer : List OpenCall)
  /-- The outermost call, and perhaps parentheses that close groups. -/
  | complete (call : Call)

structure Draft where
  /-- The counter of calls and groups that are entered and not left. -/
  depth : Nat
  /-- The number of groups among them. -/
  groups : Nat
  phase : Draft.Phase

namespace Draft

def empty : Draft := ⟨0, 0, .opening none⟩

def Phase.openCalls : Phase → List OpenCall
  | .opening _ | .complete _ => []
  | .naming _ outer => outer
  | .arguing _ call outer => call :: outer

/-- The number of open groups and calls. -/
def nesting (d : Draft) : Nat := d.groups + d.phase.openCalls.length

/-- The error of the token `t`, which does not fit. -/
def refusal (d : Draft) (t : Token) : GrammarError :=
  match d.phase with
  | .opening _ => .expectedExpression t
  | .naming name _ => .expectedOpenParen t name.value
  | .arguing .first call _ => if t.isEof then .unclosedCall t call.name else .invalidArgument t
  | .arguing .next _ _ => .invalidArgument t
  | .arguing .filled call _ => .unclosedCall t call.name
  | .complete _ =>
    if t.isLogical then .bareLogicalOperator t
    else if d.groups = 0 then .trailingInput t
    else .unclosedGroup t

/-- Increments the counter for the construct at `position`, if `maxDepth` admits it. -/
def enter (maxDepth position : Nat) (d : Draft) : Except ParseError Draft :=
  if d.depth + 1 ≤ maxDepth then .ok { d with depth := d.depth + 1 }
  else .error (.nestingTooDeep maxDepth position)

/-- Enters the group whose parenthesis was read last, if it is not entered. -/
def enterGroup (maxDepth : Nat) (d : Draft) : Except ParseError Draft :=
  match d.phase with
  | .opening (some position) =>
    (d.enter maxDepth position).map fun inside => ⟨inside.depth, inside.groups + 1, .opening none⟩
  | _ => .ok d

/-- Closes the innermost call, which becomes an argument of the next open call or the whole expression. -/
def closeCall (d : Draft) (call : OpenCall) : List OpenCall → Draft
  | [] => { d with depth := d.depth - 1, phase := .complete call.close }
  | next :: rest =>
    { d with depth := d.depth - 1, phase := .arguing .filled (next.add (.call call.close)) rest }

/-- The transition by `t` where every opened group is entered. A call is entered with its opening parenthesis. -/
def accept (maxDepth : Nat) (d : Draft) (t : Token) : Except ParseError Draft :=
  match d.phase, t.kind with
  | .opening _, .lparen => .ok { d with phase := .opening (some t.position) }
  | .opening _, .identifier => .ok { d with phase := .naming t [] }
  | .naming name outer, .lparen =>
    (d.enter maxDepth name.position).map fun inside =>
      { inside with phase := .arguing .first ⟨name.value, []⟩ outer }
  | .arguing .first call outer, .rparen => .ok (d.closeCall call outer)
  | .arguing .filled call outer, .rparen => .ok (d.closeCall call outer)
  | .arguing .filled call outer, .comma => .ok { d with phase := .arguing .next call outer }
  | .arguing .filled _ _, _ => .error (.grammar (d.refusal t))
  | .arguing _ call outer, .stringLiteral =>
    .ok { d with phase := .arguing .filled (call.add (.literal ⟨t.value⟩)) outer }
  | .arguing _ call outer, .identifier => .ok { d with phase := .naming t (call :: outer) }
  | .complete _, .rparen =>
    if d.groups = 0 then .error (.grammar (d.refusal t))
    else .ok { d with depth := d.depth - 1, groups := d.groups - 1 }
  | _, _ => .error (.grammar (d.refusal t))

/-- The transition by `t`. A group is entered with the token behind its parenthesis, so that a lexical error there
comes before the limit. -/
def feed (maxDepth : Nat) (d : Draft) (t : Token) : Except ParseError Draft := do
  (← d.enterGroup maxDepth).accept maxDepth t

/-- The program at the end of the input, or the error. -/
def finish (maxDepth : Nat) (d : Draft) (position : Nat) : Except ParseError Program := do
  let d ← d.enterGroup maxDepth
  match d.phase, d.groups with
  | .complete call, 0 => .ok ⟨call⟩
  | _, _ => .error (.grammar (d.refusal (.endOfInput position)))

end Draft

end FilterLang
