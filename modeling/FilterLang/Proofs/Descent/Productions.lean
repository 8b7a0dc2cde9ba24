import FilterLang.Reading

/-!
# Recursive descent

The productions of the grammar as mutually recursive functions with one token of lookahead and a nesting
counter, in a state monad with errors.

* `Descent.State` : cursor, lookahead and counter, with ghost fields that record the run: requests, tokens,
  enters, leaves, and a `Snapshot` after each change;
* `Descent text α` : a computation of an `α` on this state;
* `advance`, `enter`, `leave` : the operations that change the state;
* `expression`, `group`, `finishGroup`, `call`, `finishCall`, `arguments`, `moreArguments`, `argument` : the
  productions, by recursion on `fuel`; the argument `path` is ghost, too: the constructs on the recursion path;
* `Descent.program`, `Descent.parse` : a whole text, with its limits;
* `Terminates x s answer last` : from some fuel on, `x` ends with this answer in the state `last`
  (`Terminates.unique`);
* `Trace requests enters leaves snapshots` : each snapshot comes from the one before by a single operation
  (`Trace.length_eq`, `Trace.depth_add`, `Trace.depth_eq`);
* `State.advanced`, `State.failed`, `State.entered`, `State.exited` : the states behind the operations;
  `State.Traced` : the ghost fields are a trace, kept by these.
-/

namespace FilterLang

namespace Descent

inductive Stop
  | refused (error : ParseError)
  /-- The counter would underflow, or reach `countBound`. -/
  | outOfRange
  deriving DecidableEq

structure Snapshot where
  /-- The first tokens of the calls and groups on the recursion path, innermost first. -/
  path : List Token
  depth : Nat
  /-- The number of tokens taken. -/
  lexed : Nat

structure State (text : String) where
  cursor : Cursor text
  /-- The last token taken, on which no production has acted. -/
  lookahead : Token
  /-- The nesting counter. -/
  depth : Nat
  /-- The lookahead at each request for a token, last first. -/
  asked : List Token
  /-- A reversed list, like `snapshots`. -/
  taken : List Token
  enters : Nat
  leaves : Nat
  snapshots : List Snapshot

/-- The initial state, with a lookahead that is no token of the text. -/
def State.start (text : String) : State text :=
  ⟨.start text, .endOfInput 0, 0, [], [], 0, 0, [⟨[], 0, 0⟩]⟩

def State.noted {text : String} (path : List Token) (s : State text) : State text :=
  { s with snapshots := ⟨path, s.depth, s.taken.length⟩ :: s.snapshots }

end Descent

/-- A computation that answers with an `α` or a `Stop`, or runs out of fuel. -/
abbrev Descent (text : String) := ExceptT Descent.Stop (StateT (Descent.State text) Option)

namespace Descent

variable {text : String}

def note (path : List Token) : Descent text Unit := modify (State.noted path)

def refuse {α : Type} (e : GrammarError) : Descent text α := throw (.refused (.grammar e))

/-- Requests the next token as lookahead, and answers with the previous one. -/
def advance (path : List Token) : Descent text Token := do
  let s ← get
  match s.cursor.next with
  | (.error e, stop) =>
    set { s with cursor := stop, asked := s.lookahead :: s.asked }
    note path
    throw (.refused (.lexical e))
  | (.ok t, rest) =>
    set { s with cursor := rest, lookahead := t, asked := s.lookahead :: s.asked, taken := t :: s.taken }
    note path
    return s.lookahead

/-- Increments the counter for the construct that starts with the token `first`. -/
def enter (maxDepth : Nat) (path : List Token) (first : Token) : Descent text Unit := do
  let s ← get
  if s.depth + 1 < countBound then
    set { s with depth := s.depth + 1, enters := s.enters + 1 }
    note (first :: path)
    if maxDepth < s.depth + 1 then throw (.refused (.nestingTooDeep maxDepth first.position))
  else throw .outOfRange

/-- Decrements the counter, at the end of the innermost construct inside `path`. -/
def leave (path : List Token) : Descent text Unit := do
  let s ← get
  if s.depth = 0 then throw .outOfRange
  set { s with depth := s.depth - 1, leaves := s.leaves + 1 }
  note path

/-- Out of fuel. -/
def cutShort {α : Type} : Descent text α := fun _ => none

mutual

/-- `name "(" [ argument { "," argument } ] ")"` -/
def call (maxDepth : Nat) (path : List Token) : (fuel : Nat) → Descent text Call
  | 0 => cutShort
  | fuel + 1 => do
    let name ← advance path
    finishCall maxDepth path name fuel

/-- A call behind its name. -/
def finishCall (maxDepth : Nat) (path : List Token) (name : Token) : (fuel : Nat) → Descent text Call
  | 0 => cutShort
  | fuel + 1 => do
    let t := (← get).lookahead
    if t.kind = .lparen then
      enter maxDepth path name
      let _ ← advance (name :: path)
      let args ← arguments maxDepth (name :: path) fuel
      let t := (← get).lookahead
      if t.kind = .rparen then
        let _ ← advance (name :: path)
        leave path
        return ⟨name.value, args⟩
      else refuse (.unclosedCall t name.value)
    else refuse (.expectedOpenParen t name.value)

/-- `[ argument { "," argument } ]` -/
def arguments (maxDepth : Nat) (path : List Token) : (fuel : Nat) → Descent text (List Argument)
  | 0 => cutShort
  | fuel + 1 => do
    let t := (← get).lookahead
    if t.kind = .rparen ∨ t.kind = .eof then return []
    else
      let arg ← argument maxDepth path fuel
      moreArguments maxDepth path [arg] fuel

/-- `{ "," argument }` behind the arguments `args`, which are in reverse. -/
def moreArguments (maxDepth : Nat) (path : List Token) (args : List Argument) :
    (fuel : Nat) → Descent text (List Argument)
  | 0 => cutShort
  | fuel + 1 => do
    if (← get).lookahead.kind = .comma then
      let _ ← advance path
      let arg ← argument maxDepth path fuel
      moreArguments maxDepth path (arg :: args) fuel
    else return args.reverse

/-- `literal | call` -/
def argument (maxDepth : Nat) (path : List Token) : (fuel : Nat) → Descent text Argument
  | 0 => cutShort
  | fuel + 1 => do
    let t := (← get).lookahead
    if t.kind = .stringLiteral then
      let t ← advance path
      return .literal ⟨t.value⟩
    else if t.kind = .identifier then return .call (← call maxDepth path fuel)
    else refuse (.invalidArgument t)

end

mutual

/-- `call | "(" expression ")"` -/
def expression (maxDepth : Nat) (path : List Token) : (fuel : Nat) → Descent text Call
  | 0 => cutShort
  | fuel + 1 => do
    let t := (← get).lookahead
    if t.kind = .lparen then group maxDepth path fuel
    else if t.kind = .identifier then call maxDepth path fuel
    else refuse (.expectedExpression t)

/-- `"(" expression ")"` -/
def group (maxDepth : Nat) (path : List Token) : (fuel : Nat) → Descent text Call
  | 0 => cutShort
  | fuel + 1 => do
    let first ← advance path
    finishGroup maxDepth path first fuel

/-- A group behind its opening parenthesis. -/
def finishGroup (maxDepth : Nat) (path : List Token) (first : Token) : (fuel : Nat) → Descent text Call
  | 0 => cutShort
  | fuel + 1 => do
    enter maxDepth path first
    let c ← expression maxDepth (first :: path) fuel
    let t := (← get).lookahead
    if t.kind = .rparen then
      let _ ← advance (first :: path)
      leave path
      return c
    else if t.isLogical then refuse (.bareLogicalOperator t)
    else refuse (.unclosedGroup t)

end

/-- `expression end` -/
def program (maxDepth fuel : Nat) : Descent text Program := do
  let c ← expression maxDepth [] fuel
  let t := (← get).lookahead
  if t.isEof then return ⟨c⟩
  else if t.isLogical then refuse (.bareLogicalOperator t)
  else refuse (.trailingInput t)

/-- A whole text. The first `advance` primes the lookahead. -/
def parse (limits : Limits) (fuel : Nat) : Descent text Program :=
  if limits.maxInputLen < text.length then throw (.refused (.inputTooLong text.length limits.maxInputLen))
  else do
    let _ ← advance []
    program limits.maxDepth fuel

/-- From `s`, `x` ends with this answer and state whenever the fuel suffices. -/
def Terminates {α : Type} (x : (fuel : Nat) → Descent text α) (s : State text) (answer : Except Stop α)
    (last : State text) : Prop :=
  ∃ least, ∀ fuel, least ≤ fuel → x fuel s = some (answer, last)

theorem Terminates.unique {α : Type} {x : (fuel : Nat) → Descent text α} {s s₁ s₂ : State text}
    {answer₁ answer₂ : Except Stop α} (h₁ : Terminates x s answer₁ s₁) (h₂ : Terminates x s answer₂ s₂) :
    answer₁ = answer₂ ∧ s₁ = s₂ := by
  obtain ⟨least₁, h₁⟩ := h₁
  obtain ⟨least₂, h₂⟩ := h₂
  have h := (h₁ _ (Nat.le_max_left least₁ least₂)).symm.trans (h₂ _ (Nat.le_max_right least₁ least₂))
  cases h
  exact ⟨rfl, rfl⟩

/-! ## The ghost fields -/

namespace State

/-- The state behind a request with the answer `t`. -/
def advanced (path : List Token) (c : Cursor text) (t : Token) (s : State text) : State text :=
  noted path { s with cursor := c, lookahead := t, asked := s.lookahead :: s.asked, taken := t :: s.taken }

/-- The state behind a request with a lexical error. -/
def failed (path : List Token) (c : Cursor text) (s : State text) : State text :=
  noted path { s with cursor := c, asked := s.lookahead :: s.asked }

def entered (path : List Token) (first : Token) (s : State text) : State text :=
  noted (first :: path) { s with depth := s.depth + 1, enters := s.enters + 1 }

def exited (path : List Token) (s : State text) : State text :=
  noted path { s with depth := s.depth - 1, leaves := s.leaves + 1 }

end State

/-- The snapshots of a run, last first, and the numbers of requests, enters and leaves. -/
inductive Trace : (requests enters leaves : Nat) → List Snapshot → Prop
  | start : Trace 0 0 0 [⟨[], 0, 0⟩]
  | advance {requests enters leaves depth lexed : Nat} {path : List Token} {earlier : List Snapshot}
      (h : Trace requests enters leaves (⟨path, depth, lexed⟩ :: earlier)) :
      Trace (requests + 1) enters leaves (⟨path, depth, lexed + 1⟩ :: ⟨path, depth, lexed⟩ :: earlier)
  /-- A request with a lexical error. -/
  | fail {requests enters leaves : Nat} {n : Snapshot} {earlier : List Snapshot}
      (h : Trace requests enters leaves (n :: earlier)) : Trace (requests + 1) enters leaves (n :: n :: earlier)
  | enter {requests enters leaves depth lexed : Nat} {path : List Token} {earlier : List Snapshot}
      (first : Token) (h : Trace requests enters leaves (⟨path, depth, lexed⟩ :: earlier)) :
      Trace requests (enters + 1) leaves (⟨first :: path, depth + 1, lexed⟩ :: ⟨path, depth, lexed⟩ :: earlier)
  | leave {requests enters leaves depth lexed : Nat} {path : List Token} {first : Token} {earlier : List Snapshot}
      (h : Trace requests enters leaves (⟨first :: path, depth + 1, lexed⟩ :: earlier)) :
      Trace requests enters (leaves + 1) (⟨path, depth, lexed⟩ :: ⟨first :: path, depth + 1, lexed⟩ :: earlier)

namespace Trace

variable {requests enters leaves : Nat} {ns : List Snapshot}

/-- One snapshot for each operation, and one for the start. -/
theorem length_eq (h : Trace requests enters leaves ns) : ns.length = requests + enters + leaves + 1 := by
  induction h with
  | start => rfl
  | advance _ ih | fail _ ih | enter _ _ ih | leave _ ih =>
    simp only [List.length_cons] at ih ⊢
    omega

/-- The counter is the number of enters without a leave. -/
theorem depth_add (h : Trace requests enters leaves ns) : ∀ n ∈ ns.head?, n.depth + leaves = enters := by
  induction h with
  | start => exact fun n hn => by cases hn; rfl
  | fail _ ih => exact ih
  | advance _ ih | enter _ _ ih | leave _ ih =>
    rintro n ⟨⟩
    have hnewest := ih _ rfl
    dsimp only at hnewest ⊢
    omega

/-- The counter is the length of the recursion path in each snapshot. -/
theorem depth_eq (h : Trace requests enters leaves ns) : ∀ n ∈ ns, n.depth = n.path.length := by
  induction h with
  | start => exact List.forall_mem_singleton.2 rfl
  | fail _ ih => exact List.forall_mem_cons.2 ⟨ih _ List.mem_cons_self, ih⟩
  | @advance _ _ _ depth lexed path _ _ ih =>
    have hnewest : depth = path.length := ih ⟨path, depth, lexed⟩ List.mem_cons_self
    exact List.forall_mem_cons.2 ⟨hnewest, ih⟩
  | @enter _ _ _ depth lexed path _ _ _ ih =>
    have hnewest : depth = path.length := ih ⟨path, depth, lexed⟩ List.mem_cons_self
    exact List.forall_mem_cons.2 ⟨congrArg (· + 1) hnewest, ih⟩
  | @leave _ _ _ depth lexed path first _ _ ih =>
    have hnewest : depth + 1 = path.length + 1 := ih ⟨first :: path, depth + 1, lexed⟩ List.mem_cons_self
    exact List.forall_mem_cons.2 ⟨Nat.succ.inj hnewest, ih⟩

end Trace

/-- The ghost fields are a trace that ends in the current state. -/
structure State.Traced (path : List Token) (s : State text) : Prop where
  newest : s.snapshots.head? = some ⟨path, s.depth, s.taken.length⟩
  trace : Trace s.asked.length s.enters s.leaves s.snapshots

namespace State.Traced

variable {path : List Token} {s : State text}

theorem start (text : String) : (State.start text).Traced [] := ⟨rfl, .start⟩

theorem depth_eq (h : s.Traced path) : s.depth = path.length :=
  h.trace.depth_eq ⟨path, s.depth, s.taken.length⟩ (List.mem_of_mem_head? h.newest)

theorem depth_add (h : s.Traced path) : s.depth + s.leaves = s.enters := h.trace.depth_add _ h.newest

theorem exists_earlier (h : s.Traced path) :
    ∃ earlier, s.snapshots = ⟨path, s.depth, s.taken.length⟩ :: earlier ∧
      Trace s.asked.length s.enters s.leaves (⟨path, s.depth, s.taken.length⟩ :: earlier) := by
  obtain ⟨earlier, hs⟩ := List.head?_eq_some_iff.1 h.newest
  exact ⟨earlier, hs, hs ▸ h.trace⟩

theorem advanced (h : s.Traced path) (c : Cursor text) (t : Token) : (s.advanced path c t).Traced path := by
  obtain ⟨earlier, hs, htrace⟩ := h.exists_earlier
  refine ⟨rfl, ?_⟩
  show Trace (s.asked.length + 1) s.enters s.leaves (⟨path, s.depth, s.taken.length + 1⟩ :: s.snapshots)
  rw [hs]
  exact .advance htrace

theorem failed (h : s.Traced path) (c : Cursor text) : (s.failed path c).Traced path := by
  obtain ⟨earlier, hs, htrace⟩ := h.exists_earlier
  refine ⟨rfl, ?_⟩
  show Trace (s.asked.length + 1) s.enters s.leaves (⟨path, s.depth, s.taken.length⟩ :: s.snapshots)
  rw [hs]
  exact .fail htrace

theorem entered (h : s.Traced path) (first : Token) : (s.entered path first).Traced (first :: path) := by
  obtain ⟨earlier, hs, htrace⟩ := h.exists_earlier
  refine ⟨rfl, ?_⟩
  show Trace s.asked.length (s.enters + 1) s.leaves (⟨first :: path, s.depth + 1, s.taken.length⟩ :: s.snapshots)
  rw [hs]
  exact .enter first htrace

theorem exited {first : Token} (h : s.Traced (first :: path)) : (s.exited path).Traced path := by
  obtain ⟨earlier, hs, htrace⟩ := h.exists_earlier
  refine ⟨rfl, ?_⟩
  show Trace s.asked.length s.enters (s.leaves + 1) (⟨path, s.depth - 1, s.taken.length⟩ :: s.snapshots)
  rw [hs]
  rw [h.depth_eq] at htrace ⊢
  exact .leave htrace

end State.Traced

end Descent

end FilterLang
