import FilterLang.Proofs.Descent.Specs
import FilterLang.Proofs.Token.Session

/-!
# Counter, log and requests of the descent

* `Steady least x` : from every state `x` terminates and only appends to the tokens taken; an answer leaves the
  counter as it was and lowers the measure by at least `least` (`Steady.bind`, `Performs.steady`, and one lemma for
  each production);
* `Balanced`, `Appends`, `Progresses` : the counter, the log and the measure of a production on their own;
* `counter_counts_open` : along the descent the counter is the length of the recursion path and stays in its range;
* `State.log` : the records of the tokens taken (`advance_log`, `enter_log`, `leave_log`);
  `events_follow_descent` : the log of a parse is that of the descent;
* `counted` : a cursor with the number of requests, as a step of `gather` (`gather_counted`);
* `single_pass` : `tokenize` and the descent make one request for each token, and one more at a failure.
-/

namespace FilterLang

namespace Descent

open Draft (Phase)

variable {text : String} {α β : Type} {maxDepth m n : Nat} {path : List Token}

/-! ## From every state -/

/-- From every state `x` terminates, with the counter as it was and at least `least` less to read at an answer. -/
def Steady (least : Nat) (x : (fuel : Nat) → Descent text α) : Prop :=
  ∀ s, ∃ answer last, Terminates x s answer last ∧ s.taken <:+ last.taken ∧
    ∀ a, answer = .ok a → last.depth = s.depth ∧ last.left + least ≤ s.left

theorem Steady.bind {x : Nat → Descent text α} {f : α → Nat → Descent text β} (hx : Steady m x)
    (hf : ∀ a, Steady n (f a)) : Steady (m + n) fun fuel => x fuel >>= fun a => f a fuel := by
  intro s
  obtain ⟨answer, s₁, hrun, htaken, hok⟩ := hx s
  cases answer with
  | error stop => exact ⟨.error stop, s₁, hrun.bind_error, htaken, fun a ha => by cases ha⟩
  | ok a =>
    obtain ⟨hdepth, hleft⟩ := hok a rfl
    obtain ⟨answer, s₂, hrun', htaken', hok'⟩ := hf a s₁
    refine ⟨answer, s₂, hrun.bind hrun', htaken.trans htaken', fun b hb => ?_⟩
    obtain ⟨hdepth', hleft'⟩ := hok' b hb
    exact ⟨hdepth'.trans hdepth, by omega⟩

theorem Steady.succ {x : Nat → Descent text α} (h : Steady m fun fuel => x (fuel + 1)) : Steady m x := by
  intro s
  obtain ⟨answer, last, hrun, hlast⟩ := h s
  exact ⟨answer, last, hrun.succ, hlast⟩

theorem Performs.steady {x : Nat → Descent text α} {post : α → Point text → Prop} {least groups spare : Nat}
    {phase : Phase} {s : State text} (h : Performs maxDepth ⟨path, spare, ⟨s.depth, groups, phase⟩, s⟩ x post)
    (hpost : ∀ a q, post a q → q.path = path ∧ spare + least ≤ q.spare) :
    ∃ answer last, Terminates x s answer last ∧ s.taken <:+ last.taken ∧
      ∀ a, answer = .ok a → last.depth = s.depth ∧ last.left + least ≤ s.left := by
  rcases h with ⟨a, q, hrun, hq, ha⟩ | ⟨stop, s', hrun, hs⟩
  · refine ⟨.ok a, q.state, hrun, hq.taken, fun _ _ => ?_⟩
    obtain ⟨hpath, hspare⟩ := hpost a q ha
    have hdepth := hq.depth
    have hleft := hq.left
    rw [hpath] at hdepth hleft
    dsimp only at hdepth hleft
    exact ⟨by omega, by omega⟩
  · exact ⟨.error stop, s', hrun, hs.taken, fun a ha => by cases ha⟩

theorem Point.At.path_eq {q : Point text} {groups : Nat} {phase : Phase} (h : q.At path groups phase) :
    q.path = path := by
  obtain ⟨spare, s, rfl⟩ := h
  rfl

theorem steady_advance (text : String) (path : List Token) :
    Steady 0 fun _ => (advance path : Descent text Token) := by
  intro s
  have hrun := advance_run path s
  split at hrun
  · exact ⟨_, _, .of_run hrun, List.suffix_rfl, fun a ha => by cases ha⟩
  · next t c hnext =>
    have hle := Cursor.length_le_of_next hnext
    have hless : (s.advanced path c t).left ≤ s.left := Nat.le_trans hle (Nat.le_add_right _ _)
    refine ⟨_, s.advanced path c t, .of_run hrun, List.suffix_cons t s.taken, fun _ _ => ⟨rfl, ?_⟩⟩
    rw [Nat.add_zero]
    exact hless

-- `depth` and `left` of `Leads` do not need the invariant, so each state is completed by a draft that satisfies
-- the precondition of the production.

theorem steady_finishCall (text : String) (maxDepth : Nat) (path : List Token) (name : Token) :
    Steady 1 (finishCall maxDepth path name : Nat → Descent text Call) := fun s =>
  (finishCall_performs (readsArguments text maxDepth s.left)
    (p := ⟨path, 1, ⟨s.depth, 0, .naming name []⟩, s⟩) ⟨1, s, rfl⟩ Nat.zero_lt_one (Nat.le_refl _)).steady
    fun _ _ ⟨hspare, hAt⟩ => ⟨hAt.path_eq, hspare⟩

theorem steady_call (text : String) (maxDepth : Nat) (path : List Token) :
    Steady 1 (call maxDepth path : Nat → Descent text Call) := by
  refine .succ ?_
  simp only [call]
  exact (steady_advance text path).bind (steady_finishCall text maxDepth path)

theorem steady_argument (text : String) (maxDepth : Nat) (path : List Token) :
    Steady 1 (argument maxDepth path : Nat → Descent text Argument) := fun s =>
  (readsArguments text maxDepth (s.left + 1) (p := ⟨path, 0, ⟨s.depth, 0, .arguing .next ⟨"", []⟩ []⟩, s⟩)
    ⟨0, s, rfl⟩ (by simp) (by simp) (Nat.lt_succ_self _)).steady
    fun _ _ ⟨hspare, hAt⟩ => ⟨hAt.path_eq, hspare⟩

theorem steady_moreArguments (text : String) (maxDepth : Nat) (path : List Token) (args : List Argument) :
    Steady 0 (moreArguments maxDepth path args : Nat → Descent text (List Argument)) := fun s =>
  (moreArguments_performs (readsArguments text maxDepth s.left)
    (p := ⟨path, 0, ⟨s.depth, 0, .arguing .filled ⟨"", args⟩ []⟩, s⟩) ⟨0, s, rfl⟩ (Nat.le_refl _)).steady
    fun _ _ ⟨hspare, _, hAt⟩ => ⟨hAt.path_eq, hspare⟩

theorem steady_expression (text : String) (maxDepth : Nat) (path : List Token) :
    Steady 1 (expression maxDepth path : Nat → Descent text Call) := fun s =>
  (expression_performs (p := ⟨path, 0, ⟨s.depth, 0, .opening none⟩, s⟩) ⟨0, s, rfl⟩).steady
    fun _ _ ⟨hspare, hAt⟩ => ⟨hAt.path_eq, hspare⟩

theorem steady_finishGroup (text : String) (maxDepth : Nat) (path : List Token) (first : Token) :
    Steady 1 (finishGroup maxDepth path first : Nat → Descent text Call) := fun s =>
  (finishGroup_performs (p := ⟨path, 1, ⟨s.depth, 0, .opening (some first.position)⟩, s⟩) ⟨1, s, rfl⟩ Nat.zero_lt_one
    fun _ _ hAt => expression_performs hAt).steady
    fun _ _ ⟨hspare, hAt⟩ => ⟨hAt.path_eq, hspare⟩

theorem steady_group (text : String) (maxDepth : Nat) (path : List Token) :
    Steady 1 (group maxDepth path : Nat → Descent text Call) := by
  refine .succ ?_
  simp only [group]
  exact (steady_advance text path).bind (steady_finishGroup text maxDepth path)

/-! ## The counter -/

/-- An answer leaves the counter as it was. -/
def Balanced (x : (fuel : Nat) → Descent text α) : Prop :=
  ∀ s a last, Terminates x s (.ok a) last → last.depth = s.depth

theorem Steady.balanced {least : Nat} {x : Nat → Descent text α} (h : Steady least x) : Balanced x := by
  intro s a last hrun
  obtain ⟨answer, s', hrun', -, hok⟩ := h s
  obtain ⟨rfl, rfl⟩ := hrun.unique hrun'
  exact (hok a rfl).1

theorem parse_terminates_of_lt (limits : Limits) {text : String} (hlen : text.length < countBound) :
    ∃ s, Terminates (parse limits) (.start text) ((Program.parse limits text).mapError .refused) s ∧
      s.Ended limits.maxDepth (stop? ((Program.parse limits text).mapError .refused)) ∧
      Reading.of limits text = ⟨Program.parse limits text, s.taken.reverse, s.cursor⟩ := by
  obtain ⟨outcome, s, hrun, hended, ⟨-, hbound⟩ | ⟨result, rfl, hreading⟩⟩ := parse_terminates limits text
  · omega
  · have hparse : Program.parse limits text = result := by rw [Program.parse, hreading]
    rw [hparse]
    exact ⟨s, hrun, hended, hreading⟩

/-- **The counter counts the open constructs, and never leaves its range.** The descent terminates with the outcome of
the parse, and not with `outOfRange`. It leaves a snapshot for each request, enter and leave; the counter is the number
of enters without a leave and the length of the recursion path, at most the number of tokens taken, and at most
`maxDepth` but for the enter that is refused with `NestingTooDeep`. An answer of a production leaves it as it was. -/
theorem counter_counts_open (limits : Limits) {text : String} (hlen : text.length < countBound) :
    (∃ s, Terminates (parse limits) (.start text) ((Program.parse limits text).mapError .refused) s ∧
      Reading.of limits text = ⟨Program.parse limits text, s.taken.reverse, s.cursor⟩ ∧
      (∃ path, s.Traced path) ∧ s.snapshots.length = s.asked.length + s.enters + s.leaves + 1 ∧
      s.depth + s.leaves = s.enters ∧
      (∀ n ∈ s.snapshots, n.depth = n.path.length ∧ n.depth ≤ n.lexed ∧ n.depth ≤ limits.maxDepth + 1) ∧
      (∀ n ∈ s.snapshots.tail, n.depth ≤ limits.maxDepth) ∧
      ∀ n ∈ s.snapshots.head?, n.depth = limits.maxDepth + 1 →
        ∃ position, Program.parse limits text = .error (.nestingTooDeep limits.maxDepth position)) ∧
    ∀ (maxDepth : Nat) (path : List Token) (name : Token),
      Balanced (expression maxDepth path : Nat → Descent text Call) ∧
      Balanced (group maxDepth path : Nat → Descent text Call) ∧
      Balanced (call maxDepth path : Nat → Descent text Call) ∧
      Balanced (finishCall maxDepth path name : Nat → Descent text Call) ∧
      Balanced (argument maxDepth path : Nat → Descent text Argument) := by
  refine ⟨?_, fun maxDepth path name => ⟨(steady_expression text maxDepth path).balanced,
    (steady_group text maxDepth path).balanced, (steady_call text maxDepth path).balanced,
    (steady_finishCall text maxDepth path name).balanced, (steady_argument text maxDepth path).balanced⟩⟩
  obtain ⟨s, hrun, hended, hreading⟩ := parse_terminates_of_lt limits hlen
  obtain ⟨path, htraced⟩ := hended.traced
  have hcounts : ∀ n ∈ s.snapshots, n.depth = n.path.length ∧ n.depth ≤ n.lexed ∧ n.depth ≤ limits.maxDepth + 1 := by
    intro n hn
    have hdepth := htraced.trace.depth_eq n hn
    exact ⟨hdepth, hdepth ▸ hended.lexed n hn, hended.depth_le n hn⟩
  refine ⟨s, hrun, hreading, ⟨path, htraced⟩, htraced.trace.length_eq, htraced.depth_add, hcounts, hended.within,
    fun n hn hdeep => ?_⟩
  rcases hended.last n hn with hle | ⟨-, position, hstop⟩
  · omega
  · cases hparse : Program.parse limits text with
    | error e =>
      rw [hparse] at hstop
      cases hstop
      exact ⟨position, rfl⟩
    | ok program =>
      rw [hparse] at hstop
      cases hstop

/-- The second group is entered with `f`, and `f` is one construct too many. -/
theorem counter_counts_open_too_deep :
    "((f(".length < countBound ∧
      ∃ s, Terminates (parse ⟨2, 100⟩) (.start "((f(") (.error (.refused (.nestingTooDeep 2 2))) s ∧
        s.taken.length = 4 ∧ s.snapshots.length = s.asked.length + s.enters + s.leaves + 1 ∧
        (∀ n ∈ s.snapshots, n.depth = n.path.length ∧ n.depth ≤ n.lexed ∧ n.depth ≤ 3) ∧
        ∀ n ∈ s.snapshots.tail, n.depth ≤ 2 := by
  have hlen : "((f(".length < countBound := by decide
  have hparse : Program.parse ⟨2, 100⟩ "((f(" = .error (.nestingTooDeep 2 2) := by decide +kernel
  have htokens : (Reading.of ⟨2, 100⟩ "((f(").tokens.length = 4 := by decide +kernel
  obtain ⟨⟨s, hrun, hreading, -, hlength, -, hcounts, hwithin, -⟩, -⟩ := counter_counts_open ⟨2, 100⟩ hlen
  rw [hreading, List.length_reverse] at htokens
  rw [hparse] at hrun
  exact ⟨hlen, s, hrun, htokens, hlength, hcounts, hwithin⟩

/-! ## The log -/

/-- The records of the tokens taken. -/
def State.log (s : State text) : List Event := Event.lexing s.taken.reverse

theorem advance_log {s s' : State text} {answer : Except Stop Token} (h : advance path s = some (answer, s')) :
    s'.log = s.log ++ match s.cursor.next.1 with
      | .ok t => Event.lexing [t]
      | .error _ => [] := by
  rw [advance_run] at h
  split at h
  · next e stop hnext =>
    cases h
    rw [hnext]
    exact (List.append_nil _).symm
  · next t rest hnext =>
    cases h
    rw [hnext]
    show Event.lexing (t :: s.taken).reverse = Event.lexing s.taken.reverse ++ Event.lexing [t]
    simp [Event.lexing]

theorem enter_log {first : Token} {s s' : State text} {answer : Except Stop Unit}
    (h : enter maxDepth path first s = some (answer, s')) : s'.log = s.log := by
  rw [enter_run] at h
  split at h
  · cases h
    rfl
  · cases h
    rfl

theorem leave_log {s s' : State text} {answer : Except Stop Unit} (h : leave path s = some (answer, s')) :
    s'.log = s.log := by
  by_cases hdepth : s.depth = 0
  · change (if s.depth = 0 then _ else _ : Descent text Unit) s = _ at h
    rw [if_pos hdepth] at h
    cases h
    rfl
  · rw [leave_run path hdepth] at h
    cases h
    rfl

def Appends (x : (fuel : Nat) → Descent text α) : Prop :=
  ∀ s answer last, Terminates x s answer last → s.log <+: last.log

theorem Steady.appends {least : Nat} {x : Nat → Descent text α} (h : Steady least x) : Appends x := by
  intro s answer last hrun
  obtain ⟨answer', s', hrun', htaken, -⟩ := h s
  obtain ⟨rfl, rfl⟩ := hrun.unique hrun'
  exact ((List.reverse_prefix.2 htaken).filter _).map _

/-- **The log follows the descent.** `advance` appends the record of the token it takes, none at the end of the input
or at an error; `enter` and `leave` append none, and a production keeps what was logged before. The log of a parse is
the start, the log of the descent, and the outcome. -/
theorem events_follow_descent (limits : Limits) {text : String} (hlen : text.length < countBound) :
    (∃ s, Terminates (parse limits) (.start text) ((Program.parse limits text).mapError .refused) s ∧
      (Reading.of limits text).events =
        .parsing text.length :: (s.log ++
          [match Program.parse limits text with
            | .ok p => .parsed p.depth
            | .error e => .rejected e])) ∧
    ∀ (maxDepth : Nat) (path : List Token) (first : Token),
      (∀ (s s' : State text) answer, advance path s = some (answer, s') →
        s'.log = s.log ++ match s.cursor.next.1 with
          | .ok t => Event.lexing [t]
          | .error _ => []) ∧
      (∀ (s s' : State text) answer, enter maxDepth path first s = some (answer, s') → s'.log = s.log) ∧
      (∀ (s s' : State text) answer, leave path s = some (answer, s') → s'.log = s.log) ∧
      Appends (expression maxDepth path : Nat → Descent text Call) ∧
      Appends (group maxDepth path : Nat → Descent text Call) ∧
      Appends (call maxDepth path : Nat → Descent text Call) ∧
      Appends (argument maxDepth path : Nat → Descent text Argument) := by
  refine ⟨?_, fun maxDepth path first => ⟨fun _ _ _ => advance_log, fun _ _ _ => enter_log, fun _ _ _ => leave_log,
    (steady_expression text maxDepth path).appends, (steady_group text maxDepth path).appends,
    (steady_call text maxDepth path).appends, (steady_argument text maxDepth path).appends⟩⟩
  obtain ⟨s, hrun, -, hreading⟩ := parse_terminates_of_lt limits hlen
  refine ⟨s, hrun, ?_⟩
  rw [Reading.events, hreading]
  rfl

/-! ## Requests -/

def counted (s : Cursor text × Nat) : Option (Except LexicalError Token × Cursor text × Nat) :=
  some (s.1.next.1, s.1.next.2, s.2 + 1)

/-- The measure of `counted`. -/
def unread (s : Cursor text × Nat) : Nat := s.1.remaining.length

/-- The invariant is that the requests made and the tokens to come are as many as the tokens of the stream. -/
theorem gather_counted (c : Cursor text) :
    gather counted unread [] (c, 0) = some (c.tokenize.1, c.tokenize.2, c.stream.tokens.length + 1) := by
  let before (d : Cursor text) (s : Cursor text × Nat) : Prop :=
    s.1 = d ∧ s.2 + d.stream.tokens.length = c.stream.tokens.length
  let behind (d : Cursor text) (s : Cursor text × Nat) : Prop := s.1 = d ∧ s.2 = c.stream.tokens.length + 1
  have hask : ∀ d s, before d s → ∃ s', counted s = some (d.next.1, s') ∧
      (∀ t, d.next.1 = .ok t → t.isEof = false → before d.next.2 s' ∧ unread s' < unread s) ∧
      ((∀ t, d.next.1 = .ok t → t.isEof = true) → behind d.next.2 s') := by
    rintro _ ⟨d, asks⟩ ⟨rfl, hasks⟩
    dsimp only at hasks
    refine ⟨_, rfl, fun t ht heof => ?_, fun hlast => ⟨rfl, ?_⟩⟩
    · rcases Cursor.next_eq_ok (Prod.ext ht rfl) with ⟨-, -, hlt⟩ | ⟨rfl, -⟩
      · refine ⟨⟨rfl, ?_⟩, hlt⟩
        cases htokens : d.stream.tokens with
        | nil =>
          have hend := (Cursor.next_of_tokens_nil htokens).2
          rw [ht] at hend
          split at hend
          · cases hend
            cases heof
          · cases hend
        | cons u us =>
          rw [htokens, List.length_cons] at hasks
          dsimp only
          rw [(Cursor.next_of_tokens_cons htokens).2.2.1]
          omega
      · cases heof
    · rw [Cursor.tokens_eq_nil hlast] at hasks
      exact congrArg (· + 1) hasks
  have hbefore : before c (c, 0) := ⟨rfl, Nat.zero_add _⟩
  obtain ⟨⟨d, asks⟩, hrun, rfl, rfl⟩ := gather_eq hask hbefore []
  rw [hrun]
  cases c.tokenize.1 <;> rfl

theorem length_of_tokenize {c : Cursor text} {ts : List Token} (h : c.tokenize.1 = .ok ts) :
    ts.length = c.stream.tokens.length + 1 := by
  rw [Cursor.tokenize, TokenStream.toList] at h
  split at h
  · cases h
    exact List.length_append
  · cases h

theorem length_given_of_tokenize {c : Cursor text} {e : LexicalError} (h : c.tokenize.1 = .error e) :
    c.stream.given.length = c.stream.tokens.length := by
  rw [Cursor.tokenize, TokenStream.toList] at h
  split at h
  · cases h
  · next hfailure => rw [TokenStream.given, hfailure]

theorem length_remaining_le (c : Cursor text) : c.remaining.length ≤ text.length := by
  have htext := congrArg String.toList c.offset.splits.eq_append
  rw [← String.length_toList, htext, String.toList_append, List.length_append]
  exact Nat.le_add_left _ _

/-- From every state `x` terminates, and an answer lowers the measure. -/
def Progresses (x : (fuel : Nat) → Descent text α) : Prop :=
  ∀ s, ∃ answer last, Terminates x s answer last ∧ ∀ a, answer = .ok a → last.left < s.left

theorem Steady.progresses {x : Nat → Descent text α} (h : Steady 1 x) : Progresses x := by
  intro s
  obtain ⟨answer, last, hrun, -, hok⟩ := h s
  exact ⟨answer, last, hrun, fun a ha => (hok a ha).2⟩

/-- The loop over arguments lowers the measure at a comma, and is left in the same state elsewhere. -/
theorem moreArguments_terminates (maxDepth : Nat) (path : List Token) (args : List Argument) (s : State text) :
    ∃ answer last, Terminates (moreArguments maxDepth path args) s answer last ∧
      ∀ all, answer = .ok all → last.left < s.left ∨ last = s ∧ s.lookahead.kind ≠ .comma := by
  have hrun : ∀ {answer last},
      Terminates (fun fuel => if s.lookahead.kind = .comma then (do
        let _ ← advance path
        let arg ← argument maxDepth path fuel
        moreArguments maxDepth path (arg :: args) fuel)
      else pure args.reverse) s answer last → Terminates (moreArguments maxDepth path args) s answer last := by
    intro answer last h
    refine .succ ?_
    simp only [moreArguments]
    exact h
  by_cases hk : s.lookahead.kind = .comma
  · obtain ⟨answer, last, hbehind, -, hok⟩ := (steady_advance text path).bind
      (fun _ => (steady_argument text maxDepth path).bind fun arg =>
        steady_moreArguments text maxDepth path (arg :: args)) s
    refine ⟨answer, last, hrun ?_, fun all hall => .inl (hok all hall).2⟩
    simpa only [if_pos hk] using hbehind
  · refine ⟨.ok args.reverse, s, hrun ?_, fun _ _ => .inr ⟨rfl, hk⟩⟩
    simpa only [if_neg hk] using Terminates.of_run rfl

/-- **One pass over the text.** `tokenize` makes one request for each token it answers with, one more at a failure, and
at most one for each character and one more; each token other than `Eof` moves the cursor forward. The descent
terminates with one request for each token it takes, one more at a lexical error, and none behind `Eof`. From every
state all productions terminate with progress. -/
theorem single_pass (limits : Limits) (text : String) :
    (∀ c : Cursor text, ∃ asks, gather counted unread [] (c, 0) = some (c.tokenize.1, c.tokenize.2, asks) ∧
      (∀ ts, c.tokenize.1 = .ok ts → asks = ts.length) ∧
      (∀ e, c.tokenize.1 = .error e → asks = c.stream.given.length + 1) ∧
      asks ≤ c.remaining.length + 1 ∧ c.remaining.length ≤ text.length) ∧
    (∀ (c d : Cursor text) (t : Token), c.next = (.ok t, d) → t.isEof = false →
      c.position < d.position ∧ d.remaining.length < c.remaining.length) ∧
    (∃ outcome s, Terminates (parse limits) (.start text) outcome s ∧ s.asked.length ≤ text.length + 1 ∧
      ((∀ e, outcome ≠ .error (.refused (.lexical e))) → s.asked.length = s.taken.length) ∧
      (∀ e, outcome = .error (.refused (.lexical e)) → s.asked.length = s.taken.length + 1) ∧
      (∀ t ∈ s.asked.dropLast, t.isEof = false) ∧
      (text.length < countBound → outcome = (Program.parse limits text).mapError .refused ∧
        Reading.of limits text = ⟨Program.parse limits text, s.taken.reverse, s.cursor⟩)) ∧
    ∀ (maxDepth : Nat) (path : List Token) (name : Token),
      Progresses (expression maxDepth path : Nat → Descent text Call) ∧
      Progresses (group maxDepth path : Nat → Descent text Call) ∧
      Progresses (finishGroup maxDepth path name : Nat → Descent text Call) ∧
      Progresses (call maxDepth path : Nat → Descent text Call) ∧
      Progresses (finishCall maxDepth path name : Nat → Descent text Call) ∧
      Progresses (argument maxDepth path : Nat → Descent text Argument) ∧
      ∀ (args : List Argument) (s : State text),
        ∃ answer last, Terminates (moreArguments maxDepth path args) s answer last ∧
          ∀ all, answer = .ok all → last.left < s.left ∨ last = s ∧ s.lookahead.kind ≠ .comma := by
  refine ⟨fun c => ?_, fun c d t hnext heof => ?_, ?_, fun maxDepth path name => ?_⟩
  · refine ⟨_, gather_counted c, fun ts hts => (length_of_tokenize hts).symm, fun e he => ?_,
      Nat.succ_le_succ c.stream_segmented.length_le, length_remaining_le c⟩
    rw [length_given_of_tokenize he]
  · rcases Cursor.next_eq_ok hnext with ⟨-, hposition, hlt⟩ | ⟨rfl, -⟩
    · exact ⟨hposition, hlt⟩
    · cases heof
  · obtain ⟨outcome, s, hrun, hended, houtcome⟩ := parse_terminates limits text
    refine ⟨outcome, s, hrun, hended.bound, fun hno => hended.asked fun e he => ?_, ?_, hended.forward, fun hlen => ?_⟩
    · cases outcome with
      | ok program => cases he
      | error stop =>
        cases he
        exact hno e rfl
    · rintro e rfl
      exact hended.failed e rfl
    · rcases houtcome with ⟨-, hbound⟩ | ⟨result, rfl, hreading⟩
      · omega
      · rw [Program.parse, hreading]
        exact ⟨rfl, rfl⟩
  · exact ⟨(steady_expression text maxDepth path).progresses, (steady_group text maxDepth path).progresses,
      (steady_finishGroup text maxDepth path name).progresses, (steady_call text maxDepth path).progresses,
      (steady_finishCall text maxDepth path name).progresses, (steady_argument text maxDepth path).progresses,
      moreArguments_terminates maxDepth path⟩

/-- The comma is refused as lookahead, which no request follows. -/
theorem single_pass_at_comma :
    ∃ s, Terminates (parse ⟨2, 100⟩) (.start "f(,")
        (.error (.refused (.grammar (.invalidArgument ⟨.comma, ",", 2⟩)))) s ∧
      s.asked.length = 3 ∧ ∀ t ∈ s.asked.dropLast, t.isEof = false := by
  have hparse : Program.parse ⟨2, 100⟩ "f(," = .error (.grammar (.invalidArgument ⟨.comma, ",", 2⟩)) := by
    decide +kernel
  have htokens : (Reading.of ⟨2, 100⟩ "f(,").tokens.length = 3 := by decide +kernel
  obtain ⟨-, -, ⟨outcome, s, hrun, -, hasked, -, hforward, houtcome⟩, -⟩ := single_pass ⟨2, 100⟩ "f(,"
  obtain ⟨rfl, hreading⟩ := houtcome (by decide)
  rw [hreading, List.length_reverse] at htokens
  rw [hparse] at hrun hasked
  exact ⟨s, hrun, (hasked fun e he => by cases he).trans htokens, hforward⟩

end Descent

end FilterLang
