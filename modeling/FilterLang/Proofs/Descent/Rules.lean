import FilterLang.Proofs.Draft.Grammar
import FilterLang.Proofs.Token.Stream
import FilterLang.Reading
import FilterLang.Proofs.Descent.Productions

/-!
# A program logic for the descent

The descent is related to `Draft.read`, which has no lookahead: its state amounts to a draft of the tokens
before the lookahead.

* `Draft.resume` : `Draft.read` with one token taken in advance (`Draft.read_eq_next`, `resume_of_feed`,
  `resume_of_enters`, `resume_of_refuses`, `resume_of_whole`);
* `State.left` : the measure of termination;
* `Point` : a state, with the recursion path and the draft as ghosts; `Point.Keeps` : the invariant
  (`Keeps.advanced`, `Keeps.entered`, `Keeps.exited`);
* `Leads p q` : the relation between the points before and after a computation, a preorder;
* `State.Ended`, `Halts` : the invariant and the relation where a computation stops;
* `Performs p x post` : total correctness of `x` from `p`, with one rule for each combinator (`pure`, `bind`,
  `get_bind`, `ite`, `succ`, `mono`) and for each operation (`advance_performs`, `enter_performs`,
  `leave_performs`, `refuse_performs`).
-/

namespace FilterLang

/-! ## One token of lookahead -/

variable {text : String}

/-- Progress of a request: a token moves the cursor, and the end of the input leaves nothing. -/
theorem Cursor.next_eq_ok {c d : Cursor text} {t : Token} (h : c.next = (.ok t, d)) :
    (t.isEof = false ∧ c.position < d.position ∧ d.remaining.length < c.remaining.length) ∨
      (t = .endOfInput d.position ∧ d.remaining = []) := by
  have hdescribes := c.scan_describes
  unfold next at h
  split at h
  · next u rest hlt hscan =>
    cases h
    rw [hscan] at hdescribes
    obtain ⟨w, -, hlexeme, -, -, hpasses⟩ := hdescribes
    have hlength := hlexeme.length_pos
    refine .inl ⟨hlexeme.isEof_eq_false, ?_, ?_⟩
    · rw [hpasses.position, List.length_append]
      omega
    · rw [hpasses.remaining]
      simp only [List.length_append]
      omega
  · next stop hscan =>
    cases h
    rw [hscan] at hdescribes
    obtain ⟨w, -, -, hnil⟩ := hdescribes
    exact .inr ⟨rfl, hnil⟩
  · cases h

theorem Cursor.length_le_of_next {c d : Cursor text} {t : Token} (h : c.next = (.ok t, d)) :
    (d.remaining.length + if t.isEof then 0 else 1) ≤ c.remaining.length := by
  rcases next_eq_ok h with ⟨heof, -, hlt⟩ | ⟨rfl, hnil⟩
  · rw [heof]
    exact hlt
  · rw [hnil]
    exact Nat.zero_le _

namespace Draft

variable {maxDepth : Nat} {d e : Draft} {t : Token} {taken : List Token} {c : Cursor text}

/-- `Draft.read` where `t`, the last of `taken`, was taken in advance. -/
def resume (maxDepth : Nat) (d : Draft) (t : Token) (taken : List Token) (c : Cursor text) : Reading text :=
  if t.isEof then ⟨d.finish maxDepth t.position, taken.reverse, c⟩
  else match d.feed maxDepth t with
    | .error e => ⟨.error e, taken.reverse, c⟩
    | .ok d => d.read maxDepth taken c

/-- Recursion equation of `read` with the token as lookahead. -/
theorem read_eq_next (maxDepth : Nat) (taken : List Token) (d : Draft) (c : Cursor text) :
    d.read maxDepth taken c =
      match c.next with
      | (.error e, stop) => ⟨.error (.lexical e), taken.reverse, stop⟩
      | (.ok t, rest) => d.resume maxDepth t (t :: taken) rest := by
  have hdescribes := c.scan_describes
  rw [read, Cursor.next]
  cases hscan : c.scan with
  | failed e stop => rfl
  | ended stop => rfl
  | token t rest _ =>
    rw [hscan] at hdescribes
    obtain ⟨w, -, hlexeme, -⟩ := hdescribes
    have heof : ¬ t.isEof = true := by simp [hlexeme.isEof_eq_false]
    unfold resume
    exact (if_neg heof).symm

theorem resume_of_feed (ht : t.isEof = false) (h : d.feed maxDepth t = .ok e) :
    d.resume maxDepth t taken c = e.read maxDepth taken c := by
  simp [resume, ht, h]

theorem finish_of_enters (h : Enters maxDepth d e) (position : Nat) :
    d.finish maxDepth position = e.finish maxDepth position := by
  rw [finish, finish, enterGroup_eq_ok_iff.2 h, enterGroup_eq_ok_iff.2 (.already h.settled)]

theorem resume_of_enters (h : Enters maxDepth d e) (t : Token) (taken : List Token) (c : Cursor text) :
    d.resume maxDepth t taken c = e.resume maxDepth t taken c := by
  rw [resume, resume, feed_of_enters h, finish_of_enters h]

theorem resume_of_refuses {err : ParseError} (h : Refuses maxDepth d t err)
    (ht : t.isEof = true → t = .endOfInput t.position)
    (hwhole : t.isEof = true → ¬ ∃ c, d.phase = .complete c ∧ d.groups = 0) :
    d.resume maxDepth t taken c = ⟨.error err, taken.reverse, c⟩ := by
  have hfeed := feed_eq_error_iff.2 h
  rw [resume]
  split
  · next heof =>
    rw [ht heof] at hfeed
    rw [finish_eq_error_iff.2 ⟨hfeed, hwhole heof⟩]
  · rw [hfeed]

theorem resume_of_whole {call : Call} (ht : t.isEof = true) (hphase : d.phase = .complete call)
    (hgroups : d.groups = 0) : d.resume maxDepth t taken c = ⟨.ok ⟨call⟩, taken.reverse, c⟩ := by
  rw [resume, if_pos ht, finish_eq_ok_iff.2 ⟨hphase, hgroups⟩]

end Draft

namespace Descent

open Draft (Enters Refuses)

variable {text : String} {α β : Type} {maxDepth : Nat}

/-! ## Points -/

/-- The characters and the token, if it is not the end of the input, that are not passed. -/
def State.left (s : State text) : Nat := s.cursor.remaining.length + if s.lookahead.isEof then 0 else 1

/-- A state with ghosts. -/
structure Point (text : String) where
  /-- The first tokens of the open calls and groups, innermost first. -/
  path : List Token
  /-- The number of passed tokens that are known to start none of these. -/
  spare : Nat
  /-- The draft of the passed tokens. -/
  draft : Draft
  state : State text

def Point.resume (maxDepth : Nat) (p : Point text) : Reading text :=
  p.draft.resume maxDepth p.state.lookahead p.state.taken p.state.cursor

/-- The oldest request primes the lookahead, and no later one is made with the end of the input as lookahead. -/
def State.AsksForward (s : State text) : Prop := s.asked ≠ [] ∧ ∀ t ∈ s.asked.dropLast, t.isEof = false

/-- The invariant of a descent. -/
structure Point.Keeps (maxDepth : Nat) (p : Point text) : Prop where
  traced : p.state.Traced p.path
  within : p.path.length ≤ maxDepth
  /-- Strict, since the lookahead is taken and not passed. -/
  spare : p.path.length + p.spare < p.state.taken.length
  asked : p.state.asked.length = p.state.taken.length
  forward : p.state.AsksForward
  left : p.state.asked.length + p.state.left ≤ text.length + 1
  snapshots : ∀ n ∈ p.state.snapshots, n.path.length ≤ n.lexed ∧ n.depth ≤ maxDepth
  last : p.state.lookahead.isEof = true → p.state.lookahead = .endOfInput p.state.lookahead.position

/-- What a computation from `p` guarantees at `q`. -/
structure Leads (maxDepth : Nat) (p q : Point text) : Prop where
  depth : q.state.depth + p.path.length = p.state.depth + q.path.length
  /-- What is passed is on the path or to spare. -/
  left : q.state.left + q.path.length + q.spare ≤ p.state.left + p.path.length + p.spare
  taken : p.state.taken <:+ q.state.taken
  keeps : p.Keeps maxDepth → q.Keeps maxDepth
  resume : p.Keeps maxDepth → p.resume maxDepth = q.resume maxDepth

theorem Leads.refl (p : Point text) : Leads maxDepth p p := ⟨rfl, Nat.le_refl _, List.suffix_rfl, id, fun _ => rfl⟩

theorem Leads.trans {p q r : Point text} (h : Leads maxDepth p q) (h' : Leads maxDepth q r) :
    Leads maxDepth p r where
  depth := by
    have hpq := h.depth
    have hqr := h'.depth
    omega
  left := Nat.le_trans h'.left h.left
  taken := h.taken.trans h'.taken
  keeps hp := h'.keeps (h.keeps hp)
  resume hp := (h.resume hp).trans (h'.resume (h.keeps hp))

/-- The invariant at the end of a descent, which is a stop or an answer (`none`). -/
structure State.Ended (maxDepth : Nat) (stop? : Option Stop) (s : State text) : Prop where
  traced : ∃ path, s.Traced path
  forward : ∀ t ∈ s.asked.dropLast, t.isEof = false
  bound : s.asked.length ≤ text.length + 1
  asked : (∀ e, stop? ≠ some (.refused (.lexical e))) → s.asked.length = s.taken.length
  failed : ∀ e, stop? = some (.refused (.lexical e)) → s.asked.length = s.taken.length + 1
  lexed : ∀ n ∈ s.snapshots, n.path.length ≤ n.lexed
  within : ∀ n ∈ s.snapshots.tail, n.depth ≤ maxDepth
  /-- Only the last enter can exceed the limit. -/
  last : ∀ n ∈ s.snapshots.head?, n.depth ≤ maxDepth ∨
    n.depth = maxDepth + 1 ∧ ∃ position, stop? = some (.refused (.nestingTooDeep maxDepth position))

theorem Point.Keeps.ended {p : Point text} {stop? : Option Stop} (h : p.Keeps maxDepth)
    (hstop : ∀ e, stop? ≠ some (.refused (.lexical e))) : p.state.Ended maxDepth stop? where
  traced := ⟨_, h.traced⟩
  forward := h.forward.2
  bound := Nat.le_trans (Nat.le_add_right _ _) h.left
  asked _ := h.asked
  failed e he := absurd he (hstop e)
  lexed n hn := (h.snapshots n hn).1
  within n hn := (h.snapshots n (List.mem_of_mem_tail hn)).2
  last n hn := .inl (h.snapshots n (List.mem_of_mem_head? hn)).2

theorem State.Ended.depth_le {stop? : Option Stop} {s : State text} (h : s.Ended maxDepth stop?) :
    ∀ n ∈ s.snapshots, n.depth ≤ maxDepth + 1 := by
  intro n hn
  cases hs : s.snapshots with
  | nil =>
    rw [hs] at hn
    cases hn
  | cons newest earlier =>
    rw [hs] at hn
    rcases List.mem_cons.1 hn with rfl | hn
    · rcases h.last n (by rw [hs]; rfl) with hle | ⟨hdepth, -⟩
      · exact Nat.le_succ_of_le hle
      · exact Nat.le_of_eq hdepth
    · exact Nat.le_succ_of_le (h.within n (by rw [hs]; exact hn))

/-- What a computation from `p` guarantees where it stops. -/
structure Halts (maxDepth : Nat) (p : Point text) (stop : Stop) (s : State text) : Prop where
  taken : p.state.taken <:+ s.taken
  ended : p.Keeps maxDepth → s.Ended maxDepth (some stop)
  refused : p.Keeps maxDepth → ∀ e, stop = .refused e →
    p.resume maxDepth = ⟨.error e, s.taken.reverse, s.cursor⟩
  outOfRange : p.Keeps maxDepth → stop = .outOfRange → countBound ≤ text.length

theorem Leads.halts {p q : Point text} {stop : Stop} {s : State text} (h : Leads maxDepth p q)
    (hq : Halts maxDepth q stop s) : Halts maxDepth p stop s where
  taken := h.taken.trans hq.taken
  ended hp := hq.ended (h.keeps hp)
  refused hp e he := (h.resume hp).trans (hq.refused (h.keeps hp) e he)
  outOfRange hp := hq.outOfRange (h.keeps hp)

/-! ## Rules -/

theorem bind_run (x : Descent text α) (f : α → Descent text β) (s : State text) :
    (x >>= f) s = x s >>= fun
      | (.ok a, s) => f a s
      | (.error stop, s) => some (.error stop, s) := by
  simp only [Bind.bind, ExceptT.bind, ExceptT.mk, StateT.bind]
  congr 1
  funext r
  obtain ⟨a | a, s⟩ := r <;> rfl

theorem Terminates.of_run {x : Descent text α} {s last : State text} {answer : Except Stop α}
    (h : x s = some (answer, last)) : Terminates (fun _ => x) s answer last := ⟨0, fun _ _ => h⟩

theorem Terminates.bind {x : Nat → Descent text α} {f : α → Nat → Descent text β} {s s₁ s₂ : State text} {a : α}
    {answer : Except Stop β} (hx : Terminates x s (.ok a) s₁) (hf : Terminates (f a) s₁ answer s₂) :
    Terminates (fun fuel => x fuel >>= fun a => f a fuel) s answer s₂ := by
  obtain ⟨least, hx⟩ := hx
  obtain ⟨least', hf⟩ := hf
  refine ⟨max least least', fun fuel hfuel => ?_⟩
  show (x fuel >>= fun a => f a fuel) s = _
  rw [bind_run, hx fuel (Nat.le_trans (Nat.le_max_left _ _) hfuel)]
  exact hf fuel (Nat.le_trans (Nat.le_max_right _ _) hfuel)

theorem Terminates.bind_error {x : Nat → Descent text α} {f : α → Nat → Descent text β} {s last : State text}
    {stop : Stop} (hx : Terminates x s (.error stop) last) :
    Terminates (fun fuel => x fuel >>= fun a => f a fuel) s (.error stop) last := by
  obtain ⟨least, hx⟩ := hx
  refine ⟨least, fun fuel hfuel => ?_⟩
  show (x fuel >>= fun a => f a fuel) s = _
  rw [bind_run, hx fuel hfuel]
  rfl

theorem Terminates.succ {x : Nat → Descent text α} {s last : State text} {answer : Except Stop α}
    (h : Terminates (fun fuel => x (fuel + 1)) s answer last) : Terminates x s answer last := by
  obtain ⟨least, h⟩ := h
  refine ⟨least + 1, fun fuel hfuel => ?_⟩
  obtain ⟨fuel, rfl⟩ := Nat.exists_eq_add_of_le' hfuel
  exact h (fuel + least) (Nat.le_add_left _ _)

/-- Total correctness: from `p`, `x` terminates with an answer and a point that satisfy `post`, or stops. -/
def Performs (maxDepth : Nat) (p : Point text) (x : (fuel : Nat) → Descent text α) (post : α → Point text → Prop) :
    Prop :=
  (∃ a q, Terminates x p.state (.ok a) q.state ∧ Leads maxDepth p q ∧ post a q) ∨
    ∃ stop s, Terminates x p.state (.error stop) s ∧ Halts maxDepth p stop s

namespace Performs

variable {p : Point text} {post : α → Point text → Prop} {post' : β → Point text → Prop} {x y : Nat → Descent text α}

theorem pure {a : α} (h : post a p) : Performs maxDepth p (fun _ => Pure.pure a) post :=
  .inl ⟨a, p, .of_run rfl, .refl p, h⟩

theorem bind {f : α → Nat → Descent text β} (hx : Performs maxDepth p x post)
    (hf : ∀ a q, Leads maxDepth p q → post a q → Performs maxDepth q (f a) post') :
    Performs maxDepth p (fun fuel => x fuel >>= fun a => f a fuel) post' := by
  rcases hx with ⟨a, q, hrun, hq, ha⟩ | ⟨stop, s, hrun, hs⟩
  · rcases hf a q hq ha with ⟨b, r, hrun', hr, hb⟩ | ⟨stop, s, hrun', hs⟩
    · exact .inl ⟨b, r, hrun.bind hrun', hq.trans hr, hb⟩
    · exact .inr ⟨stop, s, hrun.bind hrun', hq.halts hs⟩
  · exact .inr ⟨stop, s, hrun.bind_error, hs⟩

theorem get_bind {f : State text → Nat → Descent text β} (h : Performs maxDepth p (f p.state) post') :
    Performs maxDepth p (fun fuel => get >>= fun s => f s fuel) post' := h

theorem ite {c : Prop} [Decidable c] (hx : c → Performs maxDepth p x post) (hy : ¬ c → Performs maxDepth p y post) :
    Performs maxDepth p (fun fuel => if c then x fuel else y fuel) post := by
  by_cases h : c
  · simp only [if_pos h]
    exact hx h
  · simp only [if_neg h]
    exact hy h

theorem succ (h : Performs maxDepth p (fun fuel => x (fuel + 1)) post) : Performs maxDepth p x post := by
  rcases h with ⟨a, q, hrun, hq, ha⟩ | ⟨stop, s, hrun, hs⟩
  · exact .inl ⟨a, q, hrun.succ, hq, ha⟩
  · exact .inr ⟨stop, s, hrun.succ, hs⟩

theorem mono {other : α → Point text → Prop} (hx : Performs maxDepth p x post) (h : ∀ a q, post a q → other a q) :
    Performs maxDepth p x other := by
  rcases hx with ⟨a, q, hrun, hq, ha⟩ | hstop
  · exact .inl ⟨a, q, hrun, hq, h a q ha⟩
  · exact .inr hstop

end Performs

/-! ## Operations -/

variable {path : List Token} {spare : Nat} {d e : Draft} {s : State text} {first : Token} {p : Point text}

theorem advance_run (path : List Token) (s : State text) :
    advance path s =
      match s.cursor.next with
      | (.error e, stop) => some (.error (.refused (.lexical e)), s.failed path stop)
      | (.ok t, rest) => some (.ok s.lookahead, s.advanced path rest t) := by
  show (match s.cursor.next with | (.error e, stop) => _ | (.ok t, rest) => _ : Descent text Token) s = _
  rcases s.cursor.next with ⟨e | t, c⟩ <;> rfl

theorem enter_run (maxDepth : Nat) (path : List Token) (first : Token) (s : State text) :
    enter maxDepth path first s =
      if s.depth + 1 < countBound then
        some (if maxDepth < s.depth + 1 then .error (.refused (.nestingTooDeep maxDepth first.position)) else .ok (),
          s.entered path first)
      else some (.error .outOfRange, s) := by
  show (if s.depth + 1 < countBound then _ else _ : Descent text Unit) s = _
  by_cases hrange : s.depth + 1 < countBound
  · rw [if_pos hrange, if_pos hrange]
    by_cases hdeep : maxDepth < s.depth + 1
    · simp only [if_pos hdeep]
      rfl
    · simp only [if_neg hdeep]
      rfl
  · rw [if_neg hrange, if_neg hrange]
    rfl

theorem leave_run (path : List Token) (h : s.depth ≠ 0) : leave path s = some (.ok (), s.exited path) := by
  show (if s.depth = 0 then _ else _ : Descent text Unit) s = _
  rw [if_neg h]
  rfl

theorem State.AsksForward.cons {s' : State text} (h : s.AsksForward) (ht : s.lookahead.isEof = false)
    (hs : s'.asked = s.lookahead :: s.asked) : s'.AsksForward := by
  refine ⟨by simp [hs], fun t hmem => ?_⟩
  rw [hs, List.dropLast_cons_of_ne_nil h.1] at hmem
  rcases List.mem_cons.1 hmem with rfl | hmem
  · exact ht
  · exact h.2 t hmem

theorem State.left_eq (ht : s.lookahead.isEof = false) : s.left = s.cursor.remaining.length + 1 := by
  simp [State.left, ht]

namespace Point.Keeps

theorem depth_eq (hp : p.Keeps maxDepth) : p.state.depth = p.path.length := hp.traced.depth_eq

/-- The previous lookahead is to spare until a construct is entered with it. -/
theorem advanced {t : Token} {c : Cursor text} (hp : Keeps maxDepth ⟨path, spare, d, s⟩)
    (ht : s.lookahead.isEof = false) (hnext : s.cursor.next = (.ok t, c)) :
    Keeps maxDepth ⟨path, spare + 1, e, s.advanced path c t⟩ := by
  have hdepth := hp.depth_eq
  obtain ⟨htraced, hwithin, hspare, hasked, hforward, hleft, hsnapshots, -⟩ := hp
  dsimp only at hdepth hwithin hspare hleft
  refine ⟨htraced.advanced c t, hwithin, Nat.succ_lt_succ hspare, congrArg (· + 1) hasked, hforward.cons ht rfl,
    ?_, ?_, fun heof => ?_⟩
  · show s.asked.length + 1 + (c.remaining.length + if t.isEof then 0 else 1) ≤ text.length + 1
    have hle := Cursor.length_le_of_next hnext
    rw [State.left_eq ht] at hleft
    omega
  · refine List.forall_mem_cons.2 ⟨⟨?_, Nat.le_trans (Nat.le_of_eq hdepth) hwithin⟩, hsnapshots⟩
    show path.length ≤ s.taken.length + 1
    omega
  · rcases Cursor.next_eq_ok hnext with ⟨hno, -⟩ | ⟨rfl, -⟩
    · cases hno.symm.trans heof
    · rfl

theorem ended_of_failed {c : Cursor text} (hp : Keeps maxDepth ⟨path, spare, d, s⟩) (ht : s.lookahead.isEof = false)
    (err : LexicalError) : (s.failed path c).Ended maxDepth (some (.refused (.lexical err))) := by
  have hdepth := hp.depth_eq
  obtain ⟨htraced, hwithin, hspare, hasked, hforward, hleft, hsnapshots, -⟩ := hp
  dsimp only at hdepth hwithin hspare hleft
  refine ⟨⟨path, htraced.failed c⟩, (hforward.cons ht rfl).2, ?_, fun hno => absurd rfl (hno err),
    fun _ _ => congrArg (· + 1) hasked, ?_, fun n hn => (hsnapshots n hn).2, ?_⟩
  · show s.asked.length + 1 ≤ text.length + 1
    rw [State.left_eq ht] at hleft
    omega
  · refine List.forall_mem_cons.2 ⟨?_, fun n hn => (hsnapshots n hn).1⟩
    show path.length ≤ s.taken.length
    omega
  · rintro n ⟨⟩
    exact .inl (Nat.le_trans (Nat.le_of_eq hdepth) hwithin)

theorem entered (hp : Keeps maxDepth ⟨path, spare + 1, d, s⟩) (hle : s.depth + 1 ≤ maxDepth) :
    Keeps maxDepth ⟨first :: path, spare, e, s.entered path first⟩ := by
  have hdepth := hp.depth_eq
  obtain ⟨htraced, hwithin, hspare, hasked, hforward, hleft, hsnapshots, hlast⟩ := hp
  dsimp only at hdepth hwithin hspare hleft
  refine ⟨htraced.entered first, ?_, ?_, hasked, hforward, hleft, ?_, hlast⟩
  · show path.length + 1 ≤ maxDepth
    omega
  · show path.length + 1 + spare < s.taken.length
    omega
  · refine List.forall_mem_cons.2 ⟨⟨?_, hle⟩, hsnapshots⟩
    show path.length + 1 ≤ s.taken.length
    omega

theorem ended_of_tooDeep {position : Nat} (hp : Keeps maxDepth ⟨path, spare + 1, d, s⟩)
    (hlt : maxDepth < s.depth + 1) :
    (s.entered path first).Ended maxDepth (some (.refused (.nestingTooDeep maxDepth position))) := by
  have hdepth := hp.depth_eq
  obtain ⟨htraced, hwithin, hspare, hasked, hforward, hleft, hsnapshots, -⟩ := hp
  dsimp only at hdepth hwithin hspare hleft
  refine ⟨⟨first :: path, htraced.entered first⟩, hforward.2, Nat.le_trans (Nat.le_add_right _ _) hleft,
    fun _ => hasked, by simp, ?_, fun n hn => (hsnapshots n hn).2, ?_⟩
  · refine List.forall_mem_cons.2 ⟨?_, fun n hn => (hsnapshots n hn).1⟩
    show path.length + 1 ≤ s.taken.length
    omega
  · rintro n ⟨⟩
    have hlevel : s.depth + 1 = maxDepth + 1 := by omega
    exact .inr ⟨hlevel, position, rfl⟩

theorem exited (hp : Keeps maxDepth ⟨first :: path, spare, d, s⟩) :
    Keeps maxDepth ⟨path, spare + 1, e, s.exited path⟩ := by
  have hdepth := hp.depth_eq
  obtain ⟨htraced, hwithin, hspare, hasked, hforward, hleft, hsnapshots, hlast⟩ := hp
  simp only [List.length_cons] at hdepth hwithin hspare
  refine ⟨htraced.exited, Nat.le_of_succ_le hwithin, ?_, hasked, hforward, hleft, ?_, hlast⟩
  · show path.length + (spare + 1) < s.taken.length
    omega
  · exact List.forall_mem_cons.2 ⟨⟨by dsimp only; omega, by dsimp only; omega⟩, hsnapshots⟩

/-- The counter is less than the number of characters, so that an enter does not overflow it. -/
theorem depth_lt_length (hp : Keeps maxDepth ⟨path, spare + 1, d, s⟩) : s.depth < text.length := by
  have hdepth := hp.depth_eq
  obtain ⟨-, -, hspare, hasked, -, hleft, -, -⟩ := hp
  dsimp only at hdepth hspare hasked hleft
  omega

end Point.Keeps

/-- The rule of `advance`, where the draft accepts the lookahead. -/
theorem advance_performs (ht : s.lookahead.isEof = false) (hfeed : d.feed maxDepth s.lookahead = .ok e) :
    Performs maxDepth ⟨path, spare, d, s⟩ (fun _ => advance path) fun t q =>
      t = s.lookahead ∧ ∃ s', q = ⟨path, spare + 1, e, s'⟩ ∧ s'.depth = s.depth := by
  have hresume : (⟨path, spare, d, s⟩ : Point text).resume maxDepth = e.read maxDepth s.taken s.cursor :=
    Draft.resume_of_feed ht hfeed
  have hrun := advance_run path s
  rw [Draft.read_eq_next] at hresume
  rcases hnext : s.cursor.next with ⟨err | t, c⟩
  · rw [hnext] at hresume hrun
    refine .inr ⟨_, _, .of_run hrun, List.suffix_rfl, fun hp => hp.ended_of_failed ht err, ?_, ?_⟩
    · rintro - e ⟨⟩
      exact hresume
    · rintro - ⟨⟩
  · rw [hnext] at hresume hrun
    have hle : (s.advanced path c t).left ≤ s.cursor.remaining.length := Cursor.length_le_of_next hnext
    refine .inl ⟨_, ⟨path, spare + 1, e, s.advanced path c t⟩, .of_run hrun,
      ⟨rfl, ?_, List.suffix_cons t s.taken, fun hp => hp.advanced ht hnext, fun _ => hresume⟩, rfl, _, rfl, rfl⟩
    rw [State.left_eq ht]
    dsimp only
    omega

/-- Only the start of a construct exceeds the limit. -/
theorem not_complete_of_nestingTooDeep {t : Token} {m position : Nat}
    (h : Refuses maxDepth d t (.nestingTooDeep m position)) (c : Call) : d.phase ≠ .complete c := by
  generalize herr : ParseError.nestingTooDeep m position = err at h
  cases h with
  | group _ | call _ _ => simp
  | misfit _ _ => cases herr

/-- The rule of `enter`, where the draft refuses the lookahead over the limit. -/
theorem enter_performs
    (hdeep : maxDepth < s.depth + 1 → Refuses maxDepth d s.lookahead (.nestingTooDeep maxDepth first.position))
    (hin : s.depth + 1 ≤ maxDepth → Enters maxDepth d e) :
    Performs maxDepth ⟨path, spare + 1, d, s⟩ (fun _ => enter maxDepth path first) fun _ q =>
      s.depth + 1 ≤ maxDepth ∧
        ∃ s', q = ⟨first :: path, spare, e, s'⟩ ∧ s'.depth = s.depth + 1 ∧ s'.lookahead = s.lookahead := by
  have hrun := enter_run maxDepth path first s
  split at hrun
  · split at hrun
    · next hlt =>
      refine .inr ⟨_, _, .of_run hrun, List.suffix_rfl, fun hp => hp.ended_of_tooDeep hlt, ?_, ?_⟩
      · rintro hp e ⟨⟩
        exact Draft.resume_of_refuses (hdeep hlt) hp.last fun _ ⟨c, hphase, _⟩ =>
          not_complete_of_nestingTooDeep (hdeep hlt) c hphase
      · rintro - ⟨⟩
    · next hle =>
      have hle : s.depth + 1 ≤ maxDepth := Nat.le_of_not_lt hle
      refine .inl ⟨(), ⟨first :: path, spare, e, s.entered path first⟩, .of_run hrun,
        ⟨?_, ?_, List.suffix_rfl, fun hp => hp.entered hle, fun _ => ?_⟩, hle, _, rfl, rfl, rfl⟩
      · show s.depth + 1 + path.length = s.depth + (path.length + 1)
        omega
      · show s.left + (path.length + 1) + spare ≤ s.left + path.length + (spare + 1)
        omega
      · exact Draft.resume_of_enters (hin hle) _ _ _
  · next hrange =>
    refine .inr ⟨_, _, .of_run hrun, List.suffix_rfl, fun hp => hp.ended (by simp), ?_, fun hp _ => ?_⟩
    · rintro - e ⟨⟩
    · have hlt := hp.depth_lt_length
      omega

theorem leave_performs (h : s.depth ≠ 0) :
    Performs maxDepth ⟨first :: path, spare, d, s⟩ (fun _ => leave path) fun _ q =>
      ∃ s', q = ⟨path, spare + 1, d, s'⟩ ∧ s'.depth = s.depth - 1 ∧ s'.lookahead = s.lookahead := by
  refine .inl ⟨(), ⟨path, spare + 1, d, s.exited path⟩, .of_run (leave_run path h),
    ⟨?_, ?_, List.suffix_rfl, Point.Keeps.exited, fun _ => rfl⟩, _, rfl, rfl, rfl⟩
  · show s.depth - 1 + (path.length + 1) = s.depth + path.length
    omega
  · show s.left + path.length + (spare + 1) ≤ s.left + (path.length + 1) + spare
    omega

/-- The rule of `refuse`, where the draft refuses the lookahead with the same error. -/
theorem refuse_performs {err : GrammarError} {post : α → Point text → Prop}
    (h : Refuses maxDepth p.draft p.state.lookahead (.grammar err))
    (hwhole : p.state.lookahead.isEof = true → ¬ ∃ c, p.draft.phase = .complete c ∧ p.draft.groups = 0) :
    Performs maxDepth p (fun _ => refuse err) post := by
  refine .inr ⟨_, _, .of_run rfl, List.suffix_rfl, fun hp => hp.ended (by simp), ?_, ?_⟩
  · rintro hp e ⟨⟩
    exact Draft.resume_of_refuses h hp.last hwhole
  · rintro - ⟨⟩

end Descent

end FilterLang
