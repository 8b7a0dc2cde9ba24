import FilterLang.Proofs.Descent.Rules

/-!
# Specifications of the productions

* `Point.At` : a point inside `path` with a draft in a given phase, the form of pre- and postconditions;
* `close_performs` : the closing parenthesis of a call or a group;
* `ReadsArguments text maxDepth bound` : the specification of `argument` where less than `bound` is left, which
  cuts the mutual recursion (`readsArguments`: it holds for each bound, by induction);
* `moreArguments_performs`, `arguments_performs`, `finishCall_performs`, `call_performs` : calls;
* `finishGroup_performs`, `expression_performs` : expressions, by induction on what is left;
* `parse_terminates` : a whole text. The descent terminates with the outcome, the tokens and the cursor of
  `Reading.of`.
-/

namespace FilterLang

namespace Draft

variable {maxDepth : Nat} {d : Draft} {t : Token}

theorem Refuses.of_misfit {err : GrammarError} (hd : ∀ position, d.phase ≠ .opening (some position))
    (hno : ∀ maxDepth' d', ¬ Step maxDepth' d t d') (herr : d.refusal t = err) :
    Refuses maxDepth d t (.grammar err) :=
  herr ▸ .misfit (.already hd) hno

end Draft

namespace Descent

open Draft (Enters Refuses Step Phase Slot feed_of_step)

variable {text : String} {maxDepth bound : Nat} {path : List Token} {groups : Nat} {p : Point text}
  {name : Token} {slot : Slot} {oc : OpenCall} {outer : List OpenCall}

/-- A point inside `path`, with a draft that has the counter of the state. -/
def Point.At (p : Point text) (path : List Token) (groups : Nat) (phase : Phase) : Prop :=
  ∃ spare s, p = ⟨path, spare, ⟨s.depth, groups, phase⟩, s⟩

theorem isEof_eq_false {t : Token} {k : Token.Kind} (ht : t.kind = k) (hk : k ≠ .eof) : t.isEof = false := by
  rw [Token.isEof, ht]
  cases k <;> first | rfl | exact absurd rfl hk

theorem close_performs {α : Type} {spare groups groups' : Nat} {phase phase' : Phase} {s : State text} {first : Token}
    (hdepth : s.depth ≠ 0) (hk : s.lookahead.kind = .rparen)
    (hstep : Step maxDepth ⟨s.depth, groups, phase⟩ s.lookahead ⟨s.depth - 1, groups', phase'⟩) (a : α) :
    Performs maxDepth ⟨first :: path, spare, ⟨s.depth, groups, phase⟩, s⟩
      (fun _ => do
        let _ ← advance (first :: path)
        leave path
        return a) fun b q => b = a ∧ spare < q.spare ∧ q.At path groups' phase' := by
  refine (advance_performs (isEof_eq_false hk (by simp)) (feed_of_step hstep)).bind ?_
  rintro t q - ⟨-, s₁, rfl, hdepth₁⟩
  refine (leave_performs (by omega)).bind ?_
  rintro - r - ⟨s₂, rfl, hdepth₂, -⟩
  refine .pure ⟨rfl, by dsimp only; omega, spare + 1 + 1, s₂, ?_⟩
  rw [hdepth₂, hdepth₁]

/-! ## Calls -/

/-- The specification of `argument` where an argument is due, the list does not end and less than `bound` is left. -/
def ReadsArguments (text : String) (maxDepth bound : Nat) : Prop :=
  ∀ ⦃p : Point text⦄ ⦃path : List Token⦄ ⦃groups : Nat⦄ ⦃slot : Slot⦄ ⦃oc : OpenCall⦄ ⦃outer : List OpenCall⦄,
    p.At path groups (.arguing slot oc outer) → slot ≠ .filled →
    (slot = .first → p.state.lookahead.kind ≠ .rparen ∧ p.state.lookahead.kind ≠ .eof) → p.state.left < bound →
    Performs maxDepth p (argument maxDepth path) fun arg q =>
      p.spare < q.spare ∧ q.At path groups (.arguing .filled (oc.add arg) outer)

theorem moreArguments_performs (hread : ReadsArguments text maxDepth bound) {name : String} {args : List Argument}
    (hp : p.At path groups (.arguing .filled ⟨name, args⟩ outer)) (hleft : p.state.left ≤ bound) :
    Performs maxDepth p (moreArguments maxDepth path args) fun all q =>
      p.spare ≤ q.spare ∧ q.state.lookahead.kind ≠ .comma ∧
        q.At path groups (.arguing .filled ⟨name, all.reverse⟩ outer) := by
  generalize hn : p.state.left = n
  -- The comma lowers the measure, for the argument and for the recursive call.
  induction n using Nat.strongRecOn generalizing p args with
  | ind n ih =>
    obtain ⟨spare, s, rfl⟩ := hp
    refine .succ ?_
    simp only [moreArguments]
    refine .get_bind (.ite (fun hk => ?_) fun hk => ?_)
    · refine (advance_performs (isEof_eq_false hk (by simp)) (feed_of_step (.comma hk))).bind ?_
      rintro t q hq ⟨-, s', rfl, hdepth⟩
      have hless := hq.left
      dsimp only at hless hn hleft
      rw [← hdepth]
      refine (hread ⟨_, _, rfl⟩ (by simp) (by simp) (by dsimp only; omega)).bind ?_
      rintro arg r hr ⟨hspare, hAt⟩
      obtain ⟨spare', s'', rfl⟩ := hAt
      have hless' := hr.left
      dsimp only at hless' hspare
      refine (ih s''.left (by omega) ⟨_, _, rfl⟩ (by dsimp only; omega) rfl).mono ?_
      rintro all q ⟨hle, hk', hAt⟩
      have hmore : spare ≤ q.spare := Nat.le_trans (Nat.le_of_lt (Nat.lt_of_succ_lt hspare)) hle
      exact ⟨hmore, hk', hAt⟩
    · exact .pure ⟨Nat.le_refl _, hk, spare, s, by rw [List.reverse_reverse]⟩

theorem arguments_performs (hread : ReadsArguments text maxDepth bound) {name : String}
    (hp : p.At path groups (.arguing .first ⟨name, []⟩ outer)) (hleft : p.state.left < bound) :
    Performs maxDepth p (arguments maxDepth path) fun args q =>
      p.spare ≤ q.spare ∧ ∃ slot, q.At path groups (.arguing slot ⟨name, args.reverse⟩ outer) ∧
        (slot = .first ∧ (q.state.lookahead.kind = .rparen ∨ q.state.lookahead.kind = .eof) ∨
          slot = .filled ∧ q.state.lookahead.kind ≠ .comma) := by
  obtain ⟨spare, s, rfl⟩ := hp
  refine .succ ?_
  simp only [arguments]
  refine .get_bind (.ite (fun hk => ?_) fun hk => ?_)
  · exact .pure ⟨Nat.le_refl _, .first, ⟨_, _, rfl⟩, .inl ⟨rfl, hk⟩⟩
  · refine (hread ⟨_, _, rfl⟩ (by simp) (fun _ => not_or.1 hk) hleft).bind ?_
    rintro arg q hq ⟨hspare, hAt⟩
    have hless := hq.left
    obtain ⟨spare', s', rfl⟩ := hAt
    dsimp only at hspare hless
    refine (moreArguments_performs hread ⟨_, _, rfl⟩ (by dsimp only at hleft ⊢; omega)).mono ?_
    rintro all r ⟨hle, hk', hAt⟩
    exact ⟨by dsimp only at hle ⊢; omega, .filled, hAt, .inr ⟨rfl, hk'⟩⟩

/-- The lookahead behind the arguments closes the call or is refused. -/
theorem refuses_behind_arguments {depth : Nat} {t : Token}
    (hslot : slot = .first ∧ (t.kind = .rparen ∨ t.kind = .eof) ∨ slot = .filled ∧ t.kind ≠ .comma)
    (hk : t.kind ≠ .rparen) :
    Refuses maxDepth ⟨depth, groups, .arguing slot oc outer⟩ t (.grammar (.unclosedCall t oc.name)) := by
  rcases hslot with ⟨rfl, hend⟩ | ⟨rfl, hcomma⟩
  · have hkind := hend.resolve_left hk
    have heof : t.isEof = true := Token.isEof_iff.2 hkind
    refine .of_misfit (by simp) (fun _ _ hstep => ?_) (by simp [Draft.refusal, heof])
    cases hstep with
    | name _ ht | literal _ ht | closeCall _ ht => cases hkind.symm.trans ht
  · refine .of_misfit (by simp) (fun _ _ hstep => ?_) rfl
    cases hstep with
    | name hphase _ =>
      cases hphase with
      | argument hslot => exact hslot rfl
    | literal hslot _ => exact hslot rfl
    | comma ht => exact hcomma ht
    | closeCall _ ht => exact hk ht

theorem finishCall_performs (hread : ReadsArguments text maxDepth bound)
    (hp : p.At path groups (.naming name outer)) (hspare : 0 < p.spare) (hleft : p.state.left ≤ bound) :
    Performs maxDepth p (finishCall maxDepth path name) fun c q =>
      p.spare < q.spare ∧ q.At path groups (.afterCall c outer) := by
  obtain ⟨spare, s, rfl⟩ := hp
  obtain ⟨spare, rfl⟩ := Nat.exists_eq_add_of_lt hspare
  refine .succ ?_
  simp only [finishCall]
  refine .get_bind (.ite (fun hk => ?_) fun hk => ?_)
  · refine (enter_performs (fun hlt => .call hlt hk) (fun _ => .already (by simp))).bind ?_
    rintro - q hq ⟨hle, s₁, rfl, hdepth₁, hlookahead₁⟩
    rw [← hlookahead₁] at hk
    refine (advance_performs (isEof_eq_false hk (by simp)) (feed_of_step (.openCall hle hk))).bind ?_
    rintro t r hr ⟨-, s₂, rfl, hdepth₂⟩
    rw [← hdepth₁, ← hdepth₂]
    have hless : s₂.left < s.left := by
      have hq' := hq.left
      have hr' := hr.left
      simp only [List.length_cons] at hq' hr'
      omega
    refine (arguments_performs hread ⟨_, _, rfl⟩ (Nat.lt_of_lt_of_le hless hleft)).bind ?_
    rintro args u hu ⟨hspare₃, slot, ⟨spare₃, s₃, rfl⟩, hslot⟩
    have hdepth₃ : s₃.depth ≠ 0 := by
      have hu' := hu.depth
      simp only [List.length_cons] at hu'
      omega
    dsimp only at hspare₃ hslot
    refine .get_bind (.ite (fun hk => ?_) fun hk => ?_)
    · have hnext : slot ≠ .next := by rcases hslot with ⟨rfl, -⟩ | ⟨rfl, -⟩ <;> simp
      refine (close_performs hdepth₃ hk (.closeCall hnext hk) _).mono ?_
      rintro c q ⟨rfl, hless, hAt⟩
      rw [OpenCall.close, List.reverse_reverse] at hAt
      exact ⟨by omega, hAt⟩
    · exact refuse_performs (refuses_behind_arguments hslot hk) (by simp)
  · refine refuse_performs (.of_misfit (by simp) (fun _ _ hstep => ?_) rfl) (by simp)
    cases hstep with
    | openCall _ ht => exact hk ht
    | name hphase _ => cases hphase

theorem call_performs {phase : Phase} (hread : ReadsArguments text maxDepth bound) (hp : p.At path groups phase)
    (hphase : phase.Awaits outer) (hk : p.state.lookahead.kind = .identifier) (hleft : p.state.left ≤ bound) :
    Performs maxDepth p (call maxDepth path) fun c q =>
      p.spare < q.spare ∧ q.At path groups (.afterCall c outer) := by
  obtain ⟨spare, s, rfl⟩ := hp
  dsimp only at hk hleft
  refine .succ ?_
  simp only [call]
  refine (advance_performs (isEof_eq_false hk (by simp)) (feed_of_step (.name hphase hk))).bind ?_
  rintro name q hq ⟨rfl, s₁, rfl, hdepth₁⟩
  have hless := hq.left
  dsimp only at hless
  rw [← hdepth₁]
  refine (finishCall_performs hread ⟨_, _, rfl⟩ (Nat.succ_pos _) (by dsimp only; omega)).mono ?_
  rintro c r ⟨hspare, hAt⟩
  exact ⟨Nat.lt_of_succ_lt hspare, hAt⟩

theorem ReadsArguments.succ (hread : ReadsArguments text maxDepth bound) :
    ReadsArguments text maxDepth (bound + 1) := by
  rintro p path groups slot oc outer ⟨spare, s, rfl⟩ hslot hfirst hleft
  dsimp only at hfirst hleft
  refine .succ ?_
  simp only [argument]
  refine .get_bind (.ite (fun hk => ?_) fun hliteral => .ite (fun hk => ?_) fun hname => ?_)
  · refine (advance_performs (isEof_eq_false hk (by simp)) (feed_of_step (.literal hslot hk))).bind ?_
    rintro t q - ⟨rfl, s₁, rfl, hdepth₁⟩
    rw [← hdepth₁]
    exact .pure ⟨Nat.lt_succ_self _, _, _, rfl⟩
  · refine (call_performs hread ⟨_, _, rfl⟩ (.argument hslot) hk (Nat.le_of_lt_succ hleft)).bind ?_
    rintro c q - ⟨hspare, hAt⟩
    exact .pure ⟨hspare, hAt⟩
  · refine refuse_performs (.of_misfit (by simp) (fun _ _ hstep => ?_) ?_) (by simp)
    · cases hstep with
      | name _ ht => exact hname ht
      | literal _ ht => exact hliteral ht
      | comma _ => exact hslot rfl
      | @closeCall _ _ _ _ _ _ hnext ht =>
        cases slot with
        | first => exact (hfirst rfl).1 ht
        | next => exact hnext rfl
        | filled => exact hslot rfl
    · cases slot with
      | first =>
        have heof : s.lookahead.isEof = false := by simpa [Token.isEof] using (hfirst rfl).2
        simp [Draft.refusal, heof]
      | next => rfl
      | filled => exact absurd rfl hslot

theorem readsArguments (text : String) (maxDepth bound : Nat) : ReadsArguments text maxDepth bound := by
  induction bound with
  | zero => exact fun _ _ _ _ _ _ _ _ _ hleft => absurd hleft (Nat.not_lt_zero _)
  | succ bound ih => exact ih.succ

/-! ## Expressions -/

theorem finishGroup_performs {first : Token} (hp : p.At path groups (.opening (some first.position)))
    (hspare : 0 < p.spare)
    (hread : ∀ q : Point text, q.state.left ≤ p.state.left → q.At (first :: path) (groups + 1) (.opening none) →
      Performs maxDepth q (expression maxDepth (first :: path)) fun c r =>
        q.spare < r.spare ∧ r.At (first :: path) (groups + 1) (.complete c)) :
    Performs maxDepth p (finishGroup maxDepth path first) fun c q =>
      p.spare < q.spare ∧ q.At path groups (.complete c) := by
  obtain ⟨spare, s, rfl⟩ := hp
  obtain ⟨spare, rfl⟩ := Nat.exists_eq_add_of_lt hspare
  refine .succ ?_
  simp only [finishGroup]
  refine (enter_performs (fun hlt => .group hlt) (fun hle => .group hle)).bind ?_
  rintro - q hq ⟨hle, s₁, rfl, hdepth₁, hlookahead₁⟩
  have hless := hq.left
  simp only [List.length_cons] at hless
  rw [← hdepth₁]
  refine (hread _ (by dsimp only; omega) ⟨_, _, rfl⟩).bind ?_
  rintro c r hr ⟨hspare₂, spare₂, s₂, rfl⟩
  have hdepth₂ : s₂.depth ≠ 0 := by
    have hr' := hr.depth
    simp only [List.length_cons] at hr'
    omega
  dsimp only at hspare₂
  refine .get_bind (.ite (fun hk => ?_) fun hk => ?_)
  · refine (close_performs hdepth₂ hk (.closeGroup (Nat.succ_ne_zero _) hk) _).mono ?_
    rintro c q ⟨rfl, hless, hAt⟩
    exact ⟨by omega, hAt⟩
  · have hno : ∀ maxDepth' d', ¬ Step maxDepth' ⟨s₂.depth, groups + 1, .complete c⟩ s₂.lookahead d' := by
      intro _ _ hstep
      cases hstep with
      | name hphase _ => cases hphase
      | closeGroup _ ht => exact hk ht
    refine .ite (fun hlogical => ?_) fun hlogical => ?_
    · exact refuse_performs (.of_misfit (by simp) hno (by simp [Draft.refusal, hlogical])) (by simp)
    · exact refuse_performs (.of_misfit (by simp) hno (by simp [Draft.refusal, hlogical])) (by simp)

theorem expression_performs (hp : p.At path groups (.opening none)) :
    Performs maxDepth p (expression maxDepth path) fun c q => p.spare < q.spare ∧ q.At path groups (.complete c) := by
  generalize hn : p.state.left = n
  -- The parenthesis of a group lowers the measure.
  induction n using Nat.strongRecOn generalizing p path groups with
  | ind n ih =>
    obtain ⟨spare, s, rfl⟩ := hp
    refine .succ ?_
    simp only [expression]
    dsimp only at hn
    refine .get_bind (.ite (fun hk => ?_) fun hlparen => .ite (fun hk => ?_) fun hname => ?_)
    · refine .succ ?_
      simp only [group]
      refine (advance_performs (isEof_eq_false hk (by simp)) (feed_of_step (.openGroup hk))).bind ?_
      rintro first q hq ⟨rfl, s₁, rfl, hdepth₁⟩
      have hless := hq.left
      dsimp only at hless
      rw [← hdepth₁]
      refine (finishGroup_performs ⟨_, _, rfl⟩ (Nat.succ_pos _) fun q hq hAt => ?_).mono ?_
      · exact ih _ (by dsimp only at hq; omega) hAt rfl
      · rintro c r ⟨hspare, hAt⟩
        exact ⟨Nat.lt_of_succ_lt hspare, hAt⟩
    · exact call_performs (readsArguments text maxDepth _) ⟨_, _, rfl⟩ .expression hk (Nat.le_refl _)
    · refine refuse_performs (.of_misfit (by simp) (fun _ _ hstep => ?_) rfl) (by simp)
      cases hstep with
      | openGroup ht => exact hlparen ht
      | name _ ht => exact hname ht

/-! ## Whole texts -/

theorem program_performs (maxDepth : Nat) (hp : p.At [] 0 (.opening none)) :
    Performs maxDepth p (program maxDepth) fun program q =>
      q.resume maxDepth = ⟨.ok program, q.state.taken.reverse, q.state.cursor⟩ := by
  unfold program
  refine (expression_performs hp).bind ?_
  rintro c q - ⟨-, spare, s, rfl⟩
  refine .get_bind (.ite (fun heof => ?_) fun heof => ?_)
  · exact .pure (Draft.resume_of_whole heof rfl rfl)
  · have hno : ∀ maxDepth' d', ¬ Step maxDepth' ⟨s.depth, 0, .complete c⟩ s.lookahead d' :=
      fun _ _ hstep => hstep.groups_ne_zero rfl rfl
    refine .ite (fun hlogical => ?_) fun hlogical => ?_
    · exact refuse_performs (.of_misfit (by simp) hno (by simp [Draft.refusal, hlogical])) (absurd · heof)
    · exact refuse_performs (.of_misfit (by simp) hno (by simp [Draft.refusal, hlogical])) (absurd · heof)

/-- The call of `advance` that primes the lookahead establishes the invariant, or fails. -/
theorem advance_first (text : String) (maxDepth : Nat) :
    (∃ t s, advance [] (.start text) = some (.ok t, s) ∧ s.depth = 0 ∧
        (⟨[], 0, .empty, s⟩ : Point text).Keeps maxDepth ∧
        Draft.empty.read maxDepth [] (.start text) = (⟨[], 0, .empty, s⟩ : Point text).resume maxDepth) ∨
      ∃ e s, advance [] (.start text) = some (.error (.refused (.lexical e)), s) ∧
        s.Ended maxDepth (some (.refused (.lexical e))) ∧
        Draft.empty.read maxDepth [] (.start text) = ⟨.error (.lexical e), s.taken.reverse, s.cursor⟩ := by
  have hrun := advance_run [] (State.start text)
  have hread := Draft.read_eq_next maxDepth [] .empty (Cursor.start text)
  have hsnapshots : ∀ lexed, ∀ n ∈ [(⟨[], 0, lexed⟩ : Snapshot), ⟨[], 0, 0⟩],
      n.path.length ≤ n.lexed ∧ n.depth ≤ maxDepth := by
    intro lexed n hn
    simp only [List.mem_cons, List.not_mem_nil, or_false] at hn
    rcases hn with rfl | rfl <;> exact ⟨Nat.zero_le _, Nat.zero_le _⟩
  rcases hnext : (Cursor.start text).next with ⟨err | t, c⟩
  · rw [show (State.start text).cursor.next = _ from hnext] at hrun
    rw [hnext] at hread
    refine .inr ⟨err, _, hrun, ?_, hread⟩
    refine ⟨⟨[], (State.Traced.start text).failed c⟩, by rintro t ⟨⟩, Nat.le_add_left 1 _,
      fun hno => absurd rfl (hno err), fun _ _ => rfl, fun n hn => (hsnapshots 0 n hn).1, fun n hn => ?_,
      fun n hn => ?_⟩
    · exact (hsnapshots 0 n (List.mem_of_mem_tail hn)).2
    · exact .inl (hsnapshots 0 n (List.mem_of_mem_head? hn)).2
  · rw [show (State.start text).cursor.next = _ from hnext] at hrun
    rw [hnext] at hread
    refine .inl ⟨_, _, hrun, rfl, ?_, hread⟩
    have hlength : (Cursor.start text).remaining.length = text.length := by
      rw [Cursor.remaining_start, String.length_toList]
    have hforward : [Token.endOfInput 0] ≠ [] ∧ ∀ t ∈ [Token.endOfInput 0].dropLast, t.isEof = false :=
      ⟨by simp, by simp⟩
    refine ⟨(State.Traced.start text).advanced c t, Nat.zero_le _, Nat.zero_lt_one, rfl, hforward, ?_, hsnapshots 1,
      fun heof => ?_⟩
    · show 1 + (c.remaining.length + if t.isEof then 0 else 1) ≤ text.length + 1
      have hle := Cursor.length_le_of_next hnext
      omega
    · rcases Cursor.next_eq_ok hnext with ⟨hno, -⟩ | ⟨rfl, -⟩
      · cases hno.symm.trans heof
      · rfl

/-- A text that is too long is not scanned. -/
theorem ended_start (text : String) (maxDepth length maxInputLen : Nat) :
    (State.start text).Ended maxDepth (some (.refused (.inputTooLong length maxInputLen))) where
  traced := ⟨[], .start text⟩
  forward := by rintro t ⟨⟩
  bound := Nat.zero_le _
  asked _ := rfl
  failed e he := by cases he
  lexed := List.forall_mem_singleton.2 (Nat.zero_le _)
  within := by rintro n ⟨⟩
  last := by
    rintro n ⟨⟩
    exact .inl (Nat.zero_le _)

def stop? {α : Type} : Except Stop α → Option Stop
  | .ok _ => none
  | .error stop => some stop

/-- The descent terminates with the outcome, the tokens and the cursor of `Reading.of`, unless the text has as many
characters as `countBound`. -/
theorem parse_terminates (limits : Limits) (text : String) :
    ∃ outcome s, Terminates (parse limits) (.start text) outcome s ∧ s.Ended limits.maxDepth (stop? outcome) ∧
      (outcome = .error .outOfRange ∧ countBound ≤ text.length ∨
        ∃ result, outcome = result.mapError .refused ∧
          Reading.of limits text = ⟨result, s.taken.reverse, s.cursor⟩) := by
  unfold parse Reading.of
  by_cases hlen : limits.maxInputLen < text.length
  · simp only [if_pos hlen]
    exact ⟨_, _, .of_run rfl, ended_start text _ _ _, .inr ⟨_, rfl, rfl⟩⟩
  · simp only [if_neg hlen]
    rcases advance_first text limits.maxDepth with ⟨t, s, hrun, hdepth, hkeeps, hread⟩ | ⟨e, s, hrun, hended, hread⟩
    · rw [hread]
      have hp : (⟨[], 0, .empty, s⟩ : Point text).At [] 0 (.opening none) := ⟨0, s, by rw [hdepth]; rfl⟩
      rcases program_performs limits.maxDepth hp with ⟨program, q, hrun', hq, hq'⟩ | ⟨stop, s', hrun', hs⟩
      · exact ⟨_, _, (Terminates.of_run hrun).bind hrun', (hq.keeps hkeeps).ended (by simp [stop?]),
          .inr ⟨.ok program, rfl, (hq.resume hkeeps).trans hq'⟩⟩
      · refine ⟨_, _, (Terminates.of_run hrun).bind hrun', hs.ended hkeeps, ?_⟩
        cases stop with
        | refused e => exact .inr ⟨.error e, rfl, hs.refused hkeeps e rfl⟩
        | outOfRange => exact .inl ⟨rfl, hs.outOfRange hkeeps rfl⟩
    · rw [hread]
      exact ⟨_, _, (Terminates.of_run hrun).bind_error, hended, .inr ⟨_, rfl, rfl⟩⟩

end Descent

end FilterLang
