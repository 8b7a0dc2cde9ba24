import FilterLang.Draft
import Mathlib.Tactic.SplitIfs

/-!
# The transition relation of drafts

`Draft.accept`, `Draft.feed` and `Draft.finish` are unfolded in this module only.

* `Phase.Awaits`, `Phase.afterCall` : the phases before and after a call inside the open calls `outer`;
* `Enters`, `Step` : the transitions of `enterGroup` and `accept` as inductive relations
  (`feed_eq_ok_iff`);
* `Refuses` : the errors (`feed_eq_error_iff`); `feed_eq_grammar` : a grammar error depends on the kind
  of the token only, and not on the limit;
* `finish_eq_ok_iff`, `finish_eq_error_iff`, `finish_of_step` : the end of the input;
* `Step.mono`, `feed_mono` : monotonicity in `maxDepth`;
* `feedAll` : the transitions by a list of tokens (`feedAll_mono`, `feedAll_of_misfit`).
-/

namespace FilterLang

theorem bind_eq_ok_iff {ε α β : Type} {x : Except ε α} {f : α → Except ε β} {b : β} :
    (x >>= f) = .ok b ↔ ∃ a, x = .ok a ∧ f a = .ok b := by
  cases x <;> simp [bind, Except.bind]

theorem bind_eq_error_iff {ε α β : Type} {x : Except ε α} {f : α → Except ε β} {e : ε} :
    (x >>= f) = .error e ↔ x = .error e ∨ ∃ a, x = .ok a ∧ f a = .error e := by
  cases x <;> simp [bind, Except.bind]

namespace Draft

variable {maxDepth maxDepth' : Nat} {d d' e : Draft} {t u : Token} {ts us : List Token}

/-! ## One token -/

/-- The phases in which a call may begin, inside the open calls `outer`. -/
inductive Phase.Awaits : Phase → List OpenCall → Prop
  | expression : Awaits (.opening none) []
  | argument {slot : Slot} {call : OpenCall} {outer : List OpenCall} (hslot : slot ≠ .filled) :
      Awaits (.arguing slot call outer) (call :: outer)

/-- The phase behind the call `c` inside the open calls `outer`. -/
def Phase.afterCall (c : Call) : List OpenCall → Phase
  | [] => .complete c
  | call :: outer => .arguing .filled (call.add (.call c)) outer

/-- The transition of `enterGroup`. -/
inductive Enters (maxDepth : Nat) : Draft → Draft → Prop
  | group {depth groups position : Nat} (hdepth : depth + 1 ≤ maxDepth) :
      Enters maxDepth ⟨depth, groups, .opening (some position)⟩
        ⟨depth + 1, groups + 1, .opening none⟩
  | already {d : Draft} (hd : ∀ position, d.phase ≠ .opening (some position)) :
      Enters maxDepth d d

/-- The transitions of `accept`, where every opened group is entered. -/
inductive Step (maxDepth : Nat) : Draft → Token → Draft → Prop
  | openGroup {depth groups : Nat} {t : Token} (ht : t.kind = .lparen) :
      Step maxDepth ⟨depth, groups, .opening none⟩ t ⟨depth, groups, .opening (some t.position)⟩
  | name {depth groups : Nat} {phase : Phase} {outer : List OpenCall} {t : Token}
      (hphase : phase.Awaits outer) (ht : t.kind = .identifier) :
      Step maxDepth ⟨depth, groups, phase⟩ t ⟨depth, groups, .naming t outer⟩
  | openCall {depth groups : Nat} {name : Token} {outer : List OpenCall} {t : Token}
      (hdepth : depth + 1 ≤ maxDepth) (ht : t.kind = .lparen) :
      Step maxDepth ⟨depth, groups, .naming name outer⟩ t
        ⟨depth + 1, groups, .arguing .first ⟨name.value, []⟩ outer⟩
  | literal {depth groups : Nat} {slot : Slot} {call : OpenCall} {outer : List OpenCall} {t : Token}
      (hslot : slot ≠ .filled) (ht : t.kind = .stringLiteral) :
      Step maxDepth ⟨depth, groups, .arguing slot call outer⟩ t
        ⟨depth, groups, .arguing .filled (call.add (.literal ⟨t.value⟩)) outer⟩
  | comma {depth groups : Nat} {call : OpenCall} {outer : List OpenCall} {t : Token}
      (ht : t.kind = .comma) :
      Step maxDepth ⟨depth, groups, .arguing .filled call outer⟩ t
        ⟨depth, groups, .arguing .next call outer⟩
  | closeCall {depth groups : Nat} {slot : Slot} {call : OpenCall} {outer : List OpenCall}
      {t : Token} (hslot : slot ≠ .next) (ht : t.kind = .rparen) :
      Step maxDepth ⟨depth, groups, .arguing slot call outer⟩ t
        ⟨depth - 1, groups, .afterCall call.close outer⟩
  | closeGroup {depth groups : Nat} {call : Call} {t : Token} (hgroups : groups ≠ 0)
      (ht : t.kind = .rparen) :
      Step maxDepth ⟨depth, groups, .complete call⟩ t ⟨depth - 1, groups - 1, .complete call⟩

/-- The errors of `feed`: a limit, or a token with no transition under any limit. -/
inductive Refuses (maxDepth : Nat) : Draft → Token → ParseError → Prop
  | group {depth groups position : Nat} {t : Token} (hdepth : maxDepth < depth + 1) :
      Refuses maxDepth ⟨depth, groups, .opening (some position)⟩ t
        (.nestingTooDeep maxDepth position)
  | call {depth groups : Nat} {name : Token} {outer : List OpenCall} {t : Token}
      (hdepth : maxDepth < depth + 1) (ht : t.kind = .lparen) :
      Refuses maxDepth ⟨depth, groups, .naming name outer⟩ t
        (.nestingTooDeep maxDepth name.position)
  | misfit {d e : Draft} {t : Token} (he : Enters maxDepth d e)
      (hno : ∀ maxDepth' d', ¬ Step maxDepth' e t d') :
      Refuses maxDepth d t (.grammar (e.refusal t))

theorem closeCall_eq (d : Draft) (call : OpenCall) (outer : List OpenCall) :
    d.closeCall call outer = ⟨d.depth - 1, d.groups, .afterCall call.close outer⟩ := by
  cases outer <;> rfl

theorem enterGroup_eq_ok_iff : d.enterGroup maxDepth = .ok e ↔ Enters maxDepth d e := by
  obtain ⟨depth, groups, phase⟩ := d
  constructor
  · intro h
    unfold enterGroup at h
    split at h
    · next position hphase =>
      obtain rfl : phase = .opening (some position) := hphase
      unfold enter at h
      split at h
      · next hdepth =>
        cases h
        exact .group hdepth
      · cases h
    · next hphase =>
      cases h
      exact .already hphase
  · rintro (⟨hdepth⟩ | ⟨hd⟩)
    · simp [enterGroup, enter, hdepth, Except.map]
    · unfold enterGroup
      split
      · next position hphase => exact absurd hphase (hd position)
      · rfl

theorem Enters.settled (h : Enters maxDepth d e) (position : Nat) :
    e.phase ≠ .opening (some position) := by
  cases h with
  | group _ => simp
  | already hd => exact hd position

theorem accept_eq_ok_iff (hd : ∀ position, d.phase ≠ .opening (some position)) :
    d.accept maxDepth t = .ok d' ↔ Step maxDepth d t d' := by
  obtain ⟨depth, groups, phase⟩ := d
  constructor
  · intro h
    unfold accept at h
    dsimp only at h hd
    split at h
    · next pending ht =>
      cases h
      cases pending with
      | none => exact .openGroup ht
      | some position => exact absurd rfl (hd position)
    · next pending ht =>
      cases h
      cases pending with
      | none => exact .name .expression ht
      | some position => exact absurd rfl (hd position)
    · next name outer ht =>
      unfold enter at h
      split at h
      · next hdepth =>
        cases h
        exact .openCall hdepth ht
      · cases h
    · next call outer ht =>
      cases h
      rw [closeCall_eq]
      exact .closeCall (by simp) ht
    · next call outer ht =>
      cases h
      rw [closeCall_eq]
      exact .closeCall (by simp) ht
    · next call outer ht =>
      cases h
      exact .comma ht
    · cases h
    · next slot call outer hslot ht =>
      cases h
      exact .literal (by simpa using hslot) ht
    · next slot call outer hslot ht =>
      cases h
      exact .name (.argument (by simpa using hslot)) ht
    · next call ht =>
      split at h
      · cases h
      · next hgroups =>
        cases h
        exact .closeGroup hgroups ht
    · cases h
  · intro h
    cases h with
    | openGroup ht => simp [accept, ht]
    | name hphase ht =>
      cases hphase with
      | expression => simp [accept, ht]
      | @argument slot call outer hslot => cases slot <;> simp_all [accept]
    | openCall hdepth ht => simp [accept, ht, enter, hdepth, Except.map]
    | @literal _ _ slot call outer t hslot ht => cases slot <;> simp_all [accept]
    | comma ht => simp [accept, ht]
    | @closeCall _ _ slot call outer t hslot ht => cases slot <;> simp_all [accept, closeCall_eq]
    | closeGroup hgroups ht => simp [accept, ht, hgroups]

/-- Inversion of `feed` on success. -/
theorem feed_eq_ok_iff :
    d.feed maxDepth t = .ok d' ↔ ∃ e, Enters maxDepth d e ∧ Step maxDepth e t d' := by
  rw [feed, bind_eq_ok_iff]
  refine exists_congr fun e => ?_
  rw [enterGroup_eq_ok_iff]
  exact and_congr_right fun he => accept_eq_ok_iff he.settled

theorem Enters.unique (h : Enters maxDepth d e) (h' : Enters maxDepth' d d') : e = d' := by
  cases h with
  | group _ =>
    cases h' with
    | group _ => rfl
    | already hd => exact absurd rfl (hd _)
  | already hd =>
    cases h' with
    | group _ => exact absurd rfl (hd _)
    | already _ => rfl

theorem Enters.mono (hle : maxDepth ≤ maxDepth') (h : Enters maxDepth d e) :
    Enters maxDepth' d e := by
  cases h with
  | group hdepth => exact .group (by omega)
  | already hd => exact .already hd

/-- The limit matters only where a call is opened. -/
theorem Step.of_callDepth (h : Step maxDepth d t d')
    (hcall : t.kind = .lparen → ∀ name outer, d.phase = .naming name outer →
      d.depth + 1 ≤ maxDepth') : Step maxDepth' d t d' := by
  cases h with
  | openGroup ht => exact .openGroup ht
  | name hphase ht => exact .name hphase ht
  | openCall _ ht => exact .openCall (hcall ht _ _ rfl) ht
  | literal hslot ht => exact .literal hslot ht
  | comma ht => exact .comma ht
  | closeCall hslot ht => exact .closeCall hslot ht
  | closeGroup hgroups ht => exact .closeGroup hgroups ht

theorem Step.mono (hle : maxDepth ≤ maxDepth') (h : Step maxDepth d t d') :
    Step maxDepth' d t d' := by
  refine h.of_callDepth fun ht name outer hphase => ?_
  cases h with
  | openCall hdepth _ => exact Nat.le_trans hdepth hle
  | name hawaits _ =>
    obtain rfl := hphase
    cases hawaits
  | _ => cases hphase

theorem Step.settled (h : Step maxDepth d t d') (position : Nat) :
    d.phase ≠ .opening (some position) := by
  cases h with
  | name hphase _ => cases hphase <;> simp
  | _ => simp

theorem Step.exists_openCall (h : Step maxDepth d t d') (ht : t.kind = .identifier) :
    ∃ maxDepth' u e, Step maxDepth' d' u e := by
  have hne : ∀ {k : Token.Kind}, t.kind = k → k ≠ .identifier → False := by
    intro k hk hne
    exact hne (hk.symm.trans ht)
  cases h with
  | @name depth groups _ outer t _ _ =>
    let paren : Token := ⟨.lparen, "(", 0⟩
    have hparen : Step (depth + 1) ⟨depth, groups, .naming t outer⟩ paren _ :=
      .openCall (Nat.le_refl _) rfl
    exact ⟨_, paren, _, hparen⟩
  | openGroup hk | openCall _ hk | literal _ hk | comma hk | closeCall _ hk | closeGroup _ hk =>
    exact (hne hk (by simp)).elim

theorem Step.groups_ne_zero {c : Call} (h : Step maxDepth d t d') (hphase : d.phase = .complete c) :
    d.groups ≠ 0 := by
  cases h with
  | name hawaits _ =>
    obtain rfl := hphase
    cases hawaits
  | closeGroup hgroups _ => exact hgroups
  | _ => cases hphase

theorem Step.of_kind (h : Step maxDepth d t d') (hu : u.kind = t.kind) :
    ∃ e, Step maxDepth d u e := by
  cases h with
  | openGroup ht => exact ⟨_, .openGroup (hu.trans ht)⟩
  | name hphase ht => exact ⟨_, .name hphase (hu.trans ht)⟩
  | openCall hdepth ht => exact ⟨_, .openCall hdepth (hu.trans ht)⟩
  | literal hslot ht => exact ⟨_, .literal hslot (hu.trans ht)⟩
  | comma ht => exact ⟨_, .comma (hu.trans ht)⟩
  | closeCall hslot ht => exact ⟨_, .closeCall hslot (hu.trans ht)⟩
  | closeGroup hgroups ht => exact ⟨_, .closeGroup hgroups (hu.trans ht)⟩

theorem feed_mono (hle : maxDepth ≤ maxDepth') (h : d.feed maxDepth t = .ok d') :
    d.feed maxDepth' t = .ok d' := by
  obtain ⟨e, he, hstep⟩ := feed_eq_ok_iff.1 h
  exact feed_eq_ok_iff.2 ⟨e, he.mono hle, hstep.mono hle⟩

/-! ## Refusals -/

@[simp] theorem refusal_token (d : Draft) (t : Token) : (d.refusal t).token = t := by
  unfold refusal
  split
  · rfl
  · rfl
  · split <;> rfl
  · rfl
  · rfl
  · split_ifs <;> rfl

theorem enterGroup_eq_error {err : ParseError} (h : d.enterGroup maxDepth = .error err) :
    ∃ position, d.phase = .opening (some position) ∧ maxDepth < d.depth + 1 ∧
      err = .nestingTooDeep maxDepth position := by
  unfold enterGroup at h
  split at h
  · next position hphase =>
    unfold enter at h
    split at h
    · cases h
    · next hdepth =>
      cases h
      exact ⟨position, hphase, Nat.lt_of_not_le hdepth, rfl⟩
  · cases h

theorem accept_eq_error {err : ParseError} (h : d.accept maxDepth t = .error err) :
    err = .grammar (d.refusal t) ∨ ∃ name outer, d.phase = .naming name outer ∧ t.kind = .lparen ∧
      maxDepth < d.depth + 1 ∧ err = .nestingTooDeep maxDepth name.position := by
  unfold accept at h
  split at h
  case h_3 name outer hphase ht =>
    unfold enter at h
    split at h
    · cases h
    · next hdepth =>
      cases h
      exact .inr ⟨name, outer, hphase, ht, Nat.lt_of_not_le hdepth, rfl⟩
  all_goals (try split at h) <;> cases h
  all_goals exact .inl rfl

theorem not_step_of_accept {err : GrammarError} (h : d.accept maxDepth t = .error (.grammar err)) :
    ¬ Step maxDepth' d t d' := by
  intro hstep
  cases hstep with
  | openGroup ht => simp [accept, ht] at h
  | name hphase ht =>
    cases hphase with
    | expression => simp [accept, ht] at h
    | @argument slot call outer hslot => cases slot <;> simp_all [accept]
  | openCall hdepth ht =>
    simp only [accept, ht, enter] at h
    split at h <;> cases h
  | @literal _ _ slot call outer t hslot ht => cases slot <;> simp_all [accept]
  | comma ht => simp [accept, ht] at h
  | @closeCall _ _ slot call outer t hslot ht => cases slot <;> simp_all [accept]
  | closeGroup hgroups ht => simp [accept, ht, hgroups] at h

/-- Inversion of `feed` on failure. -/
theorem feed_eq_error_iff {err : ParseError} :
    d.feed maxDepth t = .error err ↔ Refuses maxDepth d t err := by
  unfold feed
  constructor
  · intro h
    rcases bind_eq_error_iff.1 h with h | ⟨e, he, h⟩
    · obtain ⟨depth, groups, phase⟩ := d
      obtain ⟨position, rfl, hdepth, rfl⟩ := enterGroup_eq_error h
      exact .group hdepth
    have he := enterGroup_eq_ok_iff.1 he
    rcases accept_eq_error h with rfl | ⟨name, outer, hphase, ht, hdepth, rfl⟩
    · exact .misfit he fun _ _ => not_step_of_accept h
    · obtain ⟨depth, groups, phase⟩ := e
      obtain rfl : phase = .naming name outer := hphase
      cases he with
      | already _ => exact .call hdepth ht
  · intro h
    cases h with
    | group hdepth => simp [enterGroup, enter, Nat.not_le.2 hdepth, Except.map, bind, Except.bind]
    | call hdepth ht =>
      simp [enterGroup, accept, enter, ht, Nat.not_le.2 hdepth, Except.map, bind, Except.bind]
    | @misfit d e t he hno =>
      refine bind_eq_error_iff.2 (.inr ⟨e, enterGroup_eq_ok_iff.2 he, ?_⟩)
      cases h : e.accept maxDepth t with
      | ok d' => exact absurd ((accept_eq_ok_iff he.settled).1 h) (hno _ d')
      | error err =>
        rcases accept_eq_error h with rfl | ⟨name, outer, hphase, ht, -, -⟩
        · rfl
        · -- A call that is too deep under this limit would fit under a higher one.
          obtain ⟨depth, groups, phase⟩ := e
          obtain rfl : phase = .naming name outer := hphase
          exact absurd (.openCall (Nat.le_refl _) ht) (hno (depth + 1) _)

/-- A grammar error carries the refused token, and no token of its kind is accepted under any limit. -/
theorem feed_eq_grammar {err : GrammarError} (h : d.feed maxDepth t = .error (.grammar err)) :
    err.token = t ∧ ∀ maxDepth' u d', u.kind = t.kind → d.feed maxDepth' u ≠ .ok d' := by
  cases feed_eq_error_iff.1 h with
  | @misfit _ e _ he hno =>
    refine ⟨refusal_token e t, fun maxDepth' u d' hu hfeed => ?_⟩
    obtain ⟨e', he', hstep⟩ := feed_eq_ok_iff.1 hfeed
    obtain rfl := he.unique he'
    obtain ⟨d'', hstep'⟩ := hstep.of_kind hu.symm
    exact hno maxDepth' d'' hstep'

/-! ## The end of the input -/

theorem finish_eq_ok_iff {position : Nat} {p : Program} :
    d.finish maxDepth position = .ok p ↔
      d.phase = .complete p.expression ∧ d.groups = 0 := by
  obtain ⟨depth, groups, phase⟩ := d
  obtain ⟨c⟩ := p
  rw [finish, bind_eq_ok_iff]
  constructor
  · rintro ⟨e, he, h⟩
    cases enterGroup_eq_ok_iff.1 he with
    | group _ => cases h
    | already _ =>
      split at h
      · next call hphase hgroups =>
        cases h
        exact ⟨hphase, hgroups⟩
      · cases h
  · rintro ⟨rfl, rfl⟩
    exact ⟨_, enterGroup_eq_ok_iff.2 (.already (by simp)), rfl⟩

theorem accept_endOfInput (maxDepth : Nat) (d : Draft) (position : Nat) :
    d.accept maxDepth (.endOfInput position) =
      .error (.grammar (d.refusal (.endOfInput position))) := by
  have hkind : (Token.endOfInput position).kind = .eof := rfl
  unfold accept
  rw [hkind]
  split <;> first | rfl | contradiction

/-- On an incomplete draft `finish` fails as `feed` does on `Eof`. -/
theorem finish_eq_error_iff {position : Nat} {err : ParseError} :
    d.finish maxDepth position = .error err ↔
      d.feed maxDepth (.endOfInput position) = .error err ∧
        ¬ ∃ c, d.phase = .complete c ∧ d.groups = 0 := by
  unfold finish feed
  simp only [bind_eq_error_iff, accept_endOfInput]
  constructor
  · rintro (h | ⟨e, he, h⟩)
    · refine ⟨.inl h, ?_⟩
      rintro ⟨c, hphase, -⟩
      obtain ⟨p, hopening, -⟩ := enterGroup_eq_error h
      rw [hphase] at hopening
      cases hopening
    · split at h
      · cases h
      next hnot =>
      refine ⟨.inr ⟨e, he, congrArg _ (Except.error.inj h)⟩, ?_⟩
      rintro ⟨c, hphase, hgroups⟩
      cases enterGroup_eq_ok_iff.1 he with
      | group _ => cases hphase
      | already _ => exact hnot c hphase hgroups
  · rintro ⟨h | ⟨e, he, h⟩, hnot⟩
    · exact .inl h
    · refine .inr ⟨e, he, ?_⟩
      split
      · next c hphase hgroups =>
        cases enterGroup_eq_ok_iff.1 he with
        | group _ => cases hphase
        | already _ => exact absurd ⟨c, hphase, hgroups⟩ hnot
      · exact congrArg _ (Except.error.inj h)

theorem finish_of_step (he : Enters maxDepth d e) (h : Step maxDepth' e t d') (position : Nat) :
    d.finish maxDepth position = .error (.grammar (e.refusal (.endOfInput position))) := by
  refine finish_eq_error_iff.2 ⟨feed_eq_error_iff.2 (.misfit he fun _ _ => ?_), ?_⟩
  · exact not_step_of_accept (accept_endOfInput maxDepth e position)
  · rintro ⟨c, hphase, hgroups⟩
    cases he with
    | group _ => cases hphase
    | already _ => exact h.groups_ne_zero hphase hgroups

theorem refusal_endOfInput_of_step (h : Step maxDepth e t d') (position : Nat) (u : Token) :
    e.refusal (.endOfInput position) ≠ .bareLogicalOperator u ∧
      e.refusal (.endOfInput position) ≠ .trailingInput u := by
  obtain ⟨depth, groups, phase⟩ := e
  unfold refusal
  dsimp only
  split
  · simp
  · simp
  · simp
  · simp
  · simp
  · have hgroups : groups ≠ 0 := h.groups_ne_zero rfl
    have hlogical : (Token.endOfInput position).isLogical = false := rfl
    simp [hgroups, hlogical]

theorem finish_eq_grammar {position : Nat} {err : GrammarError}
    (h : d.finish maxDepth position = .error (.grammar err)) : err.token = .endOfInput position :=
  (feed_eq_grammar (finish_eq_error_iff.1 h).1).1

/-! ## Many tokens -/

/-- A run from `d` by the tokens `ts`. -/
def feedAll (maxDepth : Nat) (d : Draft) (ts : List Token) : Except ParseError Draft :=
  ts.foldlM (feed maxDepth) d

@[simp] theorem feedAll_nil (maxDepth : Nat) (d : Draft) : d.feedAll maxDepth [] = .ok d := rfl

theorem feedAll_cons (maxDepth : Nat) (d : Draft) (t : Token) (ts : List Token) :
    d.feedAll maxDepth (t :: ts) = d.feed maxDepth t >>= fun d => d.feedAll maxDepth ts := rfl

theorem feedAll_append (maxDepth : Nat) (d : Draft) (ts us : List Token) :
    d.feedAll maxDepth (ts ++ us) = d.feedAll maxDepth ts >>= fun d => d.feedAll maxDepth us :=
  List.foldlM_append

theorem feedAll_cons_eq_ok_iff :
    d.feedAll maxDepth (t :: ts) = .ok d' ↔
      ∃ e, d.feed maxDepth t = .ok e ∧ e.feedAll maxDepth ts = .ok d' := by
  rw [feedAll_cons, bind_eq_ok_iff]

theorem feedAll_append_eq_ok_iff :
    d.feedAll maxDepth (ts ++ us) = .ok d' ↔
      ∃ e, d.feedAll maxDepth ts = .ok e ∧ e.feedAll maxDepth us = .ok d' := by
  rw [feedAll_append, bind_eq_ok_iff]

theorem feedAll_concat_eq_ok_iff :
    d.feedAll maxDepth (ts ++ [t]) = .ok d' ↔
      ∃ e, d.feedAll maxDepth ts = .ok e ∧ e.feed maxDepth t = .ok d' := by
  simp only [feedAll_append_eq_ok_iff, feedAll_cons_eq_ok_iff, feedAll_nil, Except.ok.injEq,
    exists_eq_right]

theorem feedAll_mono (hle : maxDepth ≤ maxDepth') (h : d.feedAll maxDepth ts = .ok d') :
    d.feedAll maxDepth' ts = .ok d' := by
  induction ts generalizing d with
  | nil => exact h
  | cons t ts ih =>
    obtain ⟨e, he, hmore⟩ := feedAll_cons_eq_ok_iff.1 h
    exact feedAll_cons_eq_ok_iff.2 ⟨e, feed_mono hle he, ih hmore⟩

/-- The draft behind a run does not depend on the limit. -/
theorem feedAll_unique (h : d.feedAll maxDepth ts = .ok d') (h' : d.feedAll maxDepth' ts = .ok e) :
    d' = e := by
  have h1 := feedAll_mono (Nat.le_max_left maxDepth maxDepth') h
  have h2 := feedAll_mono (Nat.le_max_right maxDepth maxDepth') h'
  exact Except.ok.inj (h1.symm.trans h2)

/-- An error persists whatever follows. -/
theorem feedAll_of_misfit {err : ParseError} (hd : d.feedAll maxDepth ts = .ok e)
    (herr : e.feed maxDepth t = .error err) (us : List Token) :
    d.feedAll maxDepth (ts ++ t :: us) = .error err := by
  rw [feedAll_append, hd]
  show e.feedAll maxDepth (t :: us) = .error err
  rw [feedAll_cons, herr]
  rfl

end Draft

end FilterLang
