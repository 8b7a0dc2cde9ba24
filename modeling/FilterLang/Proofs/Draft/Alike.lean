import FilterLang.Proofs.Draft.Step
import FilterLang.Proofs.Token.Shape
import Mathlib.Data.List.Forall2

/-!
# Drafts up to positions

Transitions do not depend on positions. For a relation `R` between positions:

* `Token.Alike R`, `GrammarError.Alike R`, `ParseError.Alike R` : equality up to positions, which are
  related by `R`;
* `Outcome.Alike R S` : errors that are alike, or values related by `S` (`Outcome.Alike.bind`);
* `Draft.Alike R` : the simulation relation (`Step.alike`, `Refuses.alike`, `feedAll_alike`,
  `finish_alike`).
-/

namespace FilterLang

variable {R : Nat → Nat → Prop} {α β : Type}

/-! ## Equality up to positions -/

/-- Equal kind and value, and positions related by `R`. -/
structure Token.Alike (R : Nat → Nat → Prop) (t u : Token) : Prop where
  shape : u.shape = t.shape
  place : R t.position u.position

/-- The same error with the token `t`. -/
def GrammarError.withToken (t : Token) : GrammarError → GrammarError
  | expectedExpression _ => expectedExpression t
  | expectedOpenParen _ name => expectedOpenParen t name
  | unclosedCall _ name => unclosedCall t name
  | unclosedGroup _ => unclosedGroup t
  | invalidArgument _ => invalidArgument t
  | trailingInput _ => trailingInput t
  | bareLogicalOperator _ => bareLogicalOperator t

structure GrammarError.Alike (R : Nat → Nat → Prop) (e f : GrammarError) : Prop where
  eq : f = e.withToken f.token
  token : e.token.Alike R f.token

/-- Errors with positions. `inputTooLong` has none. -/
inductive ParseError.Alike (R : Nat → Nat → Prop) : ParseError → ParseError → Prop
  | lexical {p q : Nat} (h : R p q) :
      Alike R (.lexical (.unterminatedString p)) (.lexical (.unterminatedString q))
  | grammar {e f : GrammarError} (h : e.Alike R f) : Alike R (.grammar e) (.grammar f)
  | nestingTooDeep {maxDepth p q : Nat} (h : R p q) :
      Alike R (.nestingTooDeep maxDepth p) (.nestingTooDeep maxDepth q)

/-- Both succeed with related values, or both fail with related errors. -/
inductive Outcome.Alike (R : Nat → Nat → Prop) (S : α → α → Prop) :
    Except ParseError α → Except ParseError α → Prop
  | ok {a b : α} (h : S a b) : Alike R S (.ok a) (.ok b)
  | error {e f : ParseError} (h : e.Alike R f) : Alike R S (.error e) (.error f)

/-- Sequencing preserves the relation. -/
theorem Outcome.Alike.bind {S : α → α → Prop} {T : β → β → Prop} {x y : Except ParseError α}
    {f g : α → Except ParseError β} (h : Outcome.Alike R S x y)
    (hfg : ∀ a b, S a b → Outcome.Alike R T (f a) (g b)) :
    Outcome.Alike R T (x >>= f) (y >>= g) := by
  cases h with
  | ok h => exact hfg _ _ h
  | error h => exact .error h

namespace Token.Alike

variable {t u : Token}

theorem symm (h : t.Alike R u) : u.Alike (flip R) t := ⟨h.shape.symm, h.place⟩

theorem kind (h : t.Alike R u) : u.kind = t.kind := congrArg Prod.fst h.shape

theorem value (h : t.Alike R u) : u.value = t.value := congrArg Prod.snd h.shape

theorem isEof (h : t.Alike R u) : u.isEof = t.isEof := by
  unfold Token.isEof
  rw [h.kind]

theorem isLogical (h : t.Alike R u) : u.isLogical = t.isLogical := by
  unfold Token.isLogical
  rw [h.kind, h.value]

theorem endOfInput {p q : Nat} (h : R p q) : (Token.endOfInput p).Alike R (.endOfInput q) :=
  ⟨rfl, h⟩

end Token.Alike

/-! ## Drafts -/

namespace Draft

/-- Drafts equal up to positions related by `R`. -/
inductive Alike (R : Nat → Nat → Prop) : Draft → Draft → Prop
  | opening {depth groups : Nat} :
      Alike R ⟨depth, groups, .opening none⟩ ⟨depth, groups, .opening none⟩
  | entering {depth groups p q : Nat} (h : R p q) :
      Alike R ⟨depth, groups, .opening (some p)⟩ ⟨depth, groups, .opening (some q)⟩
  | naming {depth groups : Nat} {t u : Token} {outer : List OpenCall} (h : t.Alike R u) :
      Alike R ⟨depth, groups, .naming t outer⟩ ⟨depth, groups, .naming u outer⟩
  | arguing {depth groups : Nat} {slot : Slot} {call : OpenCall} {outer : List OpenCall} :
      Alike R ⟨depth, groups, .arguing slot call outer⟩ ⟨depth, groups, .arguing slot call outer⟩
  | complete {depth groups : Nat} {call : Call} :
      Alike R ⟨depth, groups, .complete call⟩ ⟨depth, groups, .complete call⟩

variable {maxDepth : Nat} {d d' e : Draft} {t u : Token} {ts us : List Token}

theorem Alike.symm (h : Alike R d e) : Alike (flip R) e d := by
  cases h with
  | opening => exact .opening
  | entering h => exact .entering h
  | naming h => exact .naming h.symm
  | arguing => exact .arguing
  | complete => exact .complete

theorem Alike.afterCall (depth groups : Nat) (c : Call) (outer : List OpenCall) :
    Alike R ⟨depth, groups, .afterCall c outer⟩ ⟨depth, groups, .afterCall c outer⟩ := by
  cases outer with
  | nil => exact .complete
  | cons call outer => exact .arguing

theorem Enters.alike (h : Enters maxDepth d d') (hd : Alike R d e) :
    ∃ e', Enters maxDepth e e' ∧ Alike R d' e' := by
  cases h with
  | group hdepth =>
    cases hd with
    | entering _ => exact ⟨_, .group hdepth, .opening⟩
  | already hsettled =>
    refine ⟨e, .already fun position hphase => ?_, hd⟩
    cases hd with
    | entering _ => exact hsettled _ rfl
    | _ => cases hphase

/-- Simulation: a step from one draft is matched by a step from the other. -/
theorem Step.alike (h : Step maxDepth d t d') (hd : Alike R d e) (ht : t.Alike R u) :
    ∃ e', Step maxDepth e u e' ∧ Alike R d' e' := by
  have hkind := ht.kind
  cases h with
  | openGroup hk =>
    cases hd with
    | opening => exact ⟨_, .openGroup (hkind.trans hk), .entering ht.place⟩
  | name hphase hk =>
    cases hphase with
    | expression =>
      cases hd with
      | opening => exact ⟨_, .name .expression (hkind.trans hk), .naming ht⟩
    | argument hslot =>
      cases hd with
      | arguing => exact ⟨_, .name (.argument hslot) (hkind.trans hk), .naming ht⟩
  | @openCall depth groups name outer _ hdepth hk =>
    cases hd with
    | @naming _ _ _ name' _ hname =>
      have hstep : Step maxDepth ⟨depth, groups, .naming name' outer⟩ u _ :=
        .openCall hdepth (hkind.trans hk)
      rw [hname.value] at hstep
      exact ⟨_, hstep, .arguing⟩
  | @literal depth groups slot call outer _ hslot hk =>
    cases hd with
    | arguing =>
      have hstep : Step maxDepth ⟨depth, groups, .arguing slot call outer⟩ u _ :=
        .literal hslot (hkind.trans hk)
      rw [ht.value] at hstep
      exact ⟨_, hstep, .arguing⟩
  | comma hk =>
    cases hd with
    | arguing => exact ⟨_, .comma (hkind.trans hk), .arguing⟩
  | closeCall hslot hk =>
    cases hd with
    | arguing => exact ⟨_, .closeCall hslot (hkind.trans hk), .afterCall _ _ _ _⟩
  | closeGroup hgroups hk =>
    cases hd with
    | complete => exact ⟨_, .closeGroup hgroups (hkind.trans hk), .complete⟩

theorem refusal_alike (hd : Alike R d e) (ht : t.Alike R u) :
    (d.refusal t).Alike R (e.refusal u) := by
  have htokens : (d.refusal t).token.Alike R (e.refusal u).token := by
    rwa [refusal_token, refusal_token]
  refine ⟨?_, htokens⟩
  rw [refusal_token]
  unfold refusal
  cases hd with
  | opening | entering _ => rfl
  | naming hname =>
    dsimp only
    rw [hname.value]
    rfl
  | @arguing _ _ slot _ _ =>
    cases slot with
    | first =>
      dsimp only
      rw [ht.isEof]
      split <;> rfl
    | next | filled => rfl
  | complete =>
    dsimp only
    rw [ht.isLogical]
    split_ifs <;> rfl

theorem Refuses.alike {err : ParseError} (h : Refuses maxDepth d t err) (hd : Alike R d e)
    (ht : t.Alike R u) : ∃ err', Refuses maxDepth e u err' ∧ err.Alike R err' := by
  cases h with
  | group hdepth =>
    cases hd with
    | entering hplace => exact ⟨_, .group hdepth, .nestingTooDeep hplace⟩
  | call hdepth hk =>
    cases hd with
    | naming hname =>
      exact ⟨_, .call hdepth (ht.kind.trans hk), .nestingTooDeep hname.place⟩
  | misfit he hno =>
    obtain ⟨e', he', hd'⟩ := he.alike hd
    refine ⟨_, .misfit he' fun maxDepth' f hstep => ?_, .grammar (refusal_alike hd' ht)⟩
    -- What the second draft takes, the first one takes as well.
    obtain ⟨f', hstep', -⟩ := hstep.alike hd'.symm ht.symm
    exact hno maxDepth' f' hstep'

theorem feed_alike (hd : Alike R d e) (ht : t.Alike R u) :
    Outcome.Alike R (Alike R) (d.feed maxDepth t) (e.feed maxDepth u) := by
  cases h : d.feed maxDepth t with
  | ok d' =>
    obtain ⟨d₁, henters, hstep⟩ := feed_eq_ok_iff.1 h
    obtain ⟨e₁, henters', hd₁⟩ := henters.alike hd
    obtain ⟨e', hstep', hd'⟩ := hstep.alike hd₁ ht
    rw [feed_eq_ok_iff.2 ⟨e₁, henters', hstep'⟩]
    exact .ok hd'
  | error err =>
    obtain ⟨err', hrefuses, herr⟩ := (feed_eq_error_iff.1 h).alike hd ht
    rw [feed_eq_error_iff.2 hrefuses]
    exact .error herr

/-- Simulation for a run, by induction on the related lists. -/
theorem feedAll_alike (hts : List.Forall₂ (Token.Alike R) ts us) (hd : Alike R d e) :
    Outcome.Alike R (Alike R) (d.feedAll maxDepth ts) (e.feedAll maxDepth us) := by
  induction hts generalizing d e with
  | nil => exact .ok hd
  | cons ht _ ih =>
    rw [feedAll_cons, feedAll_cons]
    exact (feed_alike hd ht).bind fun _ _ hd' => ih hd'

theorem Alike.isWhole (hd : Alike R d e) {c : Call} (h : d.phase = .complete c ∧ d.groups = 0) :
    e.phase = .complete c ∧ e.groups = 0 := by
  cases hd with
  | complete => exact h
  | _ => cases h.1

theorem finish_alike {p q : Nat} (hd : Alike R d e) (hplace : R p q) :
    Outcome.Alike R Eq (d.finish maxDepth p) (e.finish maxDepth q) := by
  cases h : d.finish maxDepth p with
  | ok program =>
    rw [finish_eq_ok_iff.2 (hd.isWhole (finish_eq_ok_iff.1 h))]
    exact .ok rfl
  | error err =>
    obtain ⟨hfeed, hnot⟩ := finish_eq_error_iff.1 h
    obtain ⟨err', hrefuses, herr⟩ :=
      (feed_eq_error_iff.1 hfeed).alike hd (.endOfInput hplace)
    have hnot' : ¬ ∃ c, e.phase = .complete c ∧ e.groups = 0 :=
      fun ⟨c, hc⟩ => hnot ⟨c, hd.symm.isWhole hc⟩
    rw [finish_eq_error_iff.2 ⟨feed_eq_error_iff.2 hrefuses, hnot'⟩]
    exact .error herr

end Draft

end FilterLang
