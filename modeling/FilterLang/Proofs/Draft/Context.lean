import FilterLang.Proofs.Draft.Step

/-!
# Errors from the context of a token

The error of a refused token, without a draft: from the token before it and the innermost open
parenthesis.

* `openParens before` : the stack of open parentheses behind `before`, each of a call or a group;
* `complaint before t` : the error of `t` behind `before`;
* `Draft.Behind before d` : the invariant between a draft and its tokens (`Behind.step`,
  `feedAll_behind`), so that `Behind.complaint_eq` : `complaint` is `Draft.refusal`.

The tokens `before` are in reverse throughout.
-/

namespace FilterLang

inductive Paren
  | call (name : String)
  | group
  deriving DecidableEq

/-- The construct that a parenthesis behind these tokens opens: a call right behind a name, else a
group. -/
def Paren.opened : List Token → Paren
  | [] => .group
  | last :: _ => if last.kind = .identifier then .call last.value else .group

/-- The open parentheses, innermost first. -/
def openParens : List Token → List Paren
  | [] => []
  | t :: before =>
    match t.kind with
    | .lparen => .opened before :: openParens before
    | .rparen => (openParens before).tail
    | _ => openParens before

/-- The error of `t` from the token before it and the innermost open parenthesis, or `none` where
`before` is not viable. -/
def complaint (before : List Token) (t : Token) : Option GrammarError :=
  match before with
  | [] => some (.expectedExpression t)
  | last :: _ =>
    match last.kind, (openParens before).head? with
    | .identifier, _ => some (.expectedOpenParen t last.value)
    | .comma, _ => some (.invalidArgument t)
    | .lparen, some .group => some (.expectedExpression t)
    | .lparen, some (.call name) =>
      some (if t.isEof then .unclosedCall t name else .invalidArgument t)
    | .stringLiteral, some (.call name) => some (.unclosedCall t name)
    | .rparen, some (.call name) => some (.unclosedCall t name)
    | .rparen, some .group =>
      some (if t.isLogical then .bareLogicalOperator t else .unclosedGroup t)
    | .rparen, none => some (if t.isLogical then .bareLogicalOperator t else .trailingInput t)
    | _, _ => none

theorem openParens_of_ne {t : Token} (hl : t.kind ≠ .lparen) (hr : t.kind ≠ .rparen)
    (before : List Token) : openParens (t :: before) = openParens before := by
  rw [openParens]
  split
  · exact absurd ‹_› hl
  · exact absurd ‹_› hr
  · rfl

theorem openParens_lparen {t : Token} (ht : t.kind = .lparen) (before : List Token) :
    openParens (t :: before) = .opened before :: openParens before := by
  rw [openParens, ht]

theorem openParens_rparen {t : Token} (ht : t.kind = .rparen) (before : List Token) :
    openParens (t :: before) = (openParens before).tail := by
  rw [openParens, ht]

namespace Draft

variable {maxDepth : Nat} {d d' e : Draft} {t : Token} {ts before : List Token}

def parens (d : Draft) : List Paren :=
  let inner := match d.phase with
    | .opening (some _) => [.group]
    | phase => phase.openCalls.map fun call => .call call.name
  inner ++ List.replicate d.groups .group

/-- The phases behind a token of each kind. -/
inductive Phase.Follows : List Token → Phase → Prop
  | start : Follows [] (.opening none)
  | opening {t : Token} {before : List Token} {entering : Option Nat} (ht : t.kind = .lparen) :
      Follows (t :: before) (.opening entering)
  | naming {name : Token} {before : List Token} {outer : List OpenCall}
      (ht : name.kind = .identifier) : Follows (name :: before) (.naming name outer)
  | first {t : Token} {before : List Token} {call : OpenCall} {outer : List OpenCall}
      (ht : t.kind = .lparen) : Follows (t :: before) (.arguing .first call outer)
  | next {t : Token} {before : List Token} {call : OpenCall} {outer : List OpenCall}
      (ht : t.kind = .comma) : Follows (t :: before) (.arguing .next call outer)
  | filled {t : Token} {before : List Token} {call : OpenCall} {outer : List OpenCall}
      (ht : t.kind = .stringLiteral ∨ t.kind = .rparen) :
      Follows (t :: before) (.arguing .filled call outer)
  | complete {t : Token} {before : List Token} {call : Call} (ht : t.kind = .rparen) :
      Follows (t :: before) (.complete call)

/-- The invariant between a draft and the tokens before it. -/
structure Behind (before : List Token) (d : Draft) : Prop where
  parens : openParens before = d.parens
  follows : d.phase.Follows before

theorem behind_empty : Behind [] empty := ⟨rfl, .start⟩

theorem Behind.enters (h : Behind before d) (he : Enters maxDepth d e) : Behind before e := by
  obtain ⟨hparens, hfollows⟩ := h
  cases he with
  | group _ =>
    cases hfollows with
    | opening ht => exact ⟨hparens, .opening ht⟩
  | already _ => exact ⟨hparens, hfollows⟩

theorem Phase.Follows.opened_group {phase : Phase} (h : phase.Follows before)
    (hphase : phase = .opening none) : Paren.opened before = .group := by
  cases h with
  | start => rfl
  | opening hlast => exact if_neg (by simp [hlast])
  | _ => cases hphase

theorem Phase.Follows.opened_call {name : Token} {outer : List OpenCall}
    (h : (Phase.naming name outer).Follows before) : Paren.opened before = .call name.value := by
  cases h with
  | naming hname => exact if_pos hname

theorem Phase.follows_afterCall (ht : t.kind = .rparen) (c : Call) (outer : List OpenCall) :
    (Phase.afterCall c outer).Follows (t :: before) := by
  cases outer with
  | nil => exact .complete ht
  | cons call outer => exact .filled (.inr ht)

theorem parens_afterCall (depth depth' groups : Nat) (slot : Slot) (call : OpenCall)
    (outer : List OpenCall) :
    parens ⟨depth', groups, .afterCall call.close outer⟩ =
      (parens ⟨depth, groups, .arguing slot call outer⟩).tail := by
  cases outer <;> rfl

theorem Behind.step (h : Behind before d) (hstep : Step maxDepth d t d') :
    Behind (t :: before) d' := by
  obtain ⟨hparens, hfollows⟩ := h
  cases hstep with
  | openGroup ht =>
    refine ⟨?_, .opening ht⟩
    rw [openParens_lparen ht, hparens, hfollows.opened_group rfl]
    rfl
  | name hphase ht =>
    refine ⟨?_, .naming ht⟩
    rw [openParens_of_ne (by simp [ht]) (by simp [ht]), hparens]
    cases hphase <;> rfl
  | @openCall _ _ name _ _ _ ht =>
    refine ⟨?_, .first ht⟩
    rw [openParens_lparen ht, hparens, hfollows.opened_call]
    rfl
  | literal _ ht =>
    refine ⟨?_, .filled (.inl ht)⟩
    rw [openParens_of_ne (by simp [ht]) (by simp [ht]), hparens]
    rfl
  | comma ht =>
    refine ⟨?_, .next ht⟩
    rw [openParens_of_ne (by simp [ht]) (by simp [ht]), hparens]
    rfl
  | closeCall _ ht =>
    refine ⟨?_, Phase.follows_afterCall ht _ _⟩
    rw [openParens_rparen ht, hparens]
    exact (parens_afterCall _ _ _ _ _ _).symm
  | closeGroup _ ht =>
    refine ⟨?_, .complete ht⟩
    rw [openParens_rparen ht, hparens]
    exact List.tail_replicate

theorem Behind.feedAll (h : Behind before d) (hd : d.feedAll maxDepth ts = .ok d') :
    Behind (ts.reverse ++ before) d' := by
  induction ts generalizing d before with
  | nil =>
    obtain rfl := Except.ok.inj hd
    exact h
  | cons t ts ih =>
    obtain ⟨e, he, hmore⟩ := feedAll_cons_eq_ok_iff.1 hd
    obtain ⟨d₁, henters, hstep⟩ := feed_eq_ok_iff.1 he
    have hall := ih ((h.enters henters).step hstep) hmore
    simpa using hall

theorem feedAll_behind (hd : empty.feedAll maxDepth ts = .ok d) : Behind ts.reverse d := by
  simpa using behind_empty.feedAll hd

/-- The refusal of a draft is the complaint about the tokens before it. -/
theorem Behind.complaint_eq (h : Behind before d)
    (hsettled : ∀ position, d.phase ≠ .opening (some position)) (t : Token) :
    complaint before t = some (d.refusal t) := by
  obtain ⟨depth, groups, phase⟩ := d
  obtain ⟨hparens, hfollows⟩ := h
  cases hfollows with
  | start => rfl
  | @opening last before entering hlast =>
    obtain rfl : entering = none := by
      cases entering with
      | none => rfl
      | some position => exact absurd rfl (hsettled position)
    have hgroups : Paren.opened before :: openParens before = List.replicate groups .group :=
      (openParens_lparen hlast before).symm.trans hparens
    have hmem : Paren.opened before ∈ List.replicate groups .group := by simp [← hgroups]
    have hhead : (openParens (last :: before)).head? = some .group := by
      rw [openParens_lparen hlast, List.head?_cons, List.eq_of_mem_replicate hmem]
    simp only [complaint, hlast, hhead, refusal]
  | naming hlast => simp only [complaint, hlast, refusal]
  | @first last before call outer hlast =>
    have hhead : (openParens (last :: before)).head? = some (.call call.name) := by
      rw [hparens]
      rfl
    simp only [complaint, hlast, hhead, refusal]
  | next hlast => simp only [complaint, hlast, refusal]
  | @filled last before call outer hlast =>
    have hhead : (openParens (last :: before)).head? = some (.call call.name) := by
      rw [hparens]
      rfl
    rcases hlast with hlast | hlast
    · simp only [complaint, hlast, hhead, refusal]
    · simp only [complaint, hlast, hhead, refusal]
  | @complete last before call hlast =>
    have hgroups : openParens (last :: before) = List.replicate groups .group := hparens
    cases groups with
    | zero => simp [complaint, hlast, hgroups, refusal]
    | succ groups => simp [complaint, hlast, hgroups, refusal, List.replicate_succ]

end Draft

end FilterLang
