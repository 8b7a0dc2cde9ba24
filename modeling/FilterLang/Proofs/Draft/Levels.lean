import FilterLang.Proofs.Draft.Context
import FilterLang.Proofs.Draft.Grammar
import FilterLang.Proofs.Tree.Flat
import Mathlib.Data.List.Induction

/-!
# Nesting levels of token sequences

* `openLevels ts` : the number of calls and groups open behind `ts`, which is the depth of the draft
  (`Draft.openLevels_of_enters`);
* `Admits maxDepth ts` : no parenthesis of `ts` exceeds the limit;
* `Draft.viable_iff` : `Viable` prefixes are those accepted under some limit;
* `Draft.exists_feedAll_iff` : acceptance under a limit is `Viable` and `Admits`;
* `Overruns maxDepth before paren` : `paren` is the first parenthesis to exceed the limit
  (`Draft.overruns_iff`, `Draft.cases_of_overruns`: the drafts at that point).

`Paren.opened` and `Paren.start` take the tokens before the parenthesis in reverse.
-/

namespace FilterLang

open Token (Shape)

/-- The number of open parentheses behind `ts`. -/
def openLevels (ts : List Token) : Nat := (openParens ts.reverse).length

theorem openLevels_concat {t : Token} (ht : t.kind = .lparen) (ts : List Token) :
    openLevels (ts ++ [t]) = openLevels ts + 1 := by
  unfold openLevels
  rw [List.reverse_concat, openParens_lparen ht, List.length_cons]

/-- The position of the construct that `paren` opens: of the name before it for a call, of `paren`
itself for a group. -/
def Paren.start (before : List Token) (paren : Token) : Nat :=
  match before with
  | [] => paren.position
  | last :: _ => if last.kind = .identifier then last.position else paren.position

theorem Paren.start_of_group {before : List Token} (h : Paren.opened before = .group)
    (paren : Token) : Paren.start before paren = paren.position := by
  cases before with
  | nil => rfl
  | cons last before =>
    by_cases hlast : last.kind = .identifier
    · rw [Paren.opened, if_pos hlast] at h
      cases h
    · exact if_neg hlast

theorem Paren.exists_start (before : List Token) (paren : Token) :
    ∃ t ∈ before ++ [paren], t.position = Paren.start before.reverse paren := by
  rcases List.eq_nil_or_concat before with rfl | ⟨before, last, rfl⟩
  · exact ⟨paren, by simp, rfl⟩
  · rw [List.concat_eq_append, List.reverse_concat]
    by_cases hlast : last.kind = .identifier
    · exact ⟨last, by simp, (if_pos hlast).symm⟩
    · exact ⟨paren, by simp, (if_neg hlast).symm⟩

theorem Draft.Phase.Follows.start_call {before : List Token} {name : Token} {outer : List OpenCall}
    (h : (Draft.Phase.naming name outer).Follows before) (paren : Token) :
    Paren.start before paren = name.position := by
  cases h with
  | naming hname => exact if_pos hname

/-- No parenthesis exceeds the limit, with the exception of a last one that opens a group. -/
def Admits (maxDepth : Nat) (ts : List Token) : Prop :=
  ∀ before paren after, ts = before ++ paren :: after → paren.kind = .lparen →
    openLevels (before ++ [paren]) ≤ maxDepth ∨
      after = [] ∧ Paren.opened before.reverse = .group

/-- `paren` continues a viable prefix, and it is the first parenthesis to exceed the limit. -/
structure Overruns (maxDepth : Nat) (before : List Token) (paren : Token) : Prop where
  viable : Viable (before ++ [paren])
  opens : paren.kind = .lparen
  within : ∀ us, us <+: before → openLevels us ≤ maxDepth
  exceeds : openLevels (before ++ [paren]) = maxDepth + 1

theorem Admits.of_concat {maxDepth : Nat} {ts : List Token} {t : Token}
    (h : Admits maxDepth (ts ++ [t])) : Admits maxDepth ts := by
  rintro before paren after rfl hparen
  rcases h before paren (after ++ [t]) (by simp) hparen with hle | ⟨hnil, -⟩
  · exact .inl hle
  · simp at hnil

theorem admits_of_within {maxDepth : Nat} {ts : List Token}
    (h : ∀ us, us <+: ts → openLevels us ≤ maxDepth) : Admits maxDepth ts := by
  rintro before paren after rfl -
  exact .inl (h _ ⟨after, by simp⟩)

namespace Draft

variable {maxDepth maxDepth' : Nat} {d d' e : Draft} {t paren : Token} {ts us before : List Token}
  {shapes : List Shape}

/-! ## The depth of a draft -/

theorem Reads.depth_eq (h : Reads maxDepth shapes d) : d.depth = d.nesting := by
  cases h <;> rfl

theorem Within.levels_le {groups : Nat} {calls : List OpenCall} (h : Within maxDepth groups calls) :
    groups + calls.length ≤ maxDepth := by
  cases calls with
  | nil => exact h
  | cons call outer => exact h.2.1

/-- The limit is an invariant of the counter. -/
theorem Reads.depth_le (h : Reads maxDepth shapes d) : d.depth ≤ maxDepth := by
  cases h with
  | opening h => exact h
  | entering h => exact h
  | naming h => exact h.levels_le
  | first h => exact h.levels_le
  | next _ h => exact h.levels_le
  | filled h => exact h.levels_le
  | @complete g k call h =>
    show g ≤ maxDepth
    omega

theorem length_parens (hd : ∀ position, d.phase ≠ .opening (some position)) :
    d.parens.length = d.nesting := by
  unfold parens nesting
  split
  · next position hphase => exact absurd hphase (hd position)
  · rw [List.length_append, List.length_map, List.length_replicate, Nat.add_comm]

theorem Enters.length_parens (he : Enters maxDepth d e) : d.parens.length = e.nesting := by
  cases he with
  | @group depth groups _ _ =>
    show ([Paren.group] ++ List.replicate groups Paren.group).length = groups + 1
    rw [List.length_append, List.length_singleton, List.length_replicate, Nat.add_comm]
  | already hd => exact Draft.length_parens hd

/-- Where every group is entered, the counter is the number of open parentheses. -/
theorem openLevels_of_enters (hts : ∀ t ∈ ts, t.IsLexeme) (hd : empty.feedAll maxDepth ts = .ok d)
    (he : Enters maxDepth d e) : openLevels ts = e.depth ∧ e.depth ≤ maxDepth := by
  have hreads := (feedAll_reads hts hd).enters he
  refine ⟨?_, hreads.depth_le⟩
  rw [openLevels, (feedAll_behind hd).parens, he.length_parens, hreads.depth_eq]

theorem openLevels_le_of_feed (hts : ∀ t ∈ ts, t.IsLexeme) (hd : empty.feedAll maxDepth ts = .ok d)
    (hfeed : d.feed maxDepth t = .ok d') : openLevels ts ≤ maxDepth := by
  obtain ⟨e, he, -⟩ := feed_eq_ok_iff.1 hfeed
  obtain ⟨hlevels, hle⟩ := openLevels_of_enters hts hd he
  exact hlevels ▸ hle

theorem exists_of_opening {depth groups position : Nat}
    (hd : empty.feedAll maxDepth ts = .ok ⟨depth, groups, .opening (some position)⟩) :
    ∃ before paren d, ts = before ++ [paren] ∧ paren.kind = .lparen ∧ paren.position = position ∧
      empty.feedAll maxDepth before = .ok d ∧ Enters maxDepth d ⟨depth, groups, .opening none⟩ := by
  rcases List.eq_nil_or_concat ts with rfl | ⟨before, paren, rfl⟩
  · cases hd
  rw [List.concat_eq_append, feedAll_concat_eq_ok_iff] at hd
  obtain ⟨d, hd, hfeed⟩ := hd
  obtain ⟨e, he, hstep⟩ := feed_eq_ok_iff.1 hfeed
  generalize hd' : (⟨depth, groups, .opening (some position)⟩ : Draft) = d' at hstep
  cases hstep with
  | openGroup hparen =>
    cases hd'
    exact ⟨before, paren, d, List.concat_eq_append, hparen, rfl, hd, he⟩
  | @closeCall _ _ _ _ outer _ _ _ => cases outer <;> cases hd'
  | _ => cases hd'

/-! ## Acceptance under a limit -/

/-- A prefix is viable if and only if some limit accepts it. -/
theorem viable_iff (hts : ∀ t ∈ ts, t.IsLexeme) :
    Viable ts ↔ ∃ maxDepth d, empty.feedAll maxDepth ts = .ok d := by
  constructor
  · rintro ⟨rest, hrest⟩
    obtain ⟨k, c, hflat⟩ := derives_program_iff.1 hrest
    rcases List.eq_nil_or_concat rest with rfl | ⟨rest, last, rfl⟩
    · -- The end of the input would be one of the tokens.
      rw [List.append_nil] at hflat
      have heof : Shape.eof ∈ ts.map Token.shape := by simp [hflat]
      obtain ⟨t, ht, hshape⟩ := List.mem_map.1 heof
      have hlex := hts t ht
      rw [Token.IsLexeme, (Token.shape_eq_iff.1 hshape).1] at hlex
      exact hlex.elim
    · rw [List.concat_eq_append, ← List.append_assoc] at hflat
      have hgroups := (List.append_inj' hflat rfl).1
      have htokens : (ts ++ rest.map (Shape.token · 0)).map Token.shape = Shape.groups k c.flat := by
        rw [List.map_append, List.map_map, ← hgroups]
        simp [Function.comp_def, Token.shape, Shape.token]
      obtain ⟨d, hd, -⟩ := feedAll_append_eq_ok_iff.1 (feedAll_groups htokens (Nat.le_refl _))
      exact ⟨_, d, hd⟩
  · rintro ⟨maxDepth, d, hd⟩
    obtain ⟨rest, k, c, -, hgroups⟩ := (feedAll_reads hts hd).viable
    refine ⟨rest ++ [Shape.eof], derives_program_iff.2 ⟨k, c, ?_⟩⟩
    rw [← List.append_assoc, hgroups]

theorem admits_of_feed (hts : ∀ t ∈ ts, t.IsLexeme) (hd : empty.feedAll maxDepth ts = .ok d)
    (hfeed : d.feed maxDepth paren = .ok d') (hparen : paren.kind = .lparen) :
    openLevels (ts ++ [paren]) ≤ maxDepth ∨ Paren.opened ts.reverse = .group := by
  obtain ⟨e, he, hstep⟩ := feed_eq_ok_iff.1 hfeed
  have hbehind := (feedAll_behind hd).enters he
  cases hstep with
  | openGroup _ => exact .inr (hbehind.follows.opened_group rfl)
  | openCall hdepth _ =>
    left
    rw [openLevels_concat hparen, (openLevels_of_enters hts hd he).1]
    exact hdepth
  | name _ hk | literal _ hk | comma hk | closeCall _ hk | closeGroup _ hk =>
    rw [hparen] at hk
    cases hk

theorem feedAll_of_admits (hts : ∀ t ∈ ts, t.IsLexeme) (hd : empty.feedAll maxDepth' ts = .ok d)
    (hadmits : Admits maxDepth ts) : empty.feedAll maxDepth ts = .ok d := by
  induction ts using List.reverseRecOn generalizing d with
  | nil => exact hd
  | append_singleton ts t ih =>
    have hbefore : ∀ u ∈ ts, u.IsLexeme := fun u hu => hts u (List.mem_append_left _ hu)
    obtain ⟨d₀, hd₀, hfeed⟩ := feedAll_concat_eq_ok_iff.1 hd
    obtain ⟨e, he, hstep⟩ := feed_eq_ok_iff.1 hfeed
    have hall := ih hbefore hd₀ hadmits.of_concat
    have hlevels := (openLevels_of_enters hbefore hd₀ he).1
    have henters : Enters maxDepth d₀ e := by
      cases he with
      | group _ =>
        -- The group was opened by the last of `ts`, and `t` stands behind it.
        obtain ⟨before, paren, _, rfl, hparen, -⟩ := exists_of_opening hd₀
        rcases hadmits before paren [t] (by simp) hparen with hle | ⟨hnil, -⟩
        · rw [hlevels] at hle
          exact .group hle
        · cases hnil
      | already hsettled => exact .already hsettled
    refine feedAll_concat_eq_ok_iff.2 ⟨d₀, hall, feed_eq_ok_iff.2 ⟨e, henters, ?_⟩⟩
    refine hstep.of_callDepth fun ht name outer hphase => ?_
    have hfollows := ((feedAll_behind hd₀).enters he).follows
    rw [hphase] at hfollows
    rcases hadmits ts t [] rfl ht with hle | ⟨-, hgroup⟩
    · rwa [openLevels_concat ht, hlevels] at hle
    · rw [hfollows.opened_call] at hgroup
      cases hgroup

/-- Acceptance of a prefix under a limit. -/
theorem exists_feedAll_iff (hts : ∀ t ∈ ts, t.IsLexeme) :
    (∃ d, empty.feedAll maxDepth ts = .ok d) ↔ Viable ts ∧ Admits maxDepth ts := by
  constructor
  · rintro ⟨d, hd⟩
    refine ⟨(viable_iff hts).2 ⟨maxDepth, d, hd⟩, ?_⟩
    rintro before paren after rfl hparen
    obtain ⟨d₀, hd₀, hmore⟩ := feedAll_append_eq_ok_iff.1 hd
    obtain ⟨d₁, hd₁, hrest⟩ := feedAll_cons_eq_ok_iff.1 hmore
    have hbefore : ∀ u ∈ before, u.IsLexeme := fun u hu => hts u (List.mem_append_left _ hu)
    cases after with
    | nil => exact (admits_of_feed hbefore hd₀ hd₁ hparen).imp_right fun h => ⟨rfl, h⟩
    | cons u after =>
      left
      obtain ⟨d₂, hd₂, -⟩ := feedAll_cons_eq_ok_iff.1 hrest
      have hupto : ∀ u ∈ before ++ [paren], u.IsLexeme := by
        intro u hu
        apply hts u
        rw [List.append_cons]
        exact List.mem_append_left _ hu
      exact openLevels_le_of_feed hupto (feedAll_concat_eq_ok_iff.2 ⟨d₀, hd₀, hd₁⟩) hd₂
  · rintro ⟨hviable, hadmits⟩
    obtain ⟨maxDepth', d, hd⟩ := (viable_iff hts).1 hviable
    exact ⟨d, feedAll_of_admits hts hd hadmits⟩

/-! ## The first parenthesis over the limit -/

theorem overruns_iff (hts : ∀ t ∈ before, t.IsLexeme) (hlex : paren.IsLexeme) :
    Overruns maxDepth before paren ↔ paren.kind = .lparen ∧
      ∃ d e, empty.feedAll maxDepth before = .ok d ∧ Enters maxDepth d e ∧ e.depth = maxDepth ∧
        ∃ maxDepth' d', Step maxDepth' e paren d' := by
  have hall : ∀ t ∈ before ++ [paren], t.IsLexeme := by
    simp only [List.forall_mem_append, List.forall_mem_singleton]
    exact ⟨hts, hlex⟩
  constructor
  · rintro ⟨hviable, hparen, hwithin, hexceeds⟩
    obtain ⟨maxDepth', d', hd'⟩ := (viable_iff hall).1 hviable
    obtain ⟨d, hd, hfeed⟩ := feedAll_concat_eq_ok_iff.1 hd'
    obtain ⟨e, he, hstep⟩ := feed_eq_ok_iff.1 hfeed
    have hlevels := (openLevels_of_enters hts hd he).1
    rw [openLevels_concat hparen] at hexceeds
    have hdepth : e.depth = maxDepth := by omega
    refine ⟨hparen, d, e, feedAll_of_admits hts hd (admits_of_within hwithin), ?_, hdepth,
      maxDepth', d', hstep⟩
    cases he with
    | group _ => exact .group (Nat.le_of_eq hdepth)
    | already hsettled => exact .already hsettled
  · rintro ⟨hparen, d, e, hd, he, hdepth, maxDepth', d', hstep⟩
    have hlevels := (openLevels_of_enters hts hd he).1
    refine ⟨(viable_iff hall).2 ⟨max maxDepth maxDepth', d', ?_⟩, hparen, ?_, ?_⟩
    · refine feedAll_concat_eq_ok_iff.2
        ⟨d, feedAll_mono (Nat.le_max_left _ _) hd, feed_eq_ok_iff.2 ⟨e, ?_, ?_⟩⟩
      · exact he.mono (Nat.le_max_left _ _)
      · exact hstep.mono (Nat.le_max_right _ _)
    · rintro us ⟨vs, rfl⟩
      cases vs with
      | nil =>
        rw [List.append_nil] at hlevels
        omega
      | cons v vs =>
        obtain ⟨d₀, hd₀, hmore⟩ := feedAll_append_eq_ok_iff.1 hd
        obtain ⟨d₁, hd₁, -⟩ := feedAll_cons_eq_ok_iff.1 hmore
        exact openLevels_le_of_feed (fun u hu => hts u (List.mem_append_left _ hu)) hd₀ hd₁
    · rw [openLevels_concat hparen]
      omega

theorem overruns_of_opening {depth groups position : Nat} (hts : ∀ t ∈ ts, t.IsLexeme)
    (hd : empty.feedAll maxDepth ts = .ok ⟨depth, groups, .opening (some position)⟩)
    (hdepth : maxDepth < depth + 1) :
    ∃ before paren, ts = before ++ [paren] ∧ Overruns maxDepth before paren ∧
      Paren.opened before.reverse = .group ∧ Paren.start before.reverse paren = position := by
  obtain ⟨before, paren, d, rfl, hparen, rfl, hd, he⟩ := exists_of_opening hd
  simp only [List.forall_mem_append, List.forall_mem_singleton] at hts
  obtain ⟨hbefore, hlex⟩ := hts
  have hle := (openLevels_of_enters hbefore hd he).2
  have hgroup := ((feedAll_behind hd).enters he).follows.opened_group rfl
  refine ⟨before, paren, rfl, ?_, hgroup, Paren.start_of_group hgroup paren⟩
  exact (overruns_iff hbefore hlex).2
    ⟨hparen, d, _, hd, he, Nat.le_antisymm hle (Nat.le_of_lt_succ hdepth), maxDepth, _,
      .openGroup hparen⟩

theorem overruns_of_naming {depth groups : Nat} {name : Token} {outer : List OpenCall}
    (hts : ∀ t ∈ ts, t.IsLexeme) (hlex : paren.IsLexeme) (hparen : paren.kind = .lparen)
    (hd : empty.feedAll maxDepth ts = .ok ⟨depth, groups, .naming name outer⟩)
    (hdepth : maxDepth < depth + 1) :
    Overruns maxDepth ts paren ∧ Paren.opened ts.reverse = .call name.value ∧
      Paren.start ts.reverse paren = name.position := by
  have he : Enters maxDepth ⟨depth, groups, .naming name outer⟩ ⟨depth, groups, .naming name outer⟩ :=
    .already (by simp)
  have hle := (openLevels_of_enters hts hd he).2
  have hfollows := (feedAll_behind hd).follows
  refine ⟨?_, hfollows.opened_call, hfollows.start_call paren⟩
  exact (overruns_iff hts hlex).2
    ⟨hparen, _, _, hd, he, Nat.le_antisymm hle (Nat.le_of_lt_succ hdepth), depth + 1, _,
      .openCall (Nat.le_refl _) hparen⟩

/-- `NestingTooDeep` at `t` is about a group opened by the last of `ts` or about a call opened by `t`. -/
theorem Refuses.overruns {m position : Nat} (hts : ∀ u ∈ ts, u.IsLexeme)
    (ht : t.kind = .lparen → t.IsLexeme) (hd : empty.feedAll maxDepth ts = .ok d)
    (h : Refuses maxDepth d t (.nestingTooDeep m position)) :
    m = maxDepth ∧ ∃ before paren, Overruns maxDepth before paren ∧
      Paren.start before.reverse paren = position ∧
      (ts = before ++ [paren] ∧ Paren.opened before.reverse = .group ∨
        ts = before ∧ t = paren ∧ Paren.opened before.reverse ≠ .group) := by
  cases h with
  | group hdepth =>
    obtain ⟨before, paren, hsplit, hover, hgroup, hstart⟩ := overruns_of_opening hts hd hdepth
    exact ⟨rfl, before, paren, hover, hstart, .inl ⟨hsplit, hgroup⟩⟩
  | call hdepth hk =>
    obtain ⟨hover, hcall, hstart⟩ := overruns_of_naming hts (ht hk) hk hd hdepth
    exact ⟨rfl, ts, t, hover, hstart, .inr ⟨rfl, rfl, by simp [hcall]⟩⟩

theorem cases_of_overruns (hts : ∀ t ∈ before, t.IsLexeme) (hlex : paren.IsLexeme)
    (h : Overruns maxDepth before paren) :
    (∃ groups, empty.feedAll maxDepth (before ++ [paren]) =
        .ok ⟨maxDepth, groups, .opening (some paren.position)⟩ ∧
      Paren.opened before.reverse = .group) ∨
    ∃ groups name outer, empty.feedAll maxDepth before = .ok ⟨maxDepth, groups, .naming name outer⟩ ∧
      Paren.start before.reverse paren = name.position := by
  obtain ⟨hparen, d, e, hd, he, rfl, _, _, hstep⟩ := (overruns_iff hts hlex).1 h
  have hfollows := ((feedAll_behind hd).enters he).follows
  cases hstep with
  | @openGroup depth groups _ ht =>
    have hfeed := feed_eq_ok_iff.2 ⟨_, he, .openGroup ht⟩
    exact .inl ⟨groups, feedAll_concat_eq_ok_iff.2 ⟨d, hd, hfeed⟩, hfollows.opened_group rfl⟩
  | @openCall depth groups name outer _ _ _ =>
    -- No group is left to be entered behind a name.
    cases he with
    | already _ => exact .inr ⟨groups, name, outer, hd, hfollows.start_call paren⟩
  | name _ hk | literal _ hk | comma hk | closeCall _ hk | closeGroup _ hk =>
    rw [hparen] at hk
    cases hk

end Draft

end FilterLang
