import FilterLang.Proofs.Draft.Step
import FilterLang.Proofs.Tree.Flat

/-!
# Drafts and the grammar

* `Draft.Within` : the depth bound on the open calls and their arguments;
* `Draft.Reads m shapes d` : the invariant of a draft reached by tokens of these shapes under the limit
  `m` (`Reads.step`, `feedAll_reads`);
* `feedAll_call`, `feedAll_groups` : completeness, the tokens of a tree are accepted within the limit;
* `Reads.viable` : every reachable draft can be completed to an expression.
-/

namespace FilterLang.Draft

open Token (Shape)
open Token.Shape (word quoted lparen rparen comma)

variable {maxDepth depth groups : Nat} {d d' e : Draft} {t : Token} {ts : List Token}
  {shapes : List Shape} {outer : List OpenCall}

/-! ## The invariant -/

/-- The open calls, innermost first, and their arguments stay within the limit, inside `groups`
groups. -/
def Within (maxDepth groups : Nat) : List OpenCall → Prop
  | [] => groups ≤ maxDepth
  | call :: outer => Within maxDepth groups outer ∧ groups + outer.length + 1 ≤ maxDepth ∧
      ∀ arg ∈ call.args, groups + outer.length + 1 + arg.depth ≤ maxDepth

/-- The draft is reached from `empty` by tokens of these shapes. -/
inductive Reads (maxDepth : Nat) : List Shape → Draft → Prop
  | opening {g : Nat} (h : g ≤ maxDepth) :
      Reads maxDepth (List.replicate g lparen) ⟨g, g, .opening none⟩
  | entering {g position : Nat} (h : g ≤ maxDepth) :
      Reads maxDepth (List.replicate (g + 1) lparen) ⟨g, g, .opening (some position)⟩
  | naming {g : Nat} {name : Token} {outer : List OpenCall} (h : Within maxDepth g outer) :
      Reads maxDepth (List.replicate g lparen ++ (OpenCall.flatAll outer ++ [word name.value]))
        ⟨g + outer.length, g, .naming name outer⟩
  | first {g : Nat} {n : String} {outer : List OpenCall}
      (h : Within maxDepth g (⟨n, []⟩ :: outer)) :
      Reads maxDepth (List.replicate g lparen ++ OpenCall.flatAll (⟨n, []⟩ :: outer))
        ⟨g + outer.length + 1, g, .arguing .first ⟨n, []⟩ outer⟩
  | next {g : Nat} {call : OpenCall} {outer : List OpenCall} (hargs : call.args ≠ [])
      (h : Within maxDepth g (call :: outer)) :
      Reads maxDepth (List.replicate g lparen ++ OpenCall.flatAll (call :: outer))
        ⟨g + outer.length + 1, g, .arguing .next call outer⟩
  | filled {g : Nat} {call : OpenCall} {arg : Argument} {outer : List OpenCall}
      (h : Within maxDepth g (call.add arg :: outer)) :
      Reads maxDepth (List.replicate g lparen ++ (OpenCall.flatAll (call :: outer) ++ arg.flat))
        ⟨g + outer.length + 1, g, .arguing .filled (call.add arg) outer⟩
  | complete {g k : Nat} {call : Call} (h : g + k + call.depth ≤ maxDepth) :
      Reads maxDepth (List.replicate (g + k) lparen ++ (call.flat ++ List.replicate k rparen))
        ⟨g, g, .complete call⟩

theorem Within.add {call : OpenCall} (h : Within maxDepth groups (call :: outer)) (arg : Argument)
    (harg : groups + outer.length + 1 + arg.depth ≤ maxDepth) :
    Within maxDepth groups (call.add arg :: outer) := by
  obtain ⟨houter, hlevel, hargs⟩ := h
  refine ⟨houter, hlevel, fun a ha => ?_⟩
  rcases List.mem_cons.1 ha with rfl | ha
  · exact harg
  · exact hargs a ha

theorem Within.close {call : OpenCall} (h : Within maxDepth groups (call :: outer)) :
    groups + outer.length + call.close.depth ≤ maxDepth := by
  obtain ⟨-, hlevel, hargs⟩ := h
  have hclose : call.close.depth ≤ maxDepth - (groups + outer.length + 1) + 1 := by
    refine Call.depth_le_iff.2 fun arg harg => ?_
    have := hargs arg (List.mem_reverse.1 harg)
    omega
  omega

theorem Reads.awaits {phase : Phase} (h : Reads maxDepth shapes ⟨depth, groups, phase⟩)
    (hphase : phase.Awaits outer) :
    shapes = List.replicate groups lparen ++ OpenCall.flatAll outer ∧
      depth = groups + outer.length ∧ Within maxDepth groups outer := by
  cases h with
  | opening h =>
    cases hphase
    exact ⟨by simp, rfl, h⟩
  | first h =>
    cases hphase
    exact ⟨rfl, rfl, h⟩
  | next _ h =>
    cases hphase
    exact ⟨rfl, rfl, h⟩
  | filled h =>
    cases hphase with
    | argument hslot => exact absurd rfl hslot
  | entering _ => cases hphase
  | naming _ => cases hphase
  | complete _ => cases hphase

theorem Reads.afterCall {c : Call} (houter : Within maxDepth groups outer)
    (hc : groups + outer.length + c.depth ≤ maxDepth) :
    Reads maxDepth (List.replicate groups lparen ++ (OpenCall.flatAll outer ++ c.flat))
      ⟨groups + outer.length, groups, .afterCall c outer⟩ := by
  cases outer with
  | nil => simpa [Phase.afterCall] using @Reads.complete maxDepth groups 0 c hc
  | cons call outer => exact .filled (houter.add (.call c) hc)

theorem Reads.enters (h : Reads maxDepth shapes d) (he : Enters maxDepth d e) :
    Reads maxDepth shapes e := by
  cases he with
  | group hdepth =>
    cases h with
    | entering _ => exact .opening hdepth
  | already _ => exact h

/-- The invariant is preserved by a step, one case for each transition. -/
theorem Reads.step (h : Reads maxDepth shapes d) (hstep : Step maxDepth d t d')
    (ht : t.IsLexeme) : Reads maxDepth (shapes ++ [t.shape]) d' := by
  cases hstep with
  | openGroup hk =>
    cases h with
    | opening hg =>
      rw [ht.shape_eq (s := lparen) (by simp) hk, ← List.replicate_succ']
      exact .entering hg
  | @name depth groups phase outer t hphase hk =>
    obtain ⟨rfl, rfl, houter⟩ := h.awaits hphase
    rw [Token.shape, hk, List.append_assoc]
    exact .naming houter
  | openCall hdepth hk =>
    cases h with
    | naming houter =>
      rw [ht.shape_eq (s := lparen) (by simp) hk]
      simpa [OpenCall.flat] using Reads.first ⟨houter, hdepth, by simp⟩
  | @literal depth groups slot call outer t hslot hk =>
    obtain ⟨rfl, rfl, houter⟩ := h.awaits (.argument hslot)
    rw [Token.shape, hk, List.append_assoc]
    exact .filled (houter.add (.literal ⟨t.value⟩) houter.2.1)
  | comma hk =>
    cases h with
    | filled hcalls =>
      rw [ht.shape_eq (s := comma) (by simp) hk]
      simpa [OpenCall.flat_add] using Reads.next (by simp [OpenCall.add]) hcalls
  | closeCall hslot hk =>
    rw [ht.shape_eq (s := rparen) (by simp) hk]
    cases h with
    | first hcalls =>
      simpa [OpenCall.flat_close_nil] using Reads.afterCall hcalls.1 hcalls.close
    | next _ _ => exact absurd rfl hslot
    | filled hcalls =>
      simpa [OpenCall.flat_add_close] using Reads.afterCall hcalls.1 hcalls.close
  | closeGroup hgroups hk =>
    rw [ht.shape_eq (s := rparen) (by simp) hk]
    cases h with
    | @complete g k call hg =>
      obtain ⟨g, rfl⟩ := Nat.exists_eq_succ_of_ne_zero hgroups
      have hsum : g + 1 + k = g + (k + 1) := by omega
      rw [hsum, List.append_assoc, List.append_assoc, ← List.replicate_succ']
      exact .complete (by omega)

theorem Reads.feedAll (h : Reads maxDepth shapes d) (hts : ∀ t ∈ ts, t.IsLexeme)
    (hd : d.feedAll maxDepth ts = .ok d') : Reads maxDepth (shapes ++ ts.map Token.shape) d' := by
  induction ts generalizing d shapes with
  | nil =>
    cases hd
    simpa using h
  | cons t ts ih =>
    obtain ⟨e, he, hmore⟩ := feedAll_cons_eq_ok_iff.1 hd
    obtain ⟨d₁, hd₁, hstep⟩ := feed_eq_ok_iff.1 he
    have hread := (h.enters hd₁).step hstep (hts t (by simp))
    simpa using ih hread (fun u hu => hts u (by simp [hu])) hmore

theorem feedAll_reads (hts : ∀ t ∈ ts, t.IsLexeme)
    (hd : empty.feedAll maxDepth ts = .ok d) : Reads maxDepth (ts.map Token.shape) d :=
  Reads.feedAll (.opening (Nat.zero_le _)) hts hd

/-- Soundness: behind a whole program the tokens are groups around its call, within the limit. -/
theorem Reads.whole {c : Call} (h : Reads maxDepth shapes d) (hphase : d.phase = .complete c)
    (hgroups : d.groups = 0) :
    ∃ k, shapes = Shape.groups k c.flat ∧ k + c.depth ≤ maxDepth := by
  cases h with
  | @complete g k call hdepth =>
    obtain rfl : g = 0 := hgroups
    obtain rfl : call = c := Phase.complete.inj hphase
    rw [Nat.zero_add] at hdepth ⊢
    exact ⟨k, by rw [Shape.groups, List.append_assoc], hdepth⟩
  | _ => cases hphase

/-! ## Completeness -/

theorem feed_of_step (h : Step maxDepth d t d') : d.feed maxDepth t = .ok d' :=
  feed_eq_ok_iff.2 ⟨d, .already h.settled, h⟩

mutual

/-- Completeness, by recursion on the tree: the tokens of a call lead from a phase that awaits one to the phase
behind it. -/
theorem feedAll_call (c : Call) {depth : Nat} {phase : Phase} {outer : List OpenCall}
    {ts : List Token} (hts : ts.map Token.shape = c.flat) (hphase : phase.Awaits outer)
    (hdepth : depth + c.depth ≤ maxDepth) :
    feedAll maxDepth ⟨depth, groups, phase⟩ ts = .ok ⟨depth, groups, .afterCall c outer⟩ :=
  match c with
  | ⟨n, []⟩ => by
    simp only [Call.flat, List.map_eq_cons_iff, List.map_eq_nil_iff] at hts
    obtain ⟨name, _, rfl, hname, lp, _, rfl, hlp, rp, _, rfl, hrp, rfl⟩ := hts
    rw [Token.shape_eq_iff] at hname hlp hrp
    have hpos := Call.depth_pos ⟨n, []⟩
    refine feedAll_cons_eq_ok_iff.2 ⟨_, feed_of_step (.name hphase hname.1), ?_⟩
    refine feedAll_cons_eq_ok_iff.2 ⟨_, feed_of_step (.openCall (by omega) hlp.1), ?_⟩
    refine feedAll_cons_eq_ok_iff.2 ⟨_, feed_of_step (.closeCall (by simp) hrp.1), ?_⟩
    rw [hname.2]
    rfl
  | ⟨n, arg :: args⟩ => by
    simp only [Call.flat, List.map_eq_cons_iff, List.map_eq_append_iff] at hts
    obtain ⟨name, _, rfl, hname, lp, _, rfl, hlp, us, vs, rfl, hus, hvs⟩ := hts
    rw [Token.shape_eq_iff] at hname hlp
    have hpos := Call.depth_pos ⟨n, arg :: args⟩
    have hargs : ∀ a ∈ arg :: args, a.depth ≤ maxDepth - (depth + 1) :=
      Call.depth_le_iff.1 (show Call.depth ⟨n, arg :: args⟩ ≤ _ by omega)
    have hlevel : ∀ a ∈ arg :: args, depth + 1 + a.depth ≤ maxDepth := by
      intro a ha
      have := hargs a ha
      omega
    refine feedAll_cons_eq_ok_iff.2 ⟨_, feed_of_step (.name hphase hname.1), ?_⟩
    refine feedAll_cons_eq_ok_iff.2 ⟨_, feed_of_step (.openCall (by omega) hlp.1), ?_⟩
    refine feedAll_append_eq_ok_iff.2
      ⟨_, feedAll_argument arg hus (by simp) (hlevel arg (by simp)), ?_⟩
    rw [feedAll_more args hvs fun a ha => hlevel a (by simp [ha]), hname.2]
    rfl

theorem feedAll_argument (arg : Argument) {depth : Nat} {slot : Slot} {call : OpenCall}
    {outer : List OpenCall} {ts : List Token} (hts : ts.map Token.shape = arg.flat)
    (hslot : slot ≠ .filled) (hdepth : depth + arg.depth ≤ maxDepth) :
    feedAll maxDepth ⟨depth, groups, .arguing slot call outer⟩ ts =
      .ok ⟨depth, groups, .arguing .filled (call.add arg) outer⟩ :=
  match arg with
  | .literal lit => by
    simp only [Argument.flat, List.map_eq_cons_iff, List.map_eq_nil_iff] at hts
    obtain ⟨t, _, rfl, ht, rfl⟩ := hts
    rw [Token.shape_eq_iff] at ht
    refine feedAll_cons_eq_ok_iff.2 ⟨_, feed_of_step (.literal hslot ht.1), ?_⟩
    rw [ht.2, feedAll_nil]
  | .call c => feedAll_call c hts (.argument hslot) hdepth

theorem feedAll_more (args : List Argument) {depth : Nat} {call : OpenCall}
    {outer : List OpenCall} {ts : List Token} (hts : ts.map Token.shape = Argument.flatMore args)
    (hdepth : ∀ arg ∈ args, depth + arg.depth ≤ maxDepth) :
    feedAll maxDepth ⟨depth, groups, .arguing .filled call outer⟩ ts =
      .ok ⟨depth - 1, groups, .afterCall ⟨call.name, call.args.reverse ++ args⟩ outer⟩ :=
  match args with
  | [] => by
    simp only [Argument.flatMore, List.map_eq_cons_iff, List.map_eq_nil_iff] at hts
    obtain ⟨t, _, rfl, ht, rfl⟩ := hts
    rw [Token.shape_eq_iff] at ht
    refine feedAll_cons_eq_ok_iff.2 ⟨_, feed_of_step (.closeCall (by simp) ht.1), ?_⟩
    rw [feedAll_nil, OpenCall.close, List.append_nil]
  | arg :: args => by
    simp only [Argument.flatMore, List.map_eq_cons_iff, List.map_eq_append_iff] at hts
    obtain ⟨t, _, rfl, ht, us, vs, rfl, hus, hvs⟩ := hts
    rw [Token.shape_eq_iff] at ht
    refine feedAll_cons_eq_ok_iff.2 ⟨_, feed_of_step (.comma ht.1), ?_⟩
    refine feedAll_append_eq_ok_iff.2
      ⟨_, feedAll_argument arg hus (by simp) (hdepth arg (by simp)), ?_⟩
    rw [feedAll_more args hvs fun a ha => hdepth a (by simp [ha])]
    simp [OpenCall.add]

end

theorem feed_of_enters (h : Enters maxDepth d e) (t : Token) :
    d.feed maxDepth t = e.feed maxDepth t := by
  rw [feed, feed, enterGroup_eq_ok_iff.2 h, enterGroup_eq_ok_iff.2 (.already h.settled)]

theorem feedAll_of_enters (h : Enters maxDepth d e) (hts : ts ≠ []) :
    d.feedAll maxDepth ts = e.feedAll maxDepth ts := by
  obtain ⟨t, us, rfl⟩ := List.exists_cons_of_ne_nil hts
  rw [feedAll_cons, feedAll_cons, feed_of_enters h]

theorem feedAll_lparens {k : Nat} (hts : ts.map Token.shape = List.replicate k lparen)
    (hd : Enters maxDepth d ⟨depth, depth, .opening none⟩) (hk : depth + k ≤ maxDepth) :
    ∃ e, d.feedAll maxDepth ts = .ok e ∧
      Enters maxDepth e ⟨depth + k, depth + k, .opening none⟩ := by
  induction k generalizing d depth ts with
  | zero =>
    obtain rfl : ts = [] := by simpa using hts
    exact ⟨d, rfl, hd⟩
  | succ k ih =>
    simp only [List.replicate_succ, List.map_eq_cons_iff] at hts
    obtain ⟨t, us, rfl, ht, hus⟩ := hts
    rw [Token.shape_eq_iff] at ht
    have hfeed := feed_eq_ok_iff.2 ⟨_, hd, .openGroup ht.1⟩
    have hinside : Enters maxDepth ⟨depth, depth, .opening (some t.position)⟩
        ⟨depth + 1, depth + 1, .opening none⟩ := .group (by omega)
    obtain ⟨e, he, hentered⟩ := ih hus hinside (by omega)
    refine ⟨e, feedAll_cons_eq_ok_iff.2 ⟨_, hfeed, he⟩, ?_⟩
    rwa [show depth + (k + 1) = depth + 1 + k by omega]

theorem feedAll_rparens {k : Nat} {c : Call} (hts : ts.map Token.shape = List.replicate k rparen) :
    feedAll maxDepth ⟨k, k, .complete c⟩ ts = .ok ⟨0, 0, .complete c⟩ := by
  induction k generalizing ts with
  | zero =>
    obtain rfl : ts = [] := by simpa using hts
    rfl
  | succ k ih =>
    simp only [List.replicate_succ, List.map_eq_cons_iff] at hts
    obtain ⟨t, us, rfl, ht, hus⟩ := hts
    rw [Token.shape_eq_iff] at ht
    exact feedAll_cons_eq_ok_iff.2
      ⟨_, feed_of_step (.closeGroup (by simp) ht.1), ih hus⟩

theorem feedAll_groups {k : Nat} {c : Call} (hts : ts.map Token.shape = Shape.groups k c.flat)
    (hk : k + c.depth ≤ maxDepth) : empty.feedAll maxDepth ts = .ok ⟨0, 0, .complete c⟩ := by
  simp only [Shape.groups, List.map_eq_append_iff] at hts
  obtain ⟨_, rps, rfl, ⟨lps, cs, rfl, hlps, hcs⟩, hrps⟩ := hts
  have hempty : Enters maxDepth empty ⟨0, 0, .opening none⟩ := .already (by simp [empty])
  obtain ⟨e, he, hentered⟩ := feedAll_lparens hlps hempty (by omega)
  rw [Nat.zero_add] at hentered
  have hne : cs ≠ [] := by
    rintro rfl
    rw [Call.flat_eq] at hcs
    cases hcs
  have hcall : e.feedAll maxDepth cs = .ok ⟨k, k, .complete c⟩ := by
    rw [feedAll_of_enters hentered hne]
    exact feedAll_call c hcs .expression hk
  exact feedAll_append_eq_ok_iff.2
    ⟨_, feedAll_append_eq_ok_iff.2 ⟨e, he, hcall⟩, feedAll_rparens hrps⟩

/-! ## Completion of drafts -/

theorem exists_groups (g : Nat) (outer : List OpenCall) (c : Call) :
    ∃ e : Call, List.replicate g lparen ++ (OpenCall.flatAll outer ++
      (c.flat ++ List.replicate (outer.length + g) rparen)) = Shape.groups g e.flat := by
  obtain ⟨e, he⟩ := OpenCall.exists_flat_eq outer c
  refine ⟨e, ?_⟩
  rw [Shape.groups, he, ← List.replicate_append_replicate]
  simp only [List.append_assoc]

/-- Every reachable draft is completed to groups around a call. -/
theorem Reads.viable (h : Reads maxDepth shapes d) :
    ∃ rest k, ∃ c : Call, (∀ s ∈ rest, s.IsLexeme) ∧ shapes ++ rest = Shape.groups k c.flat := by
  have hrps : ∀ n, ∀ s ∈ List.replicate n rparen, s.IsLexeme :=
    fun _ => List.forall_mem_replicate.2 (.inr Shape.isLexeme_rparen)
  have hrps1 : ∀ n, ∀ s ∈ rparen :: List.replicate n rparen, s.IsLexeme :=
    fun n => List.forall_mem_cons.2 ⟨Shape.isLexeme_rparen, hrps n⟩
  have hrps2 : ∀ n, ∀ s ∈ lparen :: rparen :: List.replicate n rparen, s.IsLexeme :=
    fun n => List.forall_mem_cons.2 ⟨Shape.isLexeme_lparen, hrps1 n⟩
  have hword : (word "a").IsLexeme := Shape.isLexeme_word.2 (by simp [isName])
  have hquoted : (quoted "").IsLexeme := Shape.isLexeme_quoted.2 rfl
  cases h with
  | @opening g _ =>
    refine ⟨word "a" :: lparen :: rparen :: List.replicate g rparen, g, ⟨"a", []⟩,
      List.forall_mem_cons.2 ⟨hword, hrps2 g⟩, ?_⟩
    simp [Shape.groups, Call.flat]
  | @entering g _ _ =>
    refine ⟨word "a" :: lparen :: rparen :: List.replicate (g + 1) rparen, g + 1, ⟨"a", []⟩,
      List.forall_mem_cons.2 ⟨hword, hrps2 (g + 1)⟩, ?_⟩
    simp [Shape.groups, Call.flat]
  | @naming g name outer _ =>
    obtain ⟨e, he⟩ := exists_groups g outer ⟨name.value, []⟩
    refine ⟨_, g, e, hrps2 (outer.length + g), ?_⟩
    simpa [Call.flat] using he
  | @first g n outer _ =>
    obtain ⟨e, he⟩ := exists_groups g outer ⟨n, []⟩
    refine ⟨_, g, e, hrps1 (outer.length + g), ?_⟩
    simpa [Call.flat, OpenCall.flat] using he
  | @next g call outer _ _ =>
    obtain ⟨e, he⟩ := exists_groups g outer (call.add (.literal ⟨""⟩)).close
    refine ⟨_, g, e, List.forall_mem_cons.2 ⟨hquoted, hrps1 (outer.length + g)⟩, ?_⟩
    simpa [OpenCall.flat_add_close, Argument.flat] using he
  | @filled g call arg outer _ =>
    obtain ⟨e, he⟩ := exists_groups g outer (call.add arg).close
    refine ⟨_, g, e, hrps1 (outer.length + g), ?_⟩
    simpa [OpenCall.flat_add_close] using he
  | @complete g k call _ =>
    refine ⟨_, g + k, call, hrps g, ?_⟩
    simp [Shape.groups, Nat.add_comm g k]

end FilterLang.Draft
