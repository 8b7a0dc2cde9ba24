import FilterLang.Proofs.Reading.Acceptance
import FilterLang.Proofs.Tree.Text

/-!
# Canonical text

* `Program.parse_render_iff` : the trees that are parsed from their own `render`;
* `Program.isLexeme_flat_of_parse`, `Program.depth_le_of_parse` : properties of a parsed program;
* `Program.parse_render_of_parse` : a parsed program is parsed from its own `render` under the same
  limits, unless the text is too long; `Program.not_parse_render_of_parse` : which can happen;
* `Program.guarantees_of_parse` : a parsed program is well-formed, within the limits, and rendered with
  at most one more character for each separator.
-/

namespace FilterLang

open Token (Shape)

/-- **A tree is parsed from its own text iff** it is well-formed, its values are `isEscapeClosed`, and its
depth and the length of its text are within the limits. -/
theorem Program.parse_render_iff (limits : Limits) (c : Call) :
    Program.parse limits c.render = .ok ⟨c⟩ ↔
      c.isWellFormed = true ∧ (∀ v ∈ c.values, isEscapeClosed v.toList = true) ∧
        c.depth ≤ limits.maxDepth ∧ c.render.length ≤ limits.maxInputLen := by
  rw [Program.parse_eq_ok_iff]
  constructor
  · rintro ⟨hlen, ts, k, hseg, hts, hdepth⟩
    have hflat : ∀ s ∈ c.flat, s.IsLexeme := by
      intro s hs
      refine hseg.isLexeme_shape s ?_
      rw [hts]
      simp [Shape.groups, hs]
    obtain ⟨hwf, hvalues⟩ := c.isLexeme_flat_iff.1 hflat
    exact ⟨hwf, hvalues, Nat.le_trans (Nat.le_add_left _ _) hdepth, hlen⟩
  · rintro ⟨hwf, hvalues, hdepth, hlen⟩
    obtain ⟨ts, hseg, hts⟩ := c.spells_render (c.isLexeme_flat_iff.2 ⟨hwf, hvalues⟩) 0
    refine ⟨hlen, ts, 0, hseg, ?_, by simpa using hdepth⟩
    simpa [Shape.groups] using hts

namespace Program

variable {limits : Limits} {text : String} {p : Program}

theorem isLexeme_flat_of_parse (h : Program.parse limits text = .ok p) :
    ∀ s ∈ p.expression.flat, s.IsLexeme := by
  obtain ⟨-, ts, k, hseg, hts, -⟩ := parse_eq_ok_iff.1 h
  intro s hs
  apply hseg.isLexeme_shape s
  rw [hts]
  simp [Shape.groups, hs]

theorem depth_le_of_parse (h : Program.parse limits text = .ok p) :
    p.expression.depth ≤ limits.maxDepth := by
  obtain ⟨-, ts, k, -, -, hdepth⟩ := parse_eq_ok_iff.1 h
  exact Nat.le_trans (Nat.le_add_left _ _) hdepth

theorem parse_render_of_isLexeme (hlex : ∀ s ∈ p.expression.flat, s.IsLexeme)
    (hdepth : p.expression.depth ≤ limits.maxDepth)
    (hlen : p.render.length ≤ limits.maxInputLen) : Program.parse limits p.render = .ok p := by
  obtain ⟨ts, hseg, hts⟩ := p.expression.spells_render hlex 0
  refine parse_eq_ok_iff.2 ⟨hlen, ts, 0, hseg, ?_, ?_⟩
  · simpa [Shape.groups] using hts
  · rwa [Nat.zero_add]

/-- **A parsed program is parsed from its own text under the same limits,** unless that text exceeds
`maxInputLen`. -/
theorem parse_render_of_parse (h : Program.parse limits text = .ok p) :
    Program.parse limits p.render =
      if p.render.length ≤ limits.maxInputLen then .ok p
      else .error (.inputTooLong p.render.length limits.maxInputLen) := by
  by_cases hlen : p.render.length ≤ limits.maxInputLen
  · rw [if_pos hlen]
    exact parse_render_of_isLexeme (isLexeme_flat_of_parse h) (depth_le_of_parse h) hlen
  · rw [if_neg hlen]
    exact parse_of_length_lt (Nat.lt_of_not_le hlen)

/-- Groups leave no trace in the tree. -/
theorem parse_render_without_groups :
    Program.parse ⟨3, 14⟩ "((f(\"a\",\"b\")))" =
      .ok ⟨⟨"f", [.literal ⟨"a"⟩, .literal ⟨"b"⟩]⟩⟩ ∧
    Program.parse ⟨3, 14⟩ (Program.render ⟨⟨"f", [.literal ⟨"a"⟩, .literal ⟨"b"⟩]⟩⟩) =
      .ok ⟨⟨"f", [.literal ⟨"a"⟩, .literal ⟨"b"⟩]⟩⟩ := by
  have h : Program.parse ⟨3, 14⟩ "((f(\"a\",\"b\")))" =
      .ok ⟨⟨"f", [.literal ⟨"a"⟩, .literal ⟨"b"⟩]⟩⟩ := by decide +kernel
  have hrender := parse_render_of_parse h
  rw [if_pos (by decide)] at hrender
  exact ⟨h, hrender⟩

/-- The exception occurs: `f("a","b")` has ten characters, and eleven with the blank of `render`. -/
theorem not_parse_render_of_parse :
    ¬ ∀ (limits : Limits) (text : String) (p : Program), Program.parse limits text = .ok p →
      Program.parse limits p.render = .ok p := by
  intro h
  have hread : Program.parse ⟨1, 10⟩ "f(\"a\",\"b\")" =
      .ok ⟨⟨"f", [.literal ⟨"a"⟩, .literal ⟨"b"⟩]⟩⟩ := by decide +kernel
  have hlong : Program.parse ⟨1, 10⟩ (Program.render ⟨⟨"f", [.literal ⟨"a"⟩, .literal ⟨"b"⟩]⟩⟩) =
      .error (.inputTooLong 11 10) := by decide +kernel
  have hagain := h _ _ _ hread
  rw [hlong] at hagain
  cases hagain

theorem extent_flat_le_of_parse (h : Program.parse limits text = .ok p) :
    Shape.extent p.expression.flat ≤ text.length := by
  obtain ⟨-, ts, k, hseg, hts, -⟩ := parse_eq_ok_iff.1 h
  have hle := hseg.extent_le
  rw [hts, Shape.groups, Shape.extent_append, Shape.extent_append, String.length_toList] at hle
  omega

/-- The tokens of the canonical text are among those of the text. -/
theorem length_render_le_of_parse (h : Program.parse limits text = .ok p) :
    p.render.length ≤ text.length + p.expression.separators := by
  rw [Program.render, Call.length_render]
  exact Nat.add_le_add_right (extent_flat_le_of_parse h) _

/-- **Guarantees of a parsed program:** well-formed names, `isEscapeClosed` values, depth within the
limit, and a `render` no longer than the text with a blank for each separator. -/
theorem guarantees_of_parse (h : Program.parse limits text = .ok p) :
    p.isWellFormed = true ∧
      (∀ v ∈ p.expression.values, isEscapeClosed v.toList = true) ∧
      p.expression.depth ≤ limits.maxDepth ∧
      p.render.length ≤ text.length + p.expression.separators := by
  obtain ⟨hnames, hvalues⟩ := p.expression.isLexeme_flat_iff.1 (isLexeme_flat_of_parse h)
  exact ⟨hnames, hvalues, depth_le_of_parse h, length_render_le_of_parse h⟩

theorem guarantees_of_dense :
    ∃ p, Program.parse ⟨2, 11⟩ "f(g(),\"\\\"\")" = .ok p ∧ p.isWellFormed = true ∧
      (∀ v ∈ p.expression.values, isEscapeClosed v.toList = true) ∧ p.expression.depth ≤ 2 ∧
      p.render.length ≤ 11 + p.expression.separators := by
  have h : Program.parse ⟨2, 11⟩ "f(g(),\"\\\"\")" =
      .ok ⟨⟨"f", [.call ⟨"g", []⟩, .literal ⟨"\\\""⟩]⟩⟩ := by decide +kernel
  exact ⟨_, h, guarantees_of_parse h⟩

end Program

end FilterLang
