import FilterLang.Proofs.Tree.Flat
import FilterLang.Tree.Text

/-!
# The canonical text of a tree

* `Call.values` : the values of the literals of a tree;
* `Call.isLexeme_flat_iff` : the shapes of a tree are lexemes iff the tree is well-formed and its
  values are `isEscapeClosed`;
* `Call.spells_render` : then `render` spells `flat`;
* `Token.Shape.width`, `Token.Shape.extent` : the length of the spellings of shapes;
* `Segmented.extent_le` : no text is shorter than the spellings of its tokens;
* `Call.length_render` : the length of `render` is the extent of `flat` and one blank a separator.
-/

namespace FilterLang

/-! ## Tokens -/

open Token.Shape

mutual

def Call.values : Call → List String
  | ⟨_, args⟩ => Argument.valuesList args

def Argument.values : Argument → List String
  | .literal lit => [lit.value]
  | .call c => c.values

def Argument.valuesList : List Argument → List String
  | [] => []
  | arg :: args => arg.values ++ Argument.valuesList args

end

mutual

/-- The tokens of a call are lexemes if and only if it is well-formed with values that are closed under escapes. -/
theorem Call.isLexeme_flat_iff (c : Call) :
    (∀ s ∈ c.flat, s.IsLexeme) ↔
      c.isWellFormed = true ∧ ∀ v ∈ c.values, isEscapeClosed v.toList = true :=
  match c with
  | ⟨n, []⟩ => by
    simp [Call.flat, Call.isWellFormed, Argument.allWellFormed, Call.values, Argument.valuesList,
      isLexeme_word, isLexeme_lparen, isLexeme_rparen]
  | ⟨n, arg :: args⟩ => by
    have harg := Argument.isLexeme_flat_iff arg
    have hargs := Argument.isLexeme_flatMore_iff args
    simp only [Call.flat, List.forall_mem_cons, List.forall_mem_append, isLexeme_word,
      isLexeme_lparen, harg, hargs, Call.isWellFormed, Argument.allWellFormed, Call.values,
      Argument.valuesList, Bool.and_eq_true, true_and]
    exact (and_congr_right' and_and_and_comm).trans and_assoc.symm

theorem Argument.isLexeme_flat_iff (arg : Argument) :
    (∀ s ∈ arg.flat, s.IsLexeme) ↔
      arg.isWellFormed = true ∧ ∀ v ∈ arg.values, isEscapeClosed v.toList = true :=
  match arg with
  | .literal lit => by
    simp [Argument.flat, Argument.isWellFormed, Argument.values, isLexeme_quoted]
  | .call c => Call.isLexeme_flat_iff c

theorem Argument.isLexeme_flatMore_iff (args : List Argument) :
    (∀ s ∈ Argument.flatMore args, s.IsLexeme) ↔
      Argument.allWellFormed args = true ∧
        ∀ v ∈ Argument.valuesList args, isEscapeClosed v.toList = true :=
  match args with
  | [] => by
    simp [Argument.flatMore, Argument.allWellFormed, Argument.valuesList, isLexeme_rparen]
  | arg :: args => by
    have harg := Argument.isLexeme_flat_iff arg
    have hargs := Argument.isLexeme_flatMore_iff args
    simp only [Argument.flatMore, List.forall_mem_cons, List.forall_mem_append, isLexeme_comma,
      harg, hargs, Argument.allWellFormed, Argument.valuesList, Bool.and_eq_true, true_and]
    exact and_and_and_comm

end

theorem Call.toList_render_nil (n : String) :
    (Call.render ⟨n, []⟩).toList = n.toList ++ (['('] ++ [')']) := by
  simp [Call.render, Call.renderOnto]

/-- The text of the arguments after the first, with the closing parenthesis. -/
def Argument.renderMore (args : List Argument) : List Char :=
  (Argument.renderMoreOnto "" args).toList ++ [')']

theorem Argument.toList_renderMoreOnto (out : String) (args : List Argument) :
    (Argument.renderMoreOnto out args).toList ++ [')'] = out.toList ++ Argument.renderMore args := by
  have h := Argument.renderMoreOnto_append out "" args
  rw [String.append_empty] at h
  rw [h, String.toList_append, List.append_assoc, Argument.renderMore]

theorem Argument.renderMore_cons (arg : Argument) (args : List Argument) :
    Argument.renderMore (arg :: args) =
      [','] ++ ' ' :: (arg.render.toList ++ Argument.renderMore args) := by
  rw [Argument.renderMore, Argument.renderMoreOnto, Argument.toList_renderMoreOnto,
    Argument.renderOnto_eq]
  simp

theorem Call.toList_render_cons (n : String) (arg : Argument) (args : List Argument) :
    (Call.render ⟨n, arg :: args⟩).toList =
      n.toList ++ (['('] ++ (arg.render.toList ++ Argument.renderMore args)) := by
  rw [Call.render, Call.renderOnto, String.toList_push, Argument.toList_renderMoreOnto,
    Argument.renderOnto_eq]
  simp

theorem Argument.apart_renderMore (a : List Char) (args : List Argument) :
    Apart a (Argument.renderMore args) := by
  cases args with
  | nil => exact apart_cons (by decide) a []
  | cons arg args =>
    rw [Argument.renderMore_cons]
    exact apart_cons (by decide) a _

mutual

/-- The canonical text is cut into the tokens of the call. -/
theorem Call.spells_render (c : Call) (h : ∀ s ∈ c.flat, s.IsLexeme) :
    Spells c.render.toList c.flat :=
  match c with
  | ⟨n, []⟩ => by
    obtain ⟨hn, -⟩ := List.forall_mem_cons.1 h
    have hparens : Spells (['('] ++ [')']) ([lparen] ++ [rparen]) :=
      (spells_single isLexeme_lparen).append (spells_single isLexeme_rparen)
        (apart_single (by decide) _)
    rw [Call.toList_render_nil]
    exact (spells_single hn).append hparens (apart_cons (by decide) _ _)
  | ⟨n, arg :: args⟩ => by
    obtain ⟨hn, htail⟩ := List.forall_mem_cons.1 h
    obtain ⟨hargs, hmore⟩ := List.forall_mem_append.1 (List.forall_mem_cons.1 htail).2
    have hinside := (Argument.spells_render arg hargs).append
      (Argument.spells_renderMore args hmore) (Argument.apart_renderMore _ args)
    rw [Call.toList_render_cons]
    exact (spells_single hn).append
      ((spells_single isLexeme_lparen).append hinside (apart_single (by decide) _))
      (apart_cons (by decide) _ _)

theorem Argument.spells_render (arg : Argument) (h : ∀ s ∈ arg.flat, s.IsLexeme) :
    Spells arg.render.toList arg.flat :=
  match arg with
  | .literal lit => by
    have hspelling : (Argument.render (.literal lit)).toList =
        ((quoted lit.value).token 0).spelling := by
      rw [Token.spelling_of_eq rfl, Argument.render, Argument.renderOnto, ← Literal.render,
        Literal.render_eq]
      simp [Token.Shape.token]
    rw [hspelling]
    exact spells_single (h _ (List.mem_singleton.2 rfl))
  | .call c => Call.spells_render c h

theorem Argument.spells_renderMore (args : List Argument)
    (h : ∀ s ∈ Argument.flatMore args, s.IsLexeme) :
    Spells (Argument.renderMore args) (Argument.flatMore args) :=
  match args with
  | [] => spells_single isLexeme_rparen
  | arg :: args => by
    obtain ⟨-, htail⟩ := List.forall_mem_cons.1 h
    obtain ⟨hargs, hmore⟩ := List.forall_mem_append.1 htail
    have hinside := (Argument.spells_render arg hargs).append
      (Argument.spells_renderMore args hmore) (Argument.apart_renderMore _ args)
    rw [Argument.renderMore_cons]
    exact (spells_single isLexeme_comma).append hinside.blank (apart_single (by decide) _)

end

/-! ## Length -/

namespace Token.Shape

def width (s : Shape) : Nat := (s.token 0).spelling.length

/-- The number of characters of these tokens, without blanks between them. -/
def extent : List Shape → Nat
  | [] => 0
  | s :: shapes => s.width + extent shapes

theorem width_word (n : String) : (word n).width = n.toList.length := rfl

theorem width_quoted (v : String) : (quoted v).width = v.toList.length + 2 := by
  rw [width, Token.spelling_of_eq rfl]
  simp [token]

theorem width_lparen : lparen.width = 1 := rfl

theorem width_rparen : rparen.width = 1 := rfl

theorem width_comma : comma.width = 1 := rfl

@[simp] theorem extent_nil : extent [] = 0 := rfl

@[simp] theorem extent_cons (s : Shape) (shapes : List Shape) :
    extent (s :: shapes) = s.width + extent shapes := rfl

@[simp] theorem extent_append (shapes more : List Shape) :
    extent (shapes ++ more) = extent shapes + extent more := by
  induction shapes with
  | nil => simp
  | cons s shapes ih => simp [ih, Nat.add_assoc]

end Token.Shape

open Token (Shape)

theorem Token.width_shape (t : Token) : t.shape.width = t.spelling.length := rfl

theorem Segmented.extent_le {n : Nat} {cs : List Char} {ts : List Token}
    {failure? : Option LexicalError} (h : Segmented n cs ts failure?) :
    extent (ts.map Token.shape) ≤ cs.length := by
  induction h with
  | blank _ => exact Nat.zero_le _
  | unclosed _ _ => exact Nat.zero_le _
  | @token n w cs t ts _ hw ht hp hstop hcs ih =>
    rw [List.map_cons, extent_cons, Token.width_shape, List.length_append, List.length_append]
    omega

mutual

theorem Call.length_toList_render (c : Call) :
    c.render.toList.length = extent c.flat + Node.allSeparators c.nodes :=
  match c with
  | ⟨n, []⟩ => by
    rw [Call.toList_render_nil]
    simp [Call.flat, Call.nodes, Argument.nodesList, Node.separators, width_word, width_lparen,
      width_rparen]
  | ⟨n, arg :: args⟩ => by
    have harg := Argument.length_toList_render n arg
    have hargs := Argument.length_renderMore n args
    rw [Call.toList_render_cons]
    simp only [List.length_append, List.length_cons, List.length_nil, harg, hargs, Call.flat,
      Call.nodes, Argument.nodesList, extent_cons, extent_append, width_word, width_lparen,
      Node.allSeparators_append, Node.allSeparators_cons, Node.allSeparators_nil, Node.separators]
    omega

theorem Argument.length_toList_render (enclosing : String) (arg : Argument) :
    arg.render.toList.length =
      extent arg.flat + Node.allSeparators (arg.nodes enclosing) :=
  match arg with
  | .literal lit => by
    rw [Argument.render, Argument.renderOnto, ← Literal.render, Literal.render_eq]
    simp [Argument.flat, Argument.nodes, width_quoted, Node.separators]
  | .call c => Call.length_toList_render c

theorem Argument.length_renderMore (enclosing : String) (args : List Argument) :
    (Argument.renderMore args).length =
      extent (Argument.flatMore args) +
        (Node.allSeparators (Argument.nodesList enclosing args) + args.length) :=
  match args with
  | [] => rfl
  | arg :: args => by
    have harg := Argument.length_toList_render enclosing arg
    have hargs := Argument.length_renderMore enclosing args
    rw [Argument.renderMore_cons]
    simp only [List.length_append, List.length_cons, List.length_nil, harg, hargs,
      Argument.flatMore, Argument.nodesList, extent_cons, extent_append, width_comma,
      Node.allSeparators_append]
    omega

end

/-- The canonical text has one blank for each separator. -/
theorem Call.length_render (c : Call) : c.render.length = extent c.flat + c.separators := by
  rw [← String.length_toList]
  exact c.length_toList_render

end FilterLang
