import FilterLang.Tree

/-!
# Trees as text

* `Program.render`, `Call.render`, `Argument.render`, `Literal.render` : the canonical text, with a comma and a blank
  between arguments and the values of literals unescaped (`Call.render_eq`, `Literal.render_eq`).
-/

namespace FilterLang

def Literal.renderOnto (out : String) (lit : Literal) : String :=
  (out.push '"' ++ lit.value).push '"'

mutual

/-- `out` followed by the canonical text of the call. -/
def Call.renderOnto (out : String) : Call → String
  | ⟨name, []⟩ => ((out ++ name).push '(').push ')'
  | ⟨name, arg :: args⟩ =>
    (Argument.renderMoreOnto (arg.renderOnto ((out ++ name).push '(')) args).push ')'

def Argument.renderOnto (out : String) : Argument → String
  | .literal lit => lit.renderOnto out
  | .call c => c.renderOnto out

def Argument.renderMoreOnto (out : String) : List Argument → String
  | [] => out
  | arg :: args => Argument.renderMoreOnto (arg.renderOnto (out ++ ", ")) args

end

def Literal.render (lit : Literal) : String := lit.renderOnto ""

def Call.render (c : Call) : String := c.renderOnto ""

def Argument.render (arg : Argument) : String := arg.renderOnto ""

def Program.render (p : Program) : String := p.expression.render

/-! ## Rendering onto a text appends -/

mutual

theorem Call.renderOnto_append (out s : String) :
    ∀ c : Call, c.renderOnto (out ++ s) = out ++ c.renderOnto s
  | ⟨name, []⟩ => by simp [Call.renderOnto, String.push_eq_append, String.append_assoc]
  | ⟨name, arg :: args⟩ => by
    simp only [Call.renderOnto, String.push_eq_append, String.append_assoc,
      Argument.renderOnto_append out _ arg, Argument.renderMoreOnto_append out _ args]

theorem Argument.renderOnto_append (out s : String) :
    ∀ arg : Argument, arg.renderOnto (out ++ s) = out ++ arg.renderOnto s
  | .literal lit => by
    simp [Argument.renderOnto, Literal.renderOnto, String.push_eq_append, String.append_assoc]
  | .call c => by
    rw [Argument.renderOnto, Argument.renderOnto, Call.renderOnto_append out s c]

theorem Argument.renderMoreOnto_append (out s : String) :
    ∀ args : List Argument,
      Argument.renderMoreOnto (out ++ s) args = out ++ Argument.renderMoreOnto s args
  | [] => rfl
  | arg :: args => by
    rw [Argument.renderMoreOnto, Argument.renderMoreOnto, String.append_assoc,
      Argument.renderOnto_append out _ arg, Argument.renderMoreOnto_append out _ args]

end

theorem Argument.renderOnto_eq (out : String) (arg : Argument) :
    arg.renderOnto out = out ++ arg.render := by
  simpa [Argument.render] using Argument.renderOnto_append out "" arg

theorem Argument.renderMoreOnto_eq (first : String) (args : List Argument) :
    Argument.renderMoreOnto first args = ", ".intercalate (first :: args.map Argument.render) := by
  induction args generalizing first with
  | nil => simp [Argument.renderMoreOnto]
  | cons arg args ih =>
    rw [Argument.renderMoreOnto, Argument.renderOnto_eq, ih]
    simp [String.append_assoc]

theorem Call.render_eq (c : Call) :
    c.render = c.name ++ "(" ++ ", ".intercalate (c.args.map Argument.render) ++ ")" := by
  obtain ⟨name, args⟩ := c
  cases args with
  | nil => simp [Call.render, Call.renderOnto, String.push_eq_append]
  | cons arg args =>
    simp [Call.render, Call.renderOnto, Argument.renderOnto_eq, Argument.renderMoreOnto_eq,
      String.push_eq_append]

theorem Literal.render_eq (lit : Literal) : lit.render = "\"" ++ lit.value ++ "\"" := by
  simp [Literal.render, Literal.renderOnto, String.push_eq_append]

end FilterLang
