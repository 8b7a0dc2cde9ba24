import FilterLang.Tree

/-!
# Backends

* `Backend m α` : an interpretation of literals and calls in `α` with effects in `m`;
* `Program.translate` : the tree interpreted, arguments from left to right and before their call
  (`Call.translate_eq`).
-/

namespace FilterLang

universe u v

structure Backend (m : Type u → Type v) (α : Type u) where
  /-- The name of the call and its arguments, interpreted. -/
  call : String → List α → m α
  /-- The name of the enclosing call and the value. -/
  literal : String → String → m α

variable {m : Type u → Type v} {α : Type u} [Monad m]

mutual

def Call.translate (b : Backend m α) : Call → m α
  | ⟨name, args⟩ => do b.call name (← Argument.translateList b name [] args)

/-- Interprets an argument of a call named `enclosing`. -/
def Argument.translate (b : Backend m α) (enclosing : String) : Argument → m α
  | .literal lit => b.literal enclosing lit.value
  | .call c => c.translate b

/-- Interprets the arguments behind `done`, a reversed list. -/
def Argument.translateList (b : Backend m α) (enclosing : String) (done : List α) :
    List Argument → m (List α)
  | [] => pure done.reverse
  | arg :: args => do
    Argument.translateList b enclosing ((← arg.translate b enclosing) :: done) args

end

def Program.translate (b : Backend m α) (p : Program) : m α := p.expression.translate b

theorem Argument.translateList_eq [LawfulMonad m] (b : Backend m α) (enclosing : String)
    (done : List α) (args : List Argument) :
    Argument.translateList b enclosing done args =
      (done.reverse ++ ·) <$> args.mapM (Argument.translate b enclosing) := by
  induction args generalizing done with
  | nil => simp [Argument.translateList]
  | cons arg args ih => simp [Argument.translateList, ih]

theorem Call.translate_eq [LawfulMonad m] (b : Backend m α) (c : Call) :
    c.translate b = c.args.mapM (Argument.translate b c.name) >>= b.call c.name := by
  cases c
  simp [Call.translate, Argument.translateList_eq]

end FilterLang
