/-!
# Expression trees

* `Literal`, `Call`, `Argument`, `Program` : a program is one call; groups leave no trace;
* `Call.depth` : one more than the greatest depth of an argument (`Call.depth_eq`);
* `Call.isWellFormed` : every name in the tree is one or more ASCII letters (`Call.isWellFormed_iff`);
* `Call.calls`, `Call.literals` : the arguments of either kind, in order;
* decidable equality of trees.

A tree that is built by hand or decoded need not be well-formed.
-/

namespace FilterLang

/-- A string literal without its quotes. Backslashes are kept. -/
structure Literal where
  value : String
  deriving DecidableEq

mutual

structure Call where
  name : String
  args : List Argument

inductive Argument where
  | literal (literal : Literal)
  | call (call : Call)

end

namespace Call

def calls (c : Call) : List Call :=
  c.args.filterMap fun
    | .call inner => some inner
    | .literal _ => none

def literals (c : Call) : List Literal :=
  c.args.filterMap fun
    | .literal lit => some lit
    | .call _ => none

end Call

/-! ## Nesting -/

mutual

/-- The number of calls on the longest path. -/
def Call.depth : Call → Nat
  | ⟨_, args⟩ => 1 + Argument.deepest 0 args

def Argument.depth : Argument → Nat
  | .literal _ => 0
  | .call c => c.depth

/-- The maximum of `seen` and the depths of the arguments. -/
def Argument.deepest (seen : Nat) : List Argument → Nat
  | [] => seen
  | arg :: args => Argument.deepest (max seen arg.depth) args

end

theorem Argument.deepest_eq (seen : Nat) (args : List Argument) :
    Argument.deepest seen args = (args.map Argument.depth).foldl max seen := by
  induction args generalizing seen with
  | nil => rfl
  | cons arg args ih => simp [Argument.deepest, ih]

theorem Call.depth_eq (c : Call) : c.depth = 1 + (c.args.map Argument.depth).foldl max 0 := by
  cases c
  rw [Call.depth, Argument.deepest_eq]

/-! ## Well-formed trees -/

/-- One or more ASCII letters. -/
def isName (s : String) : Bool := !s.toList.isEmpty && s.toList.all Char.isAlpha

mutual

def Call.isWellFormed : Call → Bool
  | ⟨name, args⟩ => isName name && Argument.allWellFormed args

def Argument.isWellFormed : Argument → Bool
  | .literal _ => true
  | .call c => c.isWellFormed

def Argument.allWellFormed : List Argument → Bool
  | [] => true
  | arg :: args => arg.isWellFormed && Argument.allWellFormed args

end

theorem Argument.allWellFormed_eq (args : List Argument) :
    Argument.allWellFormed args = args.all Argument.isWellFormed := by
  induction args with
  | nil => rfl
  | cons arg args ih => simp [Argument.allWellFormed, ih]

theorem Call.isWellFormed_iff (c : Call) :
    c.isWellFormed = true ↔
      isName c.name = true ∧ ∀ inner ∈ c.calls, inner.isWellFormed = true := by
  obtain ⟨name, args⟩ := c
  simp only [Call.isWellFormed, Argument.allWellFormed_eq, Bool.and_eq_true, List.all_eq_true,
    Call.calls, List.mem_filterMap, forall_exists_index, and_imp]
  refine and_congr_right fun _ => ⟨fun h inner arg harg heq => ?_, fun h arg harg => ?_⟩
  · cases arg with
    | literal lit => simp at heq
    | call c =>
      simp only [Option.some.injEq] at heq
      exact heq ▸ h _ harg
  · cases arg with
    | literal lit => rfl
    | call c => exact h c (.call c) harg rfl

/-! ## Equality -/

mutual

def Call.beq : Call → Call → Bool
  | ⟨name₁, args₁⟩, ⟨name₂, args₂⟩ => name₁ == name₂ && Argument.beqList args₁ args₂

def Argument.beq : Argument → Argument → Bool
  | .literal lit₁, .literal lit₂ => lit₁ == lit₂
  | .call c₁, .call c₂ => c₁.beq c₂
  | _, _ => false

def Argument.beqList : List Argument → List Argument → Bool
  | [], [] => true
  | arg₁ :: args₁, arg₂ :: args₂ => arg₁.beq arg₂ && Argument.beqList args₁ args₂
  | _, _ => false

end

mutual

theorem Call.beq_iff : ∀ c₁ c₂ : Call, c₁.beq c₂ = true ↔ c₁ = c₂
  | ⟨name₁, args₁⟩, ⟨name₂, args₂⟩ => by
    simp [Call.beq, Argument.beqList_iff args₁]

theorem Argument.beq_iff : ∀ arg₁ arg₂ : Argument, arg₁.beq arg₂ = true ↔ arg₁ = arg₂
  | .literal lit₁, .literal lit₂ => by simp [Argument.beq]
  | .call c₁, .call c₂ => by simp [Argument.beq, Call.beq_iff c₁]
  | .literal _, .call _ => by simp [Argument.beq]
  | .call _, .literal _ => by simp [Argument.beq]

theorem Argument.beqList_iff :
    ∀ args₁ args₂ : List Argument, Argument.beqList args₁ args₂ = true ↔ args₁ = args₂
  | [], [] => by simp [Argument.beqList]
  | arg₁ :: args₁, arg₂ :: args₂ => by
    simp [Argument.beqList, Argument.beq_iff arg₁, Argument.beqList_iff args₁]
  | [], _ :: _ => by simp [Argument.beqList]
  | _ :: _, [] => by simp [Argument.beqList]

end

instance : DecidableEq Call := fun c₁ c₂ => decidable_of_iff (c₁.beq c₂ = true) (Call.beq_iff c₁ c₂)

instance : DecidableEq Argument := fun arg₁ arg₂ =>
  decidable_of_iff (arg₁.beq arg₂ = true) (Argument.beq_iff arg₁ arg₂)

/-! ## Programs -/

structure Program where
  expression : Call
  deriving DecidableEq

namespace Program

def depth (p : Program) : Nat := p.expression.depth

def isWellFormed (p : Program) : Bool := p.expression.isWellFormed

end Program

end FilterLang
