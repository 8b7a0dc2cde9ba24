import FilterLang.Draft
import FilterLang.Proofs.Token.Shape
import FilterLang.Tree

/-!
# Trees as sequences, and the grammar

* `Call.flat`, `Argument.flat` : the shapes of the tokens of a tree (`Call.flat_eq`);
* `OpenCall.flat`, `OpenCall.flatAll` : the same for calls whose next argument is still to come
  (`OpenCall.flat_add_close`, `OpenCall.exists_flat_eq`);
* `Call.depth_le_iff` : the depth of a call from those of its arguments;
* `Symbol`, `Derives` : the context-free grammar; `derives_program_iff` : its sentences are the
  `flat` of a call in groups, followed by `eof`;
* `Viable ts` : `ts` is a prefix of a sentence;
* `Node`, `Call.nodes` : the literals and calls of a tree in post-order (`Call.nodes_eq`);
* `Call.separators` : the number of commas in a tree.
-/

namespace FilterLang

open Token.Shape (word quoted lparen rparen comma)

mutual

/-- The shapes of the tokens of a call. -/
def Call.flat : Call → List Token.Shape
  | ⟨n, []⟩ => [word n, lparen, rparen]
  | ⟨n, arg :: args⟩ => word n :: lparen :: (arg.flat ++ Argument.flatMore args)

def Argument.flat : Argument → List Token.Shape
  | .literal lit => [quoted lit.value]
  | .call c => c.flat

/-- Arguments after the first, with the comma before each, and the closing parenthesis. -/
def Argument.flatMore : List Argument → List Token.Shape
  | [] => [rparen]
  | arg :: args => comma :: (arg.flat ++ Argument.flatMore args)

end

theorem Argument.flatMore_eq (first : List Token.Shape) (args : List Argument) :
    first ++ Argument.flatMore args =
      [comma].intercalate (first :: args.map Argument.flat) ++ [rparen] := by
  induction args generalizing first with
  | nil => simp [Argument.flatMore]
  | cons arg args ih =>
    rw [Argument.flatMore, ih]
    simp

theorem Call.flat_eq (c : Call) :
    c.flat = word c.name :: lparen :: ([comma].intercalate (c.args.map Argument.flat) ++ [rparen]) := by
  obtain ⟨n, args⟩ := c
  cases args with
  | nil => simp [Call.flat]
  | cons arg args => rw [Call.flat, Argument.flatMore_eq, List.map_cons]

theorem foldl_max_le_iff {ns : List Nat} {seen n : Nat} :
    ns.foldl max seen ≤ n ↔ seen ≤ n ∧ ∀ m ∈ ns, m ≤ n := by
  induction ns generalizing seen with
  | nil => simp
  | cons m ns ih => rw [List.foldl_cons, ih, Nat.max_le, and_assoc, List.forall_mem_cons]

/-- A bound on the depth, by the arguments. -/
theorem Call.depth_le_iff {c : Call} {n : Nat} :
    c.depth ≤ n + 1 ↔ ∀ arg ∈ c.args, arg.depth ≤ n := by
  have hmax : c.depth ≤ n + 1 ↔ (c.args.map Argument.depth).foldl max 0 ≤ n := by
    rw [Call.depth_eq]
    omega
  rw [hmax, foldl_max_le_iff]
  simp

theorem Call.depth_pos (c : Call) : 0 < c.depth := by
  rw [Call.depth_eq]
  omega

/-! ## Open calls -/

/-- The tokens of an open call, up to the position of its next argument. -/
def OpenCall.flat (c : OpenCall) : List Token.Shape :=
  word c.name :: lparen :: c.args.reverse.flatMap fun arg => arg.flat ++ [comma]

theorem Argument.flatMore_append (args : List Argument) (last : Argument) :
    Argument.flatMore (args ++ [last]) =
      comma :: (args.flatMap (fun arg => arg.flat ++ [comma]) ++ (last.flat ++ [rparen])) := by
  induction args with
  | nil => simp [Argument.flatMore]
  | cons arg args ih =>
    rw [List.cons_append, Argument.flatMore, ih]
    simp

theorem OpenCall.flat_add_close (c : OpenCall) (arg : Argument) :
    (c.add arg).close.flat = c.flat ++ (arg.flat ++ [rparen]) := by
  obtain ⟨n, args⟩ := c
  simp only [OpenCall.add, OpenCall.close, List.reverse_cons, OpenCall.flat]
  cases args.reverse with
  | nil => simp [Call.flat, Argument.flatMore]
  | cons first args =>
    rw [List.cons_append, Call.flat, Argument.flatMore_append]
    simp

theorem OpenCall.flat_add (c : OpenCall) (arg : Argument) :
    (c.add arg).flat = c.flat ++ (arg.flat ++ [comma]) := by
  simp [OpenCall.add, OpenCall.flat]

theorem OpenCall.flat_close_nil (n : String) :
    (OpenCall.close ⟨n, []⟩).flat = OpenCall.flat ⟨n, []⟩ ++ [rparen] := by
  simp [OpenCall.close, OpenCall.flat, Call.flat]

/-- The tokens of the open calls, which are given innermost first. -/
def OpenCall.flatAll (calls : List OpenCall) : List Token.Shape :=
  calls.reverse.flatMap OpenCall.flat

@[simp] theorem OpenCall.flatAll_nil : OpenCall.flatAll [] = [] := rfl

@[simp] theorem OpenCall.flatAll_cons (c : OpenCall) (outer : List OpenCall) :
    OpenCall.flatAll (c :: outer) = OpenCall.flatAll outer ++ c.flat := by
  simp [OpenCall.flatAll]

/-- Open calls around a call are completed by closing parentheses. -/
theorem OpenCall.exists_flat_eq (outer : List OpenCall) (c : Call) :
    ∃ e : Call, e.flat = OpenCall.flatAll outer ++ (c.flat ++ List.replicate outer.length rparen) := by
  induction outer generalizing c with
  | nil => exact ⟨c, by simp⟩
  | cons call outer ih =>
    obtain ⟨e, he⟩ := ih (call.add (.call c)).close
    refine ⟨e, ?_⟩
    rw [he, OpenCall.flat_add_close]
    simp [Argument.flat, List.replicate_succ]

/-! ## The grammar -/

open Token (Shape)
open Token.Shape (eof)

inductive Symbol
  | program
  | expression
  | call
  | arguments
  | argument

/-- Derivations of the grammar, with one rule for each production. -/
inductive Derives : Symbol → List Shape → Prop
  | program {s : List Shape} (h : Derives .expression s) : Derives .program (s ++ [eof])
  | expression {s : List Shape} (h : Derives .call s) : Derives .expression s
  | group {s : List Shape} (h : Derives .expression s) :
      Derives .expression (lparen :: (s ++ [rparen]))
  | bare (n : String) : Derives .call [word n, lparen, rparen]
  | call (n : String) {s : List Shape} (h : Derives .arguments s) :
      Derives .call (word n :: lparen :: (s ++ [rparen]))
  | last {s : List Shape} (h : Derives .argument s) : Derives .arguments s
  | more {s more : List Shape} (h : Derives .argument s) (hmore : Derives .arguments more) :
      Derives .arguments (s ++ comma :: more)
  | literal (v : String) : Derives .argument [quoted v]
  | nested {s : List Shape} (h : Derives .call s) : Derives .argument s

/-! ### Soundness -/

theorem Token.Shape.groups_succ (k : Nat) (s : List Shape) :
    Shape.groups (k + 1) s = lparen :: (Shape.groups k s ++ [rparen]) := by
  simp only [Shape.groups, List.replicate_succ, List.cons_append, List.append_assoc]
  rw [← List.replicate_succ', List.replicate_succ]

/-- The language of each symbol, in terms of trees. -/
def Symbol.Spelled : Symbol → List Shape → Prop
  | program, s => ∃ k, ∃ c : Call, s = Shape.groups k c.flat ++ [eof]
  | expression, s => ∃ k, ∃ c : Call, s = Shape.groups k c.flat
  | call, s => ∃ c : Call, s = c.flat
  | arguments, s => ∃ (first : Argument) (args : List Argument),
      s = [comma].intercalate ((first :: args).map Argument.flat)
  | argument, s => ∃ arg : Argument, s = arg.flat

/-- Derived shapes satisfy `Spelled`, by induction on the derivation. -/
theorem Derives.spelled {symbol : Symbol} {s : List Shape} (h : Derives symbol s) :
    symbol.Spelled s := by
  induction h with
  | program _ ih =>
    obtain ⟨k, c, rfl⟩ := ih
    exact ⟨k, c, rfl⟩
  | expression _ ih =>
    obtain ⟨c, rfl⟩ := ih
    exact ⟨0, c, by simp [Shape.groups]⟩
  | group _ ih =>
    obtain ⟨k, c, rfl⟩ := ih
    exact ⟨k + 1, c, (Shape.groups_succ k c.flat).symm⟩
  | bare n => exact ⟨⟨n, []⟩, (Call.flat_eq ⟨n, []⟩).symm⟩
  | call n _ ih =>
    obtain ⟨first, args, rfl⟩ := ih
    exact ⟨⟨n, first :: args⟩, (Call.flat_eq ⟨n, first :: args⟩).symm⟩
  | last _ ih =>
    obtain ⟨arg, rfl⟩ := ih
    exact ⟨arg, [], by simp⟩
  | more _ _ ih ihMore =>
    obtain ⟨arg, rfl⟩ := ih
    obtain ⟨first, args, rfl⟩ := ihMore
    refine ⟨arg, first :: args, ?_⟩
    simp [List.intercalate_cons_cons]
  | literal v => exact ⟨.literal ⟨v⟩, rfl⟩
  | nested _ ih =>
    obtain ⟨c, rfl⟩ := ih
    exact ⟨.call c, rfl⟩

/-! ### Completeness -/

mutual

/-- Completeness: the shapes of every call are derived. -/
theorem Call.derives_flat (c : Call) : Derives .call c.flat :=
  match c with
  | ⟨n, []⟩ => .bare n
  | ⟨n, arg :: args⟩ => by
    obtain ⟨inside, hinside, hargs⟩ := Argument.derives_flatMore args arg.derives_flat
    rw [Call.flat, hinside]
    exact .call n hargs

theorem Argument.derives_flat (arg : Argument) : Derives .argument arg.flat :=
  match arg with
  | .literal lit => .literal lit.value
  | .call c => .nested c.derives_flat

theorem Argument.derives_flatMore (args : List Argument) {s : List Shape}
    (hs : Derives .argument s) :
    ∃ inside, s ++ Argument.flatMore args = inside ++ [rparen] ∧ Derives .arguments inside :=
  match args with
  | [] => ⟨s, rfl, .last hs⟩
  | arg :: args => by
    obtain ⟨inside, hinside, hargs⟩ := Argument.derives_flatMore args arg.derives_flat
    refine ⟨s ++ comma :: inside, ?_, .more hs hargs⟩
    rw [Argument.flatMore, hinside, List.append_assoc, List.cons_append]

end

theorem derives_groups (k : Nat) (c : Call) : Derives .expression (Shape.groups k c.flat) := by
  induction k with
  | zero => simpa [Shape.groups] using Derives.expression c.derives_flat
  | succ k ih =>
    rw [Shape.groups_succ]
    exact .group ih

/-- The sentences of the grammar are the calls in any number of groups. -/
theorem derives_program_iff {s : List Shape} :
    Derives .program s ↔ ∃ k, ∃ c : Call, s = Shape.groups k c.flat ++ [eof] := by
  constructor
  · exact Derives.spelled
  · rintro ⟨k, c, rfl⟩
    exact .program (derives_groups k c)

/-- Some sentence begins with the shapes of `ts`. -/
def Viable (ts : List Token) : Prop := ∃ rest, Derives .program (ts.map Token.shape ++ rest)

/-! ## Nodes in post-order -/

/-- A node of a tree, as a backend visits it. -/
inductive Node
  /-- A literal, with the name of the call around it. -/
  | literal (enclosing value : String)
  | call (name : String) (arity : Nat)
  deriving DecidableEq

mutual

/-- The nodes of the arguments from left to right, then the call itself. -/
def Call.nodes : Call → List Node
  | ⟨name, args⟩ => Argument.nodesList name args ++ [.call name args.length]

def Argument.nodes (enclosing : String) : Argument → List Node
  | .literal lit => [.literal enclosing lit.value]
  | .call c => c.nodes

def Argument.nodesList (enclosing : String) : List Argument → List Node
  | [] => []
  | arg :: args => arg.nodes enclosing ++ Argument.nodesList enclosing args

end

def Program.nodes (p : Program) : List Node := p.expression.nodes

theorem Argument.nodesList_eq (enclosing : String) (args : List Argument) :
    Argument.nodesList enclosing args = args.flatMap (Argument.nodes enclosing) := by
  induction args with
  | nil => rfl
  | cons arg args ih => rw [Argument.nodesList, ih, List.flatMap_cons]

theorem Call.nodes_eq (c : Call) :
    c.nodes = c.args.flatMap (Argument.nodes c.name) ++ [.call c.name c.args.length] := by
  cases c
  rw [Call.nodes, Argument.nodesList_eq]

/-! ### Separators -/

/-- The number of commas between the arguments of the node. -/
def Node.separators : Node → Nat
  | .literal _ _ => 0
  | .call _ arity => arity - 1

def Node.allSeparators : List Node → Nat
  | [] => 0
  | node :: nodes => node.separators + Node.allSeparators nodes

@[simp] theorem Node.allSeparators_nil : Node.allSeparators [] = 0 := rfl

@[simp] theorem Node.allSeparators_cons (node : Node) (nodes : List Node) :
    Node.allSeparators (node :: nodes) = node.separators + Node.allSeparators nodes := rfl

@[simp] theorem Node.allSeparators_append (nodes more : List Node) :
    Node.allSeparators (nodes ++ more) = Node.allSeparators nodes + Node.allSeparators more := by
  induction nodes with
  | nil => simp
  | cons node nodes ih => simp [ih, Nat.add_assoc]

def Call.separators (c : Call) : Nat := Node.allSeparators c.nodes

end FilterLang
