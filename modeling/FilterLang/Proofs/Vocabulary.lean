import FilterLang.Proofs.Tree.Flat
import FilterLang.Vocabulary
import FilterLang.Proofs.Token.Segmentation
import Mathlib.Tactic.Tauto

/-!
# Names and values of programs

* `Call.mem_addNames_iff`, `Call.mem_addValues_iff` : one tree adds the names of its calls and the
  values of its literals, and nothing else;
* `mem_foldl_iff` : membership after a fold of additions, from what one of them adds;
* `Call.isWellFormed_iff_nodes` : well-formedness in terms of the names of the nodes;
* `Program.collects_union` : over a list of programs the sets are unions, independent of order and
  repetition.
-/

namespace FilterLang

/-! ## One tree -/

open Std (TreeSet)

variable {n v : String}

theorem Argument.addNames_eq (names : TreeSet String) (name : String) (args : List Argument) :
    Argument.addNames names args = (Call.calls ⟨name, args⟩).foldl Call.addNames names := by
  induction args generalizing names with
  | nil => rfl
  | cons arg args ih =>
    cases arg with
    | literal lit => exact ih names
    | call c => exact ih (c.addNames names)

theorem Call.addNames_eq (names : TreeSet String) (c : Call) :
    c.addNames names = c.calls.foldl Call.addNames (names.insert c.name) := by
  obtain ⟨name, args⟩ := c
  exact Argument.addNames_eq (names.insert name) name args

mutual

/-- The names of a call are those of its nodes; by recursion on the tree, with the arguments. -/
theorem Call.mem_addNames_iff (names : TreeSet String) (c : Call) :
    n ∈ c.addNames names ↔ n ∈ names ∨ ∃ arity, .call n arity ∈ c.nodes :=
  match c with
  | ⟨name, args⟩ => by
    rw [Call.addNames, Argument.mem_addNames_iff _ name args, TreeSet.mem_insert,
      Std.compare_eq_iff_eq]
    simp only [Call.nodes, List.mem_append, List.mem_singleton, Node.call.injEq, exists_or,
      exists_and_left, exists_eq, and_true]
    rw [eq_comm, or_assoc, or_left_comm]
    exact or_congr_right or_comm

theorem Argument.mem_addNames_iff (names : TreeSet String) (enclosing : String)
    (args : List Argument) :
    n ∈ Argument.addNames names args ↔
      n ∈ names ∨ ∃ arity, .call n arity ∈ Argument.nodesList enclosing args :=
  match args with
  | [] => by simp [Argument.addNames, Argument.nodesList]
  | .literal lit :: args => by
    rw [Argument.addNames, Argument.mem_addNames_iff _ enclosing args]
    simp [Argument.nodesList, Argument.nodes]
  | .call c :: args => by
    rw [Argument.addNames, Argument.mem_addNames_iff _ enclosing args, Call.mem_addNames_iff _ c]
    simp [Argument.nodesList, Argument.nodes, exists_or, or_assoc]

end

mutual

theorem Call.mem_addValues_iff (values : TreeSet String) (c : Call) :
    v ∈ c.addValues values ↔ v ∈ values ∨ ∃ enclosing, .literal enclosing v ∈ c.nodes :=
  match c with
  | ⟨name, args⟩ => by
    rw [Call.addValues, Argument.mem_addValues_iff _ name args]
    simp [Call.nodes]

theorem Argument.mem_addValues_iff (values : TreeSet String) (enclosing : String)
    (args : List Argument) :
    v ∈ Argument.addValues values args ↔
      v ∈ values ∨ ∃ around, .literal around v ∈ Argument.nodesList enclosing args :=
  match args with
  | [] => by simp [Argument.addValues, Argument.nodesList]
  | .literal lit :: args => by
    rw [Argument.addValues, Argument.mem_addValues_iff _ enclosing args, TreeSet.mem_insert,
      Std.compare_eq_iff_eq]
    simp only [Argument.nodesList, Argument.nodes, List.mem_append, List.mem_singleton,
      Node.literal.injEq, exists_or, exists_eq_left]
    rw [eq_comm, or_assoc, or_left_comm]
  | .call c :: args => by
    rw [Argument.addValues, Argument.mem_addValues_iff _ enclosing args, Call.mem_addValues_iff _ c]
    simp [Argument.nodesList, Argument.nodes, exists_or, or_assoc]

end

theorem Program.mem_addNames_empty_iff (p : Program) :
    n ∈ p.addNames ∅ ↔ ∃ arity, .call n arity ∈ p.nodes := by
  rw [Program.addNames, Call.mem_addNames_iff, Program.nodes]
  simp

theorem Program.mem_addValues_empty_iff (p : Program) :
    v ∈ p.addValues ∅ ↔ ∃ enclosing, .literal enclosing v ∈ p.nodes := by
  rw [Program.addValues, Call.mem_addValues_iff, Program.nodes]
  simp

/-! ## Many programs -/

/-- Membership in a fold of operations that only add. -/
theorem mem_foldl_iff {α : Type} {add : TreeSet String → α → TreeSet String} {adds : α → Prop}
    (hadd : ∀ s a, n ∈ add s a ↔ n ∈ s ∨ adds a) (s : TreeSet String) (as : List α) :
    n ∈ as.foldl add s ↔ n ∈ s ∨ ∃ a ∈ as, adds a := by
  induction as generalizing s with
  | nil => simp
  | cons a as ih =>
    rw [List.foldl_cons, ih, hadd, or_assoc]
    apply or_congr_right
    simp only [List.mem_cons, exists_eq_or_imp]

theorem Program.mem_foldl_addNames_iff (names : TreeSet String) (ps : List Program) :
    n ∈ ps.foldl Program.addNames names ↔
      n ∈ names ∨ ∃ p ∈ ps, ∃ arity, .call n arity ∈ p.nodes := by
  apply mem_foldl_iff
  intro names p
  exact Call.mem_addNames_iff names p.expression

theorem Program.mem_foldl_addValues_iff (values : TreeSet String) (ps : List Program) :
    v ∈ ps.foldl Program.addValues values ↔
      v ∈ values ∨ ∃ p ∈ ps, ∃ enclosing, .literal enclosing v ∈ p.nodes := by
  apply mem_foldl_iff
  intro values p
  exact Call.mem_addValues_iff values p.expression

mutual

theorem Call.isWellFormed_iff_nodes (c : Call) :
    c.isWellFormed = true ↔ ∀ n arity, .call n arity ∈ c.nodes → isName n = true :=
  match c with
  | ⟨name, args⟩ => by
    rw [Call.isWellFormed, Bool.and_eq_true, Argument.allWellFormed_iff_nodes name args]
    simp only [Call.nodes, List.mem_append, List.mem_singleton, Node.call.injEq]
    constructor
    · rintro ⟨hname, hargs⟩ n arity (hn | ⟨rfl, -⟩)
      · exact hargs n arity hn
      · exact hname
    · intro h
      exact ⟨h name args.length (.inr ⟨rfl, rfl⟩), fun n arity hn => h n arity (.inl hn)⟩

theorem Argument.allWellFormed_iff_nodes (enclosing : String) (args : List Argument) :
    Argument.allWellFormed args = true ↔
      ∀ n arity, .call n arity ∈ Argument.nodesList enclosing args → isName n = true :=
  match args with
  | [] => by simp [Argument.allWellFormed, Argument.nodesList]
  | .literal lit :: args => by
    rw [Argument.allWellFormed, Argument.isWellFormed, Bool.true_and,
      Argument.allWellFormed_iff_nodes enclosing args]
    simp [Argument.nodesList, Argument.nodes]
  | .call c :: args => by
    rw [Argument.allWellFormed, Argument.isWellFormed, Bool.and_eq_true,
      Call.isWellFormed_iff_nodes c, Argument.allWellFormed_iff_nodes enclosing args]
    simp only [Argument.nodesList, Argument.nodes, List.mem_append, or_imp, forall_and]

end

theorem Program.isWellFormed_iff_addNames (p : Program) :
    p.isWellFormed = true ↔
      ∀ n ∈ p.addNames ∅, n.toList ≠ [] ∧ ∀ c ∈ n.toList, c.isAlpha = true := by
  rw [Program.isWellFormed, Call.isWellFormed_iff_nodes]
  simp only [Program.mem_addNames_empty_iff, Token.isName_iff, forall_exists_index]
  rfl

/-- **The sets are exact unions**, from any initial sets: they only grow, and the order and the repetition of
programs do not matter. A program is well-formed iff each name that it adds to the empty set is one or more
ASCII letters. -/
theorem Program.collects_union (names values : TreeSet String) (ps : List Program) :
    (∀ n, n ∈ ps.foldl Program.addNames names ↔
      n ∈ names ∨ ∃ p ∈ ps, ∃ arity, .call n arity ∈ p.nodes) ∧
    (∀ v, v ∈ ps.foldl Program.addValues values ↔
      v ∈ values ∨ ∃ p ∈ ps, ∃ enclosing, .literal enclosing v ∈ p.nodes) ∧
    (∀ more, (∀ n ∈ ps.foldl Program.addNames names, n ∈ (ps ++ more).foldl Program.addNames names) ∧
      ∀ v ∈ ps.foldl Program.addValues values, v ∈ (ps ++ more).foldl Program.addValues values) ∧
    (∀ qs : List Program, (∀ p, p ∈ qs ↔ p ∈ ps) →
      (qs.foldl Program.addNames names).Equiv (ps.foldl Program.addNames names) ∧
      (qs.foldl Program.addValues values).Equiv (ps.foldl Program.addValues values)) ∧
    ∀ p : Program, p.isWellFormed = true ↔
      ∀ n ∈ p.addNames ∅, n.toList ≠ [] ∧ ∀ c ∈ n.toList, c.isAlpha = true := by
  refine ⟨fun n => mem_foldl_addNames_iff names ps, fun v => mem_foldl_addValues_iff values ps,
    fun more => ⟨fun n hn => ?_, fun v hv => ?_⟩, fun qs hqs => ⟨?_, ?_⟩, isWellFormed_iff_addNames⟩
  · rw [List.foldl_append, mem_foldl_addNames_iff]
    exact .inl hn
  · rw [List.foldl_append, mem_foldl_addValues_iff]
    exact .inl hv
  · apply TreeSet.Equiv.of_forall_mem_iff
    intro n
    simp only [mem_foldl_addNames_iff, hqs]
  · apply TreeSet.Equiv.of_forall_mem_iff
    intro v
    simp only [mem_foldl_addValues_iff, hqs]

/-- A well-formed program `p` and an ill-formed one `q`, reordered and repeated. -/
theorem Program.collects_union_reordered :
    let p : Program := ⟨⟨"f", [.call ⟨"g", []⟩, .literal ⟨"a"⟩]⟩⟩
    let q : Program := ⟨⟨"f g", []⟩⟩
    (∀ r, r ∈ [q, p, q] ↔ r ∈ [p, q]) ∧
      ([q, p, q].foldl Program.addNames {"h"}).Equiv ([p, q].foldl Program.addNames {"h"}) ∧
      "g" ∈ [q, p, q].foldl Program.addNames {"h"} ∧ "a" ∉ [q, p, q].foldl Program.addNames {"h"} ∧
      q.isWellFormed = false := by
  intro p q
  have hsame : ∀ r, r ∈ [q, p, q] ↔ r ∈ [p, q] := by
    intro r
    simp only [List.mem_cons, List.not_mem_nil, or_false]
    tauto
  obtain ⟨-, -, -, hequiv, -⟩ := collects_union {"h"} ∅ [p, q]
  obtain ⟨hnames, -⟩ := collects_union {"h"} ∅ [q, p, q]
  refine ⟨hsame, (hequiv _ hsame).1, ?_, ?_, by decide⟩
  · rw [hnames]
    exact .inr ⟨p, by simp, 0, by decide⟩
  · rw [hnames]
    rintro (h | ⟨r, hr, arity, hnode⟩)
    · revert h
      decide
    · simp only [List.mem_cons, List.not_mem_nil, or_false] at hr
      rcases hr with rfl | rfl | rfl
      all_goals simp [Program.nodes, Call.nodes, Argument.nodesList, Argument.nodes, p, q] at hnode

end FilterLang
