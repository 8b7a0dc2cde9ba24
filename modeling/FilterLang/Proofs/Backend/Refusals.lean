import FilterLang.Backend.Recorder
import FilterLang.Proofs.Backend.Postorder
import FilterLang.Proofs.Vocabulary
import Mathlib.Data.Set.Lattice
import Mathlib.Order.CompletePartialOrder

/-!
# Backends that refuse names and values

* `Attempt.SucceedsIff` : success depends on a condition only, not on the state
  (`SucceedsIff.bind`: the conjunction);
* `Backend.RefusesExactly` : the hooks fail exactly on a set of names and a set of values
  (`Refusals.recorder_refusesExactly`);
* `Program.translate_succeeds_iff` : then success is disjointness from the vocabulary of the program.
-/

namespace FilterLang

universe u

variable {ε σ α β : Type u}

namespace Attempt

/-- From every state, `x` succeeds if and only if the condition holds. -/
def SucceedsIff (x : Attempt ε σ α) (condition : Prop) : Prop :=
  ∀ s, (∃ a s', x.runFrom s = (.ok a, s')) ↔ condition

theorem SucceedsIff.congr {x : Attempt ε σ α} {p q : Prop} (h : x.SucceedsIff p) (hpq : p ↔ q) :
    x.SucceedsIff q := fun s => (h s).trans hpq

theorem succeedsIff_pure (a : α) : (pure a : Attempt ε σ α).SucceedsIff True := by
  intro s
  simp

theorem succeedsIff_of_fails {x : Attempt ε σ α} {p : Prop}
    (h : ∀ s, (∃ e s', x.runFrom s = (.error e, s')) ↔ p) : x.SucceedsIff ¬p := by
  intro s
  rw [← h s]
  rcases x.runFrom s with ⟨e | a, s'⟩
  · simp
  · simp

/-- The conditions of both parts, where the second does not depend on the first. -/
theorem SucceedsIff.bind {x : Attempt ε σ α} {f : α → Attempt ε σ β} {p q : Prop}
    (hx : x.SucceedsIff p) (hf : ∀ a, (f a).SucceedsIff q) :
    (x >>= f : Attempt ε σ β).SucceedsIff (p ∧ q) := by
  intro s
  simp only [bind_eq_ok_iff]
  constructor
  · rintro ⟨y, s', a, t, ha, hy⟩
    exact ⟨(hx s).1 ⟨a, t, ha⟩, (hf a t).1 ⟨y, s', hy⟩⟩
  · rintro ⟨hp, hq⟩
    obtain ⟨a, t, ha⟩ := (hx s).2 hp
    obtain ⟨y, s', hy⟩ := (hf a t).2 hq
    exact ⟨y, s', a, t, ha, hy⟩

end Attempt

/-! ## Refused names and values -/

/-- The hooks fail exactly on these names and values, whatever the state and the other arguments. -/
structure Backend.RefusesExactly (b : Backend (Attempt ε σ) α) (names values : Set String) :
    Prop where
  call (name : String) (args : List α) (s : σ) :
    (∃ e s', (b.call name args).runFrom s = (.error e, s')) ↔ name ∈ names
  literal (enclosing value : String) (s : σ) :
    (∃ e s', (b.literal enclosing value).runFrom s = (.error e, s')) ↔ value ∈ values

def Node.IsAmong (names values : Set String) : Node → Prop
  | .literal _ value => value ∈ values
  | .call name _ => name ∈ names

variable {b : Backend (Attempt ε σ) α} {names values : Set String}

mutual

/-- A call succeeds if and only if none of its nodes is refused. -/
theorem Call.translate_succeedsIff (h : b.RefusesExactly names values) (c : Call) :
    (c.translate b).SucceedsIff (∀ node ∈ c.nodes, ¬ node.IsAmong names values) :=
  match c with
  | ⟨name, args⟩ => by
    rw [Call.translate]
    have hargs := Argument.translateList_succeedsIff h name [] args
    have hcall := fun xs => Attempt.succeedsIff_of_fails (h.call name xs)
    refine (hargs.bind hcall).congr ?_
    rw [Call.nodes, List.forall_mem_append, List.forall_mem_singleton]
    rfl

theorem Argument.translate_succeedsIff (h : b.RefusesExactly names values) (enclosing : String)
    (arg : Argument) :
    (arg.translate b enclosing).SucceedsIff
      (∀ node ∈ arg.nodes enclosing, ¬ node.IsAmong names values) :=
  match arg with
  | .literal lit => by
    rw [Argument.translate, Argument.nodes, List.forall_mem_singleton]
    exact Attempt.succeedsIff_of_fails (h.literal enclosing lit.value)
  | .call c => by
    rw [Argument.translate]
    exact Call.translate_succeedsIff h c

theorem Argument.translateList_succeedsIff (h : b.RefusesExactly names values)
    (enclosing : String) (done : List α) (args : List Argument) :
    (Argument.translateList b enclosing done args).SucceedsIff
      (∀ node ∈ Argument.nodesList enclosing args, ¬ node.IsAmong names values) :=
  match args with
  | [] => by
    rw [Argument.translateList]
    exact (Attempt.succeedsIff_pure done.reverse).congr (by simp [Argument.nodesList])
  | arg :: args => by
    rw [Argument.translateList, Argument.nodesList, List.forall_mem_append]
    exact (Argument.translate_succeedsIff h enclosing arg).bind fun x =>
      Argument.translateList_succeedsIff h enclosing (x :: done) args

end

theorem Refusals.runFrom_visit (r : Refusals) (v : Visit) (visits : Array Visit) :
    Attempt.runFrom (r.visit v) visits =
      (if r.refuse visits.size v then .error v.text else .ok v.text, visits.push v) := by
  show Attempt.runFrom (if r.refuse visits.size v then throw v.text else pure v.text)
    (visits.push v) = _
  split
  · rfl
  · rfl

theorem Refusals.fails_visit_iff (r : Refusals) (v : Visit) (visits : Array Visit) :
    (∃ e visits', Attempt.runFrom (r.visit v) visits = (.error e, visits')) ↔
      r.refuse visits.size v = true := by
  rw [runFrom_visit]
  split
  · next h => simp [h]
  · next h => simp [h]

theorem Refusals.recorder_refusesExactly {r : Refusals} (h : r.index? = none) :
    Backend.RefusesExactly (recorder r) {n | n ∈ r.calls} {v | v ∈ r.literals} where
  call name args visits := by
    rw [recorder, fails_visit_iff]
    simp [refuse, h]
  literal enclosing value visits := by
    rw [recorder, fails_visit_iff]
    simp [refuse, h]

/-- **A backend that refuses certain names and values translates exactly the programs whose
vocabulary is disjoint from them.** -/
theorem Program.translate_succeeds_iff (h : b.RefusesExactly names values) (p : Program) (s : σ) :
    (∃ x s', (p.translate b).runFrom s = (.ok x, s')) ↔
      Disjoint {n | n ∈ p.addNames ∅} names ∧ Disjoint {v | v ∈ p.addValues ∅} values := by
  refine (p.expression.translate_succeedsIff h s).trans ?_
  simp only [Set.disjoint_left, Set.mem_ofPred_eq, p.mem_addNames_empty_iff,
    p.mem_addValues_empty_iff, forall_exists_index]
  constructor
  · intro hnodes
    exact ⟨fun name arity => hnodes (.call name arity),
      fun value around => hnodes (.literal around value)⟩
  · rintro ⟨hcalls, hliterals⟩ (⟨around, value⟩ | ⟨name, arity⟩) hnode
    · exact hliterals around hnode
    · exact hcalls arity hnode

theorem translate_refused_beside_call :
    Backend.RefusesExactly (recorder ⟨["or"], ["b"], none⟩) {n | n ∈ ["or"]} {v | v ∈ ["b"]} ∧
    ¬ ∃ x visits, Attempt.runFrom (Program.translate (recorder ⟨["or"], ["b"], none⟩)
        ⟨⟨"and", [.call ⟨"not", [.literal ⟨"a"⟩]⟩, .literal ⟨"b"⟩]⟩⟩) #[] = (.ok x, visits) := by
  have hrefuses := Refusals.recorder_refusesExactly (r := ⟨["or"], ["b"], none⟩) rfl
  refine ⟨hrefuses, fun h => ?_⟩
  obtain ⟨-, hvalues⟩ := (Program.translate_succeeds_iff hrefuses _ _).1 h
  refine Set.disjoint_left.1 hvalues ?_ (List.mem_singleton.2 rfl)
  exact (Program.mem_addValues_empty_iff _).2 ⟨"and", by decide⟩

end FilterLang
