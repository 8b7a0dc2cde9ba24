import FilterLang.Backend
import FilterLang.Proofs.Tree.Flat

/-!
# Translation in post-order

`translate` recurses over a tree. It is equal to a loop over the nodes in post-order, with an explicit
stack of results.

* `Attempt` : a computation with a state and an error, `runFrom` a state (`bind_eq_ok_iff`,
  `bind_eq_error_iff`: inversion of a bind);
* `Backend.visit`, `Backend.visitAll` : one node and a list of nodes on the stack
  (`Call.visitAll_nodes`);
* `Backend.RefusedAfter` : the first node whose hook fails;
* `Backend.logged` : the backend with a log of the nodes it was called for (`visitAll_logged`,
  `exists_refusedAfter`);
* `Program.translate_postorder` : equality with the loop, and the log of every outcome.
-/

namespace FilterLang

/-! ## Computations with a state and an error -/

universe u v

/-- State and error, where a failure keeps the state. -/
abbrev Attempt (ε σ : Type u) := ExceptT ε (StateM σ)

namespace Attempt

variable {ε σ α β : Type u} {x : Attempt ε σ α} {f : α → Attempt ε σ β} {s s' : σ}

def runFrom (x : Attempt ε σ α) (s : σ) : Except ε α × σ := x.run.run s

@[simp] theorem runFrom_pure (a : α) (s : σ) :
    (pure a : Attempt ε σ α).runFrom s = (.ok a, s) := rfl

theorem runFrom_bind (x : Attempt ε σ α) (f : α → Attempt ε σ β) (s : σ) :
    (x >>= f : Attempt ε σ β).runFrom s =
      match x.runFrom s with
      | (.ok a, t) => (f a).runFrom t
      | (.error e, t) => (.error e, t) := by
  unfold runFrom
  rw [ExceptT.run_bind, StateT.run_bind]
  rcases x.run.run s with ⟨e | a, t⟩
  · rfl
  · rfl

theorem bind_eq_ok_iff {y : β} :
    (x >>= f : Attempt ε σ β).runFrom s = (.ok y, s') ↔
      ∃ a t, x.runFrom s = (.ok a, t) ∧ (f a).runFrom t = (.ok y, s') := by
  rw [runFrom_bind]
  rcases x.runFrom s with ⟨e | a, t⟩
  · simp
  · simp [and_assoc]

theorem bind_eq_error_iff {e : ε} :
    (x >>= f : Attempt ε σ β).runFrom s = (.error e, s') ↔
      x.runFrom s = (.error e, s') ∨
        ∃ a t, x.runFrom s = (.ok a, t) ∧ (f a).runFrom t = (.error e, s') := by
  rw [runFrom_bind]
  rcases x.runFrom s with ⟨d | a, t⟩
  · simp
  · simp [and_assoc]

theorem map_eq_ok_iff {g : α → β} {y : β} :
    (g <$> x : Attempt ε σ β).runFrom s = (.ok y, s') ↔
      ∃ a, x.runFrom s = (.ok a, s') ∧ g a = y := by
  rw [map_eq_pure_bind, bind_eq_ok_iff]
  constructor
  · rintro ⟨a, t, ha, hy⟩
    cases hy
    exact ⟨a, ha, rfl⟩
  · rintro ⟨a, ha, rfl⟩
    exact ⟨a, s', ha, rfl⟩

theorem map_eq_error_iff {g : α → β} {e : ε} :
    (g <$> x : Attempt ε σ β).runFrom s = (.error e, s') ↔ x.runFrom s = (.error e, s') := by
  rw [map_eq_pure_bind, bind_eq_error_iff]
  simp

end Attempt

/-! ## The stack machine -/

section Visit

variable {m : Type u → Type v} {α : Type u}

/-- The hook of a node, with the stack after its arguments are popped. The top of the stack is first; the
result is `none` on underflow. -/
def Backend.visit (b : Backend m α) (stack : List α) : Node → Option (m α × List α)
  | .literal enclosing value => some (b.literal enclosing value, stack)
  | .call name arity =>
    if arity ≤ stack.length then
      some (b.call name (stack.take arity).reverse, stack.drop arity)
    else none

theorem Backend.visit_call (b : Backend m α) (name : String) (args stack : List α) :
    b.visit (args.reverse ++ stack) (.call name args.length) = some (b.call name args, stack) := by
  simp [visit]

variable [Monad m]

/-- The nodes in sequence, the result of each pushed. -/
def Backend.visitAll (b : Backend m α) (stack : List α) : List Node → m (Option (List α))
  | [] => pure (some stack)
  | node :: nodes =>
    match b.visit stack node with
    | none => pure none
    | some (hook, rest) => do b.visitAll ((← hook) :: rest) nodes

theorem Backend.visitAll_cons {b : Backend m α} {stack rest : List α} {node : Node} {hook : m α}
    (h : b.visit stack node = some (hook, rest)) (nodes : List Node) :
    b.visitAll stack (node :: nodes) = hook >>= fun x => b.visitAll (x :: rest) nodes := by
  rw [visitAll, h]

/-- The continuation of a `mapM` is only applied to lists of the same length. -/
theorem mapM_bind_congr [LawfulMonad m] {β : Type} {γ : Type u} {f : β → m α}
    {next next' : List α → m γ} {xs : List β}
    (h : ∀ ys : List α, ys.length = xs.length → next ys = next' ys) :
    xs.mapM f >>= next = xs.mapM f >>= next' := by
  induction xs generalizing next next' with
  | nil => simp [h]
  | cons x xs ih =>
    simp only [List.mapM_cons, bind_assoc, pure_bind]
    refine bind_congr fun y => ih fun ys hys => h _ ?_
    rw [List.length_cons, List.length_cons, hys]

mutual

theorem Call.visitAll_nodes [LawfulMonad m] (b : Backend m α) (stack : List α) (more : List Node)
    (c : Call) :
    b.visitAll stack (c.nodes ++ more) =
      c.translate b >>= fun x => b.visitAll (x :: stack) more :=
  match c with
  | ⟨name, args⟩ => by
    have hargs := Argument.visitAll_nodesList b name stack (.call name args.length :: more) args
    rw [Call.nodes, List.append_assoc, List.singleton_append, hargs, Call.translate_eq, bind_assoc]
    refine mapM_bind_congr (m := m) fun xs hxs => ?_
    rw [← hxs, Backend.visitAll_cons (b.visit_call name xs stack)]

theorem Argument.visitAll_nodes [LawfulMonad m] (b : Backend m α) (enclosing : String)
    (stack : List α) (more : List Node) (arg : Argument) :
    b.visitAll stack (arg.nodes enclosing ++ more) =
      arg.translate b enclosing >>= fun x => b.visitAll (x :: stack) more :=
  match arg with
  | .literal lit => by
    rw [Argument.translate]
    exact Backend.visitAll_cons rfl more
  | .call c => by
    rw [Argument.translate]
    exact Call.visitAll_nodes b stack more c

theorem Argument.visitAll_nodesList [LawfulMonad m] (b : Backend m α) (enclosing : String)
    (stack : List α) (more : List Node) (args : List Argument) :
    b.visitAll stack (Argument.nodesList enclosing args ++ more) =
      args.mapM (Argument.translate b enclosing) >>= fun xs =>
        b.visitAll (xs.reverse ++ stack) more :=
  match args with
  | [] => by simp [Argument.nodesList]
  | arg :: args => by
    rw [Argument.nodesList, List.append_assoc, Argument.visitAll_nodes b enclosing stack _ arg]
    simp [Argument.visitAll_nodesList b enclosing _ more args]

end

/-- The interpretation of a program is a run of the stack machine over its nodes. -/
theorem Program.visitAll_nodes [LawfulMonad m] (b : Backend m α) (p : Program) :
    b.visitAll [] p.nodes = (fun x => some [x]) <$> p.translate b := by
  have h := p.expression.visitAll_nodes b [] []
  rw [List.append_nil] at h
  rw [map_eq_pure_bind]
  exact h

end Visit

/-! ## Refusals and the log -/

section Logged

variable {ε σ α : Type u} {b : Backend (Attempt ε σ) α} {stack stack' rest : List α}
  {node : Node} {hook : Attempt ε σ α} {nodes done : List Node} {s s' : σ} {e : ε}

theorem Backend.visitAll_cons_eq_ok_iff :
    (b.visitAll stack (node :: nodes)).runFrom s = (.ok (some stack'), s') ↔
      ∃ hook rest x t, b.visit stack node = some (hook, rest) ∧ hook.runFrom s = (.ok x, t) ∧
        (b.visitAll (x :: rest) nodes).runFrom t = (.ok (some stack'), s') := by
  rcases h : b.visit stack node with _ | ⟨hook, rest⟩
  · simp [visitAll, h]
  · rw [visitAll_cons h, Attempt.bind_eq_ok_iff]
    simp [and_assoc]

theorem Backend.visitAll_cons_eq_error_iff :
    (b.visitAll stack (node :: nodes)).runFrom s = (.error e, s') ↔
      ∃ hook rest, b.visit stack node = some (hook, rest) ∧
        (hook.runFrom s = (.error e, s') ∨ ∃ x t, hook.runFrom s = (.ok x, t) ∧
          (b.visitAll (x :: rest) nodes).runFrom t = (.error e, s')) := by
  rcases h : b.visit stack node with _ | ⟨hook, rest⟩
  · simp [visitAll, h]
  · rw [visitAll_cons h, Attempt.bind_eq_error_iff]
    simp [and_assoc]

/-- From `stack` and `s` the hooks of `done` succeed, and then that of `node` fails with `e` in state
`s'`. -/
def Backend.RefusedAfter (b : Backend (Attempt ε σ) α) (stack : List α) (s : σ) (done : List Node)
    (node : Node) (e : ε) (s' : σ) : Prop :=
  ∃ stack' t hook rest, (b.visitAll stack done).runFrom s = (.ok (some stack'), t) ∧
    b.visit stack' node = some (hook, rest) ∧ hook.runFrom t = (.error e, s')

/-- The computation, with `node` appended to the log first. -/
def Attempt.noting (node : Node) (x : Attempt ε σ α) : Attempt ε (σ × List Node) α :=
  ExceptT.mk fun (s, asked) => pure ((x.runFrom s).1, (x.runFrom s).2, asked ++ [node])

theorem Attempt.runFrom_noting (node : Node) (x : Attempt ε σ α) (s : σ) (asked : List Node) :
    (x.noting node).runFrom (s, asked) = ((x.runFrom s).1, (x.runFrom s).2, asked ++ [node]) := rfl

def Backend.logged (b : Backend (Attempt ε σ) α) : Backend (Attempt ε (σ × List Node)) α where
  literal enclosing value := (b.literal enclosing value).noting (.literal enclosing value)
  call name args := (b.call name args).noting (.call name args.length)

theorem Backend.visit_logged (h : b.visit stack node = some (hook, rest)) :
    b.logged.visit stack node = some (hook.noting node, rest) := by
  cases node with
  | literal enclosing value =>
    cases h
    rfl
  | call name arity =>
    by_cases hle : arity ≤ stack.length
    · rw [visit, if_pos hle] at h ⊢
      cases h
      simp [logged, Nat.min_eq_left hle]
    · rw [visit, if_neg hle] at h
      cases h

theorem Backend.visitAll_logged (asked : List Node)
    (h : (b.visitAll stack nodes).runFrom s = (.ok (some stack'), s')) :
    (b.logged.visitAll stack nodes).runFrom (s, asked) =
      (.ok (some stack'), s', asked ++ nodes) := by
  induction nodes generalizing stack s asked with
  | nil =>
    cases h
    simp [visitAll]
  | cons node nodes ih =>
    obtain ⟨hook, rest, x, t, hvisit, hhook, hmore⟩ := visitAll_cons_eq_ok_iff.1 h
    refine visitAll_cons_eq_ok_iff.2 ⟨_, _, x, (t, asked ++ [node]), visit_logged hvisit, ?_, ?_⟩
    · rw [Attempt.runFrom_noting, hhook]
    · simpa using ih (asked ++ [node]) hmore

/-- A failing run stops at the first refused node, and the log ends there. -/
theorem Backend.exists_refusedAfter (asked : List Node)
    (h : (b.visitAll stack nodes).runFrom s = (.error e, s')) :
    ∃ done node later, nodes = done ++ node :: later ∧ b.RefusedAfter stack s done node e s' ∧
      (b.logged.visitAll stack nodes).runFrom (s, asked) =
        (.error e, s', asked ++ (done ++ [node])) := by
  induction nodes generalizing stack s asked with
  | nil => cases h
  | cons node nodes ih =>
    obtain ⟨hook, rest, hvisit, hhook | ⟨x, t, hhook, hmore⟩⟩ := visitAll_cons_eq_error_iff.1 h
    · refine ⟨[], node, nodes, rfl, ⟨stack, s, hook, rest, rfl, hvisit, hhook⟩, ?_⟩
      refine visitAll_cons_eq_error_iff.2 ⟨_, _, visit_logged hvisit, .inl ?_⟩
      rw [Attempt.runFrom_noting, hhook]
      rfl
    · obtain ⟨done, refused, later, rfl, ⟨stack', t', hook', rest', hdone, hlast⟩, hlog⟩ :=
        ih (asked ++ [node]) hmore
      refine ⟨node :: done, refused, later, rfl, ⟨stack', t', hook', rest', ?_, hlast⟩, ?_⟩
      · exact visitAll_cons_eq_ok_iff.2 ⟨hook, rest, x, t, hvisit, hhook, hdone⟩
      · refine visitAll_cons_eq_error_iff.2
          ⟨_, _, visit_logged hvisit, .inr ⟨x, (t, asked ++ [node]), ?_, ?_⟩⟩
        · rw [Attempt.runFrom_noting, hhook]
        · simpa using hlog

/-- **Translation is the post-order loop.** The loop ends with the result alone on the stack. If no hook
fails, the log is `p.nodes`; otherwise it ends at the first node whose hook fails, and the error and the
state are those of this hook. -/
theorem Program.translate_postorder (b : Backend (Attempt ε σ) α) (p : Program) :
    b.visitAll [] p.nodes = (fun x => some [x]) <$> p.translate b ∧
      ∀ s : σ,
        match (p.translate b).runFrom s with
        | (.ok x, s') => (p.translate b.logged).runFrom (s, []) = (.ok x, s', p.nodes)
        | (.error e, s') => ∃ done node later, p.nodes = done ++ node :: later ∧
            b.RefusedAfter [] s done node e s' ∧
            (p.translate b.logged).runFrom (s, []) = (.error e, s', done ++ [node]) := by
  refine ⟨p.visitAll_nodes b, fun s => ?_⟩
  rcases hres : (p.translate b).runFrom s with ⟨e | x, s'⟩
  · have hvisit : (b.visitAll [] p.nodes).runFrom s = (.error e, s') := by
      rw [p.visitAll_nodes, Attempt.map_eq_error_iff, hres]
    obtain ⟨done, node, later, hnodes, hrefused, hlog⟩ := Backend.exists_refusedAfter [] hvisit
    rw [p.visitAll_nodes, Attempt.map_eq_error_iff] at hlog
    exact ⟨done, node, later, hnodes, hrefused, hlog⟩
  · have hvisit : (b.visitAll [] p.nodes).runFrom s = (.ok (some [x]), s') := by
      rw [p.visitAll_nodes, Attempt.map_eq_ok_iff]
      exact ⟨x, hres, rfl⟩
    have hlog := Backend.visitAll_logged [] hvisit
    rw [p.visitAll_nodes, Attempt.map_eq_ok_iff] at hlog
    obtain ⟨y, hy, hxy⟩ := hlog
    cases hxy
    exact hy

end Logged

end FilterLang
