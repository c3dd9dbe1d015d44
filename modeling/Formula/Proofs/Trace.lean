/-
Formula.Proofs.Trace — the calls that an evaluation makes.

An evaluation applies the body of a function wherever it reaches a call and its
arguments have values. `Expr.trace` evaluates a formula in the same order and
keeps a record of these applications. Without the record it is
`Expr.evaluate` (`Expr.result_trace`).

A body gets as many numbers as the call has arguments in the formula
(`Expr.hasCall_of_mem_calls`), so what is known of the calls of a formula is
known of the applications of its bodies.
-/
import Formula.Proofs.Nodes
import Formula.Expr.Evaluation

namespace Formula

/-! ## 1. Results with a record -/

/-- The application of the body of a function to numbers. -/
structure Call where
  name : String
  body : Body
  arguments : List Float

/-- A result, and the calls that were made to find it. -/
structure Traced (α : Type) where
  calls : List Call
  result : Except EvalError α

namespace Traced

variable {α β : Type}

/-- A result that takes no call. -/
def of (r : Except EvalError α) : Traced α := ⟨[], r⟩

/-- The result of a call. -/
def call (c : Call) : Traced Float := ⟨[c], .ok (c.body c.arguments)⟩

/-- What follows an error is not reached. -/
def bind (x : Traced α) (f : α → Traced β) : Traced β :=
  match x.result with
  | .ok a => ⟨x.calls ++ (f a).calls, (f a).result⟩
  | .error e => ⟨x.calls, .error e⟩

instance : Monad Traced where
  pure a := of (.ok a)
  bind := bind

@[simp] theorem result_of (r : Except EvalError α) : (of r).result = r := rfl

@[simp] theorem calls_of (r : Except EvalError α) : (of r).calls = [] := rfl

@[simp] theorem result_call (c : Call) : (call c).result = .ok (c.body c.arguments) := rfl

@[simp] theorem calls_call (c : Call) : (call c).calls = [c] := rfl

@[simp] theorem result_bind (x : Traced α) (f : α → Traced β) :
    (x >>= f).result = x.result >>= fun a => (f a).result := by
  show (bind x f).result = _
  unfold bind
  split <;> simp_all <;> rfl

theorem mem_calls_bind {x : Traced α} {f : α → Traced β} {c : Call} :
    c ∈ (x >>= f).calls ↔ c ∈ x.calls ∨ ∃ a, x.result = .ok a ∧ c ∈ (f a).calls := by
  show c ∈ (bind x f).calls ↔ _
  unfold bind
  split <;> simp_all

end Traced

/-! ## 2. Evaluations with a record -/

namespace Expr

variable {bindings : Bindings}

mutual

/-- The value of a formula, with the calls that are made to find it. -/
def trace (bindings : Bindings) : Expr → Traced Float
  | .literal value => .of (.ok value)
  | .free name =>
    match bindings name with
    | some value => .of (.ok value)
    | none => .of (.error (.unbound name))
  | .constant _ value => .of (.ok value)
  | .arithmetic op left right => do
    let x ← trace bindings left
    let y ← trace bindings right
    .of (op.apply x y)
  | .signed sign operand => do
    let x ← trace bindings operand
    .of (.ok (sign.apply x))
  | .power base exponent => do
    let x ← trace bindings base
    let y ← trace bindings exponent
    .of (.ok (x.pow y))
  | .root base degree => do
    let x ← trace bindings base
    let y ← trace bindings degree
    .of (.ok (Number.realRoot x y))
  | .call name body arguments => do
    let xs ← traceAll bindings arguments
    .call ⟨name, body, xs⟩
  | .equation left right => do
    let x ← trace bindings left
    let y ← trace bindings right
    .of (.ok (x - y))

/-- The values of the formulas of a list, with the calls that are made to find
them. -/
def traceAll (bindings : Bindings) : List Expr → Traced (List Float)
  | [] => .of (.ok [])
  | a :: rest => do
    let x ← trace bindings a
    let xs ← traceAll bindings rest
    .of (.ok (x :: xs))

end

theorem result_traceAll {as : List Expr}
    (h : ∀ a ∈ as, (a.trace bindings).result = a.evaluate bindings) :
    (traceAll bindings as).result = evaluateAll bindings as := by
  induction as with
  | nil => rfl
  | cons a rest ih =>
    rw [traceAll, evaluateAll]
    simp [h a List.mem_cons_self, ih fun b hb => h b (List.mem_cons_of_mem _ hb)]

/-- The record does not change the value. -/
theorem result_trace (n : Expr) : (n.trace bindings).result = n.evaluate bindings := by
  induction n using Expr.induction with
  | literal value => rfl
  | free name =>
    rw [trace, evaluate]
    cases bindings name <;> rfl
  | constant name value => rfl
  | arithmetic op a b iha ihb => simp [trace, evaluate, iha, ihb]
  | signed s a ih => simp [trace, evaluate, ih]
  | power a b iha ihb => simp [trace, evaluate, iha, ihb]
  | root a b iha ihb => simp [trace, evaluate, iha, ihb]
  | call name body arguments ih => simp [trace, evaluate, result_traceAll ih]
  | equation a b iha ihb => simp [trace, evaluate, iha, ihb]

/-! ## 3. Calls that are made are calls of the formula -/

theorem exists_of_mem_calls_traceAll {as : List Expr} {c : Call}
    (h : c ∈ (traceAll bindings as).calls) : ∃ a ∈ as, c ∈ (a.trace bindings).calls := by
  induction as with
  | nil => cases h
  | cons a rest ih =>
    rw [traceAll, Traced.mem_calls_bind] at h
    rcases h with h | ⟨x, -, h⟩
    · exact ⟨a, List.mem_cons_self, h⟩
    · rcases Traced.mem_calls_bind.mp h with h | ⟨xs, -, h⟩
      · obtain ⟨b, hb, hc⟩ := ih h
        exact ⟨b, List.mem_cons_of_mem _ hb, hc⟩
      · cases h

/-- Two operands are evaluated, and then an operation without calls. -/
theorem mem_calls_operands {a b : Expr} {f : Float → Float → Except EvalError Float} {c : Call}
    (h : c ∈ (do
      let x ← a.trace bindings
      let y ← b.trace bindings
      Traced.of (f x y)).calls) : c ∈ (a.trace bindings).calls ∨ c ∈ (b.trace bindings).calls := by
  rcases Traced.mem_calls_bind.mp h with h | ⟨x, -, h⟩
  · exact .inl h
  · rcases Traced.mem_calls_bind.mp h with h | ⟨y, -, h⟩
    · exact .inr h
    · cases h

/-- The formula has a call of this function with as many arguments. -/
def HasCall (n : Expr) (c : Call) : Prop :=
  ∃ arguments, .call c.name c.body arguments ∈ n.nodes ∧ c.arguments.length = arguments.length

theorem HasCall.mono {m n : Expr} {c : Call} (h : m.HasCall c) (hsub : m.nodes ⊆ n.nodes) :
    n.HasCall c := by
  obtain ⟨arguments, hmem, hlength⟩ := h
  exact ⟨arguments, hsub hmem, hlength⟩

theorem HasCall.of_operands {a b n : Expr} {c : Call} (h : a.HasCall c ∨ b.HasCall c)
    (hsub : a.nodes ++ b.nodes ⊆ n.nodes) : n.HasCall c := by
  rw [List.append_subset] at hsub
  rcases h with h | h
  · exact h.mono hsub.1
  · exact h.mono hsub.2

/-- Each call that is made is a call of the formula. -/
theorem hasCall_of_mem_calls {n : Expr} {c : Call} (h : c ∈ (n.trace bindings).calls) :
    n.HasCall c := by
  induction n using Expr.induction with
  | literal value => cases h
  | free name =>
    rw [trace] at h
    cases hv : bindings name <;> rw [hv] at h <;> cases h
  | constant name value => cases h
  | arithmetic op a b iha ihb =>
    exact .of_operands ((mem_calls_operands h).imp iha ihb) (List.subset_cons_self _ _)
  | signed s a ih =>
    rcases Traced.mem_calls_bind.mp h with h | ⟨x, -, h⟩
    · exact (ih h).mono (List.subset_cons_self _ _)
    · cases h
  | power a b iha ihb =>
    exact .of_operands ((mem_calls_operands h).imp iha ihb) (List.subset_cons_self _ _)
  | root a b iha ihb =>
    exact .of_operands ((mem_calls_operands h).imp iha ihb) (List.subset_cons_self _ _)
  | call name body arguments ih =>
    rw [trace] at h
    rcases Traced.mem_calls_bind.mp h with h | ⟨xs, hxs, h⟩
    · obtain ⟨a, ha, h⟩ := exists_of_mem_calls_traceAll h
      exact (ih a ha h).mono fun m hm => List.mem_cons_of_mem _ (nodes_subset_of_mem ha hm)
    · obtain rfl := List.mem_singleton.mp h
      rw [result_traceAll fun a _ => a.result_trace] at hxs
      exact ⟨arguments, mem_nodes_self _, length_of_evaluateAll hxs⟩
  | equation a b iha ihb =>
    exact .of_operands ((mem_calls_operands h).imp iha ihb) (List.subset_cons_self _ _)

end Expr

end Formula
