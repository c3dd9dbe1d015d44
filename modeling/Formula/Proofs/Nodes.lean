/-
Formula.Proofs.Nodes — the nodes of a formula, and where they come from.

A statement about a formula is often one about each of its nodes by itself:
that literals are finite, that constants have the value of the environment.
`Expr.nodes` lists them.

A derivation puts a formula together from the values of tokens, by operators
and calls. So what holds of these values and is kept by every rule holds of the
whole (`Derives.of_keeps`), and what holds of every node that a rule can build,
and of every node of a value, holds of every node of the whole
(`Derives.forall_nodes`).
-/
import Formula.Proofs.Grammar

namespace Formula

namespace Expr

/-! ## 1. Nodes of formulas -/

mutual

/-- All the formulas that a formula is made of, itself among them. -/
def nodes : Expr → List Expr
  | .literal value => [.literal value]
  | .free name => [.free name]
  | .constant name value => [.constant name value]
  | .arithmetic op a b => .arithmetic op a b :: (nodes a ++ nodes b)
  | .signed s a => .signed s a :: nodes a
  | .power a b => .power a b :: (nodes a ++ nodes b)
  | .root a b => .root a b :: (nodes a ++ nodes b)
  | .call name body arguments => .call name body arguments :: nodesOfList arguments
  | .equation a b => .equation a b :: (nodes a ++ nodes b)

/-- All the formulas that the formulas of a list are made of. -/
def nodesOfList : List Expr → List Expr
  | [] => []
  | a :: rest => nodes a ++ nodesOfList rest

end

theorem nodesOfList_eq_flatMap (as : List Expr) : nodesOfList as = as.flatMap nodes := by
  induction as with
  | nil => rfl
  | cons a rest ih => simp [nodesOfList, ih]

theorem nodes_subset_of_mem {a : Expr} {as : List Expr} (h : a ∈ as) :
    a.nodes ⊆ nodesOfList as := by
  intro m hm
  rw [nodesOfList_eq_flatMap, List.mem_flatMap]
  exact ⟨a, h, hm⟩

/-- Induction over a formula, with the arguments of a call as the members of
a list. -/
theorem induction {P : Expr → Prop} (literal : ∀ value, P (.literal value))
    (free : ∀ name, P (.free name)) (constant : ∀ name value, P (.constant name value))
    (arithmetic : ∀ op a b, P a → P b → P (.arithmetic op a b))
    (signed : ∀ s a, P a → P (.signed s a)) (power : ∀ a b, P a → P b → P (.power a b))
    (root : ∀ a b, P a → P b → P (.root a b))
    (call : ∀ name body arguments, (∀ a ∈ arguments, P a) → P (.call name body arguments))
    (equation : ∀ a b, P a → P b → P (.equation a b)) (n : Expr) : P n := by
  refine @Expr.rec P (fun as => ∀ a ∈ as, P a) literal free constant arithmetic signed power root
    call equation ?_ ?_ n
  · intro a ha
    cases ha
  · intro a rest ha hrest b hb
    rcases List.mem_cons.mp hb with rfl | hb
    · exact ha
    · exact hrest b hb

theorem mem_nodes_self (n : Expr) : n ∈ n.nodes := by
  cases n <;> simp [nodes]

/-- The nodes of an operation are the operation and those of its
operands. -/
theorem mem_nodes_join {op : Operator} {a b m : Expr} (h : m ∈ (Item.join op a b).nodes) :
    m = Item.join op a b ∨ m ∈ a.nodes ∨ m ∈ b.nodes := by
  cases op with
  | sign s =>
    rcases List.mem_cons.mp h with h | h
    · exact .inl h
    · exact .inr (.inr h)
  | _ =>
    rcases List.mem_cons.mp h with h | h
    · exact .inl h
    · exact .inr (List.mem_append.mp h)

/-- What holds of an operation and of the nodes of its operands holds of all its
nodes. -/
theorem forall_nodes_join {Q : Expr → Prop} (op : Operator) {a b : Expr} (h : Q (Item.join op a b))
    (ha : ∀ m ∈ a.nodes, Q m) (hb : ∀ m ∈ b.nodes, Q m) : ∀ m ∈ (Item.join op a b).nodes, Q m := by
  intro m hm
  rcases mem_nodes_join hm with rfl | hm | hm
  · exact h
  · exact ha m hm
  · exact hb m hm

/-- The same for a root. -/
theorem forall_nodes_root {Q : Expr → Prop} {a b : Expr} (h : Q (.root a b))
    (ha : ∀ m ∈ a.nodes, Q m) (hb : ∀ m ∈ b.nodes, Q m) : ∀ m ∈ (Expr.root a b).nodes, Q m := by
  intro m hm
  rcases List.mem_cons.mp hm with rfl | hm
  · exact h
  · rcases List.mem_append.mp hm with hm | hm
    · exact ha m hm
    · exact hb m hm

/-- The same for a call and its arguments. -/
theorem forall_nodes_call {Q : Expr → Prop} {name : String} {body : Body} {arguments : List Expr}
    (h : Q (.call name body arguments)) (harguments : ∀ a ∈ arguments, ∀ m ∈ a.nodes, Q m) :
    ∀ m ∈ (Expr.call name body arguments).nodes, Q m := by
  intro m hm
  rw [nodes, nodesOfList_eq_flatMap] at hm
  rcases List.mem_cons.mp hm with rfl | hm
  · exact h
  · obtain ⟨a, ha, hm⟩ := List.mem_flatMap.mp hm
    exact harguments a ha m hm

end Expr

/-- The call that an environment gives. -/
theorem Environment.call_eq_ok_iff {env : Environment} {name : String} {arguments : List Expr}
    {n : Expr} :
    env.call name arguments = .ok n ↔
      ∃ body, env.arity? name = some arguments.length ∧ env.body? name = some body ∧
        n = .call name body arguments := by
  unfold call
  split
  · rename_i arity body harity hbody
    split
    · rename_i hlength
      subst hlength
      simp [harity, hbody, eq_comm]
    · rename_i hlength
      simp [harity, Ne.symm hlength]
  · rename_i hnone
    constructor
    · intro h
      cases h
    · rintro ⟨body, harity, hbody, -⟩
      exact absurd hbody (hnone _ _ harity)

/-- What holds of a call and of the nodes of its arguments holds of all its
nodes. -/
theorem Environment.forall_nodes_of_call {env : Environment} {name : String}
    {arguments : List Expr} {n : Expr} {Q : Expr → Prop}
    (h : env.call name arguments = .ok n) (hcall : Q n)
    (harguments : ∀ a ∈ arguments, ∀ m ∈ a.nodes, Q m) : ∀ m ∈ n.nodes, Q m := by
  obtain ⟨body, -, -, rfl⟩ := call_eq_ok_iff.mp h
  exact Expr.forall_nodes_call hcall harguments

/-! ## 2. Derivations -/

/-- What the rules of a grammar say about a property of formulas, over a list
of tokens: the values have it, and what a rule builds of formulas with it. -/
structure Lexicon.Keeps (x : Lexicon) (tokens : List Token) (P : Expr → Prop) : Prop where
  join : ∀ op a b, P a → P b → P (Item.join op a b)
  call : ∀ f arguments n, .lexeme f ∈ tokens → f.kind = .functionName →
    x.environment.isFunction f.text = true → x.environment.call f.text arguments = .ok n →
      (∀ a ∈ arguments, P a) → P n
  value : ∀ t n, t ∈ tokens → x.value t n → P n
  groupCall : ∀ f delimiters elements n, .group delimiters elements ∈ tokens →
    x.groupCall f delimiters elements n → P n

/-- What all rules keep holds of what derives. -/
theorem Derives.of_keeps {x : Lexicon} {tokens : List Token} {P : Expr → Prop}
    (hkeeps : x.Keeps tokens P) {c : Category} {ts : List Token} {n : Expr}
    (h : Derives x c ts n) : ts ⊆ tokens → P n := by
  induction h using Derives.roles (Q := fun ts arguments _ =>
    ts ⊆ tokens → ∀ a ∈ arguments, P a) with
  | loose _ _ ih => exact ih
  | binary _ _ _ _ ihl ihr =>
    intro hsub
    simp only [List.append_subset, List.cons_subset] at hsub
    exact hkeeps.join _ _ _ (ihl hsub.1) (ihr hsub.2.2)
  | @sign s _ n _ _ _ ih =>
    intro hsub
    have hn := ih (List.cons_subset.mp hsub).2
    exact hkeeps.join (.sign s) n n hn hn
  | value _ hn =>
    intro hsub
    exact hkeeps.value _ _ (hsub (by simp)) hn
  | parens _ _ _ ih =>
    intro hsub
    simp only [List.cons_subset, List.append_subset] at hsub
    exact ih hsub.2.1
  | call hf hfun _ _ _ hn ih =>
    intro hsub
    simp only [List.cons_subset, List.append_subset] at hsub
    exact hkeeps.call _ _ _ hsub.1 hf hfun hn (ih hsub.2.2.1)
  | emptyCall hf hfun _ _ hn =>
    intro hsub
    exact hkeeps.call _ _ _ (hsub (by simp)) hf hfun hn (by simp)
  | groupCall _ _ hn =>
    intro hsub
    exact hkeeps.groupCall _ _ _ _ (hsub (by simp)) hn
  | one _ ih hsub a ha =>
    obtain rfl := List.mem_singleton.mp ha
    exact ih hsub
  | more _ _ _ ihf ihl hsub a ha =>
    simp only [List.append_subset, List.cons_subset] at hsub
    rcases List.mem_append.mp ha with ha | ha
    · exact ihf hsub.1 a ha
    · obtain rfl := List.mem_singleton.mp ha
      exact ihl hsub.2.2

/-- What the rules of a grammar say about a property of nodes, over a list
of tokens: what they build has it, and so has every node of a value. -/
structure Lexicon.Spreads (x : Lexicon) (tokens : List Token) (Q : Expr → Prop) : Prop where
  join : ∀ op a b, Q (Item.join op a b)
  call : ∀ f arguments n, .lexeme f ∈ tokens → f.kind = .functionName →
    x.environment.isFunction f.text = true → x.environment.call f.text arguments = .ok n → Q n
  value : ∀ t n, t ∈ tokens → x.value t n → ∀ m ∈ n.nodes, Q m
  groupCall : ∀ f delimiters elements n, .group delimiters elements ∈ tokens →
    x.groupCall f delimiters elements n → ∀ m ∈ n.nodes, Q m

theorem Lexicon.Spreads.keeps {x : Lexicon} {tokens : List Token} {Q : Expr → Prop}
    (h : x.Spreads tokens Q) : x.Keeps tokens fun n => ∀ m ∈ n.nodes, Q m where
  join op a b := Expr.forall_nodes_join op (h.join op a b)
  call f arguments n hmem hf hfun hn :=
    Environment.forall_nodes_of_call hn (h.call f arguments n hmem hf hfun hn)
  value := h.value
  groupCall := h.groupCall

theorem Derives.forall_nodes {x : Lexicon} {tokens : List Token} {Q : Expr → Prop}
    (hspreads : x.Spreads tokens Q) {c : Category} {ts : List Token} {n : Expr}
    (h : Derives x c ts n) : ts ⊆ tokens → ∀ m ∈ n.nodes, Q m := h.of_keeps hspreads.keeps

end Formula
