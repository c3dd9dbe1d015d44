/-
Formula.Proofs.Infix.Evaluation — the line of text of markup has its value.

A line of text has no roots and no bars, so what it is read as is not the
formula it was written for: roots have become calls of `root`, and bars
calls of `abs`. In the usual environment these are the same computations
over the same operands in the same order, so the two formulas have the same
value, or fail to have one for the same reason
(`Expr.evaluate_spelled`).

What a parse in the usual environment finds is legible there, up to the free
names and the literals that its tokens bring along: the environment spells
its own names as they are read (`Environment.standard_offers`).
-/
import Formula.Proofs.Infix.RoundTrip
import Formula.Proofs.Parse.WellFormed

namespace Formula

open Reader (standard)
open Number.Binary64 (isNegative)

/-! ## 1. Values -/

namespace Expr

variable {bindings : Bindings}

/-- The body of `root` in the usual environment. -/
def rootBody : Body := Body.binary Number.realRoot

/-- A call of `root` computes what a root computes. -/
theorem evaluate_root (a b : Expr) :
    (Expr.call "root" rootBody [a, b]).evaluate bindings = (Expr.root a b).evaluate bindings := by
  simp only [evaluate, evaluateAll]
  cases a.evaluate bindings with
  | error e => rfl
  | ok x =>
    cases b.evaluate bindings with
    | error e => rfl
    | ok y => rfl

/-- What a line of text spells has the value of the formula, or fails to
have one as the formula does. -/
theorem evaluate_spelled (n : Expr)
    (h : ∀ value, .literal value ∈ n.nodes → isNegative value = false) :
    (n.spelled rootBody).evaluate bindings = n.evaluate bindings := by
  induction n using Expr.induction with
  | literal value => simp [spelled, h value (mem_nodes_self _)]
  | free name => rfl
  | constant name value => rfl
  | arithmetic op a b iha ihb =>
    rw [spelled, evaluate, evaluate, iha fun v hv => h v (by simp [nodes, hv]),
      ihb fun v hv => h v (by simp [nodes, hv])]
  | signed s a ih =>
    rw [spelled, evaluate, evaluate, ih fun v hv => h v (by simp [nodes, hv])]
  | power a b iha ihb =>
    rw [spelled, evaluate, evaluate, iha fun v hv => h v (by simp [nodes, hv]),
      ihb fun v hv => h v (by simp [nodes, hv])]
  | root a b iha ihb =>
    rw [spelled, evaluate_root, evaluate, evaluate, iha fun v hv => h v (by simp [nodes, hv]),
      ihb fun v hv => h v (by simp [nodes, hv])]
  | call name body arguments ih =>
    have hall : evaluateAll bindings (arguments.map (spelled rootBody)) =
        evaluateAll bindings arguments :=
      evaluateAll_map fun a ha => ih a ha fun v hv =>
        h v (List.mem_cons_of_mem _ (nodes_subset_of_mem ha hv))
    rw [spelled, spelledList_eq_map, evaluate, evaluate, hall]
  | equation a b iha ihb =>
    rw [spelled, evaluate, evaluate, iha fun v hv => h v (by simp [nodes, hv]),
      ihb fun v hv => h v (by simp [nodes, hv])]

/-! ## 2. Heights -/

theorem heightOfList_map {f : Expr → Expr} {as : List Expr}
    (h : ∀ a ∈ as, (f a).height = a.height) : heightOfList (as.map f) = heightOfList as := by
  induction as with
  | nil => rfl
  | cons a rest ih =>
    rw [List.map_cons, heightOfList, heightOfList, h a (by simp), ih fun b hb => h b (by simp [hb])]

/-- Calls of `root` are as high as roots. -/
theorem height_spelled (root : Body) (n : Expr)
    (h : ∀ value, .literal value ∈ n.nodes → isNegative value = false) :
    (n.spelled root).height = n.height := by
  induction n using Expr.induction with
  | literal value => simp [spelled, h value (mem_nodes_self _)]
  | free name => rfl
  | constant name value => rfl
  | arithmetic op a b iha ihb =>
    rw [spelled, height, height, iha fun v hv => h v (by simp [nodes, hv]),
      ihb fun v hv => h v (by simp [nodes, hv])]
  | signed s a ih => rw [spelled, height, height, ih fun v hv => h v (by simp [nodes, hv])]
  | power a b iha ihb =>
    rw [spelled, height, height, iha fun v hv => h v (by simp [nodes, hv]),
      ihb fun v hv => h v (by simp [nodes, hv])]
  | root a b iha ihb =>
    have ha := iha fun v hv => h v (by simp [nodes, hv])
    have hb := ihb fun v hv => h v (by simp [nodes, hv])
    simp [spelled, height, heightOfList, ha, hb]
  | call name body arguments ih =>
    have hall : heightOfList (arguments.map (spelled root)) = heightOfList arguments :=
      heightOfList_map fun a ha => ih a ha fun v hv =>
        h v (List.mem_cons_of_mem _ (nodes_subset_of_mem ha hv))
    rw [spelled, spelledList_eq_map, height, height, hall]
  | equation a b iha ihb =>
    rw [spelled, height, height, iha fun v hv => h v (by simp [nodes, hv]),
      ihb fun v hv => h v (by simp [nodes, hv])]

end Expr

/-! ## 3. The usual environment -/

namespace Environment

/-- The usual functions are read by their names. -/
theorem standard_reads_function {name : String} (h : Environment.standard.isFunction name = true) :
    Environment.standard.Reads .functionName name := by
  have hread : ∀ name ∈ Declarations.standard.functions.map Prod.fst,
      (Reader.standard .standard).next? name.toList = some (⟨.functionName, name⟩, []) := by
    decide
  obtain ⟨f, hf⟩ := Option.isSome_iff_exists.mp h
  exact reads_of_next? (hread name (List.mem_map_of_mem (Dictionary.mem_of_get? hf)))

/-- The usual constants are read by their names. -/
theorem standard_reads_constant {name : String} {value : Float}
    (h : Environment.standard.constant? name = some value) :
    Environment.standard.Reads .constantName name := by
  have hread : ∀ name ∈ Declarations.standard.constants.map Prod.fst,
      (Reader.standard .standard).next? name.toList = some (⟨.constantName, name⟩, []) := by
    decide
  exact reads_of_next? (hread name (List.mem_map_of_mem (Dictionary.mem_of_get? h)))

theorem standard_offers_root : Environment.standard.Offers "root" 2 Expr.rootBody :=
  ⟨standard_reads_function rfl, rfl, rfl⟩

/-- What a parse calls can be called by its name, the absolute value
included. -/
theorem standard_offers {name : String} {body : Body} {arguments : List Expr}
    (h : (Expr.call name body arguments).Grounded .standard) :
    Environment.standard.Offers name arguments.length body := by
  rcases h with ⟨rfl, rfl, hlength⟩ | ⟨hfun, harity, hbody⟩
  · rw [hlength]
    exact ⟨standard_reads_function rfl, rfl, rfl⟩
  · exact ⟨standard_reads_function hfun, harity, hbody⟩

end Environment

/-- What a parse in the usual environment finds is legible there, if its
literals are finite and its free names can be read. -/
theorem legible_of_parse_standard {limits : Limits} {tokens : List Token} {n : Expr}
    (h : parse .standard limits tokens = .ok n)
    (hfinite : ∀ value, .literal value ∈ n.nodes → value.isFinite = true)
    (hfree : ∀ name, .free name ∈ n.nodes → Environment.standard.Reads .variableName name) :
    n.Legible .standard Expr.rootBody := by
  have hgrounded := grounded_of_parse h
  refine ⟨hfinite, hfree, ?_, ?_, ?_⟩
  · intro name value hm
    have hvalue := hgrounded _ hm
    exact ⟨Environment.standard_reads_constant hvalue, hvalue⟩
  · intro name body arguments hm
    exact Environment.standard_offers (hgrounded _ hm)
  · intro base degree _
    exact Environment.standard_offers_root

/-! ## 4. Markup as text -/

/-- The line of text of what a list of tokens means in the usual
environment, markup and all, is read there as a formula with the same
value. -/
theorem parseText_toInfix_evaluate (limits : Limits) (tokens : List Token) (n : Expr)
    (h : parse .standard limits tokens = .ok n)
    (hfinite : ∀ value, .literal value ∈ n.nodes → value.isFinite = true)
    (hheight : n.height ≤ 256)
    (hfree : ∀ name, .free name ∈ n.nodes →
      (standard .standard).tokens name = [.lexeme (.variableName name)]) :
    ∃ m, parseText .standard n.toInfix = .ok m ∧
      ∀ bindings, m.evaluate bindings = n.evaluate bindings := by
  have hsign : ∀ value, .literal value ∈ n.nodes → isNegative value = false :=
    fun value hm => grounded_of_parse h _ hm
  have hspelled := n.height_spelled Expr.rootBody hsign
  have hnesting := n.nesting_le Expr.rootBody
  have hlegible := legible_of_parse_standard h hfinite hfree
  have hdepth : n.nesting ≤ Limits.standard.maxDepth := by
    show n.nesting ≤ 256
    omega
  have hlimit : (n.spelled Expr.rootBody).height ≤ Limits.standard.maxHeight := by
    show _ ≤ 1024
    omega
  exact ⟨n.spelled Expr.rootBody, Expr.parse_tokens_toInfix hlegible hdepth hlimit,
    fun bindings => n.evaluate_spelled hsign⟩

/-- The square root of an absolute value is read as a call over a call. -/
theorem parseText_toInfix_evaluate_bars :
    parse .standard .standard
        [.radical [.group ⟨'|', '|', ','⟩ [[.lexeme (.variableName "x")]]] []] =
      .ok (.root (Expr.absolute (.free "x")) (.literal 2)) ∧
    ∃ m, parseText .standard
        (Expr.root (Expr.absolute (.free "x")) (.literal 2)).toInfix = .ok m ∧
      ∀ bindings, m.evaluate bindings =
        (Expr.root (Expr.absolute (.free "x")) (.literal 2)).evaluate bindings := by
  have hparse : parse .standard .standard
      [.radical [.group ⟨'|', '|', ','⟩ [[.lexeme (.variableName "x")]]] []] =
        .ok (.root (Expr.absolute (.free "x")) (.literal 2)) := rfl
  refine ⟨hparse, parseText_toInfix_evaluate .standard _ _ hparse ?_ (by decide) ?_⟩
  · intro value hm
    obtain rfl : value = 2 := by simpa [Expr.nodes, Expr.nodesOfList, Expr.absolute] using hm
    decide
  · intro name hm
    obtain rfl : name = "x" := by simpa [Expr.nodes, Expr.nodesOfList, Expr.absolute] using hm
    exact Environment.reads_of_next? rfl

end Formula
