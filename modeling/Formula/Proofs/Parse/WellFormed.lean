/-
Formula.Proofs.Parse.WellFormed — where the nodes of a parsed formula come from.

`Expr.WellFormed` says of a formula, node by node, what the input and the
environment have to do with it: a literal is the value of a numeral, a free name
is a name of the input, a constant has its value from the environment, and a
call has its body and its number of arguments from there, if it is not the
absolute value between bars. Every formula that a parse finds is of this form
(`wellFormed_of_parse`). `Expr.Grounded` is what this says of a node without
regard to the input, for the formulas that are parsed from another text later.

There is one literal that no numeral spells. The root of a radical without a
degree is stored with the degree two (`not_literal_of_lexeme`), so the operand
and the degree of such a root are one case of the definition.

An operand that was parsed from a list inside of a token is well formed for the
tokens of this list. What lies on a path in this list also lies on one in the
list around it, so it is well formed for the whole input
(`Expr.WellFormed.mono`).
-/
import Formula.Proofs.Number.Magnitude
import Formula.Proofs.Number.Numeral
import Formula.Proofs.Parse.Paths
import Formula.Proofs.Trace

namespace Formula

open Token

/-! ## 1. Formulas with their origin -/

/-- A formula each of whose nodes comes from the tokens of a list and from an
environment. -/
inductive Expr.WellFormed (env : Environment) (tokens : List Token) : Expr → Prop
  | literal {l : Lexeme} {ps} (hl : Path tokens ps (.lexeme l)) (hk : l.kind = .number)
      (hs : Number.IsNumeral (Text.trim l.text.toList)) :
      WellFormed env tokens (.literal (Number.Binary64.ofNumeral (Text.trim l.text.toList)))
  | free {name ps} (hl : Path tokens ps (.lexeme (.variableName name))) :
      WellFormed env tokens (.free name)
  | constant {name value} (hv : env.constant? name = some value) :
      WellFormed env tokens (.constant name value)
  | arithmetic {op a b} (ha : WellFormed env tokens a) (hb : WellFormed env tokens b) :
      WellFormed env tokens (.arithmetic op a b)
  | signed {s a} (ha : WellFormed env tokens a) : WellFormed env tokens (.signed s a)
  | power {a b} (ha : WellFormed env tokens a) (hb : WellFormed env tokens b) :
      WellFormed env tokens (.power a b)
  | equation {a b} (ha : WellFormed env tokens a) (hb : WellFormed env tokens b) :
      WellFormed env tokens (.equation a b)
  /-- A radical without a degree. -/
  | squareRoot {base ps a} (ht : Path tokens ps (.radical base [])) (ha : WellFormed env tokens a) :
      WellFormed env tokens a.squareRoot
  | root {a b} (ha : WellFormed env tokens a) (hb : WellFormed env tokens b) :
      WellFormed env tokens (.root a b)
  /-- A group between bars. -/
  | absolute {delimiters element ps a} (ht : Path tokens ps (.group delimiters [element]))
      (hg : Context.grouping? delimiters = some .bars) (ha : WellFormed env tokens a) :
      WellFormed env tokens a.absolute
  | call {name body arguments} (hfun : env.isFunction name = true)
      (harity : env.arity? name = some arguments.length) (hbody : env.body? name = some body)
      (harguments : ∀ a ∈ arguments, WellFormed env tokens a) :
      WellFormed env tokens (.call name body arguments)

/-- What a parse in an environment puts into a node. -/
def Expr.Grounded (env : Environment) : Expr → Prop
  | .literal value => Number.Binary64.isNegative value = false
  | .constant name value => env.constant? name = some value
  | .call name body arguments =>
    (name = "abs" ∧ body = Body.absolute ∧ arguments.length = 1) ∨
      (env.isFunction name = true ∧ env.arity? name = some arguments.length ∧
        env.body? name = some body)
  | _ => True

namespace Expr.WellFormed

variable {env : Environment} {tokens ts us : List Token} {n a b : Expr}

/-- A formula that is well formed for some tokens is so for others, if all that
lies on a path in the first lies on one in the others. -/
theorem mono (h : n.WellFormed env us) (hpaths : ∀ ps t, Path us ps t → ∃ qs, Path ts qs t) :
    n.WellFormed env ts := by
  induction h with
  | literal hl hk hs =>
    obtain ⟨qs, hl⟩ := hpaths _ _ hl
    exact .literal hl hk hs
  | free hl =>
    obtain ⟨qs, hl⟩ := hpaths _ _ hl
    exact .free hl
  | constant hv => exact .constant hv
  | arithmetic _ _ iha ihb => exact .arithmetic iha ihb
  | signed _ ih => exact .signed ih
  | power _ _ iha ihb => exact .power iha ihb
  | equation _ _ iha ihb => exact .equation iha ihb
  | squareRoot ht _ ih =>
    obtain ⟨qs, ht⟩ := hpaths _ _ ht
    exact .squareRoot ht ih
  | root _ _ iha ihb => exact .root iha ihb
  | absolute ht hg _ ih =>
    obtain ⟨qs, ht⟩ := hpaths _ _ ht
    exact .absolute ht hg ih
  | call hfun harity hbody _ ih => exact .call hfun harity hbody ih

/-- A numeral has no sign, and neither has the degree of a square root. -/
theorem grounded (h : n.WellFormed env tokens) : ∀ m ∈ n.nodes, m.Grounded env := by
  have hleaf : ∀ {leaf m : Expr}, leaf.Grounded env → m ∈ [leaf] → m.Grounded env := by
    intro leaf m h hm
    obtain rfl := List.mem_singleton.mp hm
    exact h
  induction h with
  | literal _ _ _ => exact fun m => hleaf (Number.Binary64.isNegative_ofNumeral _)
  | free _ => exact fun m => hleaf trivial
  | constant hv => exact fun m => hleaf hv
  | @arithmetic op _ _ _ _ iha ihb => exact forall_nodes_join (.arithmetic op) trivial iha ihb
  | @signed s _ _ ih => exact forall_nodes_join (.sign s) trivial ih ih
  | power _ _ iha ihb => exact forall_nodes_join .power trivial iha ihb
  | equation _ _ iha ihb => exact forall_nodes_join .equals trivial iha ihb
  | squareRoot _ _ ih =>
    have hdegree : (Expr.literal 2).Grounded env := by
      show Number.Binary64.isNegative 2 = false
      decide
    exact forall_nodes_root trivial ih fun m => hleaf hdegree
  | root _ _ iha ihb => exact forall_nodes_root trivial iha ihb
  | absolute _ _ _ ih =>
    refine forall_nodes_call (.inl ⟨rfl, rfl, rfl⟩) fun a ha => ?_
    obtain rfl := List.mem_singleton.mp ha
    exact ih
  | call hfun harity hbody _ ih => exact forall_nodes_call (.inr ⟨hfun, harity, hbody⟩) ih

theorem join (op : Operator) (ha : a.WellFormed env tokens) (hb : b.WellFormed env tokens) :
    (Item.join op a b).WellFormed env tokens := by
  cases op with
  | equals => exact .equation ha hb
  | arithmetic op => exact .arithmetic ha hb
  | sign s => exact .signed hb
  | power => exact .power ha hb

theorem of_call {f : Lexeme} {arguments : List Expr} (hfun : env.isFunction f.text = true)
    (hn : env.call f.text arguments = .ok n) (ha : ∀ a ∈ arguments, a.WellFormed env tokens) :
    n.WellFormed env tokens := by
  obtain ⟨body, harity, hbody, rfl⟩ := Environment.call_eq_ok_iff.mp hn
  exact .call hfun harity hbody ha

end Expr.WellFormed

/-! ## 2. Tokens -/

section Tokens

variable {env : Environment} {tokens : List Token} {t : Token} {n : Expr}

theorem DenotesCall.wellFormed {f : Lexeme} {delimiters : Delimiters}
    {elements : List (List Token)}
    (h : DenotesCall env (fun _ m => m.WellFormed env tokens) f delimiters elements n) :
    n.WellFormed env tokens := by
  obtain ⟨hfun, -, list, hn⟩ := h
  refine .of_call hfun hn fun a ha => ?_
  obtain ⟨element, -, ha⟩ := exists_element_of_mem list ha
  exact ha

theorem Denotes.wellFormed (ht : t ∈ tokens)
    (h : Denotes env (fun _ m => m.WellFormed env tokens) t n) : n.WellFormed env tokens := by
  obtain ⟨ps, hpath⟩ := Path.of_mem ht
  cases h with
  | @number l numeral hk hs =>
    have hnumeral := Number.isNumeral_of_splitNumeral hs
    have happend := Number.append_of_splitNumeral hs
    rw [List.append_nil] at happend
    rw [happend] at hnumeral ⊢
    exact .literal hpath hk hnumeral
  | @free l hk =>
    obtain ⟨kind, name⟩ := l
    obtain rfl : kind = .variableName := hk
    exact .free hpath
  | constant hk hv => exact .constant hv
  | fraction ha hb => exact .arithmetic ha hb
  | superscript ha hb => exact .power ha hb
  | squareRoot ha => exact .squareRoot hpath ha
  | radical hd ha hb => exact .root ha hb
  | plain hg ha => exact ha
  | bars hg ha => exact .absolute hpath hg ha
  | application hf hn => exact hn.wellFormed
  | poweredApplication hf hn hb => exact .power hn.wellFormed hb

/-- A formula of a list inside of a token of the input. -/
theorem Expr.WellFormed.of_sublist {us : List Token} (ht : t ∈ tokens)
    (hus : us ∈ t.sublists ∨ us = []) (h : n.WellFormed env us) : n.WellFormed env tokens := by
  refine h.mono fun ps u hpath => ?_
  rcases hus with hus | rfl
  · exact Path.enter ht hus hpath
  · rcases hpath.mem_or with hmem | ⟨v, hmem, -⟩ <;> cases hmem

end Tokens

/-! ## 3. Parses -/

variable {env : Environment} {limits : Limits}

theorem wellFormed_of_parseWithin {room : Nat} {tokens : List Token} {n : Expr}
    (h : parseWithin env limits room tokens = .ok n.measured) : n.WellFormed env tokens := by
  induction room using Nat.strongRecOn generalizing tokens n with
  | ind room ih =>
    have hparts : ∀ us m, (Context.within env limits room).parts us m → m.WellFormed env us := by
      intro us m hm
      obtain ⟨k, rfl, hk⟩ := Context.parts_within_iff.mp hm
      exact ih k (Nat.lt_succ_self k) hk
    have hexact := Context.exactParts_within env limits room
    rw [parseWithin_eq_run] at h
    have hderives := (Scan.derives_of_run (Context.exact_of_exactParts hexact) h).1
    refine hderives.of_keeps ⟨fun op a b => .join op, ?_, ?_, ?_⟩ (List.Subset.refl _)
    · intro f arguments n _ _ hfun hn
      rw [Context.lexicon, Context.within_environment] at hfun hn
      exact .of_call hfun hn
    · intro t n ht hn
      have hdenotes := (Context.value_eq_ok hexact hn).2
      rw [Context.within_environment] at hdenotes
      exact (hdenotes.mono_sublists fun us m hus _ hm =>
        (hparts us m hm).of_sublist ht hus).wellFormed ht
    · intro f delimiters elements n ht hn
      have hdenotes := (Context.call_eq_ok hexact hn).2
      rw [Context.within_environment] at hdenotes
      exact (hdenotes.mono_arguments fun us m hus _ hm =>
        (hparts us m hm).of_sublist ht (.inl hus)).wellFormed

/-- Every node of what a parse finds is grounded in the environment. -/
theorem grounded_of_parse {tokens : List Token} {n : Expr} (h : parse env limits tokens = .ok n) :
    ∀ m ∈ n.nodes, m.Grounded env := (wellFormed_of_parseWithin (parse_eq_ok_iff.mp h)).grounded

/-- What a parse finds is well formed for its input and its environment. Its
evaluation makes no call but of the absolute value between bars, with one
number, and of bodies of the environment, with as many numbers as the
environment says. -/
theorem wellFormed_of_parse (env : Environment) (limits : Limits) (tokens : List Token) (n : Expr)
    (h : parse env limits tokens = .ok n) :
    n.WellFormed env tokens ∧
    ∀ bindings, (n.trace bindings).result = n.evaluate bindings ∧
      ∀ c ∈ (n.trace bindings).calls,
        (c.name = "abs" ∧ c.body = Body.absolute ∧ c.arguments.length = 1) ∨
        (env.isFunction c.name = true ∧ env.body? c.name = some c.body ∧
          env.arity? c.name = some c.arguments.length) := by
  refine ⟨wellFormed_of_parseWithin (parse_eq_ok_iff.mp h), fun bindings =>
    ⟨n.result_trace, fun c hc => ?_⟩⟩
  obtain ⟨arguments, hnode, hlength⟩ := Expr.hasCall_of_mem_calls hc
  rw [hlength]
  rcases grounded_of_parse h _ hnode with habsolute | ⟨hfun, harity, hbody⟩
  · exact .inl habsolute
  · exact .inr ⟨hfun, hbody, harity⟩

/-- A sine and an absolute value between bars. -/
def sineAndBars : List Token :=
  [.lexeme (.functionName "sin"), .lexeme (.punctuation .leftParen),
    .lexeme (.variableName "x"), .lexeme (.punctuation .rightParen),
    .lexeme (.punctuation .plus), .group ⟨'|', '|', ','⟩ [[.lexeme (.variableName "y")]]]

theorem wellFormed_of_parse_sineAndBars : ∃ n, parse .standard .standard sineAndBars = .ok n ∧
    n.WellFormed .standard sineAndBars ∧
    ∀ bindings, (n.trace bindings).result = n.evaluate bindings ∧
      ∀ c ∈ (n.trace bindings).calls,
        (c.name = "abs" ∧ c.body = Body.absolute ∧ c.arguments.length = 1) ∨
        (Environment.standard.isFunction c.name = true ∧
          Environment.standard.body? c.name = some c.body ∧
            Environment.standard.arity? c.name = some c.arguments.length) :=
  ⟨_, rfl, wellFormed_of_parse .standard .standard sineAndBars _ rfl⟩

/-- Not every literal is the value of a numeral of the input. -/
theorem not_literal_of_lexeme :
    ¬ ∀ (env : Environment) (limits : Limits) (tokens : List Token) (n : Expr) (value : Float),
      parse env limits tokens = .ok n → .literal value ∈ n.nodes →
        ∃ (l : Lexeme) (ps : List Nat), Path tokens ps (.lexeme l) ∧ l.kind = .number ∧
          Number.IsNumeral (Text.trim l.text.toList) ∧
            value = Number.Binary64.ofNumeral (Text.trim l.text.toList) := by
  intro h
  obtain ⟨l, ps, hpath, hk, -⟩ := h .standard .standard
    [.radical [.lexeme (.variableName "x")] []] (.root (.free "x") (.literal 2)) 2 rfl
    (by simp [Expr.nodes])
  rcases hpath.mem_or with hmem | ⟨t, ht, us, hus, qs, hpath⟩
  · simp at hmem
  · obtain rfl := List.mem_singleton.mp ht
    obtain rfl := List.mem_singleton.mp hus
    rcases hpath.mem_or with hmem | ⟨t, ht, us, hus, -⟩
    · obtain rfl := Token.lexeme.inj (List.mem_singleton.mp hmem)
      cases hk
    · obtain rfl := List.mem_singleton.mp ht
      cases hus

end Formula
