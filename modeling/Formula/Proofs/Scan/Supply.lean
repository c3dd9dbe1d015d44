/-
Formula.Proofs.Scan.Supply — the reduction never lacks a value.

The scan counts no operands: that they are there follows from what it lets
follow what. A stack holds operators that have their left operand in the
queue, and calls that have all but one of their arguments there, so it waits
with a number of values (`Waits`). The queue supplies exactly these, and
one more where no operand is awaited (`Supplied`). Every move keeps this,
whatever was read before.

A queue that supplies one value reduces to it, unless a node is too high or
a call does not fit its function (`reduce_ends`).
-/
import Formula.Proofs.Scan.Refusals

namespace Formula

/-! ## 1. What a queue supplies -/

/-- The items of a queue never lack an operand and leave so many values. All
calls are calls of declared functions. -/
inductive Supplies (env : Environment) : List Item → Nat → Prop
  | nil : Supplies env [] 0
  | value {items k} (v : Measured) (h : Supplies env items k) :
      Supplies env (items ++ [.value v]) (k + 1)
  | sign {items k} (s : Sign) (l : Lexeme) (h : Supplies env items (k + 1)) :
      Supplies env (items ++ [.operator (.sign s) l]) (k + 1)
  | operator {items k} {op : Operator} (l : Lexeme) (hop : op.left?.isSome = true)
      (h : Supplies env items (k + 2)) : Supplies env (items ++ [.operator op l]) (k + 1)
  | call {items k count} {f : Lexeme} (hf : env.isFunction f.text = true)
      (h : Supplies env items (k + count)) : Supplies env (items ++ [.call f count]) (k + 1)

/-- Why an environment refuses a call with so many arguments. -/
inductive CallError (env : Environment) (name : String) (count : Nat) : ParseError → Prop
  | arity {arity} (harity : env.arity? name = some arity) (hcount : count ≠ arity) :
      CallError env name count (.arityMismatch name arity count)
  | undefined (h : env.arity? name = none ∨ env.body? name = none) :
      CallError env name count (.unrecognizedFunction name)

/-- Why the reduction of a queue without gaps can fail. -/
inductive ReductionError (env : Environment) (maxHeight : Nat) : ParseError → Prop
  | tooHigh : ReductionError env maxHeight (.nestingTooDeep maxHeight)
  | call {name count e} (hf : env.isFunction name = true) (h : CallError env name count e) :
      ReductionError env maxHeight e

variable {env : Environment} {maxHeight : Nat}

theorem Environment.call_ends (name : String) (arguments : List Expr) :
    Ends (fun _ => True) (CallError env name arguments.length) (env.call name arguments) := by
  unfold call
  split
  · rename_i arity body harity hbody
    split
    · trivial
    · rename_i hcount
      exact .arity harity hcount
  · rename_i hnone
    refine .undefined ?_
    cases harity : env.arity? name with
    | none => exact .inl rfl
    | some arity =>
      cases hbody : env.body? name with
      | none => exact .inr rfl
      | some body => exact absurd hbody (hnone arity body harity)

theorem grow_ends (heights : List Nat) :
    Ends (fun _ => True) (ReductionError env maxHeight) (grow maxHeight heights) := by
  cases h : grow maxHeight heights with
  | ok height => trivial
  | error e =>
    obtain rfl := eq_of_grow_eq_error h
    exact .tooHigh

theorem Supplies.foldlM_ends {items : List Item} {k : Nat} (h : Supplies env items k) :
    Ends (fun values => values.length = k) (ReductionError env maxHeight)
      (items.foldlM (Item.apply env maxHeight) []) := by
  induction h with
  | nil => rfl
  | value v _ ih => exact ih.foldlM_snoc fun values hlen => congrArg Nat.succ hlen
  | sign s l _ ih =>
    refine ih.foldlM_snoc fun values hlen => ?_
    match values, hlen with
    | operand :: below, hlen => exact (grow_ends _).bind fun _ _ => hlen
  | @operator _ _ op l hop _ ih =>
    refine ih.foldlM_snoc fun values hlen => ?_
    match values, hlen with
    | right :: left :: below, hlen =>
      have hbelow := Nat.succ.inj hlen
      cases op with
      | sign s => cases hop
      | _ => exact (grow_ends _).bind fun _ _ => hbelow
  | @call _ k count f hf _ ih =>
    refine ih.foldlM_snoc fun values hlen => ?_
    rw [Item.apply, if_neg (by omega)]
    have hcall : ∀ arguments, Ends (fun _ => True) (ReductionError env maxHeight)
        (env.call f.text arguments) := fun arguments =>
      (Environment.call_ends f.text arguments).mono (fun _ h => h) fun _ he => .call hf he
    refine (grow_ends _).bind fun _ _ => (hcall _).bind fun _ _ => ?_
    show (_ :: values.drop count).length = k + 1
    rw [List.length_cons, List.length_drop]
    omega

/-- A queue that supplies one value reduces to it, or a node of it is
refused. -/
theorem reduce_ends {items : List Item} (h : Supplies env items 1) :
    Ends (fun _ => True) (ReductionError env maxHeight) (reduce env maxHeight items) := by
  refine h.foldlM_ends.bind fun values hlen => ?_
  match values, hlen with
  | [v], _ => trivial

/-! ## 2. What a stack waits with -/

/-- The number of values in the queue that belong to the entries of a stack:
an operator has its left operand there, and a call the arguments before the
one that is being read. -/
inductive Waits (env : Environment) : List Pending → Nat → Prop
  | nil : Waits env [] 0
  | paren {stack k} (l : Lexeme) (h : Waits env stack k) : Waits env (.paren l :: stack) k
  | call {stack k} {f : Lexeme} (l : Lexeme) (count : Nat) (hf : env.isFunction f.text = true)
      (h : Waits env stack k) :
      Waits env (.paren l :: .call f (count + 1) :: stack) (k + count)
  | sign {stack k} (s : Sign) (l : Lexeme) (h : Waits env stack k) :
      Waits env (.operator (.sign s) l :: stack) k
  | operator {stack k} {op : Operator} (l : Lexeme) (hop : op.left?.isSome = true)
      (h : Waits env stack k) : Waits env (.operator op l :: stack) (k + 1)

namespace Waits

variable {stack : List Pending} {items : List Item} {k : Nat}

/-- Where the right operand is there, the operators on top of a stack can be
put out. -/
theorem popOperators (p : Operator → Bool) (h : Waits env stack k)
    (hitems : Supplies env items (k + 1)) :
    ∃ k', Waits env (popOperators p stack).2 k' ∧
      Supplies env (items ++ (Formula.popOperators p stack).1) (k' + 1) := by
  induction h generalizing items with
  | nil => exact ⟨0, .nil, by simpa [Formula.popOperators] using hitems⟩
  | paren l h _ => exact ⟨_, .paren l h, by simpa [Formula.popOperators] using hitems⟩
  | call l count hf h _ =>
    exact ⟨_, .call l count hf h, by simpa [Formula.popOperators] using hitems⟩
  | sign s l h ih =>
    rw [Formula.popOperators]
    split
    · obtain ⟨k', hwaits, hsupplies⟩ := ih (hitems.sign s l)
      exact ⟨k', hwaits, by simpa using hsupplies⟩
    · exact ⟨_, .sign s l h, by simpa using hitems⟩
  | operator l hop h ih =>
    rw [Formula.popOperators]
    split
    · obtain ⟨k', hwaits, hsupplies⟩ := ih (hitems.operator l hop)
      exact ⟨k', hwaits, by simpa using hsupplies⟩
    · exact ⟨_, .operator l hop h, by simpa using hitems⟩

/-- No call is without its parenthesis. -/
theorem ne_call (h : Waits env stack k) (f : Lexeme) (count : Nat) (rest : List Pending) :
    (Formula.popOperators (fun _ => true) stack).2 ≠ .call f count :: rest := by
  induction h with
  | nil => simp [Formula.popOperators]
  | paren l _ _ => simp [Formula.popOperators]
  | call l count _ _ _ => simp [Formula.popOperators]
  | sign s l _ ih => simpa [Formula.popOperators] using ih
  | operator l _ _ ih => simpa [Formula.popOperators] using ih

theorem below_paren {l : Lexeme} (h : Waits env (.paren l :: stack) k)
    (hstack : ∀ f count rest, stack ≠ .call f count :: rest) : Waits env stack k := by
  cases h with
  | paren _ h => exact h
  | call _ count _ _ => exact absurd rfl (hstack _ _ _)

theorem below_call {l f : Lexeme} {count : Nat}
    (h : Waits env (.paren l :: .call f count :: stack) k) :
    ∃ c k', count = c + 1 ∧ k = k' + c ∧ env.isFunction f.text = true ∧ Waits env stack k' := by
  cases h with
  | paren _ h => cases h
  | call _ c hf h => exact ⟨c, _, rfl, rfl, hf, h⟩

end Waits

/-! ## 3. States of the scan -/

/-- The invariant of the scan: the queue supplies what the stack waits with,
and one more value where no operand is awaited. -/
structure Supplied (env : Environment) (s : Scan) : Prop where
  values : ∃ k, Waits env s.yard.stack k ∧
    Supplies env s.yard.queue.toList (if s.awaiting then k else k + 1)
  opened : s.justOpened = true → s.awaiting = true ∧ ∃ l below, s.yard.stack = .paren l :: below ∧
    ∀ f count rest, below = .call f count :: rest → count = 1
  called : ∀ f, s.called = some f → s.awaiting = true ∧ env.isFunction f.text = true

namespace Supplied

variable {ctx : Context} {s s' : Scan} {t : Token} {ts : List Token}

theorem start : Supplied env .start where
  values := ⟨0, .nil, .nil⟩
  opened h := by cases h
  called f h := by cases h

/-- What the queue supplies, by the state of the flag. -/
theorem values_of {awaiting : Bool} (h : Supplied env s) (ha : s.awaiting = awaiting) :
    ∃ k, Waits env s.yard.stack k ∧
      Supplies env s.yard.queue.toList (if awaiting then k else k + 1) := ha ▸ h.values

/-- After an operand, the operators with a property are put out. -/
theorem popped (p : Operator → Bool) (h : Supplied env s) (ha : s.awaiting = false) :
    ∃ k, Waits env (popOperators p s.yard.stack).2 k ∧
      Supplies env (s.yard.queue ++ (popOperators p s.yard.stack).1).toList (k + 1) := by
  obtain ⟨k, hwaits, hsupplies⟩ := h.values_of ha
  rw [Array.toList_appendList]
  exact hwaits.popOperators p hsupplies

/-- A state in which nothing was just opened and no function is named. -/
theorem of_values {k : Nat} (hc : s.called = none) (hp : s.justOpened = false)
    (hwaits : Waits env s.yard.stack k)
    (hsupplies : Supplies env s.yard.queue.toList (if s.awaiting then k else k + 1)) :
    Supplied env s where
  values := ⟨k, hwaits, hsupplies⟩
  opened h := by rw [hp] at h; cases h
  called f h := by rw [hc] at h; cases h

/-! Every move keeps the invariant. -/

theorem closeCall {l p f : Lexeme} {count : Nat} {below : List Pending} (h : Supplied env s)
    (hc : s.called = none) (hk : l.kind = .rightParen)
    (ha : s.awaiting = true → s.justOpened = true)
    (hpop : (popOperators (fun _ => true) s.yard.stack).2 = .paren p :: .call f count :: below) :
    Supplied env
      { s with
        yard := ⟨below, (s.yard.queue ++ (popOperators (fun _ => true) s.yard.stack).1).push
          (.call f (if s.justOpened then 0 else count))⟩
        previous := some (.lexeme l)
        awaiting := false
        openCalls := s.openCalls - 1
        openParens := s.openParens - 1 } := by
  have hclosed : ((some (Token.lexeme l)).bind Token.kind? == some .leftParen) = false := by
    simp [Token.kind?, hk]
  cases hopened : s.justOpened with
  | true =>
    -- Nothing was read since the parenthesis: it is on top, and no argument is begun.
    obtain ⟨hawait, p', below', hstack, hcount⟩ := h.opened hopened
    obtain ⟨k, hwaits, hsupplies⟩ := h.values_of hawait
    have htop : popOperators (fun _ => true) s.yard.stack = ([], .paren p' :: below') := by
      simp [hstack, popOperators]
    rw [htop] at hpop ⊢
    obtain ⟨-, rfl⟩ := List.cons.inj hpop
    obtain rfl := hcount f count below rfl
    rw [hstack] at hwaits
    obtain ⟨c, k', hone, rfl, hf, hbelow⟩ := hwaits.below_call
    obtain rfl : c = 0 := by omega
    have hnone : Supplies env s.yard.queue.toList (k' + 0) := hsupplies
    refine .of_values hc hclosed hbelow ?_
    simpa using hnone.call hf
  | false =>
    have hawait : s.awaiting = false := by
      cases hawait : s.awaiting with
      | false => rfl
      | true => rw [ha hawait] at hopened; cases hopened
    obtain ⟨k, hwaits, hsupplies⟩ := h.popped (fun _ => true) hawait
    rw [hpop] at hwaits
    obtain ⟨c, k', rfl, rfl, hf, hbelow⟩ := hwaits.below_call
    refine .of_values hc hclosed hbelow ?_
    rw [Array.toList_push]
    exact hsupplies.call hf

theorem moves (h : Supplied env s) (henv : ctx.environment = env) (hmove : Scan.Moves ctx s t s') :
    Supplied env s' := by
  cases hmove with
  | operand hc ht ha hv =>
    obtain ⟨k, hwaits, hsupplies⟩ := h.values_of ha
    refine .of_values hc (Token.kind?_ne_of_isOperand ht) hwaits ?_
    simpa [Scan.pushValue, Yard.pushValue] using hsupplies.value _
  | functionName hc hk ha hf =>
    exact ⟨h.values, h.opened, fun f hf' => by cases hf'; exact ⟨ha, henv ▸ hf⟩⟩
  | groupCall hc hv =>
    obtain ⟨k, hwaits, hsupplies⟩ := h.values_of (h.called _ hc).1
    refine .of_values rfl rfl hwaits ?_
    simpa [Scan.pushValue, Yard.pushValue] using hsupplies.value _
  | @openCall f l hc hk _ =>
    obtain ⟨ha, hf⟩ := h.called _ hc
    obtain ⟨k, hwaits, hsupplies⟩ := h.values_of ha
    refine ⟨⟨k, hwaits.call l 0 hf, by simpa [ha, Yard.pushCall] using hsupplies⟩,
      fun _ => ⟨ha, l, _, rfl, ?_⟩, fun f hf' => by cases hf'⟩
    intro f count rest hbelow
    cases hbelow
    rfl
  | @openParen l hc hk ha _ =>
    obtain ⟨k, hwaits, hsupplies⟩ := h.values_of ha
    refine ⟨⟨k, hwaits.paren l, by simpa [ha, Yard.pushParen] using hsupplies⟩,
      fun _ => ⟨ha, l, _, rfl, ?_⟩, fun f hf' => h.called f hf'⟩
    intro f count rest hbelow
    rw [hbelow] at hwaits
    cases hwaits
  | closeCall hc hk ha hpop => exact h.closeCall hc hk ha hpop
  | closeParen hc hk ha _ hpop hbelow =>
    obtain ⟨k, hwaits, hsupplies⟩ := h.popped (fun _ => true) ha
    rw [hpop] at hwaits
    exact .of_values hc (by simp [Scan.justOpened, Token.kind?, hk])
      (hwaits.below_paren hbelow) hsupplies
  | separator hc hk _ ha hpop =>
    obtain ⟨k, hwaits, hsupplies⟩ := h.popped (fun _ => true) ha
    rw [hpop] at hwaits
    obtain ⟨c, k', rfl, rfl, hf, hbelow⟩ := hwaits.below_call
    exact .of_values hc (by simp [Scan.justOpened, Token.kind?, hk])
      (hbelow.call _ (c + 1) hf) hsupplies
  | @sign l sign hc hk ha =>
    obtain ⟨k, hwaits, hsupplies⟩ := h.values_of ha
    refine .of_values hc ?_ (k := k) ?_ ?_
    · cases sign <;> simp [Scan.justOpened, Token.kind?, hk, Sign.kind]
    · simpa [Yard.pushOperator, popOperators_sign] using hwaits.sign sign l
    · simpa [Yard.pushOperator, popOperators_sign] using hsupplies
  | @operator l op hc hop hk ha =>
    obtain ⟨k, hwaits, hsupplies⟩ := h.popped (·.yieldsTo op) ha
    refine .of_values hc ?_ (hwaits.operator l hop) hsupplies
    obtain ⟨hne, -⟩ := op.kind_ne
    simp [Scan.justOpened, Token.kind?, hk, hne]

end Supplied

end Formula
