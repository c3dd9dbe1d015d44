/-
Formula.Proofs.Grammar — the grammar of formulas.

The scan of `Formula.Parse.Scan` is an operator stack with an output queue,
and nothing in it looks like a grammar. `Derives` is the grammar: six
categories, one for each level of binding, and for each rule the tree that
it builds.

  equation ::= sum | equation '=' sum
  sum      ::= product | sum ('+' | '-') product
  product  ::= signed | product ('*' | '/') signed
  signed   ::= power | ('+' | '-') signed
  power    ::= atom | atom '^' signed
  atom     ::= number or name | markup | '(' equation ')'
             | function '(' [equation {',' equation}] ')' | function group

A `Lexicon` gives the trees of single tokens, so that the same rules serve
a parse within limits and the language without them.

The operator table of `Formula.Operator` decides by levels alone which
pending operators yield. `yieldsTo_eq` says what this has to do with the
grammar: an operator yields exactly if what comes is too loose to belong to
its right operand.
-/
import Formula.Parse

namespace Formula

/-! ## 1. Categories -/

/-- The categories of the grammar, the loosest first. -/
inductive Category where
  | equation
  | sum
  | product
  | signed
  | power
  | atom
deriving DecidableEq, Repr

namespace Category

/-- How tightly the formulas of a category hold together. -/
def level : Category → Nat
  | .equation => 0
  | .sum => 1
  | .product => 2
  | .signed => 3
  | .power => 4
  | .atom => 5

theorem level_injective {c d : Category} (h : c.level = d.level) : c = d := by
  cases c <;> cases d <;> simp [level] at h ⊢

end Category

/-- Whether a lexeme is a number or a free or constant name. -/
def LexemeKind.isOperand : LexemeKind → Bool
  | .number | .constantName | .variableName => true
  | _ => false

/-- The kind of lexeme that spells an operation. -/
def Arithmetic.kind : Arithmetic → LexemeKind
  | .add => .plus
  | .subtract => .minus
  | .multiply => .times
  | .divide => .divide

/-- The kind of lexeme that spells a sign. -/
def Sign.kind : Sign → LexemeKind
  | .plus => .plus
  | .minus => .minus

namespace Operator

/-- The kind of lexeme that spells an operator. -/
def kind : Operator → LexemeKind
  | .equals => .equals
  | .arithmetic op => op.kind
  | .sign s => s.kind
  | .power => .power

/-- The category of an operator together with its operands. -/
def category : Operator → Category
  | .equals => .equation
  | .arithmetic .add | .arithmetic .subtract => .sum
  | .arithmetic .multiply | .arithmetic .divide => .product
  | .sign _ => .signed
  | .power => .power

/-- The category of the left operand. A sign has none. -/
def left? : Operator → Option Category
  | .equals => some .equation
  | .arithmetic .add | .arithmetic .subtract => some .sum
  | .arithmetic .multiply | .arithmetic .divide => some .product
  | .sign _ => none
  | .power => some .atom

/-- The category of the right operand. -/
def right : Operator → Category
  | .equals => .sum
  | .arithmetic .add | .arithmetic .subtract => .product
  | .arithmetic .multiply | .arithmetic .divide | .sign _ | .power => .signed

theorem level_category (op : Operator) : op.category.level = op.level := by
  cases op with
  | arithmetic op => cases op <;> rfl
  | _ => rfl

/-- A formula holds together less tightly than the left operand of its
operator has to. -/
theorem level_category_le {op : Operator} {c : Category} (h : op.left? = some c) :
    op.category.level ≤ c.level := by
  rcases op with _ | op | s | _
  · cases h
    exact Nat.le_refl _
  · cases op <;> cases h <;> exact Nat.le_refl _
  · cases h
  · cases h
    decide

/-- Only signs have no left operand. -/
theorem isSome_left? {op : Operator} (h : ∀ s, op ≠ .sign s) : op.left?.isSome = true := by
  rcases op with _ | op | s | _
  · rfl
  · cases op <;> rfl
  · exact absurd rfl (h s)
  · rfl

/-- The kinds of operators are none of those with another role. -/
theorem kind_ne (op : Operator) :
    op.kind ≠ .leftParen ∧ op.kind ≠ .rightParen ∧ op.kind ≠ .functionName ∧
      op.kind ≠ .separator ∧ op.kind.isOperand = false := by
  rcases op with _ | op | sign | _
  · simp [kind, LexemeKind.isOperand]
  · cases op <;> simp [kind, Arithmetic.kind, LexemeKind.isOperand]
  · cases sign <;> simp [kind, Sign.kind, LexemeKind.isOperand]
  · simp [kind, LexemeKind.isOperand]

/-- A pending operator yields exactly if what comes is too loose to belong
to its right operand. -/
theorem yieldsTo_eq (pending incoming : Operator) :
    pending.yieldsTo incoming = decide (incoming.level < pending.right.level) := by
  rcases pending with _ | p | s | _ <;> rcases incoming with _ | q | t | _ <;>
    try cases p
  all_goals try cases q
  all_goals rfl

/-- Seen from the operator that comes: what yields to it is tight enough to
be its left operand. -/
theorem yieldsTo_iff_of_left? {incoming : Operator} {c : Category} (h : incoming.left? = some c)
    (pending : Operator) : pending.yieldsTo incoming = true ↔ c.level ≤ pending.level := by
  rw [yieldsTo_eq]
  rcases pending with _ | p | s | _ <;> rcases incoming with _ | q | t | _ <;>
    try cases p
  all_goals try cases q
  all_goals simp [left?] at h
  all_goals subst h
  all_goals simp [level, right, Category.level]

/-- Between operands a kind of lexeme stands for the operator that it
spells, and never for a sign. -/
theorem ofKind?_false_iff {kind : LexemeKind} {op : Operator} :
    ofKind? kind false = some op ↔ op.left?.isSome = true ∧ kind = op.kind := by
  rcases op with _ | op | s | _
  · cases kind <;> simp [ofKind?, left?, Operator.kind]
  · cases op <;> cases kind <;> simp [ofKind?, left?, Operator.kind, Arithmetic.kind]
  · cases kind <;> simp [ofKind?, left?]
  · cases kind <;> simp [ofKind?, left?, Operator.kind]

/-- Where an operand has to follow, plus and minus are signs. -/
theorem ofKind?_true_iff {kind : LexemeKind} {op : Operator}
    (h : kind = .plus ∨ kind = .minus) :
    ofKind? kind true = some op ↔ ∃ s : Sign, op = .sign s ∧ kind = s.kind := by
  rcases h with rfl | rfl
  · constructor
    · intro h
      simp only [ofKind?, if_true, Option.some.injEq] at h
      exact ⟨.plus, h.symm, rfl⟩
    · rintro ⟨s, rfl, hs⟩
      cases s <;> simp [ofKind?, Sign.kind] at hs ⊢
  · constructor
    · intro h
      simp only [ofKind?, if_true, Option.some.injEq] at h
      exact ⟨.minus, h.symm, rfl⟩
    · rintro ⟨s, rfl, hs⟩
      cases s <;> simp [ofKind?, Sign.kind] at hs ⊢

end Operator

/-! ## 2. Single tokens -/

/-- Whether a token is an operand of its own: a number, a name that is no
function, or a piece of markup. -/
def Token.isOperand : Token → Bool
  | .lexeme l => l.kind.isOperand
  | _ => true

/-- What a grammar is given: the environment, the trees of the tokens that
are operands, and the trees of calls with a group of arguments. -/
structure Lexicon where
  environment : Environment
  value : Token → Expr → Prop
  groupCall : Lexeme → Delimiters → List (List Token) → Expr → Prop

/-! ## 3. The rules -/

mutual

/-- A list of tokens belongs to a category and has a tree there. -/
inductive Derives (x : Lexicon) : Category → List Token → Expr → Prop
  | sum {ts n} (h : Derives x .sum ts n) : Derives x .equation ts n
  | equals {ts us a b l} (left : Derives x .equation ts a) (hl : l.kind = .equals)
      (right : Derives x .sum us b) :
      Derives x .equation (ts ++ .lexeme l :: us) (.equation a b)
  | product {ts n} (h : Derives x .product ts n) : Derives x .sum ts n
  | additive {ts us a b l} {op : Arithmetic} (left : Derives x .sum ts a)
      (hop : op = .add ∨ op = .subtract) (hl : l.kind = op.kind)
      (right : Derives x .product us b) :
      Derives x .sum (ts ++ .lexeme l :: us) (.arithmetic op a b)
  | signed {ts n} (h : Derives x .signed ts n) : Derives x .product ts n
  | multiplicative {ts us a b l} {op : Arithmetic} (left : Derives x .product ts a)
      (hop : op = .multiply ∨ op = .divide) (hl : l.kind = op.kind)
      (right : Derives x .signed us b) :
      Derives x .product (ts ++ .lexeme l :: us) (.arithmetic op a b)
  | power {ts n} (h : Derives x .power ts n) : Derives x .signed ts n
  | sign {ts n l} {s : Sign} (hl : l.kind = s.kind) (operand : Derives x .signed ts n) :
      Derives x .signed (.lexeme l :: ts) (.signed s n)
  | atom {ts n} (h : Derives x .atom ts n) : Derives x .power ts n
  | exponent {ts us a b l} (base : Derives x .atom ts a) (hl : l.kind = .power)
      (exponent : Derives x .signed us b) :
      Derives x .power (ts ++ .lexeme l :: us) (.power a b)
  | value {t n} (ht : t.isOperand = true) (h : x.value t n) : Derives x .atom [t] n
  | parens {ts n l r} (hl : l.kind = .leftParen) (inner : Derives x .equation ts n)
      (hr : r.kind = .rightParen) :
      Derives x .atom (.lexeme l :: (ts ++ [.lexeme r])) n
  | call {ts n f l r arguments} (hf : f.kind = .functionName)
      (hfun : x.environment.isFunction f.text = true) (hl : l.kind = .leftParen)
      (list : DerivesArguments x ts arguments) (hr : r.kind = .rightParen)
      (hn : x.environment.call f.text arguments = .ok n) :
      Derives x .atom (.lexeme f :: .lexeme l :: (ts ++ [.lexeme r])) n
  | emptyCall {n f l r} (hf : f.kind = .functionName)
      (hfun : x.environment.isFunction f.text = true) (hl : l.kind = .leftParen)
      (hr : r.kind = .rightParen) (hn : x.environment.call f.text [] = .ok n) :
      Derives x .atom [.lexeme f, .lexeme l, .lexeme r] n
  | groupCall {n f delimiters elements} (hf : f.kind = .functionName)
      (hfun : x.environment.isFunction f.text = true)
      (hn : x.groupCall f delimiters elements n) :
      Derives x .atom [.lexeme f, .group delimiters elements] n

/-- A list of tokens is the content of an argument list: one equation or
more, with separators between them. -/
inductive DerivesArguments (x : Lexicon) : List Token → List Expr → Prop
  | one {ts n} (h : Derives x .equation ts n) : DerivesArguments x ts [n]
  | more {ts us n sep arguments} (first : DerivesArguments x ts arguments)
      (hs : sep.kind = .separator) (last : Derives x .equation us n) :
      DerivesArguments x (ts ++ .lexeme sep :: us) (arguments ++ [n])

end

namespace Derives

variable {x : Lexicon}

/-- What holds together tightly may stand where looser formulas may. -/
theorem loosen {c d : Category} {ts : List Token} {n : Expr} (hle : c.level ≤ d.level)
    (h : Derives x d ts n) : Derives x c ts n := by
  have descend : ∀ (k : Nat) (d : Category), d.level = c.level + k →
      Derives x d ts n → Derives x c ts n := by
    intro k
    induction k with
    | zero =>
      intro d hd h
      rw [Category.level_injective (c := c) (d := d) (by omega)]
      exact h
    | succ k ih =>
      intro d hd h
      cases d with
      | equation => simp [Category.level] at hd
      | sum => exact ih .equation (by simp [Category.level] at hd ⊢; omega) (.sum h)
      | product => exact ih .sum (by simp [Category.level] at hd ⊢; omega) (.product h)
      | signed => exact ih .product (by simp [Category.level] at hd ⊢; omega) (.signed h)
      | power => exact ih .signed (by simp [Category.level] at hd ⊢; omega) (.power h)
      | atom => exact ih .power (by simp [Category.level] at hd ⊢; omega) (.atom h)
  exact descend (d.level - c.level) d (by omega) h

/-- The rules for operators between operands, as one. -/
theorem binary {op : Operator} {c : Category} {ts us : List Token} {a b : Expr} {l : Lexeme}
    (hc : op.left? = some c) (hl : l.kind = op.kind) (left : Derives x c ts a)
    (right : Derives x op.right us b) :
    Derives x op.category (ts ++ .lexeme l :: us) (Item.join op a b) := by
  cases op with
  | equals =>
    cases hc
    exact .equals left hl right
  | arithmetic op =>
    cases op <;> cases hc
    · exact .additive left (.inl rfl) hl right
    · exact .additive left (.inr rfl) hl right
    · exact .multiplicative left (.inl rfl) hl right
    · exact .multiplicative left (.inr rfl) hl right
  | sign s => cases hc
  | power =>
    cases hc
    exact .exponent left hl right

/-- Induction over a derivation by the role of its rules: the rules that
only loosen are one case, and so are those for operators between
operands. -/
theorem roles {P : ∀ c ts n, Derives x c ts n → Prop} {Q : ∀ ts as, DerivesArguments x ts as → Prop}
    (loose : ∀ {c d ts n} (hle : c.level ≤ d.level) (h : Derives x d ts n),
      P d ts n h → P c ts n (loosen hle h))
    (binary : ∀ {op c ts us a b l} (hc : op.left? = some c) (hl : l.kind = op.kind)
      (left : Derives x c ts a) (right : Derives x op.right us b),
        P c ts a left → P op.right us b right →
          P op.category (ts ++ .lexeme l :: us) (Item.join op a b) (binary hc hl left right))
    (sign : ∀ {s : Sign} {ts n l} (hl : l.kind = s.kind) (operand : Derives x .signed ts n),
      P .signed ts n operand → P .signed (.lexeme l :: ts) (.signed s n) (.sign hl operand))
    (value : ∀ {t n} (ht : t.isOperand = true) (hn : x.value t n), P .atom [t] n (.value ht hn))
    (parens : ∀ {ts n} {l r : Lexeme} (hl : l.kind = .leftParen) (inner : Derives x .equation ts n)
      (hr : r.kind = .rightParen), P .equation ts n inner →
        P .atom (.lexeme l :: (ts ++ [.lexeme r])) n (.parens hl inner hr))
    (call : ∀ {ts n} {f l r : Lexeme} {arguments} (hf : f.kind = .functionName)
      (hfun : x.environment.isFunction f.text = true) (hl : l.kind = .leftParen)
      (list : DerivesArguments x ts arguments) (hr : r.kind = .rightParen)
      (hn : x.environment.call f.text arguments = .ok n), Q ts arguments list →
        P .atom (.lexeme f :: .lexeme l :: (ts ++ [.lexeme r])) n (.call hf hfun hl list hr hn))
    (emptyCall : ∀ {n} {f l r : Lexeme} (hf : f.kind = .functionName)
      (hfun : x.environment.isFunction f.text = true) (hl : l.kind = .leftParen)
      (hr : r.kind = .rightParen) (hn : x.environment.call f.text [] = .ok n),
        P .atom [.lexeme f, .lexeme l, .lexeme r] n (.emptyCall hf hfun hl hr hn))
    (groupCall : ∀ {n} {f : Lexeme} {delimiters elements} (hf : f.kind = .functionName)
      (hfun : x.environment.isFunction f.text = true) (hn : x.groupCall f delimiters elements n),
        P .atom [.lexeme f, .group delimiters elements] n (.groupCall hf hfun hn))
    (one : ∀ {ts n} (h : Derives x .equation ts n), P .equation ts n h → Q ts [n] (.one h))
    (more : ∀ {ts us n sep arguments} (first : DerivesArguments x ts arguments)
      (hs : sep.kind = .separator) (last : Derives x .equation us n),
        Q ts arguments first → P .equation us n last →
          Q (ts ++ .lexeme sep :: us) (arguments ++ [n]) (.more first hs last))
    {c : Category} {ts : List Token} {n : Expr} (h : Derives x c ts n) : P c ts n h := by
  refine @Derives.rec x P Q ?_ ?_ ?_ ?_ ?_ ?_ ?_ ?_ ?_ ?_ ?_ ?_ ?_ ?_ ?_ ?_ ?_ c ts n h
  · exact fun h ih => loose (d := .sum) (by decide) h ih
  · exact fun left hl right => binary (show Operator.left? .equals = _ from rfl) hl left right
  · exact fun h ih => loose (d := .product) (by decide) h ih
  · intro ts us a b l op left hop hl right ihl ihr
    rcases hop with rfl | rfl
    · exact binary (show Operator.left? (.arithmetic .add) = _ from rfl) hl left right ihl ihr
    · exact binary (show Operator.left? (.arithmetic .subtract) = _ from rfl) hl left right ihl ihr
  · exact fun h ih => loose (d := .signed) (by decide) h ih
  · intro ts us a b l op left hop hl right ihl ihr
    rcases hop with rfl | rfl
    · exact binary (show Operator.left? (.arithmetic .multiply) = _ from rfl) hl left right ihl ihr
    · exact binary (show Operator.left? (.arithmetic .divide) = _ from rfl) hl left right ihl ihr
  · exact fun h ih => loose (d := .power) (by decide) h ih
  · exact fun hl operand ih => sign hl operand ih
  · exact fun h ih => loose (d := .atom) (by decide) h ih
  · exact fun base hl exponent => binary (show Operator.left? .power = _ from rfl) hl base exponent
  · exact fun ht h => value ht h
  · exact fun hl inner hr ih => parens hl inner hr ih
  · exact fun hf hfun hl list hr hn ih => call hf hfun hl list hr hn ih
  · exact fun hf hfun hl hr hn => emptyCall hf hfun hl hr hn
  · exact fun hf hfun hn => groupCall hf hfun hn
  · exact fun h ih => one h ih
  · exact fun first hs last ihf ihl => more first hs last ihf ihl

end Derives

/-- Arguments may be put in front of others as well as behind them. -/
theorem DerivesArguments.cons {x : Lexicon} {ts us : List Token} {n : Expr} {sep : Lexeme}
    {arguments : List Expr} (first : Derives x .equation ts n) (hs : sep.kind = .separator)
    (h : DerivesArguments x us arguments) :
    DerivesArguments x (ts ++ .lexeme sep :: us) (n :: arguments) := by
  match h with
  | .one last => exact .more (.one first) hs last
  | .more init hs' last =>
    have hinit := cons first hs init
    simpa using DerivesArguments.more hinit hs' last
termination_by structural h

/-! ## 4. Two grammars -/

/-- On the tokens of a list, one grammar has all the trees of another. -/
structure Lexicon.Embeds (x y : Lexicon) (ts : List Token) : Prop where
  environment : x.environment = y.environment
  value : ∀ t ∈ ts, ∀ n, x.value t n → y.value t n
  groupCall : ∀ f delimiters elements, .group delimiters elements ∈ ts → ∀ n,
    x.groupCall f delimiters elements n → y.groupCall f delimiters elements n

theorem Lexicon.Embeds.subset {x y : Lexicon} {ts us : List Token} (h : x.Embeds y ts)
    (hsub : us ⊆ ts) : x.Embeds y us where
  environment := h.environment
  value t ht := h.value t (hsub ht)
  groupCall f delimiters elements ht := h.groupCall f delimiters elements (hsub ht)

/-- What derives in one grammar derives in one that has its trees. -/
theorem Derives.embed {x y : Lexicon} {c : Category} {ts : List Token} {n : Expr}
    (h : Derives x c ts n) : x.Embeds y ts → Derives y c ts n := by
  induction h using Derives.roles
    (Q := fun ts as _ => x.Embeds y ts → DerivesArguments y ts as) with
  | loose hle _ ih => exact fun hxy => (ih hxy).loosen hle
  | binary hc hl _ _ ihl ihr =>
    intro hxy
    exact .binary hc hl (ihl (hxy.subset fun t ht => by simp [ht]))
      (ihr (hxy.subset fun t ht => by simp [ht]))
  | sign hl _ ih =>
    intro hxy
    exact .sign hl (ih (hxy.subset fun t ht => by simp [ht]))
  | value ht hn =>
    intro hxy
    exact .value ht (hxy.value _ (by simp) _ hn)
  | parens hl _ hr ih =>
    intro hxy
    exact .parens hl (ih (hxy.subset fun t ht => by simp [ht])) hr
  | call hf hfun hl _ hr hn ih =>
    intro hxy
    rw [hxy.environment] at hfun hn
    exact .call hf hfun hl (ih (hxy.subset fun t ht => by simp [ht])) hr hn
  | emptyCall hf hfun hl hr hn =>
    intro hxy
    rw [hxy.environment] at hfun hn
    exact .emptyCall hf hfun hl hr hn
  | groupCall hf hfun hn =>
    intro hxy
    rw [hxy.environment] at hfun
    exact .groupCall hf hfun (hxy.groupCall _ _ _ (by simp) _ hn)
  | one _ ih =>
    rename_i hxy
    exact .one (ih hxy)
  | more _ hs _ ihf ihl =>
    rename_i hxy
    exact .more (ihf (hxy.subset fun t ht => by simp [ht])) hs
      (ihl (hxy.subset fun t ht => by simp [ht]))

end Formula
