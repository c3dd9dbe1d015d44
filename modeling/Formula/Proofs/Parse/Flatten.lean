/-
Formula.Proofs.Parse.Flatten — markup written out in parentheses.

A fraction, a superscript and a group that only holds its element together
can be written with parentheses and an operator instead. `Token.flatten`
does so everywhere in a list, except where the markup has another role: the
arguments of a function stay a group, and a superscript on the name of a
function stays where it is.

The parse of markup and that of parentheses have nothing in common: one
starts over for each part, the other keeps a stack. That they agree is shown
in the grammar. There, markup and parentheses are both atoms, whatever
stands around them, so a derivation keeps its shape when its list is
flattened (`Derives.flatten`).
-/
import Formula.Proofs.Parse.Unlimited

namespace Formula

namespace Token

/-! ## 1. Flattening -/

mutual

/-- The flat form of a list. Whether it is the rest of a list after the name
of a function is given by `called`. -/
def flattenAfter (called : Bool) : List Token → List Token
  | [] => []
  | t :: rest => flattenToken called t ++ flattenAfter (t.kind? == some .functionName) rest

/-- The flat form of a token. -/
def flattenToken (called : Bool) : Token → List Token
  | .lexeme l => [.lexeme l]
  | .fraction numerator denominator =>
    parenthesized (parenthesized (flattenAfter false numerator) ++
      .lexeme (.punctuation .divide) :: parenthesized (flattenAfter false denominator))
  | .superscript base exponent =>
    parenthesized (parenthesized (flattenAfter false base) ++
      .lexeme (.punctuation .power) :: parenthesized (flattenAfter false exponent))
  | .radical base degree => [.radical (flattenAfter false base) (flattenAfter false degree)]
  | .group delimiters [element] =>
    if !called && Context.grouping? delimiters == some .plain then
      parenthesized (flattenAfter false element)
    else [.group delimiters [flattenAfter false element]]
  | .group delimiters elements => [.group delimiters (flattenElements elements)]
  | .application name delimiters elements =>
    [.application name delimiters (flattenElements elements)]

/-- The flat forms of the elements of a group. -/
def flattenElements : List (List Token) → List (List Token)
  | [] => []
  | element :: rest => flattenAfter false element :: flattenElements rest

end

/-- The flat form of a list. -/
def flatten (ts : List Token) : List Token := flattenAfter false ts

theorem flattenElements_eq_map (elements : List (List Token)) :
    flattenElements elements = elements.map flatten := by
  induction elements with
  | nil => rfl
  | cons element rest ih => simp [flattenElements, ih, flatten]

/-- A group of arguments stays a group. -/
theorem flattenToken_true_group (delimiters : Delimiters) (elements : List (List Token)) :
    flattenToken true (.group delimiters elements) =
      [.group delimiters (elements.map flatten)] := by
  rw [← flattenElements_eq_map]
  match elements with
  | [] => rfl
  | [_] => rfl
  | _ :: _ :: _ => rfl

/-- Other groups outside of a call stay groups, too. -/
theorem flattenToken_group_of_ne {delimiters : Delimiters} {element : List Token}
    (h : Context.grouping? delimiters ≠ some .plain) :
    flattenToken false (.group delimiters [element]) = [.group delimiters [flatten element]] := by
  simp [flattenToken, h, flatten]

theorem flattenToken_group_of_plain {delimiters : Delimiters} {element : List Token}
    (h : Context.grouping? delimiters = some .plain) :
    flattenToken false (.group delimiters [element]) = parenthesized (flatten element) := by
  simp [flattenToken, h, flatten]

theorem flattenAfter_lexeme_cons {l : Lexeme} (hl : l.kind ≠ .functionName) (called : Bool)
    (us : List Token) : flattenAfter called (.lexeme l :: us) = .lexeme l :: flatten us := by
  have hother : (l.kind == .functionName) = false := by simpa using hl
  simp [flattenAfter, flattenToken, kind?, hother, flatten]

theorem flattenAfter_functionName_cons {f : Lexeme} (hf : f.kind = .functionName) (called : Bool)
    (us : List Token) :
    flattenAfter called (.lexeme f :: us) = .lexeme f :: flattenAfter true us := by
  simp [flattenAfter, flattenToken, kind?, hf]

/-- A lexeme in a list does not change, and what stands before it makes no
difference to what stands after it. -/
theorem flatten_append_lexeme {l : Lexeme} (hl : l.kind ≠ .functionName) (ts us : List Token) :
    flatten (ts ++ .lexeme l :: us) = flatten ts ++ .lexeme l :: flatten us := by
  have happend : ∀ ts called, flattenAfter called (ts ++ .lexeme l :: us) =
      flattenAfter called ts ++ .lexeme l :: flatten us := by
    intro ts
    induction ts with
    | nil => exact fun called => flattenAfter_lexeme_cons hl called us
    | cons t rest ih =>
      intro called
      simp only [List.cons_append, flattenAfter, ih, List.append_assoc]
  exact happend ts false

theorem flatten_singleton (t : Token) : flatten [t] = flattenToken false t := by
  simp [flatten, flattenAfter]

theorem flatten_eq_nil_iff {ts : List Token} : flatten ts = [] ↔ ts = [] := by
  cases ts with
  | nil => simp [flatten, flattenAfter]
  | cons t rest =>
    have hne : flattenToken false t ≠ [] := by
      cases t with
      | group delimiters elements =>
        match elements with
        | [] => simp [flattenToken]
        | [_] =>
          rw [flattenToken]
          split <;> simp [parenthesized]
        | _ :: _ :: _ => simp [flattenToken]
      | _ => simp [flattenToken, parenthesized]
    simp [flatten, flattenAfter, hne]

/-- An argument is empty if its flat form is. -/
theorem argumentLists_map_flatten (elements : List (List Token)) :
    argumentLists (elements.map flatten) = (argumentLists elements).map flatten := by
  match elements with
  | [] => rfl
  | [[]] => rfl
  | [t :: rest] =>
    have hne : flatten (t :: rest) ≠ [] := fun h => List.cons_ne_nil _ _ (flatten_eq_nil_iff.mp h)
    unfold argumentLists
    split
    · rename_i h
      simp only [List.map_cons, List.map_nil, List.cons.injEq, and_true] at h
      exact absurd h hne
    · rfl
  | _ :: _ :: _ => simp [argumentLists]

end Token

open Token

variable {env : Environment}

/-! ## 2. Derivations -/

/-- What derives still derives when it is flattened, if that is so for single
tokens. -/
theorem Derives.flatten {x y : Lexicon} (henv : x.environment = y.environment)
    (hvalue : ∀ t n, x.value t n → Derives y .atom (flattenToken false t) n)
    (hcall : ∀ f delimiters elements n, x.groupCall f delimiters elements n →
      y.groupCall f delimiters (elements.map Token.flatten) n)
    {c : Category} {ts : List Token} {n : Expr} (h : Derives x c ts n) :
    Derives y c (Token.flatten ts) n := by
  induction h using Derives.roles (Q := fun ts as _ =>
    DerivesArguments y (Token.flatten ts) as) with
  | loose hle _ ih => exact ih.loosen hle
  | @binary op _ _ _ _ _ l hc hl _ _ ihl ihr =>
    have hne : l.kind ≠ .functionName := hl ▸ op.kind_ne.2.2.1
    rw [flatten_append_lexeme hne]
    exact .binary hc hl ihl ihr
  | @sign s _ _ l hl _ ih =>
    have hne : l.kind ≠ .functionName := by cases s <;> simp [hl, Sign.kind]
    rw [Token.flatten, flattenAfter_lexeme_cons hne]
    exact .sign hl ih
  | value _ hn =>
    rw [flatten_singleton]
    exact hvalue _ _ hn
  | parens hl _ hr ih =>
    rw [Token.flatten, flattenAfter_lexeme_cons (by simp [hl]),
      flatten_append_lexeme (by simp [hr])]
    exact .parens hl ih hr
  | call hf hfun hl _ hr hn ih =>
    rw [henv] at hfun hn
    rw [Token.flatten, flattenAfter_functionName_cons hf, flattenAfter_lexeme_cons (by simp [hl]),
      flatten_append_lexeme (by simp [hr])]
    exact .call hf hfun hl ih hr hn
  | @emptyCall _ f l r hf hfun hl hr hn =>
    rw [henv] at hfun hn
    rw [Token.flatten, flattenAfter_functionName_cons hf, flattenAfter_lexeme_cons (by simp [hl]),
      Token.flatten, flattenAfter_lexeme_cons (by simp [hr])]
    exact .emptyCall hf hfun hl hr hn
  | @groupCall _ f delimiters elements hf hfun hn =>
    rw [henv] at hfun
    rw [Token.flatten, flattenAfter_functionName_cons hf, flattenAfter, flattenToken_true_group]
    exact .groupCall hf hfun (hcall _ _ _ _ hn)
  | one _ ih => exact .one ih
  | more _ hs _ ihf ihl =>
    rw [flatten_append_lexeme (by simp [hs])]
    exact .more ihf hs ihl

/-- An operator between parentheses, in parentheses. -/
theorem Derives.parenthesized_binary {x : Lexicon} {op : Operator} {c : Category}
    {ts us : List Token} {a b : Expr} (hc : op.left? = some c) (ha : Derives x .equation ts a)
    (hb : Derives x .equation us b) :
    Derives x .atom (Token.parenthesized (Token.parenthesized ts ++
      .lexeme (.punctuation op.kind) :: Token.parenthesized us)) (Item.join op a b) := by
  have hlevel : ∀ d : Category, d.level ≤ Category.atom.level := by
    intro d
    cases d <;> decide
  have hjoin : Derives x op.category _ (Item.join op a b) :=
    .binary hc (l := .punctuation op.kind) rfl (ha.parenthesized.loosen (hlevel c))
      (hb.parenthesized.loosen (hlevel op.right))
  exact (hjoin.loosen (Nat.zero_le _)).parenthesized

/-! ## 3. Tokens -/

/-- The arguments of a call mean what their flat forms mean. -/
theorem DenotesCall.flatten {p q : List Token → Expr → Prop}
    (hpq : ∀ us m, p us m → q (Token.flatten us) m) {f : Lexeme} {delimiters : Delimiters}
    {elements : List (List Token)} {n : Expr} (h : DenotesCall env p f delimiters elements n) :
    DenotesCall env q f delimiters (elements.map Token.flatten) n := by
  obtain ⟨hfun, hd, list, hn⟩ := h
  refine .intro hfun hd ?_ hn
  rw [argumentLists_map_flatten, List.forall₂_map_left_iff]
  exact list.imp hpq

/-- A token means what its flat form means. -/
theorem Denotes.flatten {p : List Token → Expr → Prop}
    (hp : ∀ us m, p us m → Derives env.lexicon .equation (Token.flatten us) m)
    (hkeep : ∀ us m, p us m → Derives env.lexicon .equation us m) {t : Token} {n : Expr}
    (h : Denotes env p t n) : Derives env.lexicon .atom (flattenToken false t) n := by
  have hvalue : ∀ {t : Token}, t.isOperand = true →
      Denotes env (Derives env.lexicon .equation) t n → Derives env.lexicon .atom [t] n :=
    fun ht h => .value ht (Environment.value_of_denotes h)
  cases h with
  | number hk hs => exact hvalue (by simp [isOperand, LexemeKind.isOperand, hk]) (.number hk hs)
  | free hk => exact hvalue (by simp [isOperand, LexemeKind.isOperand, hk]) (.free hk)
  | constant hk hv => exact hvalue (by simp [isOperand, LexemeKind.isOperand, hk]) (.constant hk hv)
  | fraction ha hb =>
    exact .parenthesized_binary (show Operator.left? (.arithmetic .divide) = _ from rfl)
      (hp _ _ ha) (hp _ _ hb)
  | superscript ha hb =>
    exact .parenthesized_binary (show Operator.left? .power = _ from rfl) (hp _ _ ha) (hp _ _ hb)
  | squareRoot ha => exact hvalue rfl (.squareRoot (hp _ _ ha))
  | radical hd ha hb =>
    have hne := fun h => hd (flatten_eq_nil_iff.mp h)
    exact hvalue rfl (.radical hne (hp _ _ ha) (hp _ _ hb))
  | plain hg ha =>
    rw [flattenToken_group_of_plain hg]
    exact (hp _ _ ha).parenthesized
  | bars hg ha =>
    rw [flattenToken_group_of_ne (by simp [hg])]
    exact hvalue rfl (.bars hg (hp _ _ ha))
  | application hf hn =>
    rw [flattenToken, flattenElements_eq_map]
    exact hvalue rfl (.application hf (hn.flatten hp))
  | poweredApplication hf hn hb =>
    rw [flattenToken, flattenElements_eq_map]
    exact hvalue rfl (.poweredApplication hf (hn.flatten hp) (hkeep _ _ hb))

/-! ## 4. Parses -/

/-- What a parse finds for a list derives from its flat form. -/
theorem derives_flatten_of_parseWithin {limits : Limits} {room : Nat} {ts : List Token} {n : Expr}
    (h : parseWithin env limits room ts = .ok n.measured) :
    Derives env.lexicon .equation (Token.flatten ts) n := by
  induction room using Nat.strongRecOn generalizing ts n with
  | ind room ih =>
    have hexact := Context.exactParts_within env limits room
    have hparts : ∀ us m, (Context.within env limits room).parts us m →
        Derives env.lexicon .equation (Token.flatten us) m := by
      intro us m hm
      obtain ⟨k, rfl, hk⟩ := Context.parts_within_iff.mp hm
      exact ih k (Nat.lt_succ_self k) hk
    have hkeep : ∀ us m, (Context.within env limits room).parts us m →
        Derives env.lexicon .equation us m := by
      intro us m hm
      obtain ⟨k, -, hk⟩ := Context.parts_within_iff.mp hm
      exact Environment.derives_of_parseWithin hk
    rw [parseWithin_eq_run] at h
    refine (Scan.derives_of_run (Context.exact_of_exactParts hexact) h).1.flatten
      (Context.within_environment ..) ?_ ?_
    · intro t m hv
      have hdenotes := (Context.value_eq_ok hexact hv).2
      rw [Context.within_environment] at hdenotes
      exact hdenotes.flatten hparts hkeep
    · intro f delimiters elements m hv
      have hdenotes := (Context.call_eq_ok hexact hv).2
      rw [Context.within_environment] at hdenotes
      exact Environment.groupCall_of_denotesCall (hdenotes.flatten hparts)

/-- A list and its flat form have the same tree. -/
theorem parse_flatten (env : Environment) (limits : Limits) (tokens : List Token) (n : Expr)
    (h : parse env limits tokens = .ok n) :
    parseUnlimited env (flatten tokens) = .ok n ∧
      ∀ limits' : Limits, ¬ Refused limits' (parse env limits' (flatten tokens)) →
        parse env limits' (flatten tokens) = .ok n := by
  have hflat : parseUnlimited env (flatten tokens) = .ok n :=
    parseUnlimited_eq_ok_iff.mpr (derives_flatten_of_parseWithin (parse_eq_ok_iff.mp h))
  refine ⟨hflat, fun limits' hlimits => ?_⟩
  rcases parse_eq_unlimited_or_refused env limits' (flatten tokens) with heq | hrefused
  · exact heq.trans hflat
  · exact absurd hrefused hlimits

/-- A superscript in a fraction after an operator that binds as tightly as
the fraction. -/
theorem parse_flatten_fraction :
    parseUnlimited .standard
      [.lexeme (.variableName "x"), .lexeme (.punctuation .divide),
        .lexeme (.punctuation .leftParen),
          .lexeme (.punctuation .leftParen), .lexeme (.variableName "y"),
          .lexeme (.punctuation .rightParen),
          .lexeme (.punctuation .divide),
          .lexeme (.punctuation .leftParen),
            .lexeme (.punctuation .leftParen),
              .lexeme (.punctuation .leftParen), .lexeme (.variableName "x"),
              .lexeme (.punctuation .rightParen),
              .lexeme (.punctuation .power),
              .lexeme (.punctuation .leftParen), .lexeme (.variableName "y"),
              .lexeme (.punctuation .rightParen),
            .lexeme (.punctuation .rightParen),
          .lexeme (.punctuation .rightParen),
        .lexeme (.punctuation .rightParen)] =
      .ok (.arithmetic .divide (.free "x")
        (.arithmetic .divide (.free "y") (.power (.free "x") (.free "y")))) :=
  (parse_flatten .standard ⟨2, 4⟩
    [.lexeme (.variableName "x"), .lexeme (.punctuation .divide),
      .fraction [.lexeme (.variableName "y")]
        [.superscript [.lexeme (.variableName "x")] [.lexeme (.variableName "y")]]] _ rfl).1

end Formula
