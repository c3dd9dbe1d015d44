/-
Formula.Proofs.Infix.Written — texts that are put together as they are read.

A text is written for a tree (`Written`) if three things hold of it: it
keeps its lexemes in front of a stop, these derive the tree, and their
parentheses nest to a known depth. The first is what makes the notion
compositional. A text with an operator between two such texts is one again,
and so are a text with a sign before it, a text in parentheses, and the name
of a function before a list of such texts (`WrittenArguments`).

Each lemma here is one line of the writer, `Expr.toInfix`. The categories of
the operands are those of the grammar, so the levels that the writer
compares play no part before `Written.operand`, where a pair of parentheses
turns any category into that of an atom.
-/
import Formula.Proofs.Infix.Legible
import Formula.Proofs.Lexeme.Separation
import Formula.Proofs.Nesting
import Formula.Proofs.Scan.Completeness

namespace Formula

/-! ## 1. Texts that keep their lexemes -/

namespace Reader

/-- In front of a stop, a text has the given lexemes. -/
def Splits (r : Reader) (text : String) (ls : List Lexeme) : Prop :=
  ∀ rest, Stops rest → r.lexemes (text.toList ++ rest) = ls ++ r.lexemes rest

variable {env : Environment} {text left right sep : String} {ls ms : List Lexeme} {l : Lexeme}

theorem Splits.lexemes_eq (h : (standard env).Splits text ls) :
    (standard env).lexemes text.toList = ls := by
  have h := h [] .nil
  rwa [List.append_nil, lexemes_nil, List.append_nil] at h

theorem Splits.tokens_eq (h : (standard env).Splits text ls) :
    (standard env).tokens text = ls.map Token.lexeme := by
  rw [tokens, h.lexemes_eq]

/-- A number or a name that is one lexeme by itself keeps it. -/
theorem Splits.of_alone (h : (standard env).tokens text = [.lexeme l]) (hl : l.text = text)
    (hk : l.kind.isWord = true) : (standard env).Splits text [l] := by
  intro rest hrest
  have halone : (standard env).lexemes text.toList = [l] := by
    rw [tokens, List.map_eq_singleton_iff] at h
    obtain ⟨l', hl', heq⟩ := h
    cases heq
    exact hl'
  exact append_of_alone halone (by rw [hl]) hk hrest

theorem Splits.enclosed (h : (standard env).Splits text ls) :
    (standard env).Splits ("(" ++ text ++ ")")
      (.punctuation .leftParen :: (ls ++ [.punctuation .rightParen])) := by
  intro rest _
  have hclose : Stops (')' :: rest) := .cons (by simp)
  have htext : ("(" ++ text ++ ")").toList ++ rest = '(' :: (text.toList ++ ')' :: rest) := by
    simp
  have hleft : SymbolMap.Single '(' .leftParen := by decide
  have hright : SymbolMap.Single ')' .rightParen := by decide
  rw [htext, lexemes_single hleft, h _ hclose, lexemes_single hright]
  simp

/-- Two texts with something between them that stops the first, and that is
one lexeme whatever follows. -/
theorem Splits.between (hl : (standard env).Splits left ls) (hr : (standard env).Splits right ms)
    (hstop : ∀ rest, Stops (sep.toList ++ rest))
    (hsep : ∀ rest, (standard env).lexemes (sep.toList ++ rest) =
      l :: (standard env).lexemes rest) :
    (standard env).Splits (left ++ sep ++ right) (ls ++ l :: ms) := by
  intro rest hrest
  have htext : (left ++ sep ++ right).toList ++ rest =
      left.toList ++ (sep.toList ++ (right.toList ++ rest)) := by simp
  rw [htext, hl _ (hstop _), hsep, hr rest hrest]
  simp

theorem Splits.sign (s : Sign) (h : (standard env).Splits text ls) :
    (standard env).Splits (s.symbol ++ text) (.punctuation s.kind :: ls) := by
  intro rest hrest
  rw [String.toList_append, List.append_assoc, lexemes_sign, h rest hrest, List.cons_append]

/-- The name of a function before a text in parentheses. -/
theorem Splits.call {name : String} (hname : (standard env).Splits name [l])
    (h : (standard env).Splits text ls) :
    (standard env).Splits (name ++ "(" ++ text ++ ")")
      (l :: .punctuation .leftParen :: (ls ++ [.punctuation .rightParen])) := by
  intro rest hrest
  have hopen : Stops (("(" ++ text ++ ")").toList ++ rest) := by
    have htext : ("(" ++ text ++ ")").toList ++ rest = '(' :: (text.toList ++ ')' :: rest) := by
      simp
    rw [htext]
    exact .cons (by simp)
  have htext : (name ++ "(" ++ text ++ ")").toList ++ rest =
      name.toList ++ (("(" ++ text ++ ")").toList ++ rest) := by simp
  rw [htext, hname _ hopen, h.enclosed rest hrest]
  simp

end Reader

open Reader (standard)

/-! ## 2. Texts for trees -/

/-- A text that is written for a tree of a category, with parentheses that
nest to the given depth. -/
structure Written (ctx : Context) (text : String) (c : Category) (depth : Nat) (m : Expr) :
    Prop where
  splits : (standard ctx.environment).Splits text
    ((standard ctx.environment).lexemes text.toList)
  derives : Derives ctx.lexicon c ((standard ctx.environment).tokens text) m
  peak : ∀ k, Token.peak k ((standard ctx.environment).tokens text) = k + depth

/-- A text that is written for the arguments of a call. -/
structure WrittenArguments (ctx : Context) (text : String) (depth : Nat) (as : List Expr) :
    Prop where
  splits : (standard ctx.environment).Splits text
    ((standard ctx.environment).lexemes text.toList)
  derives : DerivesArguments ctx.lexicon ((standard ctx.environment).tokens text) as
  peak : ∀ k, Token.peak k ((standard ctx.environment).tokens text) = k + depth

variable {ctx : Context} {text left right : String} {c : Category} {d e : Nat} {a b m : Expr}
  {as : List Expr} {ls : List Lexeme}

theorem Written.of_splits (h : (standard ctx.environment).Splits text ls)
    (hderives : Derives ctx.lexicon c (ls.map Token.lexeme) m)
    (hpeak : ∀ k, Token.peak k (ls.map Token.lexeme) = k + d) : Written ctx text c d m := by
  refine ⟨?_, ?_, ?_⟩
  · rw [h.lexemes_eq]
    exact h
  · rw [h.tokens_eq]
    exact hderives
  · rw [h.tokens_eq]
    exact hpeak

theorem WrittenArguments.of_splits (h : (standard ctx.environment).Splits text ls)
    (hderives : DerivesArguments ctx.lexicon (ls.map Token.lexeme) as)
    (hpeak : ∀ k, Token.peak k (ls.map Token.lexeme) = k + d) :
    WrittenArguments ctx text d as := by
  refine ⟨?_, ?_, ?_⟩
  · rw [h.lexemes_eq]
    exact h
  · rw [h.tokens_eq]
    exact hderives
  · rw [h.tokens_eq]
    exact hpeak

/-- What holds together tightly may stand where looser formulas may. -/
theorem Written.loosen {c' : Category} (h : Written ctx text c d m) (hle : c'.level ≤ c.level) :
    Written ctx text c' d m :=
  ⟨h.splits, h.derives.loosen hle, h.peak⟩

/-- A lexeme that has a value. -/
theorem Written.value {l : Lexeme} (h : (standard ctx.environment).Splits text [l])
    (hk : l.kind.isOperand = true) (hv : ctx.value (.lexeme l) = .ok m.measured) :
    Written ctx text .atom 0 m := by
  refine .of_splits h (.value hk hv) fun k => ?_
  have hoperand : (Token.lexeme l).isOperand = true := hk
  simp [Token.peak, Token.depthAfter_of_isOperand hoperand]

/-- Parentheses make an atom of anything. -/
theorem Written.enclosed (h : Written ctx text .equation d m) :
    Written ctx ("(" ++ text ++ ")") .atom (d + 1) m := by
  refine .of_splits h.splits.enclosed ?_ fun k => ?_
  · simp only [List.map_cons, List.map_append, List.map_nil]
    exact .parens rfl h.derives rfl
  · simp only [List.map_cons, List.map_append, List.map_nil]
    exact Token.peak_enclosed h.derives.depthAfter_eq h.peak k

/-- An operand, in parentheses if it is too loose for its place. -/
theorem Written.operand {c' : Category} {needed : Bool} (h : Written ctx text c d m)
    (hneeded : needed = false → c'.level ≤ c.level) :
    Written ctx (Expr.enclose needed text) c' (Expr.parenthesized needed d) m := by
  cases needed with
  | false => exact h.loosen (hneeded rfl)
  | true =>
    have hatom : c'.level ≤ Category.atom.level := by cases c' <;> decide
    have hloosest : Written ctx text .equation d m := h.loosen (Nat.zero_le _)
    exact hloosest.enclosed.loosen hatom

/-- An operator between its operands. -/
theorem Written.binary (op : Operator) (hc : op.left? = some c) (hl : Written ctx left c d a)
    (hr : Written ctx right op.right e b) :
    Written ctx (left ++ op.spaced ++ right) op.category (max d e) (Item.join op a b) := by
  have hop : op.left?.isSome = true := by rw [hc]; rfl
  refine .of_splits (hl.splits.between hr.splits (stops_spaced hop) (Reader.lexemes_spaced op)) ?_
    fun k => ?_
  · rw [List.map_append, List.map_cons]
    exact .binary hc rfl hl.derives hr.derives
  · rw [List.map_append, List.map_cons]
    exact Token.peak_between hl.derives.depthAfter_eq hl.peak hr.peak
      (Token.depthAfter_operator rfl) k

/-- A sign before its operand. -/
theorem Written.sign (s : Sign) (h : Written ctx text .signed d m) :
    Written ctx (s.symbol ++ text) .signed d (.signed s m) := by
  refine .of_splits (h.splits.sign s) (.sign rfl h.derives) fun k => ?_
  have hkind : (Lexeme.punctuation s.kind).kind = (Operator.sign s).kind := rfl
  have hsign := Token.depthAfter_operator hkind k
  have hpeak : Token.peak k (List.map Token.lexeme _) = k + d := h.peak k
  rw [List.map_cons, Token.peak, hsign, hpeak]
  omega

/-! ## 3. Calls -/

theorem WrittenArguments.one (h : Written ctx text .equation d m) :
    WrittenArguments ctx text d [m] :=
  ⟨h.splits, .one h.derives, h.peak⟩

theorem WrittenArguments.cons (first : Written ctx left .equation d m)
    (h : WrittenArguments ctx right e as) :
    WrittenArguments ctx (left ++ ", " ++ right) (max d e) (m :: as) := by
  have hstop : ∀ rest, Stops (", ".toList ++ rest) := fun rest => .cons (by decide)
  refine .of_splits (first.splits.between h.splits hstop Reader.lexemes_commaBlank) ?_ fun k => ?_
  · rw [List.map_append, List.map_cons]
    exact .cons first.derives rfl h.derives
  · rw [List.map_append, List.map_cons]
    exact Token.peak_between first.derives.depthAfter_eq first.peak h.peak (fun _ => rfl) k

/-- What an environment has to say for a call to be read. -/
theorem Environment.Offers.call_eq {env : Environment} {name : String} {body : Body}
    {arguments : List Expr} (h : env.Offers name arguments.length body) :
    env.call name arguments = .ok (.call name body arguments) := by
  simp [Environment.call, h.arity, h.body]

theorem Environment.Offers.isFunction {env : Environment} {name : String} {body : Body}
    {arity : Nat} (h : env.Offers name arity body) : env.isFunction name = true := by
  have halone := (Reader.Splits.of_alone h.reads rfl rfl).lexemes_eq
  obtain ⟨-, htake⟩ := Reader.take?_of_alone halone rfl
  exact (Reader.takes_of_take? htake).isFunction rfl

theorem Token.peak_call {f : Lexeme} (hf : f.kind = .functionName) {ts : List Token}
    (hbalance : ∀ k, ts.foldl Token.depthAfter k = k) (hts : ∀ k, Token.peak k ts = k + d)
    (k : Nat) :
    Token.peak k (.lexeme f :: .lexeme (.punctuation .leftParen) ::
      (ts ++ [.lexeme (.punctuation .rightParen)])) = k + (d + 1) := by
  rw [Token.peak, Token.depthAfter_of_ne hf (by decide), Token.peak_enclosed hbalance hts]
  omega

/-- The name of a function before its arguments in parentheses. -/
theorem Written.call {name : String} {body : Body}
    (hname : ctx.environment.Offers name as.length body) (h : WrittenArguments ctx text d as) :
    Written ctx (name ++ "(" ++ text ++ ")") .atom (d + 1) (.call name body as) := by
  have hsplits : (standard ctx.environment).Splits name [.functionName name] :=
    .of_alone hname.reads rfl rfl
  refine .of_splits (hsplits.call h.splits) ?_ fun k => ?_
  · simp only [List.map_cons, List.map_append, List.map_nil]
    exact .call rfl hname.isFunction rfl h.derives rfl hname.call_eq
  · simp only [List.map_cons, List.map_append, List.map_nil]
    exact Token.peak_call rfl h.derives.depthAfter_eq h.peak k

/-- The name of a function before an empty pair of parentheses. -/
theorem Written.emptyCall {name : String} {body : Body}
    (hname : ctx.environment.Offers name 0 body) :
    Written ctx (name ++ "(" ++ "" ++ ")") .atom 1 (.call name body []) := by
  have hsplits : (standard ctx.environment).Splits name [.functionName name] :=
    .of_alone hname.reads rfl rfl
  have hempty : (standard ctx.environment).Splits "" [] := fun _ _ => rfl
  refine .of_splits (hsplits.call hempty) ?_ fun k => ?_
  · exact .emptyCall rfl hname.isFunction rfl rfl hname.call_eq
  · have hpeak : ∀ k, Token.peak k [] = k + 0 := fun _ => rfl
    exact Token.peak_call rfl (fun _ => rfl) hpeak k

end Formula
