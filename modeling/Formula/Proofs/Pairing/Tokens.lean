/-
Formula.Proofs.Pairing.Tokens — tokens that stand for each other.

How a formula is parsed does not depend on everything that is in its tokens and
its environment. To show what it does not depend on, two parses are followed
side by side, of lists whose lexemes stand for each other and in environments of
which each has its own answers. A `Pairing` says which lexemes these are, what
becomes of the formulas, and what errors keep of the texts in them, and it says
of single lexemes, names and nodes that this fits together.

This module follows the values of tokens, where the parses of the lists in them
are a hypothesis (`Context.Pairs`); `Formula.Proofs.Pairing.Scans` follows the
scans of lists and closes the circle.

The name of a function stands for itself only. It is part of the tree, and an
environment may give a call another meaning under another name.
-/
import Formula.Proofs.Outcome
import Formula.Proofs.Parse.Sublists

namespace Formula

/-! ## 1. Texts in errors -/

/-- The cause with another text in place of each of its texts. -/
def Malformation.mapText (f : String → String) : Malformation → Malformation
  | .emptyExpression => .emptyExpression
  | .missingOperatorBefore token => .missingOperatorBefore (f token)
  | .missingOperandAfter token => .missingOperandAfter (f token)
  | .missingOperandBefore paren => .missingOperandBefore (f paren)
  | .missingLeftOperand operator => .missingLeftOperand (f operator)
  | .emptyArgumentBefore separator => .emptyArgumentBefore (f separator)
  | .emptyParenthesesBefore paren => .emptyParenthesesBefore (f paren)
  | .emptyGroup group => .emptyGroup (f group)
  | .missingOperand operator => .missingOperand (f operator)
  | .missingArguments name => .missingArguments (f name)
  | .missingOperatorBetween left right => .missingOperatorBetween (f left) (f right)

/-- The fault with another text in place of its text. -/
def Fault.mapText (f : String → String) : Fault → Fault
  | .notAnOperator text => .notAnOperator (f text)
  | .notAValue text => .notAValue (f text)
  | .callWithoutParenthesis name => .callWithoutParenthesis (f name)

namespace ParseError

/-- The error with another text in place of each of its texts. Its numbers stay
as they are. -/
def mapText (f : String → String) : ParseError → ParseError
  | .malformedLiteral text => .malformedLiteral (f text)
  | .undeclaredConstant name => .undeclaredConstant (f name)
  | .unrecognizedFunction name => .unrecognizedFunction (f name)
  | .arityMismatch name expected found => .arityMismatch (f name) expected found
  | .invalidArgumentList group => .invalidArgumentList (f group)
  | .mismatchedParentheses paren => .mismatchedParentheses (f paren)
  | .unsupportedDelimiters group => .unsupportedDelimiters (f group)
  | .unexpectedSeparator text => .unexpectedSeparator (f text)
  | .missingArgumentList text => .missingArgumentList (f text)
  | .malformedExpression cause => .malformedExpression (cause.mapText f)
  | .nestingTooDeep limit => .nestingTooDeep limit
  | .internal fault => .internal (fault.mapText f)

theorem mapText_id (e : ParseError) : e.mapText id = e := by
  cases e with
  | malformedExpression cause => cases cause <;> rfl
  | internal fault => cases fault <;> rfl
  | _ => rfl

end ParseError

/-- A formula in place of another one of the same height. -/
def Measured.map (f : Expr → Expr) (m : Measured) : Measured := ⟨f m.expr, m.height⟩

theorem Measured.heights_map (f : Expr → Expr) (ms : List Measured) :
    (ms.map (Measured.map f)).map Measured.height = ms.map Measured.height := by
  rw [List.map_map]
  rfl

theorem Measured.exprs_map (f : Expr → Expr) (ms : List Measured) :
    (ms.map (Measured.map f)).map Measured.expr = (ms.map Measured.expr).map f := by
  rw [List.map_map, List.map_map]
  rfl

/-! ## 2. Pairings -/

/-- What stands for what in the parses of two lists in two environments. -/
structure Pairing (env env' : Environment) where
  /-- Lexemes that stand for each other. -/
  lexemes : Lexeme → Lexeme → Prop
  /-- The formula that stands for a formula. -/
  expr : Expr → Expr
  /-- What an error keeps of a text. -/
  text : String → String
  text_append : ∀ {s s' t t'}, text s = text s' → text t = text t' → text (s ++ t) = text (s' ++ t')
  lexeme_text : ∀ {l l'}, lexemes l l' → text l.text = text l'.text
  kind : ∀ {l l'}, lexemes l l' →
    l'.kind = l.kind ∨ l.kind.isOperand = true ∧ l'.kind.isOperand = true
  functionName : ∀ {f f'}, lexemes f f' → f.kind = .functionName → f' = f
  isFunction : ∀ {f}, lexemes f f → env'.isFunction f.text = env.isFunction f.text
  leaf : ∀ {ctx ctx' : Context} {l l'}, ctx.environment = env → ctx'.environment = env' →
    lexemes l l' → l.kind.isOperand = true →
      Both (fun n n' => n' = expr n) (fun e e' => e.mapText text = e'.mapText text) (ctx.leaf l)
        (ctx'.leaf l')
  call : ∀ {f} (arguments : List Expr), lexemes f f →
    Both (fun n n' => n' = expr n) (fun e e' => e.mapText text = e'.mapText text)
      (env.call f.text arguments) (env'.call f.text (arguments.map expr))
  join : ∀ op a b, expr (Item.join op a b) = Item.join op (expr a) (expr b)
  root : ∀ a b, expr (.root a b) = .root (expr a) (expr b)
  squareRoot : ∀ a, expr a.squareRoot = (expr a).squareRoot
  absolute : ∀ a, expr a.absolute = (expr a).absolute
  toInfix : ∀ a, text a.toInfix = text (expr a).toInfix

/-- Tokens of the same shape whose lexemes stand for each other. -/
inductive Token.Pairs (R : Lexeme → Lexeme → Prop) : Token → Token → Prop
  | lexeme {l l'} (h : R l l') : Pairs R (.lexeme l) (.lexeme l')
  | fraction {a a' b b'} (ha : List.Forall₂ (Pairs R) a a') (hb : List.Forall₂ (Pairs R) b b') :
      Pairs R (.fraction a b) (.fraction a' b')
  | superscript {a a' b b'} (ha : List.Forall₂ (Pairs R) a a') (hb : List.Forall₂ (Pairs R) b b') :
      Pairs R (.superscript a b) (.superscript a' b')
  | radical {a a' b b'} (ha : List.Forall₂ (Pairs R) a a') (hb : List.Forall₂ (Pairs R) b b') :
      Pairs R (.radical a b) (.radical a' b')
  | group {delimiters es es'} (h : List.Forall₂ (List.Forall₂ (Pairs R)) es es') :
      Pairs R (.group delimiters es) (.group delimiters es')
  /-- The name of an application stands for itself. -/
  | application {name delimiters es es'} (hname : List.Forall₂ (Pairs R) name name)
      (h : List.Forall₂ (List.Forall₂ (Pairs R)) es es') :
      Pairs R (.application name delimiters es) (.application name delimiters es')

namespace Token

mutual

/-- The lexemes in a token, also those in the name of a function. -/
def lexemes : Token → List Lexeme
  | .lexeme l => [l]
  | .fraction numerator denominator => listLexemes numerator ++ listLexemes denominator
  | .superscript base exponent => listLexemes base ++ listLexemes exponent
  | .radical base degree => listLexemes base ++ listLexemes degree
  | .group _ elements => elementLexemes elements
  | .application name _ elements => listLexemes name ++ elementLexemes elements

/-- The lexemes in the tokens of a list. -/
def listLexemes : List Token → List Lexeme
  | [] => []
  | token :: rest => lexemes token ++ listLexemes rest

/-- The lexemes in the elements of a group. -/
def elementLexemes : List (List Token) → List Lexeme
  | [] => []
  | element :: rest => listLexemes element ++ elementLexemes rest

end

theorem listLexemes_map_lexeme (ls : List Lexeme) : listLexemes (ls.map .lexeme) = ls := by
  induction ls with
  | nil => rfl
  | cons l rest ih => rw [List.map_cons, listLexemes, lexemes, ih, List.singleton_append]

end Token

namespace Token.Pairs

variable {R : Lexeme → Lexeme → Prop}

/-- A token stands for itself if its lexemes do. -/
theorem of_lexemes {t : Token} (h : ∀ l ∈ t.lexemes, R l l) : Pairs R t t := by
  -- The induction is on the token, with its lists and the lists of its lists.
  refine @Token.rec
    (fun t => (∀ l ∈ t.lexemes, R l l) → Pairs R t t)
    (fun ts => (∀ l ∈ listLexemes ts, R l l) → List.Forall₂ (Pairs R) ts ts)
    (fun es => (∀ l ∈ elementLexemes es, R l l) → List.Forall₂ (List.Forall₂ (Pairs R)) es es)
    ?lexeme ?fraction ?superscript ?radical ?group ?application ?noToken ?token ?noElement ?element
    t h
  case lexeme => exact fun l h => .lexeme (h l (List.mem_singleton_self l))
  case fraction =>
    intro a b iha ihb h
    obtain ⟨ha, hb⟩ := List.forall_mem_append.mp h
    exact .fraction (iha ha) (ihb hb)
  case superscript =>
    intro a b iha ihb h
    obtain ⟨ha, hb⟩ := List.forall_mem_append.mp h
    exact .superscript (iha ha) (ihb hb)
  case radical =>
    intro a b iha ihb h
    obtain ⟨ha, hb⟩ := List.forall_mem_append.mp h
    exact .radical (iha ha) (ihb hb)
  case group => exact fun _ _ ih h => .group (ih h)
  case application =>
    intro name _ es ihname ih h
    obtain ⟨hname, hes⟩ := List.forall_mem_append.mp h
    exact .application (ihname hname) (ih hes)
  case noToken => exact fun _ => .nil
  case token =>
    intro t ts iht ihts h
    obtain ⟨ht, hts⟩ := List.forall_mem_append.mp h
    exact .cons (iht ht) (ihts hts)
  case noElement => exact fun _ => .nil
  case element =>
    intro ts es ihts ihes h
    obtain ⟨hts, hes⟩ := List.forall_mem_append.mp h
    exact .cons (ihts hts) (ihes hes)

theorem of_listLexemes {ts : List Token} (h : ∀ l ∈ listLexemes ts, R l l) :
    List.Forall₂ (Pairs R) ts ts := by
  induction ts with
  | nil => exact .nil
  | cons t rest ih =>
    obtain ⟨ht, hrest⟩ := List.forall_mem_append.mp h
    exact .cons (of_lexemes ht) (ih hrest)

theorem of_lexeme {l l' : Lexeme} (h : List.Forall₂ (Pairs R) [.lexeme l] [.lexeme l']) :
    R l l' := by
  cases h with
  | cons h _ =>
    cases h with
    | lexeme h => exact h

theorem of_superscript {a a' b b' : List Token}
    (h : List.Forall₂ (Pairs R) [.superscript a b] [.superscript a' b']) :
    List.Forall₂ (Pairs R) a a' ∧ List.Forall₂ (Pairs R) b b' := by
  cases h with
  | cons h _ =>
    cases h with
    | superscript ha hb => exact ⟨ha, hb⟩

end Token.Pairs

namespace Pairing

variable {env env' : Environment} (p : Pairing env env')

/-- Two results, of which the second stands for the first. -/
def Same {α β : Type} (P : α → β → Prop) : Except ParseError α → Except ParseError β → Prop :=
  Both P fun e e' => e.mapText p.text = e'.mapText p.text

/-- Two formulas with heights, of which the second stands for the first. -/
def Measure (m m' : Measured) : Prop := m' = m.map p.expr

/-- Texts of which an error keeps the same. -/
def SameText (s s' : String) : Prop := p.text s = p.text s'

variable {p}

theorem Same.error {α β : Type} {P : α → β → Prop} {e e' : ParseError}
    (h : e.mapText p.text = e'.mapText p.text) : p.Same P (.error e) (.error e') := h

/-- A node over children of the same heights. -/
theorem Same.grow {α β : Type} {P : α → β → Prop} {maxHeight : Nat} {heights : List Nat}
    {f : Nat → Except ParseError α} {f' : Nat → Except ParseError β}
    (hf : ∀ height, p.Same P (f height) (f' height)) :
    p.Same P (grow maxHeight heights >>= f) (grow maxHeight heights >>= f') := by
  cases Formula.grow maxHeight heights with
  | error e => exact .error rfl
  | ok height => exact hf height

/-! ## 3. Texts of tokens -/

theorem SameText.append {s s' t t' : String} (hs : p.SameText s s') (ht : p.SameText t t') :
    p.SameText (s ++ t) (s' ++ t') := p.text_append hs ht

theorem SameText.intercalate (sep : String) {ss ss' : List String}
    (h : List.Forall₂ p.SameText ss ss') :
    p.SameText (String.intercalate sep ss) (String.intercalate sep ss') := by
  induction h with
  | nil => rfl
  | cons hs hrest ih =>
    cases hrest with
    | nil =>
      rw [String.intercalate_singleton, String.intercalate_singleton]
      exact hs
    | cons ht hrest =>
      rw [String.intercalate_cons_cons, String.intercalate_cons_cons]
      exact (hs.append rfl).append ih

theorem SameText.groupText (delimiters : Delimiters) {ss ss' : List String}
    (h : List.Forall₂ p.SameText ss ss') :
    p.SameText (Token.groupText delimiters ss) (Token.groupText delimiters ss') :=
  (SameText.append rfl (SameText.intercalate _ h)).append rfl

/-- Tokens that stand for each other are the same to an error. -/
theorem sameText_of_pairs {t t' : Token} (h : Token.Pairs p.lexemes t t') :
    p.SameText t.text t'.text := by
  -- The induction is on the first token, with its lists and the lists of its lists.
  refine @Token.rec
    (fun t => ∀ t', Token.Pairs p.lexemes t t' → p.SameText t.text t'.text)
    (fun ts => ∀ ts', List.Forall₂ (Token.Pairs p.lexemes) ts ts' →
      List.Forall₂ p.SameText (Token.texts ts) (Token.texts ts'))
    (fun es => ∀ es', List.Forall₂ (List.Forall₂ (Token.Pairs p.lexemes)) es es' →
      List.Forall₂ p.SameText (Token.elementTexts es) (Token.elementTexts es'))
    ?lexeme ?fraction ?superscript ?radical ?group ?application ?noToken ?token ?noElement ?element
    t t' h
  case lexeme =>
    intro l t' h
    cases h with
    | lexeme h => exact p.lexeme_text h
  case fraction =>
    intro a b iha ihb t' h
    cases h with
    | fraction ha hb =>
      have ha := SameText.intercalate " " (iha _ ha)
      have hb := SameText.intercalate " " (ihb _ hb)
      exact (((SameText.append rfl ha).append rfl).append hb).append rfl
  case superscript =>
    intro a b iha ihb t' h
    cases h with
    | superscript ha hb =>
      have ha := SameText.intercalate " " (iha _ ha)
      have hb := SameText.intercalate " " (ihb _ hb)
      exact (((SameText.append rfl ha).append rfl).append hb).append rfl
  case radical =>
    intro a b iha ihb t' h
    cases h with
    | radical ha hb =>
      have ha := SameText.intercalate " " (iha _ ha)
      have hb := SameText.intercalate " " (ihb _ hb)
      exact (((SameText.append rfl hb).append rfl).append ha).append rfl
  case group =>
    intro delimiters es ih t' h
    cases h with
    | group h => exact .groupText delimiters (ih _ h)
  case application =>
    intro name delimiters es ihname ih t' h
    cases h with
    | application hname h =>
      have hname := SameText.intercalate " " (ihname _ hname)
      exact ((SameText.append rfl hname).append rfl).append (.groupText delimiters (ih _ h))
  case noToken =>
    intro ts' h
    cases h
    exact .nil
  case token =>
    intro t ts iht ihts ts' h
    cases h with
    | cons ht hts => exact .cons (iht _ ht) (ihts _ hts)
  case noElement =>
    intro es' h
    cases h
    exact .nil
  case element =>
    intro ts es ihts ihes es' h
    cases h with
    | cons hts hes => exact .cons (.intercalate " " (ihts _ hts)) (ihes _ hes)

end Pairing

/-! ## 4. Values of tokens -/

/-- Contexts in the environments of a pairing, with the same limits, in which
the parses of lists that stand for each other do so too. -/
structure Context.Pairs {env env' : Environment} (p : Pairing env env') (ctx ctx' : Context) :
    Prop where
  environment : ctx.environment = env
  environment' : ctx'.environment = env'
  limits : ctx'.limits = ctx.limits
  room : ctx'.room = ctx.room
  nested : ∀ ts ts', List.Forall₂ (Token.Pairs p.lexemes) ts ts' →
    p.Same p.Measure (ctx.nested ts) (ctx'.nested ts')

/-- What stands for a group with one empty element is one. -/
theorem argumentLists_pairs {R : Token → Token → Prop} {es es' : List (List Token)}
    (h : List.Forall₂ (List.Forall₂ R) es es') :
    List.Forall₂ (List.Forall₂ R) (argumentLists es) (argumentLists es') := by
  cases h with
  | nil => exact .nil
  | cons hts hrest =>
    cases hts with
    | cons ht hts => exact .cons (.cons ht hts) hrest
    | nil =>
      cases hrest with
      | nil => exact .nil
      | cons hus hrest => exact .cons .nil (.cons hus hrest)

/-- A name of an application means the same to both. -/
theorem Pairing.calledFunction?_eq {env env' : Environment} (p : Pairing env env')
    {name : List Token} (h : List.Forall₂ (Token.Pairs p.lexemes) name name) :
    Context.calledFunction? env' name = Context.calledFunction? env name := by
  unfold Context.calledFunction?
  split
  · rw [p.isFunction (Token.Pairs.of_lexeme h)]
  · rw [p.isFunction (Token.Pairs.of_lexeme (Token.Pairs.of_superscript h).1)]
  · rfl

namespace Context.Pairs

variable {env env' : Environment} {p : Pairing env env'} {ctx ctx' : Context}
  (h : Context.Pairs p ctx ctx')

include h

theorem node {α β : Type} {P : α → β → Prop} {heights : List Nat}
    {f : Nat → Except ParseError α} {f' : Nat → Except ParseError β}
    (hf : ∀ height, p.Same P (f height) (f' height)) :
    p.Same P (ctx.grow heights >>= f) (ctx'.grow heights >>= f') := by
  unfold grow
  rw [h.limits]
  exact .grow hf

theorem measured_node {heights : List Nat} {a b : Expr} (hexpr : p.expr a = b) :
    p.Same p.Measure (ctx.grow heights >>= fun height => .ok ⟨a, height⟩)
      (ctx'.grow heights >>= fun height => .ok ⟨b, height⟩) :=
  h.node fun height => congrArg (Measured.mk · height) hexpr.symm

theorem arguments {es es' : List (List Token)}
    (hes : List.Forall₂ (List.Forall₂ (Token.Pairs p.lexemes)) es es') :
    p.Same (fun ms ms' => ms' = ms.map (Measured.map p.expr)) (ctx.arguments es)
      (ctx'.arguments es') := by
  induction hes with
  | nil => rfl
  | cons hts _ ih =>
    refine Both.bind_map (h.nested _ _ hts) fun m => ?_
    refine Both.bind_map ih fun ms => ?_
    rfl

theorem call {f : Lexeme} {delimiters : Delimiters} {es es' : List (List Token)}
    (hf : p.lexemes f f) (hes : List.Forall₂ (List.Forall₂ (Token.Pairs p.lexemes)) es es') :
    p.Same p.Measure (ctx.call f delimiters es) (ctx'.call f delimiters es') := by
  have htext : p.SameText (Token.group delimiters es).text (Token.group delimiters es').text :=
    Pairing.sameText_of_pairs (.group hes)
  unfold Context.call
  rw [h.environment, h.environment', p.isFunction hf]
  refine Both.ite (fun _ => rfl) fun _ =>
    Both.ite (fun _ => congrArg ParseError.invalidArgumentList htext) fun _ => ?_
  refine Both.bind_map (h.arguments (argumentLists_pairs hes)) fun ms => ?_
  rw [Measured.heights_map, Measured.exprs_map]
  refine h.node fun height => Both.bind_map (p.call _ hf) fun n => ?_
  rfl

/-- Markup over two lists. -/
theorem pair {ts ts' us us' : List Token} (hts : List.Forall₂ (Token.Pairs p.lexemes) ts ts')
    (hus : List.Forall₂ (Token.Pairs p.lexemes) us us') {node : Expr → Expr → Expr}
    (hnode : ∀ a b, p.expr (node a b) = node (p.expr a) (p.expr b)) :
    p.Same p.Measure
      (do
        let a ← ctx.nested ts
        let b ← ctx.nested us
        let height ← ctx.grow [a.height, b.height]
        .ok ⟨node a.expr b.expr, height⟩)
      (do
        let a ← ctx'.nested ts'
        let b ← ctx'.nested us'
        let height ← ctx'.grow [a.height, b.height]
        .ok ⟨node a.expr b.expr, height⟩) := by
  refine Both.bind_map (h.nested _ _ hts) fun a => ?_
  refine Both.bind_map (h.nested _ _ hus) fun b => ?_
  exact h.measured_node (hnode a.expr b.expr)

theorem group {delimiters : Delimiters} {es es' : List (List Token)}
    (hes : List.Forall₂ (List.Forall₂ (Token.Pairs p.lexemes)) es es') :
    p.Same p.Measure (ctx.group delimiters es) (ctx'.group delimiters es') := by
  have htext : p.SameText (Token.group delimiters es).text (Token.group delimiters es').text :=
    Pairing.sameText_of_pairs (.group hes)
  unfold Context.group
  cases grouping? delimiters with
  | none => exact congrArg ParseError.unsupportedDelimiters htext
  | some grouping =>
    match es, es', hes with
    | [], [], .nil => exact congrArg (ParseError.malformedExpression ∘ .emptyGroup) htext
    | [element], [element'], .cons hts .nil =>
      refine Both.bind_map (h.nested _ _ hts) fun m => ?_
      cases grouping with
      | plain => rfl
      | bars =>
        exact h.measured_node (p.absolute m.expr)
    | _ :: _ :: _, _ :: _ :: _, .cons _ (.cons _ _) =>
      exact congrArg ParseError.unexpectedSeparator htext

theorem application {name : List Token} {delimiters : Delimiters} {es es' : List (List Token)}
    (hname : List.Forall₂ (Token.Pairs p.lexemes) name name)
    (hes : List.Forall₂ (List.Forall₂ (Token.Pairs p.lexemes)) es es') :
    p.Same p.Measure (ctx.application name delimiters es)
      (ctx'.application name delimiters es') := by
  unfold Context.application
  rw [h.environment, h.environment', p.calledFunction?_eq hname]
  cases hcalled : calledFunction? env name with
  | none =>
    exact congrArg ParseError.unrecognizedFunction
      (Pairing.sameText_of_pairs (.application hname hes))
  | some called =>
    obtain ⟨f, exponent⟩ := called
    cases exponent with
    | none =>
      obtain rfl := calledFunction?_eq_none hcalled
      exact h.call (Token.Pairs.of_lexeme hname) hes
    | some exponent =>
      obtain rfl := calledFunction?_eq_some hcalled
      obtain ⟨hf, hexponent⟩ := Token.Pairs.of_superscript hname
      refine Both.bind_map (h.call (Token.Pairs.of_lexeme hf) hes) fun m => ?_
      refine Both.bind_map (h.nested _ _ hexponent) fun k => ?_
      exact h.measured_node (p.join .power m.expr k.expr)

/-- The values of operands that stand for each other do so too. -/
theorem value {t t' : Token} (ht : Token.Pairs p.lexemes t t') (hoperand : t.isOperand = true) :
    p.Same p.Measure (ctx.value t) (ctx'.value t') := by
  cases ht with
  | lexeme hl =>
    refine Both.bind_map (p.leaf h.environment h.environment' hl hoperand) fun n => ?_
    rfl
  | fraction ha hb => exact h.pair ha hb (p.join (.arithmetic .divide))
  | superscript ha hb => exact h.pair ha hb (p.join .power)
  | radical ha hb =>
    cases hb with
    | nil =>
      refine Both.bind_map (h.nested _ _ ha) fun m => ?_
      exact h.measured_node (p.squareRoot m.expr)
    | cons hb hrest => exact h.pair ha (.cons hb hrest) p.root
  | group hes => exact h.group hes
  | application hname hes => exact h.application hname hes

end Context.Pairs

end Formula
