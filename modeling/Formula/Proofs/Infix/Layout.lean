/-
Formula.Proofs.Infix.Layout — the parentheses of a line of text.

The line of text of a formula is a text, and in a text a pair of parentheses is
two characters. To say what becomes of a line when one pair is taken out of it,
the line is described by a tree in which every pair is a node (`Layout`).
`Expr.layout` is what the writer writes, and its text is the line of text
(`Expr.text_layout`). `Layout.Drops` takes out a pair that the writer put around
an operand.

A layout shows a formula (`Layout.Shows`) if it has the operators and calls of the
formula, with pairs of parentheses anywhere. Taking out a pair does not change what
a layout shows (`Layout.Drops.shows`), and the tokens of its text are its own
(`Layout.Shows.tokens_text`). Whether they are read as the formula is another
question, which `Formula.Proofs.Infix.Parentheses` answers.
-/
import Formula.Proofs.Infix.RoundTrip

namespace Formula

open Reader (standard)
open Number.Binary64 (isNegative)

/-! ## 1. Layouts -/

/-- A line of text with its pairs of parentheses as nodes. -/
inductive Layout where
  /-- A number or a name. -/
  | leaf (l : Lexeme)
  | sign (s : Sign) (operand : Layout)
  | binary (op : Operator) (left right : Layout)
  /-- A call. The parentheses around its arguments belong to it. -/
  | call (name : String) (arguments : List Layout)
  /-- A pair of parentheses that groups. -/
  | parens (inner : Layout)

namespace Layout

mutual

/-- The text of a layout. -/
def text : Layout → String
  | .leaf l => l.text
  | .sign s a => s.symbol ++ text a
  | .binary op a b => text a ++ op.spaced ++ text b
  | .call name arguments => name ++ "(" ++ String.intercalate ", " (texts arguments) ++ ")"
  | .parens a => "(" ++ text a ++ ")"

/-- The texts of the layouts of a list. -/
def texts : List Layout → List String
  | [] => []
  | a :: rest => text a :: texts rest

end

mutual

/-- The lexemes of a layout. -/
def lexemes : Layout → List Lexeme
  | .leaf l => [l]
  | .sign s a => .punctuation s.kind :: lexemes a
  | .binary op a b => lexemes a ++ .punctuation op.kind :: lexemes b
  | .call name arguments =>
    .functionName name :: .punctuation .leftParen ::
      (argumentLexemes arguments ++ [.punctuation .rightParen])
  | .parens a => .punctuation .leftParen :: (lexemes a ++ [.punctuation .rightParen])

/-- The lexemes of the layouts of a list, with separators between them. -/
def argumentLexemes : List Layout → List Lexeme
  | [] => []
  | [a] => lexemes a
  | a :: b :: rest => lexemes a ++ .punctuation .separator :: argumentLexemes (b :: rest)

end

/-- A layout in parentheses, if they are needed. -/
def enclose (needed : Bool) (a : Layout) : Layout := if needed then .parens a else a

theorem texts_eq_map (as : List Layout) : texts as = as.map text := by
  induction as with
  | nil => rfl
  | cons a rest ih => simp [texts, ih]

theorem text_enclose (needed : Bool) (a : Layout) :
    (enclose needed a).text = Expr.enclose needed a.text := by
  cases needed <;> rfl

/-- Induction over a layout, with the arguments of a call as the members of a
list. -/
theorem induction {P : Layout → Prop} (leaf : ∀ l, P (.leaf l))
    (sign : ∀ s a, P a → P (.sign s a)) (binary : ∀ op a b, P a → P b → P (.binary op a b))
    (call : ∀ name arguments, (∀ a ∈ arguments, P a) → P (.call name arguments))
    (parens : ∀ a, P a → P (.parens a)) (a : Layout) : P a := by
  refine @Layout.rec P (fun as => ∀ a ∈ as, P a) leaf sign binary call parens ?_ ?_ a
  · intro a ha
    cases ha
  · intro a rest ha hrest b hb
    rcases List.mem_cons.mp hb with rfl | hb
    · exact ha
    · exact hrest b hb

/-- Whether a layout is that of a sign with its operand. -/
def isSigned : Layout → Bool
  | .sign _ _ => true
  | _ => false

/-- A pair of parentheses is taken out of a layout, other than one around an
exponent with a sign. Those of calls are none of these. -/
inductive Drops : Layout → Layout → Prop
  | here (a) : Drops (.parens a) a
  | inner {a a'} (h : Drops a a') : Drops (.parens a) (.parens a')
  | operand {s a a'} (h : Drops a a') : Drops (.sign s a) (.sign s a')
  | left {op a a' b} (h : Drops a a') : Drops (.binary op a b) (.binary op a' b)
  | right {op a b b'} (h : Drops b b')
      (hexponent : op = .power → b = .parens b' → b'.isSigned = false) :
      Drops (.binary op a b) (.binary op a b')
  | argument {name as a a' bs} (h : Drops a a') :
      Drops (.call name (as ++ a :: bs)) (.call name (as ++ a' :: bs))

end Layout

namespace Expr

mutual

/-- The layout of the line of text of a formula. -/
def layout : Expr → Layout
  | .literal value =>
    if isNegative value then .sign .minus (.leaf (.number (Number.text value.abs)))
    else .leaf (.number (Number.text value))
  | .free name => .leaf (.variableName name)
  | .constant name _ => .leaf (.constantName name)
  | .arithmetic op left right =>
    let here := (Operator.arithmetic op).level
    .binary (.arithmetic op) (.enclose (left.level < here) (layout left))
      (.enclose (right.level ≤ here) (layout right))
  | .equation left right =>
    let here := Operator.equals.level
    .binary .equals (.enclose (left.level < here) (layout left))
      (.enclose (right.level ≤ here) (layout right))
  | .signed s operand =>
    .sign s (.enclose (operand.level < (Operator.sign s).level) (layout operand))
  | .power base exponent =>
    let here := Operator.power.level
    .binary .power (.enclose (base.level ≤ here) (layout base))
      (.enclose (exponent.level < here) (layout exponent))
  | .root base degree => .call "root" [layout base, layout degree]
  | .call name _ arguments => .call name (layouts arguments)

/-- The layouts of the lines of text of the formulas of a list. -/
def layouts : List Expr → List Layout
  | [] => []
  | a :: rest => layout a :: layouts rest

end

theorem layouts_eq_map (as : List Expr) : layouts as = as.map layout := by
  induction as with
  | nil => rfl
  | cons a rest ih => simp [layouts, ih]

/-- The text of the layout of a formula is its line of text. -/
theorem text_layout (n : Expr) (h : ∀ value, .literal value ∈ n.nodes → value.isFinite = true) :
    n.layout.text = n.toInfix := by
  induction n using Expr.induction with
  | literal value =>
    rw [layout, toInfix]
    split
    · rename_i hsign
      exact (Number.Binary64.text_eq_minus (h value (mem_nodes_self _)) hsign).symm
    · rfl
  | free name => rfl
  | constant name value => rfl
  | arithmetic op a b iha ihb =>
    have ha := iha fun v hv => h v (by simp [nodes, hv])
    have hb := ihb fun v hv => h v (by simp [nodes, hv])
    simp [layout, toInfix, Layout.text, Layout.text_enclose, Operator.spaced, ha, hb,
      String.append_assoc]
  | signed s a ih =>
    have ha := ih fun v hv => h v (by simp [nodes, hv])
    simp [layout, toInfix, Layout.text, Layout.text_enclose, ha]
  | power a b iha ihb =>
    have ha := iha fun v hv => h v (by simp [nodes, hv])
    have hb := ihb fun v hv => h v (by simp [nodes, hv])
    simp [layout, toInfix, Layout.text, Layout.text_enclose, Operator.spaced, ha, hb]
  | root a b iha ihb =>
    have ha := iha fun v hv => h v (by simp [nodes, hv])
    have hb := ihb fun v hv => h v (by simp [nodes, hv])
    have hopen : "root(" = "root" ++ "(" := rfl
    simp [layout, toInfix, Layout.text, Layout.texts, ha, hb, hopen, String.append_assoc]
  | call name body arguments ih =>
    have hall : (arguments.map layout).map Layout.text = arguments.map toInfix := by
      rw [List.map_map]
      exact List.map_congr_left fun a ha =>
        ih a ha fun v hv => h v (List.mem_cons_of_mem _ (nodes_subset_of_mem ha hv))
    simp only [layout, toInfix, Layout.text, Layout.texts_eq_map, layouts_eq_map, toInfixes_eq_map,
      hall]
  | equation a b iha ihb =>
    have ha := iha fun v hv => h v (by simp [nodes, hv])
    have hb := ihb fun v hv => h v (by simp [nodes, hv])
    simp [layout, toInfix, Layout.text, Layout.text_enclose, Operator.spaced, ha, hb]

end Expr

/-! ## 2. Taking out a pair -/

/-- Two texts of which the second has a pair of parentheses less than the
first. -/
def Unwraps (text text' : String) : Prop :=
  ∃ before inner after, text = before ++ "(" ++ inner ++ ")" ++ after ∧
    text' = before ++ inner ++ after

theorem Unwraps.between {text text' : String} (h : Unwraps text text') (before after : String) :
    Unwraps (before ++ text ++ after) (before ++ text' ++ after) := by
  obtain ⟨before', inner, after', rfl, rfl⟩ := h
  exact ⟨before ++ before', inner, after' ++ after, by simp [String.append_assoc],
    by simp [String.append_assoc]⟩

/-- A member of a list of texts is a part of the text with separators between
them. -/
theorem exists_intercalate_eq (sep : String) (ss ts : List String) :
    ∃ before after, ∀ s, String.intercalate sep (ss ++ s :: ts) = before ++ s ++ after := by
  induction ss with
  | nil =>
    cases ts with
    | nil => exact ⟨"", "", fun s => by simp⟩
    | cons t ts =>
      refine ⟨"", sep ++ String.intercalate sep (t :: ts), fun s => ?_⟩
      rw [List.nil_append, String.intercalate_cons_cons]
      simp [String.append_assoc]
  | cons u ss ih =>
    obtain ⟨before, after, hall⟩ := ih
    refine ⟨u ++ sep ++ before, after, fun s => ?_⟩
    rw [List.cons_append, String.intercalate_cons_of_ne_nil (by simp), hall]
    simp [String.append_assoc]

/-- In the text, the two characters of the pair are missing. -/
theorem Layout.Drops.unwraps {L L' : Layout} (h : L.Drops L') : Unwraps L.text L'.text := by
  induction h with
  | here a => exact ⟨"", a.text, "", by simp [text], by simp⟩
  | inner _ ih => exact ih.between "(" ")"
  | @operand s a a' _ ih => simpa [text] using ih.between s.symbol ""
  | @left op a a' b _ ih =>
    simpa [text, String.append_assoc] using ih.between "" (op.spaced ++ b.text)
  | @right op a b b' _ _ ih =>
    simpa [text, String.append_assoc] using ih.between (a.text ++ op.spaced) ""
  | @argument name as a a' bs _ ih =>
    obtain ⟨before, after, hall⟩ := exists_intercalate_eq ", " (as.map text) (bs.map text)
    simp only [text, texts_eq_map, List.map_append, List.map_cons, hall]
    simpa [String.append_assoc] using ih.between (name ++ "(" ++ before) (after ++ ")")

/-! ## 3. Layouts of formulas -/

/-- Whether a formula is a number or a name. -/
def Expr.isLeaf : Expr → Bool
  | .literal _ | .free _ | .constant _ _ => true
  | _ => false

/-- A layout with the operators and calls of a formula, and with parentheses
anywhere. Its numbers and names are read alone. -/
inductive Layout.Shows (env : Environment) : Layout → Expr → Prop
  | leaf {l n} (hl : l.kind.isOperand = true) (hread : env.Reads l.kind l.text)
      (hn : n.isLeaf = true) : Shows env (.leaf l) n
  | sign {s a n} (ha : Shows env a n) : Shows env (.sign s a) (.signed s n)
  | binary {op a b m k n} (hop : op.left?.isSome = true) (ha : Shows env a m) (hb : Shows env b k)
      (hn : n = Item.join op m k) : Shows env (.binary op a b) n
  | call {name body as ns} (hread : env.Reads .functionName name)
      (has : List.Forall₂ (Shows env) as ns) : Shows env (.call name as) (.call name body ns)
  | parens {a n} (ha : Shows env a n) : Shows env (.parens a) n

namespace Layout

variable {env : Environment} {L L' : Layout} {n : Expr}

theorem Shows.enclose (h : L.Shows env n) (needed : Bool) : (enclose needed L).Shows env n := by
  cases needed with
  | false => exact h
  | true => exact .parens h

theorem forall₂_replace {α β : Type} {R : α → β → Prop} {as bs : List α} {a a' : α} {ns : List β}
    (h : List.Forall₂ R (as ++ a :: bs) ns) (ha : ∀ n, R a n → R a' n) :
    List.Forall₂ R (as ++ a' :: bs) ns := by
  induction as generalizing ns with
  | nil =>
    cases h with
    | cons hn hns => exact .cons (ha _ hn) hns
  | cons b as ih =>
    cases h with
    | cons hn hns => exact .cons hn (ih hns)

/-- What a pair of parentheses is taken out of shows the same formula. -/
theorem Drops.shows (h : L.Drops L') (hL : L.Shows env n) : L'.Shows env n := by
  induction h generalizing n with
  | here a =>
    cases hL with
    | parens ha => exact ha
  | inner _ ih =>
    cases hL with
    | parens ha => exact .parens (ih ha)
  | operand _ ih =>
    cases hL with
    | sign ha => exact .sign (ih ha)
  | left _ ih =>
    cases hL with
    | binary hop ha hb hn => exact .binary hop (ih ha) hb hn
  | right _ _ ih =>
    cases hL with
    | binary hop ha hb hn => exact .binary hop ha (ih hb) hn
  | @argument name as a a' bs _ ih =>
    cases hL with
    | call hread has =>
      exact .call hread (forall₂_replace has fun n => ih)

end Layout

/-- The text of a finite number without a sign is read alone. -/
theorem Environment.reads_number {env : Environment} {value : Float}
    (hfinite : value.isFinite = true) (hsign : isNegative value = false) :
    env.Reads .number (Number.text value) := by
  rw [Number.Binary64.text_eq_digits hfinite hsign]
  exact reads_numeral (Number.isNumeral_plainDigits _)

/-- The layout of the line of text of a legible formula shows what it spells. -/
theorem Expr.shows_layout {env : Environment} {root : Body} {n : Expr} (h : n.Legible env root) :
    n.layout.Shows env (n.spelled root) := by
  induction n using Expr.induction with
  | literal value =>
    have hfinite := h.literal value (by simp [nodes])
    cases hsign : isNegative value with
    | false =>
      simp only [layout, spelled, hsign]
      exact .leaf rfl (Environment.reads_number hfinite hsign) rfl
    | true =>
      simp only [layout, spelled, hsign, if_true]
      have habs : env.Reads .number (Number.text value.abs) :=
        Environment.reads_number (Number.Binary64.isFinite_abs hfinite)
          (Number.Binary64.abs_of_isFinite hfinite).2
      exact .sign (.leaf rfl habs rfl)
  | free name => exact .leaf rfl (h.free name (by simp [nodes])) rfl
  | constant name value => exact .leaf rfl (h.constant name value (by simp [nodes])).1 rfl
  | arithmetic op a b iha ihb =>
    have ha := iha (h.of_subset (by simp [nodes]))
    have hb := ihb (h.of_subset (by simp [nodes]))
    refine .binary ?_ (ha.enclose _) (hb.enclose _) rfl
    cases op <;> rfl
  | signed s a ih => exact .sign ((ih (h.of_subset (by simp [nodes]))).enclose _)
  | power a b iha ihb =>
    have ha := iha (h.of_subset (by simp [nodes]))
    have hb := ihb (h.of_subset (by simp [nodes]))
    exact .binary rfl (ha.enclose _) (hb.enclose _) rfl
  | root a b iha ihb =>
    have ha := iha (h.of_subset (by simp [nodes]))
    have hb := ihb (h.of_subset (by simp [nodes]))
    exact .call (h.root a b (by simp [nodes])).reads (.cons ha (.cons hb .nil))
  | call name body arguments ih =>
    refine .call (h.call name body arguments (by simp [nodes])).reads ?_
    rw [layouts_eq_map, spelledList_eq_map, List.forall₂_map_left_iff, List.forall₂_map_right_iff,
      List.forall₂_same]
    exact fun a ha => ih a ha (h.of_subset (List.Subset.trans (nodes_subset_of_mem ha)
      (by simp [nodes])))
  | equation a b iha ihb =>
    have ha := iha (h.of_subset (by simp [nodes]))
    have hb := ihb (h.of_subset (by simp [nodes]))
    exact .binary rfl (ha.enclose _) (hb.enclose _) rfl

/-! ## 4. Lexemes -/

namespace Layout

variable {env : Environment} {L L' : Layout} {n : Expr}

theorem splits_arguments {as : List Layout} {ns : List Expr}
    (h : ∀ a ∈ as, ∀ n, a.Shows env n → (standard env).Splits a.text a.lexemes)
    (has : List.Forall₂ (Shows env) as ns) :
    (standard env).Splits (String.intercalate ", " (texts as)) (argumentLexemes as) := by
  induction has with
  | nil => exact fun _ _ => rfl
  | @cons a n as ns ha has ih =>
    have hsplits := h a (by simp) n ha
    have hrest := ih fun b hb => h b (by simp [hb])
    cases as with
    | nil =>
      rw [texts, texts, String.intercalate_singleton]
      exact hsplits
    | cons b as =>
      rw [texts, texts, String.intercalate_cons_cons, ← texts]
      exact hsplits.between hrest (fun _ => .cons (by decide)) Reader.lexemes_commaBlank

/-- The lexemes of a layout are those of its text. -/
theorem Shows.splits (h : L.Shows env n) : (standard env).Splits L.text L.lexemes := by
  induction L using Layout.induction generalizing n with
  | leaf l =>
    cases h with
    | leaf hl hread _ => exact .of_alone hread rfl (LexemeKind.isWord_of_isOperand hl)
  | sign s a ih =>
    cases h with
    | sign ha => exact .sign s (ih ha)
  | binary op a b iha ihb =>
    cases h with
    | binary hop ha hb _ =>
      exact .between (iha ha) (ihb hb) (stops_spaced hop) (Reader.lexemes_spaced op)
  | call name as ih =>
    cases h with
    | call hread has =>
      have hname : (standard env).Splits name [.functionName name] := .of_alone hread rfl rfl
      exact hname.call (splits_arguments (fun a ha n => ih a ha) has)
  | parens a ih =>
    cases h with
    | parens ha => exact .enclosed (ih ha)

/-- The tokens of a layout. -/
def tokens (L : Layout) : List Token := L.lexemes.map Token.lexeme

theorem Shows.tokens_text (h : L.Shows env n) : (standard env).tokens L.text = L.tokens :=
  h.splits.tokens_eq

/-! The tokens of each form of layout. -/

theorem tokens_sign (s : Sign) (a : Layout) :
    (sign s a).tokens = .lexeme (.punctuation s.kind) :: a.tokens := rfl

theorem tokens_binary (op : Operator) (a b : Layout) :
    (binary op a b).tokens = a.tokens ++ .lexeme (.punctuation op.kind) :: b.tokens := by
  simp [tokens, lexemes]

theorem tokens_parens (a : Layout) :
    (parens a).tokens = .lexeme (.punctuation .leftParen) ::
      (a.tokens ++ [.lexeme (.punctuation .rightParen)]) := by
  simp [tokens, lexemes]

/-- The tokens of arguments, with separators between them. -/
def argumentTokens (as : List Layout) : List Token := (argumentLexemes as).map Token.lexeme

theorem tokens_call (name : String) (as : List Layout) :
    (call name as).tokens = .lexeme (.functionName name) ::
      .lexeme (.punctuation .leftParen) ::
        (argumentTokens as ++ [.lexeme (.punctuation .rightParen)]) := by
  simp [tokens, argumentTokens, lexemes]

theorem argumentTokens_cons_cons (a b : Layout) (as : List Layout) :
    argumentTokens (a :: b :: as) =
      a.tokens ++ .lexeme (.punctuation .separator) :: argumentTokens (b :: as) := by
  simp [tokens, argumentTokens, argumentLexemes]

theorem tokens_ne_nil (L : Layout) : L.tokens ≠ [] := by
  cases L with
  | leaf l => nofun
  | sign s a => nofun
  | binary op a b => simp [tokens_binary]
  | call name as => nofun
  | parens a => nofun

end Layout

end Formula
