/-
Formula.Proofs.Postfix.Decoding — the postfix text of a formula determines it.

A postfix text has no parentheses, and a call leaves no trace in it of how many
arguments it has. An environment tells what is missing: each word is one lexeme
when it is read alone, and the lexeme has one meaning with one number of
operands (`Environment.label?`). A stack of formulas then puts the tree together
again (`Label.build`), so that reading the postfix text of a formula that was
read from a text gives this formula back (`Expr.ofPostfix?_toPostfix`).

Signs have the words `pos` and `neg` in postfix order. A name that is spelled
like that has the same word and would be taken for a sign. A numeral beyond the
range of numbers would be taken for the name `inf`.
-/
import Formula.Proofs.Postfix.Run
import Formula.Proofs.Infix.Accepted

namespace Formula

open Reader (standard)
open Number.Binary64 (isNegative)

/-! ## 1. Formulas from their nodes -/

/-- The stack of formulas, its top first, after a node. A node takes its operands
from the top, the last one first, and is put in their place. -/
def Label.build : List Expr → Label → Option (List Expr)
  | stack, .literal value => some (.literal value :: stack)
  | stack, .free name => some (.free name :: stack)
  | stack, .constant name value => some (.constant name value :: stack)
  | b :: a :: below, .arithmetic op => some (.arithmetic op a b :: below)
  | a :: below, .signed s => some (.signed s a :: below)
  | b :: a :: below, .power => some (.power a b :: below)
  | b :: a :: below, .root => some (.root a b :: below)
  | stack, .call name body count =>
    if stack.length < count then none
    else some (.call name body (stack.take count).reverse :: stack.drop count)
  | b :: a :: below, .equation => some (.equation a b :: below)
  | _, _ => none

/-- A call takes its arguments from the top of the stack. -/
theorem Label.build_call (name : String) (body : Body) (as stack : List Expr) :
    Label.build (as.reverse ++ stack) (.call name body as.length) =
      some (.call name body as :: stack) := by
  obtain ⟨hroom, htake, hdrop⟩ := top_of_stack as stack
  simp only [build, if_neg hroom, htake, hdrop]

namespace Expr

/-- Formulas are put on the stack one after the other, the last one on top. -/
theorem foldlM_build_labelsOfList {as : List Expr}
    (h : ∀ a ∈ as, ∀ stack, a.labels.foldlM Label.build stack = some (a :: stack))
    (stack : List Expr) :
    (labelsOfList as).foldlM Label.build stack = some (as.reverse ++ stack) := by
  induction as generalizing stack with
  | nil => rfl
  | cons a as ih =>
    have hrest := ih (fun b hb => h b (List.mem_cons_of_mem _ hb)) (a :: stack)
    rw [labelsOfList, List.foldlM_append, h a List.mem_cons_self]
    show (labelsOfList as).foldlM Label.build (a :: stack) = _
    rw [hrest, List.reverse_cons, List.append_assoc, List.singleton_append]

/-- The nodes of a formula put it on the stack. -/
theorem foldlM_build_labels (n : Expr) (stack : List Expr) :
    n.labels.foldlM Label.build stack = some (n :: stack) := by
  induction n using Expr.induction generalizing stack with
  | literal value => rfl
  | free name => rfl
  | constant name value => rfl
  | arithmetic op a b iha ihb => simp [labels, iha, ihb, Label.build]
  | signed s a ih => simp [labels, ih, Label.build]
  | power a b iha ihb => simp [labels, iha, ihb, Label.build]
  | root a b iha ihb => simp [labels, iha, ihb, Label.build]
  | call name body arguments ih =>
    simp [labels, foldlM_build_labelsOfList ih, Label.build_call]
  | equation a b iha ihb => simp [labels, iha, ihb, Label.build]

/-- The label of the root of a formula. -/
def label : Expr → Label
  | .literal value => .literal value
  | .free name => .free name
  | .constant name value => .constant name value
  | .arithmetic op _ _ => .arithmetic op
  | .signed s _ => .signed s
  | .power _ _ => .power
  | .root _ _ => .root
  | .call name body arguments => .call name body arguments.length
  | .equation _ _ => .equation

/-- A label of a node with two operands, or of one of them. -/
theorem exists_node_of_two {a b n : Expr} {label : Label}
    (iha : label ∈ a.labels → ∃ m ∈ a.nodes, label = m.label)
    (ihb : label ∈ b.labels → ∃ m ∈ b.nodes, label = m.label)
    (h : label ∈ a.labels ++ b.labels ++ [n.label]) :
    ∃ m ∈ n :: (a.nodes ++ b.nodes), label = m.label := by
  simp only [List.mem_append, List.mem_singleton] at h
  rcases h with (h | h) | h
  · obtain ⟨m, hm, heq⟩ := iha h
    exact ⟨m, by simp [hm], heq⟩
  · obtain ⟨m, hm, heq⟩ := ihb h
    exact ⟨m, by simp [hm], heq⟩
  · exact ⟨n, by simp, h⟩

/-- Each label of a formula is that of a node. -/
theorem exists_node_of_mem_labels {n : Expr} {label : Label} (h : label ∈ n.labels) :
    ∃ m ∈ n.nodes, label = m.label := by
  induction n using Expr.induction with
  | literal value | free name | constant name value =>
    exact ⟨_, mem_nodes_self _, List.mem_singleton.mp h⟩
  | arithmetic op a b iha ihb => exact exists_node_of_two iha ihb h
  | power a b iha ihb => exact exists_node_of_two iha ihb h
  | root a b iha ihb => exact exists_node_of_two iha ihb h
  | equation a b iha ihb => exact exists_node_of_two iha ihb h
  | signed s a ih =>
    rcases List.mem_append.mp h with h | h
    · obtain ⟨m, hm, heq⟩ := ih h
      exact ⟨m, List.mem_cons_of_mem _ hm, heq⟩
    · exact ⟨_, mem_nodes_self _, List.mem_singleton.mp h⟩
  | call name body arguments ih =>
    rcases List.mem_append.mp h with h | h
    · rw [labelsOfList_eq_flatMap, List.mem_flatMap] at h
      obtain ⟨a, ha, h⟩ := h
      obtain ⟨m, hm, heq⟩ := ih a ha h
      exact ⟨m, List.mem_cons_of_mem _ (nodes_subset_of_mem ha hm), heq⟩
    · exact ⟨_, mem_nodes_self _, List.mem_singleton.mp h⟩

end Expr

/-! ## 2. Words and what they stand for -/

/-- The sign that has a word. -/
def Sign.ofWord? (word : String) : Option Sign :=
  if word = "pos" then some .plus else if word = "neg" then some .minus else none

theorem Sign.ofWord?_word (s : Sign) : ofWord? s.word = some s := by
  cases s <;> rfl

theorem Sign.ofWord?_eq_none {word : String} (h : ∀ s : Sign, word ≠ s.word) :
    ofWord? word = none := by
  have hplus : word ≠ "pos" := h .plus
  have hminus : word ≠ "neg" := h .minus
  rw [ofWord?, if_neg hplus, if_neg hminus]

/-- The word of a sign is no numeral. -/
theorem Sign.not_isNumeral_word (s : Sign) : ¬ Number.IsNumeral s.word.toList := by
  intro h
  obtain ⟨c, rest, hcs, hc⟩ := h.head
  have hhead : s.word.toList.head? = some 'p' ∨ s.word.toList.head? = some 'n' := by
    cases s with
    | plus => exact .inl rfl
    | minus => exact .inr rfl
  rw [hcs] at hhead
  rcases hhead with heq | heq <;> cases heq <;> revert hc <;> decide

/-- The node that a lexeme stands for in postfix order. A word of a sign is that,
whatever the environment says of it. -/
def Environment.label? (env : Environment) (l : Lexeme) : Option Label :=
  match Sign.ofWord? l.text with
  | some s => some (.signed s)
  | none =>
    match l.kind with
    | .number => some (.literal (Number.Binary64.ofNumeral l.text.toList))
    | .variableName => some (.free l.text)
    | .constantName => (env.constant? l.text).map (.constant l.text)
    | .functionName => do
      let body ← env.body? l.text
      let arity ← env.arity? l.text
      some (.call l.text body arity)
    | .plus => some (.arithmetic .add)
    | .minus => some (.arithmetic .subtract)
    | .times => some (.arithmetic .multiply)
    | .divide => some (.arithmetic .divide)
    | .power => some .power
    | .equals => some .equation
    | .leftParen | .rightParen | .separator => none

/-- The word of a node is one lexeme, and this stands for the node. -/
def Label.Told (env : Environment) (label : Label) : Prop :=
  ∃ l, (standard env).lexemes label.word.toList = [l] ∧ l.text = label.word ∧
    env.label? l = some label

section Words

variable {env : Environment} {text : String}

theorem Reader.lexemes_eq_singleton {cs : List Char} {l : Lexeme}
    (h : (standard env).next? cs = some (l, [])) : (standard env).lexemes cs = [l] := by
  rw [lexemes_of_next?_eq_some h, lexemes_nil]

namespace Label

theorem told_signed (s : Sign) : (signed s).Told env := by
  have hnext : (standard env).next? s.word.toList = some (⟨env.classify s.word, s.word⟩, []) := by
    cases s <;> rfl
  refine ⟨_, Reader.lexemes_eq_singleton hnext, rfl, ?_⟩
  simp only [Environment.label?, Sign.ofWord?_word]

theorem told_arithmetic (op : Arithmetic) : (arithmetic op).Told env := by
  have hnext : (standard env).next? op.symbol.toList = some (.punctuation op.kind, []) := by
    cases op <;> rfl
  exact ⟨_, Reader.lexemes_eq_singleton hnext, by cases op <;> rfl, by cases op <;> rfl⟩

theorem told_power : power.Told env :=
  ⟨.punctuation .power, Reader.lexemes_eq_singleton rfl, rfl, rfl⟩

theorem told_equation : equation.Told env :=
  ⟨.punctuation .equals, Reader.lexemes_eq_singleton rfl, rfl, rfl⟩

/-- A finite number without a sign has a numeral as its word. -/
theorem told_literal {value : Float} (hfinite : value.isFinite = true)
    (hsign : isNegative value = false) : (literal value).Told env := by
  have hword : (literal value).word.toList =
      Number.plainDigits (Number.Binary64.pattern value) := by
    rw [word, Number.Binary64.text_eq_digits hfinite hsign, String.toList_ofList]
  have hnumeral : Number.IsNumeral (literal value).word.toList :=
    hword ▸ Number.isNumeral_plainDigits _
  have hlexemes : (Reader.standard env).lexemes (literal value).word.toList =
      [.number (String.ofList (literal value).word.toList)] := Reader.lexemes_numeral hnumeral
  rw [String.ofList_toList] at hlexemes
  have hnone : Sign.ofWord? (literal value).word = none :=
    Sign.ofWord?_eq_none fun s heq => s.not_isNumeral_word (heq ▸ hnumeral)
  refine ⟨_, hlexemes, rfl, ?_⟩
  simp only [Environment.label?, Lexeme.number, hnone, hword,
    Number.Binary64.ofNumeral_plainDigits hfinite hsign]

end Label

/-- The name that a node carries. -/
def Expr.name? : Expr → Option String
  | .free name | .constant name _ | .call name _ _ => some name
  | _ => none

/-- The nodes of what was read from a text are told by their words, if its
literals are finite and no name is the word of a sign. -/
theorem Label.told_of_drawnFrom {m : Expr} (hdrawn : m.DrawnFrom env ((standard env).tokens text))
    (hfinite : ∀ value, m = .literal value → value.isFinite = true)
    (hname : ∀ s : Sign, m.name? ≠ some s.word) : m.label.Told env := by
  have hnone : ∀ name, m.name? = some name → Sign.ofWord? name = none := by
    rintro name hm
    exact Sign.ofWord?_eq_none fun s heq => hname s (hm.trans (congrArg some heq))
  have hlexeme : ∀ l, .lexeme l ∈ (standard env).tokens text →
      (standard env).lexemes l.text.toList = [l] := by
    intro l hl
    obtain ⟨_, hmem, heq⟩ := Reader.mem_tokens hl
    cases heq
    exact Reader.lexemes_text_of_mem hmem
  cases m with
  | literal value => exact told_literal (hfinite value rfl) hdrawn
  | free name =>
    refine ⟨.variableName name, hlexeme _ hdrawn, rfl, ?_⟩
    simp only [Environment.label?, Lexeme.variableName, hnone name rfl, Expr.label]
  | constant name value =>
    obtain ⟨hmem, hvalue⟩ := hdrawn
    refine ⟨.constantName name, hlexeme _ hmem, rfl, ?_⟩
    simp only [Environment.label?, Lexeme.constantName, hnone name rfl, hvalue, Option.map_some,
      Expr.label]
  | call name body arguments =>
    obtain ⟨hmem, harity, hbody⟩ := hdrawn
    refine ⟨.functionName name, hlexeme _ hmem, rfl, ?_⟩
    simp only [Environment.label?, Lexeme.functionName, hnone name rfl, harity, hbody, Expr.label]
    rfl
  | arithmetic op a b => exact told_arithmetic op
  | signed s a => exact told_signed s
  | power a b => exact told_power
  | equation a b => exact told_equation
  | root a b => exact hdrawn.elim

/-! ## 3. Postfix texts -/

/-- Words with single spaces between them. -/
theorem Expr.foldl_pushWord {w : String} (hw : w ≠ "") (ws : List String) :
    ws.foldl pushWord w = String.intercalate " " (w :: ws) := by
  induction ws generalizing w with
  | nil =>
    rw [String.intercalate_singleton]
    rfl
  | cons w' ws ih =>
    have hpush : pushWord w w' = w ++ " " ++ w' := if_neg (by simpa using hw)
    have hne : w ++ " " ++ w' ≠ "" := by simp [hw]
    rw [List.foldl_cons, hpush, ih hne, String.intercalate_cons_cons]
    cases ws with
    | nil => rw [String.intercalate_singleton, String.intercalate_singleton]
    | cons w'' ws =>
      rw [String.intercalate_cons_cons, String.intercalate_cons_cons]
      simp only [String.append_assoc]

/-- A postfix text has its words with single spaces between them. -/
theorem Expr.toPostfix_eq_intercalate {n : Expr} (h : ∀ w ∈ n.words, w ≠ "") :
    n.toPostfix = String.intercalate " " n.words := by
  rw [toPostfix, writePostfix_eq_foldl]
  cases hwords : n.words with
  | nil => rfl
  | cons w ws =>
    have hw : w ≠ "" := h w (by rw [hwords]; exact List.mem_cons_self)
    have hpush : pushWord "" w = w := rfl
    rw [List.foldl_cons, hpush, foldl_pushWord hw]

/-- The lexemes of a list of words that are told are those that they stand for. -/
theorem Label.exists_lexemes {labels : List Label} (h : ∀ label ∈ labels, label.Told env) :
    ∃ ls : List Lexeme, ls.map Lexeme.text = labels.map Label.word ∧
      (∀ l ∈ ls, (standard env).lexemes l.text.toList = [l]) ∧
        ls.mapM env.label? = some labels := by
  induction labels with
  | nil => exact ⟨[], rfl, nofun, rfl⟩
  | cons label labels ih =>
    obtain ⟨⟨l, hlexemes, htext, hlabel⟩, hrest⟩ := List.forall_mem_cons.mp h
    obtain ⟨ls, htexts, halone, hlabels⟩ := ih hrest
    refine ⟨l :: ls, ?_, ?_, ?_⟩
    · rw [List.map_cons, List.map_cons, htext, htexts]
    · exact List.forall_mem_cons.mpr ⟨htext ▸ hlexemes, halone⟩
    · rw [List.mapM_cons, hlabel, hlabels]
      rfl

/-- The formula that a postfix text stands for. -/
def Environment.ofPostfix? (env : Environment) (text : String) : Option Expr := do
  let labels ← ((Reader.standard env).lexemes text.toList).mapM env.label?
  let stack ← labels.foldlM Label.build []
  match stack with
  | [n] => some n
  | _ => none

theorem Expr.ofPostfix?_toPostfix {n : Expr} (h : ∀ label ∈ n.labels, label.Told env) :
    env.ofPostfix? n.toPostfix = some n := by
  obtain ⟨ls, htexts, halone, hlabels⟩ := Label.exists_lexemes h
  have hpostfix : n.toPostfix = String.intercalate " " (ls.map Lexeme.text) := by
    rw [htexts, ← n.words_eq_map_labels]
    refine n.toPostfix_eq_intercalate fun w hw => ?_
    rw [n.words_eq_map_labels, ← htexts, List.mem_map] at hw
    obtain ⟨l, hl, rfl⟩ := hw
    intro hempty
    have hone := halone l hl
    rw [hempty] at hone
    exact absurd (Reader.lexemes_nil.symm.trans hone) (by simp)
  rw [Environment.ofPostfix?, hpostfix, Reader.lexemes_intercalate SymbolMap.finds_standard
    SymbolMap.unspaced_mathSymbols halone, hlabels]
  simp only [Option.bind_eq_bind, Option.bind_some, n.foldlM_build_labels]

/-- The nodes of a formula have words of their own: its literals are finite, and
no name in it is the word of a sign. -/
structure Expr.Unambiguous (n : Expr) : Prop where
  literal : ∀ value, .literal value ∈ n.nodes → value.isFinite = true
  pos : ∀ m ∈ n.nodes, m.name? ≠ some "pos"
  neg : ∀ m ∈ n.nodes, m.name? ≠ some "neg"

/-- The postfix text of what was read from a text stands for it. -/
theorem ofPostfix?_of_parseText {n : Expr} (h : parseText env text = .ok n)
    (hn : n.Unambiguous) : env.ofPostfix? n.toPostfix = some n := by
  refine Expr.ofPostfix?_toPostfix fun label hlabel => ?_
  obtain ⟨m, hm, rfl⟩ := Expr.exists_node_of_mem_labels hlabel
  refine Label.told_of_drawnFrom (drawnFrom_of_parse h m hm) ?_ fun s => ?_
  · rintro value rfl
    exact hn.literal value hm
  · cases s with
    | plus => exact hn.pos m hm
    | minus => exact hn.neg m hm

end Words

/-! ## 4. Equal postfix texts -/

/-- Formulas that were read in the same environment are the same if their
postfix texts are. -/
theorem eq_of_toPostfix_eq (env : Environment) (text text' : String) (n n' : Expr)
    (h : parseText env text = .ok n) (h' : parseText env text' = .ok n')
    (hn : n.Unambiguous) (hn' : n'.Unambiguous) (htext : n.toPostfix = n'.toPostfix) :
    n = n' := by
  have hread := ofPostfix?_of_parseText h hn
  rw [htext, ofPostfix?_of_parseText h' hn'] at hread
  exact (Option.some.inj hread).symm

/-- Parentheses around an exponent with a sign change nothing. -/
theorem eq_of_toPostfix_eq_sine :
    ∃ n n', parseText .standard "sin(x)^-y" = .ok n ∧ parseText .standard "sin(x)^(-y)" = .ok n' ∧
      n.Unambiguous ∧ n'.Unambiguous ∧ n.toPostfix = n'.toPostfix ∧ n = n' := by
  let sine := Expr.call "sin" (Body.unary Float.sin) [.free "x"]
  let n := Expr.power sine (.signed .minus (.free "y"))
  have hx : Written (.within .standard .standard 256) "x" .equation 0 (.free "x") :=
    (Written.free (Environment.reads_of_next? rfl)).loosen (by decide)
  have hy : Written (.within .standard .standard 256) "y" .signed 0 (.free "y") :=
    (Written.free (Environment.reads_of_next? rfl)).loosen (by decide)
  have hname : Environment.standard.Offers "sin" 1 (Body.unary Float.sin) :=
    ⟨Environment.reads_of_next? rfl, rfl, rfl⟩
  have hsine : Written (.within .standard .standard 256) ("sin" ++ "(" ++ "x" ++ ")") .atom 1
      sine := .call hname (.one hx)
  have hsign : Written (.within .standard .standard 256) "-y" .signed 0
      (.signed .minus (.free "y")) := .sign .minus hy
  have hparens : Written (.within .standard .standard 256) "(-y)" .signed 1
      (.signed .minus (.free "y")) := (hsign.loosen (by decide)).enclosed.loosen (by decide)
  have hread : parseText .standard "sin(x)^-y" = .ok n :=
    ((hsine.power hsign).loosen (by decide)).parse_eq (by decide) (by decide)
  have hread' : parseText .standard "sin(x)^(-y)" = .ok n :=
    ((hsine.power hparens).loosen (by decide)).parse_eq (by decide) (by decide)
  have hn : n.Unambiguous := by
    constructor <;> simp [n, sine, Expr.nodes, Expr.nodesOfList, Expr.name?]
  exact ⟨n, n, hread, hread', hn, hn, rfl, eq_of_toPostfix_eq _ _ _ n n hread hread' hn hn rfl⟩

end Formula
