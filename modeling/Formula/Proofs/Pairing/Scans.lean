/-
Formula.Proofs.Pairing.Scans — two scans side by side.

The scans of two lists whose tokens stand for each other are in states that do
so too after each token (`Scan.Pairs`): they have the same operators and the
same open parentheses and calls on their stacks, and values that stand for each
other in their queues. Nothing else of a token decides what a scan does next, so
both fail at the same token, or both go on (`Context.Pairs.step`).

Their queues reduce alike, and with the lists in tokens as a hypothesis this is
a statement about two parses (`Pairing.parseWithin`), by induction on the levels
that are left.
-/
import Formula.Proofs.Pairing.Tokens
import Formula.Proofs.Parse.Limits

namespace Formula

variable {env env' : Environment} {p : Pairing env env'}

/-! ## 1. Stacks and queues -/

/-- Entries of two stacks that stand for each other. -/
inductive Pending.Pairs (R : Lexeme → Lexeme → Prop) : Pending → Pending → Prop
  | operator {op l l'} (h : R l l') : Pairs R (.operator op l) (.operator op l')
  | paren {l l'} (h : R l l') : Pairs R (.paren l) (.paren l')
  | call {f count} (h : R f f) : Pairs R (.call f count) (.call f count)

/-- Items of two queues that stand for each other. -/
inductive Item.Pairs (p : Pairing env env') : Item → Item → Prop
  | value (m : Measured) : Pairs p (.value m) (.value (m.map p.expr))
  | operator {op l l'} (h : p.lexemes l l') : Pairs p (.operator op l) (.operator op l')
  | call {f count} (h : p.lexemes f f) : Pairs p (.call f count) (.call f count)

theorem popOperators_pairs (q : Operator → Bool) {stack stack' : List Pending}
    (h : List.Forall₂ (Pending.Pairs p.lexemes) stack stack') :
    List.Forall₂ (Item.Pairs p) (popOperators q stack).1 (popOperators q stack').1 ∧
      List.Forall₂ (Pending.Pairs p.lexemes) (popOperators q stack).2
        (popOperators q stack').2 := by
  induction h with
  | nil => exact ⟨.nil, .nil⟩
  | cons hentry hbelow ih =>
    cases hentry with
    | operator hl =>
      rw [popOperators, popOperators]
      split
      · exact ⟨.cons (.operator hl) ih.1, ih.2⟩
      · exact ⟨.nil, .cons (.operator hl) hbelow⟩
    | paren hl => exact ⟨.nil, .cons (.paren hl) hbelow⟩
    | call hf => exact ⟨.nil, .cons (.call hf) hbelow⟩

/-- Stacks and queues that stand for each other, entry by entry. -/
structure Yard.Pairs (p : Pairing env env') (y y' : Yard) : Prop where
  stack : List.Forall₂ (Pending.Pairs p.lexemes) y.stack y'.stack
  queue : List.Forall₂ (Item.Pairs p) y.queue.toList y'.queue.toList

namespace Yard.Pairs

variable {y y' : Yard} (h : Yard.Pairs p y y')

include h

theorem queue_append {items items' : List Item}
    (hitems : List.Forall₂ (Item.Pairs p) items items') :
    List.Forall₂ (Item.Pairs p) (y.queue ++ items).toList (y'.queue ++ items').toList := by
  rw [Array.toList_appendList, Array.toList_appendList]
  exact List.rel_append h.queue hitems

theorem pushValue {m m' : Measured} (hm : p.Measure m m') :
    Yard.Pairs p (y.pushValue m) (y'.pushValue m') := by
  obtain rfl := hm
  refine ⟨h.stack, ?_⟩
  simp only [Yard.pushValue, Array.toList_push]
  exact List.rel_append h.queue (.cons (.value m) .nil)

theorem pushOperator (op : Operator) {l l' : Lexeme} (hl : p.lexemes l l') :
    Yard.Pairs p (y.pushOperator op l) (y'.pushOperator op l') := by
  obtain ⟨hout, hrest⟩ := popOperators_pairs (·.yieldsTo op) h.stack
  exact ⟨.cons (.operator hl) hrest, h.queue_append hout⟩

theorem pushParen {l l' : Lexeme} (hl : p.lexemes l l') :
    Yard.Pairs p (y.pushParen l) (y'.pushParen l') :=
  ⟨.cons (.paren hl) h.stack, h.queue⟩

theorem pushCall {f l l' : Lexeme} (hf : p.lexemes f f) (hl : p.lexemes l l') :
    Yard.Pairs p (y.pushCall f l) (y'.pushCall f l') :=
  ⟨.cons (.paren hl) (.cons (.call hf) h.stack), h.queue⟩

theorem closeParen {l l' : Lexeme} (hl : p.lexemes l l') (empty : Bool) :
    p.Same (fun r r' => Yard.Pairs p r.1 r'.1 ∧ r'.2 = r.2) (y.closeParen l empty)
      (y'.closeParen l' empty) := by
  obtain ⟨hout, hrest⟩ := popOperators_pairs (fun _ => true) h.stack
  have hqueue := h.queue_append hout
  have htext := p.lexeme_text hl
  have hgroups : ∀ {below below'}, List.Forall₂ (Pending.Pairs p.lexemes) below below' →
      p.Same (fun r r' => Yard.Pairs p r.1 r'.1 ∧ r'.2 = r.2)
        (if empty then .error (.malformedExpression (.emptyParenthesesBefore l.text))
          else .ok (⟨below, y.queue ++ (popOperators (fun _ => true) y.stack).1⟩, false))
        (if empty then .error (.malformedExpression (.emptyParenthesesBefore l'.text))
          else .ok (⟨below', y'.queue ++ (popOperators (fun _ => true) y'.stack).1⟩, false)) :=
    fun hbelow => Both.ite
      (fun _ => congrArg (ParseError.malformedExpression ∘ .emptyParenthesesBefore) htext)
      fun _ => ⟨⟨hbelow, hqueue⟩, rfl⟩
  unfold Yard.closeParen
  simp only
  generalize (popOperators (fun _ => true) y.stack).2 = rest at hrest
  generalize (popOperators (fun _ => true) y'.stack).2 = rest' at hrest
  cases hrest with
  | nil => exact congrArg ParseError.mismatchedParentheses htext
  | cons hentry hbelow =>
    cases hentry with
    | operator _ => exact congrArg ParseError.mismatchedParentheses htext
    | call _ => exact Pairing.Same.error rfl
    | paren _ =>
      cases hbelow with
      | nil => exact hgroups .nil
      | cons hentry hbelow =>
        cases hentry with
        | operator ho => exact hgroups (.cons (.operator ho) hbelow)
        | paren hp => exact hgroups (.cons (.paren hp) hbelow)
        | call hf =>
          refine ⟨⟨hbelow, ?_⟩, rfl⟩
          rw [Array.toList_push, Array.toList_push]
          exact List.rel_append hqueue (.cons (.call hf) .nil)

theorem separate {l l' : Lexeme} (hl : p.lexemes l l') :
    p.Same (Yard.Pairs p) (y.separate l) (y'.separate l') := by
  obtain ⟨hout, hrest⟩ := popOperators_pairs (fun _ => true) h.stack
  have hqueue := h.queue_append hout
  have herror : p.Same (Yard.Pairs p) (.error (.unexpectedSeparator l.text))
      (.error (.unexpectedSeparator l'.text)) :=
    congrArg ParseError.unexpectedSeparator (p.lexeme_text hl)
  unfold Yard.separate
  simp only
  generalize (popOperators (fun _ => true) y.stack).2 = rest at hrest
  generalize (popOperators (fun _ => true) y'.stack).2 = rest' at hrest
  cases hrest with
  | nil => exact herror
  | cons hentry hbelow =>
    cases hentry with
    | operator _ => exact herror
    | call _ => exact herror
    | paren hp =>
      cases hbelow with
      | nil => exact herror
      | cons hentry hbelow =>
        cases hentry with
        | operator _ => exact herror
        | paren _ => exact herror
        | call hf => exact ⟨.cons (.paren hp) (.cons (.call hf) hbelow), hqueue⟩

theorem drain : p.Same (List.Forall₂ (Item.Pairs p)) y.drain y'.drain := by
  obtain ⟨hout, hrest⟩ := popOperators_pairs (fun _ => true) h.stack
  have hqueue := h.queue_append hout
  unfold Yard.drain
  simp only
  generalize (popOperators (fun _ => true) y.stack).2 = rest at hrest
  generalize (popOperators (fun _ => true) y'.stack).2 = rest' at hrest
  cases hrest with
  | nil => exact hqueue
  | cons hentry _ =>
    cases hentry with
    | operator _ => exact hqueue
    | paren hl => exact congrArg ParseError.mismatchedParentheses (p.lexeme_text hl)
    | call _ => exact Pairing.Same.error rfl

end Yard.Pairs

/-! ## 2. Single tokens -/

/-- Only an opening parenthesis stands for one. -/
theorem Pairing.kind_eq_iff {l l' : Lexeme} (hl : p.lexemes l l') {k : LexemeKind}
    (hk : k.isOperand = false) : l'.kind = k ↔ l.kind = k := by
  rcases p.kind hl with heq | ⟨ho, ho'⟩
  · rw [heq]
  · constructor
    · rintro rfl
      rw [hk] at ho'
      cases ho'
    · rintro rfl
      rw [hk] at ho
      cases ho

/-- States that stand for each other. -/
structure Scan.Pairs (p : Pairing env env') (s s' : Scan) : Prop where
  yard : Yard.Pairs p s.yard s'.yard
  previous : Option.Rel (Token.Pairs p.lexemes) s.previous s'.previous
  awaiting : s'.awaiting = s.awaiting
  called : s'.called = s.called
  name : ∀ f, s.called = some f → p.lexemes f f
  openCalls : s'.openCalls = s.openCalls
  openParens : s'.openParens = s.openParens

namespace Scan.Pairs

variable {s s' : Scan} (h : Scan.Pairs p s s')

theorem start : Scan.Pairs p .start .start where
  yard := ⟨.nil, .nil⟩
  previous := .none
  awaiting := rfl
  called := rfl
  name := nofun
  openCalls := rfl
  openParens := rfl

include h

theorem justOpened : s'.justOpened = s.justOpened := by
  have hprevious := h.previous
  unfold Scan.justOpened
  generalize s.previous = previous, s'.previous = previous' at hprevious ⊢
  cases hprevious with
  | none => rfl
  | some ht =>
    cases ht with
    | lexeme hl =>
      have hiff := p.kind_eq_iff hl (k := .leftParen) rfl
      simp [Token.kind?, hiff]
    | _ => rfl

theorem pushValue {m m' : Measured} {t t' : Token} (hm : p.Measure m m')
    (ht : Token.Pairs p.lexemes t t') : Scan.Pairs p (s.pushValue m t) (s'.pushValue m' t') where
  yard := h.yard.pushValue hm
  previous := .some ht
  awaiting := rfl
  called := h.called
  name := h.name
  openCalls := h.openCalls
  openParens := h.openParens

theorem needOperand {t t' : Token} (ht : Token.Pairs p.lexemes t t') :
    p.Same (fun _ _ => True) (s.needOperand t) (s'.needOperand t') := by
  unfold Scan.needOperand
  have htext := Pairing.sameText_of_pairs ht
  rw [h.awaiting]
  exact Both.ite (fun _ => trivial) fun _ =>
    congrArg (ParseError.malformedExpression ∘ .missingOperatorBefore) htext

theorem rightParen {l l' : Lexeme} (hl : p.lexemes l l') :
    p.Same (Scan.Pairs p) (s.rightParen l) (s'.rightParen l') := by
  have hopened := h.justOpened
  unfold Scan.justOpened at hopened
  unfold Scan.rightParen
  simp only [h.awaiting, hopened]
  refine Both.ite (fun _ => congrArg (ParseError.malformedExpression ∘ .missingOperandBefore)
    (p.lexeme_text hl)) fun _ => Both.bind (h.yard.closeParen hl _) ?_
  rintro ⟨yard, closesCall⟩ ⟨yard', _⟩ ⟨hyard, rfl⟩
  refine ⟨hyard, .some (.lexeme hl), rfl, h.called, h.name, ?_, ?_⟩
  · simp only [h.openCalls]
  · simp only [h.openParens]

theorem separator {l l' : Lexeme} (hl : p.lexemes l l') :
    p.Same (Scan.Pairs p) (s.separator l) (s'.separator l') := by
  have htext := p.lexeme_text hl
  unfold Scan.separator
  rw [h.openCalls, h.awaiting]
  refine Both.ite (fun _ => congrArg ParseError.unexpectedSeparator htext) fun _ =>
    Both.ite (fun _ => congrArg (ParseError.malformedExpression ∘ .emptyArgumentBefore) htext)
      fun _ => Both.bind (h.yard.separate hl) fun yard yard' hyard => ?_
  exact ⟨hyard, .some (.lexeme hl), rfl, h.called, h.name, rfl, h.openParens⟩

theorem operator {l l' : Lexeme} (hl : p.lexemes l l') (hk : l'.kind = l.kind) :
    p.Same (Scan.Pairs p) (s.operator l) (s'.operator l') := by
  have htext := p.lexeme_text hl
  unfold Scan.operator
  rw [h.awaiting, hk]
  refine Both.ite (fun _ => congrArg (ParseError.malformedExpression ∘ .missingLeftOperand) htext)
    fun _ => ?_
  cases Operator.ofKind? l.kind s.awaiting with
  | none => exact congrArg (ParseError.internal ∘ .notAnOperator) htext
  | some op =>
    exact ⟨h.yard.pushOperator op hl, .some (.lexeme hl), rfl, h.called, h.name, h.openCalls,
      h.openParens⟩

theorem finish : p.Same (List.Forall₂ (Item.Pairs p)) s.finish s'.finish := by
  have hprevious := h.previous
  unfold Scan.finish
  rw [h.called]
  cases s.called with
  | some f => exact Pairing.Same.error rfl
  | none =>
    simp only [h.awaiting]
    refine Both.ite (fun _ => ?_) fun _ => h.yard.drain
    generalize s.previous = previous, s'.previous = previous' at hprevious ⊢
    cases hprevious with
    | none => exact Pairing.Same.error rfl
    | some ht =>
      exact congrArg (ParseError.malformedExpression ∘ .missingOperandAfter)
        (Pairing.sameText_of_pairs ht)

end Scan.Pairs

/-! ## 3. Scans -/

/-- A number or a name that is no function is an operand. -/
theorem Scan.lexeme_of_isOperand {ctx : Context} {s : Scan} {l : Lexeme}
    (hl : l.kind.isOperand = true) :
    s.lexeme ctx l = (do
      s.needOperand (.lexeme l)
      let v ← ctx.value (.lexeme l)
      .ok (s.pushValue v (.lexeme l))) := by
  unfold Scan.lexeme
  cases hk : l.kind <;> rw [hk] at hl <;> first | rfl | cases hl

namespace Context.Pairs

variable {ctx ctx' : Context} (h : Context.Pairs p ctx ctx') {s s' : Scan} (hs : Scan.Pairs p s s')

include h hs

theorem needRoom : p.Same (fun _ _ => True) (s.needRoom ctx) (s'.needRoom ctx') := by
  unfold Scan.needRoom
  rw [hs.openParens, h.room, h.limits]
  exact Both.ite (fun _ => rfl) fun _ => trivial

theorem operand {t t' : Token} (ht : Token.Pairs p.lexemes t t') (ho : t.isOperand = true) :
    p.Same (Scan.Pairs p)
      (do
        s.needOperand t
        let v ← ctx.value t
        .ok (s.pushValue v t))
      (do
        s'.needOperand t'
        let v ← ctx'.value t'
        .ok (s'.pushValue v t')) :=
  Both.bind (hs.needOperand ht) fun _ _ _ => Both.bind (h.value ht ho) fun _ _ hm =>
    hs.pushValue hm ht

theorem leftParen {l l' : Lexeme} (hl : p.lexemes l l') :
    p.Same (Scan.Pairs p) (s.leftParen ctx l) (s'.leftParen ctx' l') := by
  refine Both.bind (hs.needOperand (.lexeme hl)) fun _ _ _ =>
    Both.bind (h.needRoom hs) fun _ _ _ => ?_
  refine ⟨hs.yard.pushParen hl, .some (.lexeme hl), hs.awaiting, hs.called, hs.name,
    hs.openCalls, ?_⟩
  simp only [hs.openParens]

theorem functionName {f : Lexeme} (hf : p.lexemes f f) :
    p.Same (Scan.Pairs p) (s.functionName ctx f) (s'.functionName ctx' f) := by
  refine Both.bind (hs.needOperand (.lexeme hf)) fun _ _ _ => ?_
  rw [h.environment, h.environment', p.isFunction hf]
  refine Both.ite (fun _ => ?_) fun _ => rfl
  refine ⟨hs.yard, hs.previous, hs.awaiting, rfl, ?_, hs.openCalls, hs.openParens⟩
  intro g hg
  cases hg
  exact hf

theorem functionArguments {f : Lexeme} {t t' : Token} (hf : p.lexemes f f)
    (ht : Token.Pairs p.lexemes t t') :
    p.Same (Scan.Pairs p) (s.functionArguments ctx f t) (s'.functionArguments ctx' f t') := by
  have herror : p.Same (Scan.Pairs p) (.error (.missingArgumentList (f.text ++ " " ++ t.text)))
      (.error (.missingArgumentList (f.text ++ " " ++ t'.text))) :=
    congrArg ParseError.missingArgumentList
      (Pairing.SameText.append rfl (Pairing.sameText_of_pairs ht))
  cases ht with
  | group hes =>
    refine Both.bind (h.call hf hes) fun m m' hm => ?_
    exact ⟨hs.yard.pushValue hm, .some (.group hes), rfl, rfl, nofun, hs.openCalls,
      hs.openParens⟩
  | @lexeme l l' hl =>
    unfold Scan.functionArguments
    simp only [p.kind_eq_iff hl (k := .leftParen) rfl]
    refine Both.ite (fun _ => Both.bind (h.needRoom hs) fun _ _ _ => ?_) fun _ => herror
    refine ⟨hs.yard.pushCall hf hl, .some (.lexeme hl), hs.awaiting, rfl, nofun, ?_, ?_⟩
    · simp only [hs.openCalls]
    · simp only [hs.openParens]
  | _ => exact herror

theorem lexeme {l l' : Lexeme} (hl : p.lexemes l l') :
    p.Same (Scan.Pairs p) (s.lexeme ctx l) (s'.lexeme ctx' l') := by
  by_cases ho : l.kind.isOperand = true
  · have ho' : l'.kind.isOperand = true := by
      rcases p.kind hl with heq | ⟨-, ho'⟩
      · rw [heq]
        exact ho
      · exact ho'
    rw [Scan.lexeme_of_isOperand ho, Scan.lexeme_of_isOperand ho']
    exact h.operand hs (.lexeme hl) ho
  · have hk : l'.kind = l.kind := by
      rcases p.kind hl with heq | ⟨ho', -⟩
      · exact heq
      · exact absurd ho' ho
    have hoperator := hs.operator hl hk
    unfold Scan.lexeme
    rw [hk]
    cases hkind : l.kind with
    | number | constantName | variableName => exact absurd (by rw [hkind]; rfl) ho
    | functionName =>
      obtain rfl := p.functionName hl hkind
      exact h.functionName hs hl
    | leftParen => exact h.leftParen hs hl
    | rightParen => exact hs.rightParen hl
    | separator => exact hs.separator hl
    | _ => exact hoperator

theorem step {t t' : Token} (ht : Token.Pairs p.lexemes t t') :
    p.Same (Scan.Pairs p) (s.step ctx t) (s'.step ctx' t') := by
  unfold Scan.step
  rw [hs.called]
  cases hc : s.called with
  | some f => exact h.functionArguments hs (hs.name f hc) ht
  | none =>
    cases ht with
    | lexeme hl => exact h.lexeme hs hl
    | fraction ha hb => exact h.operand hs (.fraction ha hb) rfl
    | superscript ha hb => exact h.operand hs (.superscript ha hb) rfl
    | radical ha hb => exact h.operand hs (.radical ha hb) rfl
    | group hes => exact h.operand hs (.group hes) rfl
    | application hname hes => exact h.operand hs (.application hname hes) rfl

end Context.Pairs

/-! ## 4. Reductions -/

/-- Stacks of values, of which the second stands for the first. -/
def Pairing.Measures (p : Pairing env env') (ms ms' : List Measured) : Prop :=
  ms' = ms.map (Measured.map p.expr)

theorem Pairing.apply (maxHeight : Nat) {values values' : List Measured} {item item' : Item}
    (hvalues : p.Measures values values') (hitem : Item.Pairs p item item') :
    p.Same p.Measures (item.apply env maxHeight values) (item'.apply env' maxHeight values') := by
  obtain rfl := hvalues
  have hnode : ∀ {heights below a b}, b = p.expr a →
      p.Same p.Measures (grow maxHeight heights >>= fun height => .ok (⟨a, height⟩ :: below))
        (grow maxHeight heights >>= fun height =>
          .ok (⟨b, height⟩ :: below.map (Measured.map p.expr))) := by
    rintro heights below a _ rfl
    exact .grow fun _ => rfl
  cases hitem with
  | value m => rfl
  | @operator op l l' hl =>
    have herror : p.Same p.Measures (.error (.malformedExpression (.missingOperand l.text)))
        (.error (.malformedExpression (.missingOperand l'.text))) :=
      congrArg (ParseError.malformedExpression ∘ .missingOperand) (p.lexeme_text hl)
    cases op with
    | sign s =>
      match values with
      | [] => exact herror
      | m :: below => exact hnode (p.join (.sign s) m.expr m.expr).symm
    | equals | arithmetic _ | power =>
      match values with
      | [] => exact herror
      | [_] => exact herror
      | b :: a :: below => exact hnode (p.join _ a.expr b.expr).symm
  | @call f count hf =>
    rw [Item.apply, Item.apply, List.length_map]
    refine Both.ite (fun _ => rfl) fun _ => ?_
    have harguments : ((values.map (Measured.map p.expr)).take count).reverse =
        (values.take count).reverse.map (Measured.map p.expr) := by
      rw [← List.map_take, List.map_reverse]
    simp only [harguments, Measured.heights_map, Measured.exprs_map, ← List.map_drop]
    refine Same.grow fun height => Both.bind_map (p.call _ hf) fun n => ?_
    rfl

theorem Pairing.onlyValue {values values' : List Measured} (h : p.Measures values values') :
    p.Same p.Measure (onlyValue values) (onlyValue values') := by
  obtain rfl := h
  match values with
  | [] => exact Same.error rfl
  | [v] => rfl
  | v :: extra :: _ =>
    exact Same.error (congrArg ParseError.malformedExpression
      (congrArg₂ Malformation.missingOperatorBetween (p.toInfix extra.expr) (p.toInfix v.expr)))

theorem Pairing.reduce (maxHeight : Nat) {queue queue' : List Item}
    (h : List.Forall₂ (Item.Pairs p) queue queue') :
    p.Same p.Measure (reduce env maxHeight queue) (reduce env' maxHeight queue') := by
  have hvalues : p.Same p.Measures (queue.foldlM (Item.apply env maxHeight) [])
      (queue'.foldlM (Item.apply env' maxHeight) []) :=
    Both.foldlM h rfl fun _ _ _ _ hvalues hitem => p.apply maxHeight hvalues hitem
  exact Both.bind hvalues fun _ _ => p.onlyValue

/-! ## 5. Parses -/

/-- One scan, with the parts as a hypothesis. -/
theorem Context.Pairs.run {ctx ctx' : Context} (h : Context.Pairs p ctx ctx') {ts ts' : List Token}
    (hts : List.Forall₂ (Token.Pairs p.lexemes) ts ts') :
    p.Same p.Measure (Scan.run ctx ts) (Scan.run ctx' ts') := by
  have hscan : p.Same (Scan.Pairs p) (ts.foldlM (Scan.step ctx) .start)
      (ts'.foldlM (Scan.step ctx') .start) :=
    Both.foldlM hts .start fun _ _ _ _ hs ht => h.step hs ht
  unfold Scan.run
  rw [h.environment, h.environment', h.limits]
  exact Both.bind hscan fun _ _ hs => Both.bind hs.finish fun _ _ => p.reduce _

theorem Pairing.parseWithin (p : Pairing env env') (limits : Limits) (room : Nat)
    {ts ts' : List Token} (hts : List.Forall₂ (Token.Pairs p.lexemes) ts ts') :
    p.Same p.Measure (parseWithin env limits room ts) (parseWithin env' limits room ts') := by
  induction room generalizing ts ts' with
  | zero =>
    rw [parseWithin_eq_run, parseWithin_eq_run]
    have hpairs : Context.Pairs p (.within env limits 0) (.within env' limits 0) :=
      ⟨rfl, rfl, rfl, rfl, fun _ _ _ => Same.error rfl⟩
    exact hpairs.run hts
  | succ room ih =>
    rw [parseWithin_eq_run, parseWithin_eq_run]
    have hpairs : Context.Pairs p (.within env limits (room + 1))
        (.within env' limits (room + 1)) := ⟨rfl, rfl, rfl, rfl, fun _ _ => ih⟩
    exact hpairs.run hts

/-- Lists that stand for each other are both refused, with errors that are the
same but for texts, or have formulas that stand for each other. -/
theorem Pairing.parse (p : Pairing env env') (limits : Limits) {ts ts' : List Token}
    (hts : List.Forall₂ (Token.Pairs p.lexemes) ts ts') :
    p.Same (fun n n' => n' = p.expr n) (parse env limits ts) (parse env' limits ts') := by
  have h := p.parseWithin limits limits.maxDepth hts
  unfold Formula.parse
  generalize Formula.parseWithin env limits limits.maxDepth ts = r at h
  generalize Formula.parseWithin env' limits limits.maxDepth ts' = r' at h
  match r, r', h with
  | .ok m, .ok m', h => exact congrArg Measured.expr h
  | .error e, .error e', h => exact h

end Formula
