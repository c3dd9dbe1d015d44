/-
Formula.Proofs.Scan.Refusals — why a scan refuses a token.

`Moves` lists the successful steps of a scan, and `Refuses` lists the
others: one constructor for each reason, with the error that it is reported
by. Together they say all that a step can do, so statements about the errors
of a scan are shown by cases as well.
-/
import Formula.Proofs.Scan.Moves
import Formula.Proofs.Outcome

namespace Formula

/-- Whether a token has to stand where an operand may start. -/
def Token.startsOperand : Token → Bool
  | .lexeme l => l.kind.isOperand || l.kind == .functionName || l.kind == .leftParen
  | _ => true

namespace Scan

/-- The failing steps of a scan. -/
inductive Refuses (ctx : Context) (s : Scan) : Token → ParseError → Prop
  | noOperator {t} (hc : s.called = none) (ht : t.startsOperand = true)
      (ha : s.awaiting = false) :
      Refuses ctx s t (.malformedExpression (.missingOperatorBefore t.text))
  | operand {t e} (hc : s.called = none) (ht : t.isOperand = true) (ha : s.awaiting = true)
      (hv : ctx.value t = .error e) : Refuses ctx s t e
  | functionName {f} (hc : s.called = none) (hk : f.kind = .functionName)
      (ha : s.awaiting = true) (hf : ctx.environment.isFunction f.text = false) :
      Refuses ctx s (.lexeme f) (.unrecognizedFunction f.text)
  | groupCall {f delimiters elements e} (hc : s.called = some f)
      (hv : ctx.call f delimiters elements = .error e) :
      Refuses ctx s (.group delimiters elements) e
  | noArguments {f t} (hc : s.called = some f)
      (hg : ∀ delimiters elements, t ≠ .group delimiters elements)
      (hk : t.kind? ≠ some .leftParen) :
      Refuses ctx s t (.missingArgumentList (f.text ++ " " ++ t.text))
  | noRoom {l} (hk : l.kind = .leftParen) (ha : s.called = none → s.awaiting = true)
      (hroom : ctx.room < s.openParens + 1) :
      Refuses ctx s (.lexeme l) (.nestingTooDeep ctx.limits.maxDepth)
  | noOperandBefore {l} (hc : s.called = none) (hk : l.kind = .rightParen)
      (ha : s.awaiting = true) (hopened : s.justOpened = false) :
      Refuses ctx s (.lexeme l) (.malformedExpression (.missingOperandBefore l.text))
  | emptyParens {l p below} (hc : s.called = none) (hk : l.kind = .rightParen)
      (hopened : s.justOpened = true)
      (hpop : (popOperators (fun _ => true) s.yard.stack).2 = .paren p :: below)
      (hbelow : ∀ f count rest, below ≠ .call f count :: rest) :
      Refuses ctx s (.lexeme l) (.malformedExpression (.emptyParenthesesBefore l.text))
  | neverOpened {l} (hc : s.called = none) (hk : l.kind = .rightParen)
      (ha : s.awaiting = true → s.justOpened = true)
      (hpop : (popOperators (fun _ => true) s.yard.stack).2 = []) :
      Refuses ctx s (.lexeme l) (.mismatchedParentheses l.text)
  | bareCall {l f count below} (hc : s.called = none) (hk : l.kind = .rightParen)
      (ha : s.awaiting = true → s.justOpened = true)
      (hpop : (popOperators (fun _ => true) s.yard.stack).2 = .call f count :: below) :
      Refuses ctx s (.lexeme l) (.internal (.callWithoutParenthesis f.text))
  | noOpenCall {l} (hc : s.called = none) (hk : l.kind = .separator) (ho : s.openCalls = 0) :
      Refuses ctx s (.lexeme l) (.unexpectedSeparator l.text)
  | noArgumentBefore {l} (hc : s.called = none) (hk : l.kind = .separator)
      (ho : s.openCalls ≠ 0) (ha : s.awaiting = true) :
      Refuses ctx s (.lexeme l) (.malformedExpression (.emptyArgumentBefore l.text))
  | notInCall {l} (hc : s.called = none) (hk : l.kind = .separator) (ho : s.openCalls ≠ 0)
      (ha : s.awaiting = false)
      (hpop : ∀ p f count below,
        (popOperators (fun _ => true) s.yard.stack).2 ≠ .paren p :: .call f count :: below) :
      Refuses ctx s (.lexeme l) (.unexpectedSeparator l.text)
  | noLeftOperand {l} {op : Operator} (hc : s.called = none) (hk : l.kind = op.kind)
      (hop : op.left?.isSome = true) (hplus : l.kind ≠ .plus) (hminus : l.kind ≠ .minus)
      (ha : s.awaiting = true) :
      Refuses ctx s (.lexeme l) (.malformedExpression (.missingLeftOperand l.text))

variable {ctx : Context} {s : Scan} {e : ParseError}

/-! ## 1. The checks that several steps make -/

theorem needOperand_eq_error {t : Token} (h : s.needOperand t = .error e) :
    s.awaiting = false ∧ e = .malformedExpression (.missingOperatorBefore t.text) := by
  unfold needOperand at h
  split at h
  · cases h
  · rename_i ha
    cases h
    exact ⟨by simpa using ha, rfl⟩

theorem needRoom_eq_error (h : s.needRoom ctx = .error e) :
    ctx.room < s.openParens + 1 ∧ e = .nestingTooDeep ctx.limits.maxDepth := by
  unfold needRoom at h
  split at h
  · rename_i hroom
    cases h
    exact ⟨hroom, rfl⟩
  · cases h

/-! ## 2. Each handler by itself -/

theorem refuses_of_value {t : Token} (hc : s.called = none) (ht : t.isOperand = true)
    (h : (do
      s.needOperand t
      let v ← ctx.value t
      .ok (s.pushValue v t)) = Except.error e) : Refuses ctx s t e := by
  have hstart : t.startsOperand = true := by
    cases t with
    | lexeme l =>
      have ht : l.kind.isOperand = true := ht
      simp [Token.startsOperand, ht]
    | _ => rfl
  rcases bind_eq_error_iff.mp h with h | ⟨_, ha, h⟩
  · obtain ⟨ha, rfl⟩ := needOperand_eq_error h
    exact .noOperator hc hstart ha
  · rcases bind_eq_error_iff.mp h with h | ⟨_, _, h⟩
    · exact .operand hc ht (needOperand_eq_ok_iff.mp ha) h
    · cases h

theorem refuses_of_functionName {f : Lexeme} (hc : s.called = none)
    (hk : f.kind = .functionName) (h : s.functionName ctx f = .error e) :
    Refuses ctx s (.lexeme f) e := by
  rcases bind_eq_error_iff.mp h with h | ⟨_, ha, h⟩
  · obtain ⟨ha, rfl⟩ := needOperand_eq_error h
    exact .noOperator hc (by simp [Token.startsOperand, hk]) ha
  · split at h
    · cases h
    · rename_i hf
      cases h
      exact .functionName hc hk (needOperand_eq_ok_iff.mp ha) (by simpa using hf)

theorem refuses_of_functionArguments {f : Lexeme} {t : Token} (hc : s.called = some f)
    (h : s.functionArguments ctx f t = .error e) : Refuses ctx s t e := by
  unfold functionArguments at h
  split at h
  · rcases bind_eq_error_iff.mp h with h | ⟨_, _, h⟩
    · exact .groupCall hc h
    · cases h
  · split at h
    · rename_i hk
      rcases bind_eq_error_iff.mp h with h | ⟨_, _, h⟩
      · obtain ⟨hroom, rfl⟩ := needRoom_eq_error h
        exact .noRoom hk (fun hnone => by rw [hc] at hnone; cases hnone) hroom
      · cases h
    · rename_i hk
      cases h
      exact .noArguments hc (by simp) (by simpa [Token.kind?] using hk)
  · rename_i hgroup hlexeme
    cases h
    refine .noArguments hc (fun d elements ht => hgroup d elements ht) ?_
    cases t with
    | lexeme l => exact absurd rfl (hlexeme l)
    | _ => simp [Token.kind?]

theorem refuses_of_leftParen {l : Lexeme} (hc : s.called = none) (hk : l.kind = .leftParen)
    (h : s.leftParen ctx l = .error e) : Refuses ctx s (.lexeme l) e := by
  rcases bind_eq_error_iff.mp h with h | ⟨_, ha, h⟩
  · obtain ⟨ha, rfl⟩ := needOperand_eq_error h
    exact .noOperator hc (by simp [Token.startsOperand, hk]) ha
  · rcases bind_eq_error_iff.mp h with h | ⟨_, _, h⟩
    · obtain ⟨hroom, rfl⟩ := needRoom_eq_error h
      exact .noRoom hk (fun _ => needOperand_eq_ok_iff.mp ha) hroom
    · cases h

theorem refuses_of_rightParen {l : Lexeme} (hc : s.called = none) (hk : l.kind = .rightParen)
    (h : s.rightParen l = .error e) : Refuses ctx s (.lexeme l) e := by
  unfold rightParen at h
  simp only at h
  split at h
  · rename_i hwait
    cases h
    simp only [Bool.and_eq_true, Bool.not_eq_true'] at hwait
    exact .noOperandBefore hc hk hwait.1 hwait.2
  · rename_i hwait
    have ha : s.awaiting = true → s.justOpened = true := by
      intro hawait
      simpa [hawait, justOpened] using hwait
    rcases bind_eq_error_iff.mp h with h | ⟨_, _, h⟩
    · have hno := popOperators_all_ne_operator s.yard.stack
      unfold Yard.closeParen at h
      simp only at h
      split at h
      · cases h
      · rename_i p below hbelow hpop
        split at h
        · rename_i hopened
          cases h
          exact .emptyParens hc hk hopened hpop fun f count rest hb => hbelow f count rest hb
        · cases h
      · rename_i f count below hpop
        cases h
        exact .bareCall hc hk ha hpop
      · rename_i hparen hcall
        cases h
        refine .neverOpened hc hk ha ?_
        cases hpop : (popOperators (fun _ => true) s.yard.stack).2 with
        | nil => rfl
        | cons entry rest =>
          cases entry with
          | operator op l => exact absurd hpop (hno rest op l)
          | paren p => exact absurd hpop (hparen p rest)
          | call f count => exact absurd hpop (hcall f count rest)
    · cases h

theorem refuses_of_separator {l : Lexeme} (hc : s.called = none) (hk : l.kind = .separator)
    (h : s.separator l = .error e) : Refuses ctx s (.lexeme l) e := by
  unfold separator at h
  split at h
  · rename_i ho
    cases h
    exact .noOpenCall hc hk ho
  · rename_i ho
    split at h
    · rename_i ha
      cases h
      exact .noArgumentBefore hc hk ho ha
    · rename_i ha
      rcases bind_eq_error_iff.mp h with h | ⟨_, _, h⟩
      · unfold Yard.separate at h
        simp only at h
        split at h
        · cases h
        · rename_i hpop
          cases h
          exact .notInCall hc hk ho (by simpa using ha) hpop
      · cases h

/-- Only operators reach the handler of operators, so it is never asked to
push something else. -/
theorem refuses_of_operator {l : Lexeme} (op : Operator) (hc : s.called = none)
    (hk : l.kind = op.kind) (hop : op.left?.isSome = true) (h : s.operator l = .error e) :
    Refuses ctx s (.lexeme l) e := by
  unfold operator at h
  split at h
  · rename_i hwait
    cases h
    simp only [Bool.and_eq_true, bne_iff_ne, ne_eq] at hwait
    exact .noLeftOperand hc hk hop hwait.1.2 hwait.2 hwait.1.1
  · rename_i hwait
    split at h
    · rename_i hnone
      cases ha : s.awaiting with
      | false =>
        have hsome := Operator.ofKind?_false_iff.mpr ⟨hop, hk⟩
        rw [ha, hsome] at hnone
        cases hnone
      | true =>
        have hsign : l.kind = .plus ∨ l.kind = .minus := by
          by_cases hplus : l.kind = .plus
          · exact .inl hplus
          · exact .inr (by simpa [ha, hplus] using hwait)
        rw [ha] at hnone
        rcases hsign with hsign | hsign
        · simp [hsign, Operator.ofKind?] at hnone
        · simp [hsign, Operator.ofKind?] at hnone
    · cases h

/-! ## 3. One token, and the end of a list -/

theorem refuses_of_lexeme {l : Lexeme} (hc : s.called = none)
    (h : s.lexeme ctx l = .error e) : Refuses ctx s (.lexeme l) e := by
  unfold lexeme at h
  split at h
  case h_1 hk => exact refuses_of_value hc (by simp [Token.isOperand, LexemeKind.isOperand, hk]) h
  case h_2 hk => exact refuses_of_value hc (by simp [Token.isOperand, LexemeKind.isOperand, hk]) h
  case h_3 hk => exact refuses_of_value hc (by simp [Token.isOperand, LexemeKind.isOperand, hk]) h
  case h_4 hk => exact refuses_of_functionName hc hk h
  case h_5 hk => exact refuses_of_leftParen hc hk h
  case h_6 hk => exact refuses_of_rightParen hc hk h
  case h_7 hk => exact refuses_of_separator hc hk h
  case h_8 hk => exact refuses_of_operator (.arithmetic .add) hc hk rfl h
  case h_9 hk => exact refuses_of_operator (.arithmetic .subtract) hc hk rfl h
  case h_10 hk => exact refuses_of_operator (.arithmetic .multiply) hc hk rfl h
  case h_11 hk => exact refuses_of_operator (.arithmetic .divide) hc hk rfl h
  case h_12 hk => exact refuses_of_operator .power hc hk rfl h
  case h_13 hk => exact refuses_of_operator .equals hc hk rfl h

/-- Every failing step has one of the reasons. -/
theorem refuses_of_step {t : Token} (h : step ctx s t = .error e) : Refuses ctx s t e := by
  unfold step at h
  split at h
  · rename_i f hc
    exact refuses_of_functionArguments hc h
  · rename_i hc
    split at h
    · exact refuses_of_lexeme hc h
    · rename_i hno
      refine refuses_of_value hc ?_ h
      cases t with
      | lexeme l => exact absurd rfl (hno l)
      | _ => rfl

end Scan

end Formula
