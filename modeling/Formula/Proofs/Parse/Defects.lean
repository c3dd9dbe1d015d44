/-
Formula.Proofs.Parse.Defects — errors that no input leads to.

Some errors would show a defect of the parse and not of its input: faults of
the scan, and an output queue in which values are missing or left over. The
checks for them are made, but none of them ever fails
(`reduction_never_lacks_values`): what a scan lets through supplies the
reduction, at any depth of markup and within any limits.
-/
import Formula.Proofs.Parse.Refusals

namespace Formula

/-- Whether a cause is one that only the reduction of a queue reports. -/
def Malformation.isDefect : Malformation → Bool
  | .missingOperand _ | .missingArguments _ | .missingOperatorBetween _ _ => true
  | _ => false

/-- Whether an error would be the fault of the parse. -/
def ParseError.isDefect : ParseError → Bool
  | .internal _ => true
  | .malformedExpression cause => cause.isDefect
  | _ => false

variable {env : Environment} {limits : Limits} {ctx : Context} {s : Scan} {t : Token}
  {e : ParseError}

/-! ## 1. Errors of single steps -/

theorem CallError.isDefect_eq {name : String} {count : Nat} (h : CallError env name count e) :
    e.isDefect = false := by
  cases h with
  | arity _ _ => rfl
  | undefined _ => rfl

theorem ReductionError.isDefect_eq {maxHeight : Nat} (h : ReductionError env maxHeight e) :
    e.isDefect = false := by
  cases h with
  | tooHigh => rfl
  | call _ h => exact h.isDefect_eq

theorem UnfitCall.isDefect_eq {f : Lexeme} {delimiters : Delimiters}
    {elements : List (List Token)} (h : UnfitCall env f delimiters elements e) :
    e.isDefect = false := by
  cases h with
  | undeclared _ => rfl
  | delimiters _ => rfl
  | call _ h => exact h.isDefect_eq

/-- A token that is no operand has no value, but no scan asks for one. -/
theorem Token.Unfit.isDefect_eq (ht : t.isOperand = true) (h : t.Unfit env e) :
    e.isDefect = false := by
  cases h with
  | noOperand hk => exact absurd ht (by simp [isOperand, hk])
  | call _ h => exact h.isDefect_eq
  | _ => rfl

theorem Scan.Refuses.isDefect_eq (hs : Supplied ctx.environment s)
    (hvalue : ∀ t e, t.isOperand = true → ctx.value t = .error e → e.isDefect = false)
    (hcall : ∀ f delimiters elements e, ctx.call f delimiters elements = .error e →
      e.isDefect = false)
    (h : Refuses ctx s t e) : e.isDefect = false := by
  cases h with
  | operand _ ht _ hv => exact hvalue _ _ ht hv
  | groupCall _ hv => exact hcall _ _ _ _ hv
  | bareCall _ _ _ hpop =>
    obtain ⟨k, hwaits, -⟩ := hs.values
    exact absurd hpop (hwaits.ne_call _ _ _)
  | _ => rfl

/-! ## 2. The end of a list -/

/-- At the end of a list that awaits nothing, either a parenthesis is open or
the queue supplies one value. -/
theorem Supplied.drain_ends (hs : Supplied env s) (ha : s.awaiting = false) :
    Ends (Supplies env · 1) (fun e => ∃ paren, e = .mismatchedParentheses paren) s.yard.drain := by
  obtain ⟨k, hwaits, hsupplies⟩ := hs.popped (fun _ => true) ha
  have hno := popOperators_all_ne_operator s.yard.stack
  unfold Yard.drain
  simp only
  split
  · exact ⟨_, rfl⟩
  · exact ⟨_, rfl⟩
  · rename_i hparen hcall
    cases hpop : (popOperators (fun _ => true) s.yard.stack).2 with
    | nil =>
      rw [hpop] at hwaits
      cases hwaits
      exact hsupplies
    | cons entry rest =>
      cases entry with
      | operator op l => exact absurd hpop (hno rest op l)
      | paren p => exact absurd hpop (hparen p rest)
      | call f count => exact absurd hpop (hcall f count rest)

/-- Why a list may not end where it does. -/
inductive Scan.Unfinished : ParseError → Prop
  | noArguments (name : String) : Unfinished (.missingArgumentList name)
  | empty : Unfinished (.malformedExpression .emptyExpression)
  | noOperand (last : String) : Unfinished (.malformedExpression (.missingOperandAfter last))
  | openParen (paren : String) : Unfinished (.mismatchedParentheses paren)

theorem Supplied.finish_ends (hs : Supplied env s) :
    Ends (Supplies env · 1) Scan.Unfinished s.finish := by
  unfold Scan.finish
  split
  · exact .noArguments _
  · split
    · cases s.previous with
      | none => exact .empty
      | some last => exact .noOperand last.text
    · rename_i ha
      refine (hs.drain_ends (by simpa using ha)).mono (fun _ h => h) ?_
      rintro e ⟨paren, rfl⟩
      exact .openParen paren

theorem Scan.Unfinished.isDefect_eq (h : Unfinished e) : e.isDefect = false := by
  cases h <;> rfl

/-! ## 3. Lists -/

theorem Supplied.foldlM {tokens : List Token}
    (h : tokens.foldlM (Scan.step ctx) .start = .ok s) : Supplied ctx.environment s :=
  foldlM_preserves (fun _ _ _ _ hs hstep => hs.moves rfl (Scan.step_eq_ok_iff.mp hstep)) .start h

/-- One scan, with the parts as a hypothesis. -/
theorem Scan.run_not_defect
    (hnested : ∀ us, Ends (Measured.Fits (Token.sizes us)) (·.isDefect = false) (ctx.nested us))
    (tokens : List Token) : Ends (fun _ => True) (·.isDefect = false) (run ctx tokens) := by
  have hvalue : ∀ t e, t.isOperand = true → ctx.value t = .error e → e.isDefect = false :=
    fun t e ht => (Ends.iff_forall.mp (Context.value_ends (fun us _ => hnested us)
      (fun e he => he.isDefect_eq ht) fun _ => rfl)).2 e
  have hcall : ∀ f delimiters elements e, ctx.call f delimiters elements = .error e →
      e.isDefect = false :=
    fun f delimiters elements e => (Ends.iff_forall.mp (Context.call_ends
      (fun us _ => hnested us) (fun e he => he.isDefect_eq) fun _ => rfl)).2 e
  have hstep : ∀ s t (_ : List Token), Supplied ctx.environment s →
      Ends (Supplied ctx.environment) (·.isDefect = false) (step ctx s t) := fun s t _ hs =>
    Ends.iff_forall.mpr ⟨fun s' h => hs.moves rfl (step_eq_ok_iff.mp h),
      fun e h => (refuses_of_step h).isDefect_eq hs hvalue hcall⟩
  refine (Ends.foldlM (P := fun _ s => Supplied ctx.environment s) hstep .start).bind fun s hs => ?_
  have hfinish := hs.finish_ends.mono (fun _ h => h) fun _ h => h.isDefect_eq
  exact hfinish.bind fun queue hq => (reduce_ends hq).mono (fun _ h => h) fun _ h => h.isDefect_eq

theorem parseWithin_not_defect (room : Nat) (tokens : List Token) :
    Ends (Measured.Fits (Token.sizes tokens)) (·.isDefect = false)
      (parseWithin env limits room tokens) := by
  refine parseWithin_ends ?_
  induction room generalizing tokens with
  | zero =>
    rw [parseWithin_eq_run]
    refine Scan.run_not_defect (fun us => ?_) tokens
    exact (rfl : (ParseError.nestingTooDeep limits.maxDepth).isDefect = false)
  | succ room ih =>
    rw [parseWithin_eq_run]
    exact Scan.run_not_defect (fun us => parseWithin_ends (ih us)) tokens

/-- No parse has an error that would be its own fault. Where the scan of a
list, at whatever depth, ends with all operands and arguments read, its
queue is drained and reduced, unless a parenthesis is open, a node is too
high, or a call does not fit its function or has none; no operand is ever
missing there, and none is left over. -/
theorem reduction_never_lacks_values (env : Environment) (limits : Limits) :
    (∀ tokens fault, parse env limits tokens ≠ .error (.internal fault)) ∧
    (∀ tokens e, parse env limits tokens = .error e → e.isDefect = false) ∧
    (∀ (room : Nat) (tokens : List Token) (s : Scan),
      tokens.foldlM (Scan.step (.within env limits room)) .start = .ok s →
        s.called = none → s.awaiting = false →
        (∀ e, (s.yard.drain >>= reduce env limits.maxHeight) = .error e →
          (∃ paren, e = .mismatchedParentheses paren) ∨
          e = .nestingTooDeep limits.maxHeight ∨
          (∃ name arity count, e = .arityMismatch name arity count) ∨
          ∃ name, e = .unrecognizedFunction name ∧ env.isFunction name = true ∧
            (env.arity? name = none ∨ env.body? name = none)) ∧
        ∀ queue cause, s.yard.drain = .ok queue →
          reduce env limits.maxHeight queue ≠ .error (.malformedExpression cause)) := by
  have hdefect : ∀ tokens e, parse env limits tokens = .error e → e.isDefect = false := by
    intro tokens e h
    have hends : Ends (Measured.Fits (Token.sizes tokens)) (·.isDefect = false)
        (parseWithin env limits limits.maxDepth tokens) := parseWithin_not_defect _ tokens
    unfold parse at h
    cases hm : parseWithin env limits limits.maxDepth tokens with
    | error e' =>
      rw [hm] at h hends
      exact Except.error.inj h ▸ hends
    | ok m => rw [hm] at h; cases h
  refine ⟨fun tokens fault h => Bool.noConfusion (hdefect tokens _ h), hdefect, ?_⟩
  intro room tokens s hs hc ha
  have hsupplied := Supplied.foldlM hs
  rw [Context.within_environment] at hsupplied
  obtain ⟨hdrain, hmismatch⟩ := Ends.iff_forall.mp (hsupplied.drain_ends ha)
  have hreduce : ∀ queue e, s.yard.drain = .ok queue →
      reduce env limits.maxHeight queue = .error e → ReductionError env limits.maxHeight e :=
    fun queue e hqueue => (Ends.iff_forall.mp (reduce_ends (hdrain queue hqueue))).2 e
  constructor
  · intro e he
    rcases bind_eq_error_iff.mp he with he | ⟨queue, hqueue, he⟩
    · exact .inl (hmismatch e he)
    · cases hreduce queue e hqueue he with
      | tooHigh => exact .inr (.inl rfl)
      | @call name count _ hf h =>
        cases h with
        | arity _ _ => exact .inr (.inr (.inl ⟨_, _, _, rfl⟩))
        | undefined h => exact .inr (.inr (.inr ⟨name, rfl, hf, h⟩))
  · intro queue cause hqueue he
    cases hreduce queue _ hqueue he with
    | call _ h => cases h

/-- An environment in which a function of one argument is declared and not
given. -/
def Environment.onlyDeclares (name : String) : Environment where
  isFunction f := f == name
  arity? _ := some 1
  body? _ := none
  isConstant _ := false
  constant? _ := none

/-- A call of such a function has all that the scan asks for, and is refused
for its name. -/
theorem reduction_undefined_function :
    ∃ s, [.lexeme (.functionName "g"), .lexeme (.punctuation .leftParen),
        .lexeme (.variableName "x"), .lexeme (.punctuation .rightParen)].foldlM
          (Scan.step (.within (.onlyDeclares "g") .standard 256)) .start = .ok s ∧
      s.called = none ∧ s.awaiting = false ∧
      (s.yard.drain >>= reduce (.onlyDeclares "g") 1024) = .error (.unrecognizedFunction "g") ∧
      (Environment.onlyDeclares "g").isFunction "g" = true ∧
      ((Environment.onlyDeclares "g").arity? "g" = none ∨
        (Environment.onlyDeclares "g").body? "g" = none) := by
  refine ⟨_, rfl, rfl, rfl, rfl, ?_⟩
  have h := (reduction_never_lacks_values (.onlyDeclares "g") .standard).2.2 256
    [.lexeme (.functionName "g"), .lexeme (.punctuation .leftParen),
      .lexeme (.variableName "x"), .lexeme (.punctuation .rightParen)] _ rfl rfl rfl
  rcases h.1 (.unrecognizedFunction "g") rfl with ⟨_, h⟩ | h | ⟨_, _, _, h⟩ | ⟨_, h, hf, hundef⟩
  · cases h
  · cases h
  · cases h
  · cases h
    exact ⟨hf, hundef⟩

end Formula
