/-
Formula.Proofs.Parse.PlainText — errors that a plain text can lead to.

What a number is, and which names are functions or constants, is decided twice:
when a text is cut into lexemes, and again when these are parsed. Both times
the same is decided (`Environment.accepts_of_mem`), if the environment can tell
what it declares (`Environment.Coherent`), so a parse finds no fault with a
lexeme by itself. A text has no groups either. What is left are errors of the
order of the lexemes, of the number of arguments and of the limits
(`parseText_errors`).

A list of tokens may have the other errors: its lexemes are not read from a
text, so they can have any kind with any spelling.
-/
import Formula.Proofs.Lexeme.Numbers
import Formula.Proofs.Parse.Defects

namespace Formula

/-! ## 1. Environments that can tell what they declare -/

/-- Of each function there is an arity and a body, and of each constant there is
a value. -/
structure Environment.Coherent (env : Environment) : Prop where
  function : ∀ {name}, env.isFunction name = true →
    ∃ arity body, env.arity? name = some arity ∧ env.body? name = some body
  constant : ∀ {name}, env.isConstant name = true → ∃ value, env.constant? name = some value

theorem Declarations.coherent (d : Declarations) : d.toEnvironment.Coherent where
  function {name} h := by
    obtain ⟨f, hf⟩ := Option.isSome_iff_exists.mp h
    exact ⟨f.arity, f.body, by simp [toEnvironment, hf], by simp [toEnvironment, hf]⟩
  constant h := Option.isSome_iff_exists.mp h

/-! ## 2. Lexemes of a text -/

/-- What a parse asks of a lexeme by itself. -/
def Environment.Accepts (env : Environment) (l : Lexeme) : Prop :=
  match l.kind with
  | .number => Number.IsNumeral l.text.toList
  | .constantName => ∃ value, env.constant? l.text = some value
  | .functionName => env.isFunction l.text = true
  | _ => True

variable {env : Environment} {ctx : Context} {s : Scan} {l : Lexeme} {e : ParseError}

/-- Nothing is asked of signs of punctuation. -/
theorem Environment.accepts_of_isWord (h : l.kind.isWord = false) : env.Accepts l := by
  unfold Accepts
  cases hk : l.kind with
  | number | constantName | functionName =>
    rw [hk] at h
    cases h
  | _ => trivial

/-- What the environment says of a name, it says again when the name is
parsed. -/
theorem Environment.accepts_classify (henv : env.Coherent) (name : String) :
    env.Accepts ⟨env.classify name, name⟩ := by
  unfold Accepts classify
  by_cases hfun : env.isFunction name = true
  · simp only [if_pos hfun]
    exact hfun
  · by_cases hconst : env.isConstant name = true
    · simp only [if_neg hfun, if_pos hconst]
      exact henv.constant hconst
    · simp only [if_neg hfun, if_neg hconst]

/-- What a text is cut into, a parse accepts. -/
theorem Environment.accepts_of_mem (henv : env.Coherent) {cs : List Char}
    (hl : l ∈ (Reader.standard env).lexemes cs) : env.Accepts l := by
  obtain ⟨ds, rest, -, hcuts⟩ := Reader.exists_cuts_of_mem hl
  cases hcuts with
  | symbol h => exact accepts_of_isWord (SymbolMap.isWord_of_standard h)
  | numeral _ h =>
    have hnumeral := Number.isNumeral_of_splitNumeral h
    simpa [Accepts, Lexeme.number] using hnumeral
  | name _ _ => exact accepts_classify henv _
  | character _ _ _ => trivial

/-- An operand that is accepted has a value. -/
theorem Context.exists_value (h : ctx.environment.Accepts l) (hk : l.kind.isOperand = true) :
    ∃ v, ctx.value (.lexeme l) = .ok v := by
  have hleaf : ∃ n, ctx.leaf l = .ok n := by
    obtain ⟨kind, text⟩ := l
    cases kind with
    | number => exact ⟨_, leaf_of_isNumeral h⟩
    | variableName => exact ⟨_, rfl⟩
    | constantName =>
      obtain ⟨value, hvalue⟩ := h
      exact ⟨.constant text value, by simp [leaf, hvalue]⟩
    | _ => cases hk
  obtain ⟨n, hn⟩ := hleaf
  exact ⟨⟨n, 1⟩, by simp [value, hn, bind, Except.bind]⟩

/-! ## 3. Errors -/

/-- Whether an error is one that a plain text can lead to. -/
def ParseError.ofText : ParseError → Bool
  | .malformedExpression _ | .mismatchedParentheses _ | .unexpectedSeparator _
  | .missingArgumentList _ | .arityMismatch _ _ _ | .nestingTooDeep _ => true
  | _ => false

theorem Scan.Refuses.ofText (hs : Supplied ctx.environment s) (hl : ctx.environment.Accepts l)
    (h : Refuses ctx s (.lexeme l) e) : e.ofText = true := by
  cases h with
  | operand _ hk _ hv =>
    obtain ⟨v, hvalue⟩ := Context.exists_value hl hk
    rw [hvalue] at hv
    cases hv
  | functionName _ hk _ hf =>
    unfold Environment.Accepts at hl
    rw [hk] at hl
    rw [hl] at hf
    cases hf
  | bareCall _ _ _ hpop =>
    obtain ⟨k, hwaits, -⟩ := hs.values
    exact absurd hpop (hwaits.ne_call _ _ _)
  | _ => rfl

theorem Scan.Unfinished.ofText (h : Unfinished e) : e.ofText = true := by
  cases h <;> rfl

/-- A coherent environment only refuses a call for the number of its
arguments. -/
theorem ReductionError.ofText {maxHeight : Nat} (henv : env.Coherent)
    (h : ReductionError env maxHeight e) : e.ofText = true := by
  cases h with
  | tooHigh => rfl
  | call hf h =>
    cases h with
    | arity _ _ => rfl
    | undefined hnone =>
      obtain ⟨arity, body, harity, hbody⟩ := henv.function hf
      rcases hnone with hnone | hnone
      · rw [hnone] at harity
        cases harity
      · rw [hnone] at hbody
        cases hbody

/-- The scan of a list of accepted lexemes. -/
theorem Scan.run_ofText (henv : ctx.environment.Coherent) {ls : List Lexeme}
    (hls : ∀ l ∈ ls, ctx.environment.Accepts l) :
    Ends (fun _ => True) (·.ofText = true) (run ctx (ls.map .lexeme)) := by
  have hstep : ∀ s t rest, (Supplied ctx.environment s ∧ ∀ u ∈ t :: rest, ∃ l ∈ ls, u = .lexeme l) →
      Ends (fun s' => Supplied ctx.environment s' ∧ ∀ u ∈ rest, ∃ l ∈ ls, u = .lexeme l)
        (·.ofText = true) (step ctx s t) := by
    rintro s t rest ⟨hs, hmem⟩
    obtain ⟨l, hl, rfl⟩ := hmem t List.mem_cons_self
    refine Ends.iff_forall.mpr ⟨fun s' h => ⟨hs.moves rfl (step_eq_ok_iff.mp h), fun u hu => ?_⟩,
      fun e h => (refuses_of_step h).ofText hs (hls l hl)⟩
    exact hmem u (List.mem_cons_of_mem _ hu)
  have hall : ∀ u ∈ ls.map Token.lexeme, ∃ l ∈ ls, u = .lexeme l := by
    intro u hu
    obtain ⟨l, hl, rfl⟩ := List.mem_map.mp hu
    exact ⟨l, hl, rfl⟩
  refine (Ends.foldlM (P := fun rest s => Supplied ctx.environment s ∧
    ∀ u ∈ rest, ∃ l ∈ ls, u = Token.lexeme l) hstep ⟨.start, hall⟩).bind fun s hs => ?_
  have hfinish := hs.1.finish_ends.mono (fun _ h => h) fun _ h => h.ofText
  exact hfinish.bind fun queue hq =>
    (reduce_ends hq).mono (fun _ h => h) fun _ h => h.ofText henv

theorem parse_tokens_errors (henv : env.Coherent) (limits : Limits) (text : String) :
    Ends (fun _ => True) (·.ofText = true)
      (parse env limits ((Reader.standard env).tokens text)) := by
  have hrun : Ends (fun _ => True) (·.ofText = true)
      (parseWithin env limits limits.maxDepth ((Reader.standard env).tokens text)) := by
    rw [parseWithin_eq_run]
    refine Scan.run_ofText ?_ fun l hl => ?_
    · rwa [Context.within_environment]
    · rw [Context.within_environment]
      exact env.accepts_of_mem henv hl
  unfold parse
  cases h : parseWithin env limits limits.maxDepth ((Reader.standard env).tokens text) with
  | error e =>
    rw [h] at hrun
    exact hrun
  | ok m => trivial

/-- With declarations of whatever kind, a plain text is read as a formula, or it
is refused for one of the reasons that a plain text can give: its lexemes do not
fit together, a call has another number of arguments than its function, or a
limit is exceeded. -/
theorem parseText_errors (d : Declarations) (text : String) :
    (∃ n, parseText d.toEnvironment text = .ok n) ∨
      ∃ e, parseText d.toEnvironment text = .error e ∧ e.ofText = true := by
  have hends := Ends.iff_forall.mp (parse_tokens_errors d.coherent .standard text)
  cases h : parseText d.toEnvironment text with
  | ok n => exact .inl ⟨n, rfl⟩
  | error e => exact .inr ⟨e, rfl, hends.2 e h⟩

end Formula
