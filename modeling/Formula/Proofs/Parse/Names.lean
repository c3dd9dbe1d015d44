/-
Formula.Proofs.Parse.Names — the names that a parse asks for.

An environment answers five questions about every name there is. A parse asks
them at several places: when a text is cut into lexemes, when a name is met, when
a group after it is called, and once more when the call is reduced, long after
its name was read. It asks of no name that is not the text of a lexeme. In
particular it does not ask what `abs` or `root` are when it builds the absolute
value between bars or the root of a radical.

So environments that agree at the lexemes of a list lead to the same parse of it
(`parse_congr`). The two parses are followed side by side, as a `Pairing` in which
each lexeme stands for itself.
-/
import Formula.Proofs.Pairing.Scans
import Formula.Proofs.Lexeme.Separation

namespace Formula

/-! ## 1. Environments that agree at a name -/

/-- Two environments answer all questions about a name alike. -/
structure Environment.AgreesAt (env env' : Environment) (name : String) : Prop where
  isFunction : env'.isFunction name = env.isFunction name
  arity? : env'.arity? name = env.arity? name
  body? : env'.body? name = env.body? name
  isConstant : env'.isConstant name = env.isConstant name
  constant? : env'.constant? name = env.constant? name

namespace Environment.AgreesAt

variable {env env' : Environment} {name : String}

theorem classify (h : env.AgreesAt env' name) : env'.classify name = env.classify name := by
  unfold Environment.classify
  rw [h.isFunction, h.isConstant]

theorem call (h : env.AgreesAt env' name) (arguments : List Expr) :
    env'.call name arguments = env.call name arguments := by
  unfold Environment.call
  rw [h.arity?, h.body?]

/-- A leaf looks nothing up but its own text. -/
theorem leaf {ctx ctx' : Context} {l : Lexeme}
    (h : ctx.environment.AgreesAt ctx'.environment l.text) : ctx'.leaf l = ctx.leaf l := by
  unfold Context.leaf
  rw [h.constant?]

end Environment.AgreesAt

namespace Declarations

/-- Declarations of which the same is found under a name. -/
theorem agreesAt {d d' : Declarations} {name : String}
    (hfunctions : Dictionary.get? d'.functions name = Dictionary.get? d.functions name)
    (hconstants : Dictionary.get? d'.constants name = Dictionary.get? d.constants name) :
    d.toEnvironment.AgreesAt d'.toEnvironment name where
  isFunction := congrArg Option.isSome hfunctions
  arity? := congrArg (Option.map DeclaredFunction.arity) hfunctions
  body? := congrArg (Option.map DeclaredFunction.body) hfunctions
  isConstant := congrArg Option.isSome hconstants
  constant? := hconstants

/-- One declaration after the other, of names with a property. -/
inductive Redeclares (names : String → Prop) (d : Declarations) : Declarations → Prop
  | refl : Redeclares names d d
  | withFunction {d' name} (h : Redeclares names d d') (hname : names name) (arity : Nat)
      (body : Body) : Redeclares names d (d'.withFunction name arity body)
  | withConstant {d' name} (h : Redeclares names d d') (hname : names name) (value : Float) :
      Redeclares names d (d'.withConstant name value)

/-- The other names keep their meaning. -/
theorem Redeclares.agreesAt {names : String → Prop} {d d' : Declarations}
    (h : Redeclares names d d') {name : String} (hname : ¬ names name) :
    d.toEnvironment.AgreesAt d'.toEnvironment name := by
  have hne : ∀ {other}, names other → name ≠ other := by
    rintro other hother rfl
    exact hname hother
  have hfound : Dictionary.get? d'.functions name = Dictionary.get? d.functions name ∧
      Dictionary.get? d'.constants name = Dictionary.get? d.constants name := by
    induction h with
    | refl => exact ⟨rfl, rfl⟩
    | withFunction _ hother arity body ih =>
      rw [Declarations.withFunction, Dictionary.get?_set, if_neg (hne hother)]
      exact ih
    | withConstant _ hother value ih =>
      rw [Declarations.withConstant, Dictionary.get?_set, if_neg (hne hother)]
      exact ih
  exact Declarations.agreesAt hfound.1 hfound.2

end Declarations

/-! ## 2. Two parses -/

/-- The parses of one list in two environments that agree at its lexemes. -/
def Pairing.agreeing (env env' : Environment) : Pairing env env' where
  lexemes l l' := l' = l ∧ env.AgreesAt env' l.text
  expr n := n
  text s := s
  text_append := by
    rintro _ _ _ _ rfl rfl
    rfl
  lexeme_text := by
    rintro l _ ⟨rfl, -⟩
    rfl
  kind h := .inl (congrArg Lexeme.kind h.1)
  functionName h _ := h.1
  isFunction h := h.2.isFunction
  leaf := by
    rintro ctx ctx' l _ rfl rfl ⟨rfl, h⟩ -
    rw [h.leaf]
    refine .refl (fun _ => ?_) (fun _ => ?_) _ <;> rfl
  call arguments h := by
    rw [List.map_id', h.2.call]
    refine .refl (fun _ => ?_) (fun _ => ?_) _ <;> rfl
  join _ _ _ := rfl
  root _ _ := rfl
  squareRoot _ := rfl
  absolute _ := rfl
  toInfix _ := rfl

variable {env env' : Environment}

/-- Environments that agree at the lexemes of a list have the same formula of it,
or the same error. -/
theorem parse_congr (limits : Limits) {tokens : List Token}
    (h : ∀ l ∈ Token.listLexemes tokens, env.AgreesAt env' l.text) :
    parse env' limits tokens = parse env limits tokens := by
  have hboth := (Pairing.agreeing env env').parse limits
    (Token.Pairs.of_listLexemes fun l hl => ⟨rfl, h l hl⟩)
  generalize parse env limits tokens = r, parse env' limits tokens = r' at hboth
  match r, r', hboth with
  | .ok n, .ok _, rfl => rfl
  | .error e, .error e', heq =>
    have heq : e.mapText id = e'.mapText id := heq
    rw [← e.mapText_id, heq, e'.mapText_id]

/-! ## 3. Texts -/

namespace Reader

variable {symbols : SymbolMap} {cs rest : List Char} {l : Lexeme}

/-- A lexeme is cut off alike if its text is a name of the same kind. -/
theorem Cuts.of_classify (h : Cuts ⟨symbols, env⟩ cs l rest)
    (hl : env'.classify l.text = env.classify l.text) : Cuts ⟨symbols, env'⟩ cs l rest := by
  cases h with
  | symbol h => exact .symbol h
  | numeral hsymbol h => exact .numeral hsymbol h
  | @name c cs hsymbol hletter =>
    have hcut : Cuts ⟨symbols, env'⟩ (c :: cs) _ _ := .name hsymbol hletter
    rwa [hl] at hcut
  | character hsymbol hnumeral hletter => exact .character hsymbol hnumeral hletter

/-- A text is cut alike in environments that agree at its lexemes. -/
theorem lexemes_congr_environment
    (h : ∀ l ∈ lexemes ⟨symbols, env⟩ cs, env.AgreesAt env' l.text) :
    lexemes ⟨symbols, env'⟩ cs = lexemes ⟨symbols, env⟩ cs := by
  fun_induction lexemes ⟨symbols, env⟩ cs with
  | case1 cs hnone =>
    refine lexemes_of_next?_eq_none ?_
    rw [next?, trimLeft_of_next?_eq_none hnone]
    exact next?_nil
  | case2 cs first tail hsome _ ih =>
    obtain ⟨hfirst, htail⟩ := List.forall_mem_cons.mp h
    have hcut := (take?_eq_some_iff.mp hsome).of_classify hfirst.classify
    rw [lexemes_of_next?_eq_some (take?_eq_some_iff.mpr hcut), ih htail]

end Reader

theorem parse_tokens_congr (symbols : SymbolMap) (limits : Limits) {text : String}
    (h : ∀ t ∈ Reader.tokens ⟨symbols, env⟩ text, env.AgreesAt env' t.text) :
    parse env' limits (Reader.tokens ⟨symbols, env'⟩ text) =
      parse env limits (Reader.tokens ⟨symbols, env⟩ text) := by
  have hl : ∀ l ∈ Reader.lexemes ⟨symbols, env⟩ text.toList, env.AgreesAt env' l.text :=
    fun l hl => h (.lexeme l) (List.mem_map_of_mem hl)
  have htokens : Reader.tokens ⟨symbols, env'⟩ text = Reader.tokens ⟨symbols, env⟩ text := by
    unfold Reader.tokens
    rw [Reader.lexemes_congr_environment hl]
  rw [htokens]
  refine parse_congr limits fun l hmem => hl l ?_
  rwa [Reader.tokens, Token.listLexemes_map_lexeme] at hmem

/-! ## 4. Names that do not occur -/

/-- A parse asks an environment of nothing but the lexemes in its tokens: where
two environments agree at these, a list has the same tree, with the same values
of constants and the same bodies of calls, or the same error. So it is with a
text, which is then cut alike as well. Names that are the text of no token of a
text may thus be declared in whatever way. Without `abs` and `root` as names, it
does not matter to bars and radicals what these are. -/
theorem parse_of_agreesAt (limits : Limits) :
    (∀ env env' tokens,
        (∀ l ∈ Token.listLexemes tokens, Environment.AgreesAt env env' l.text) →
        parse env' limits tokens = parse env limits tokens) ∧
      (∀ symbols env env' text,
        (∀ t ∈ Reader.tokens ⟨symbols, env⟩ text, Environment.AgreesAt env env' t.text) →
        parse env' limits (Reader.tokens ⟨symbols, env'⟩ text) =
          parse env limits (Reader.tokens ⟨symbols, env⟩ text)) ∧
      (∀ names d d' text, Declarations.Redeclares names d d' →
        (∀ t ∈ (Reader.standard d.toEnvironment).tokens text, ¬ names t.text) →
        parseText d'.toEnvironment text = parseText d.toEnvironment text) ∧
      ∀ env env' tokens,
        (∀ name, name ≠ "abs" → name ≠ "root" → Environment.AgreesAt env env' name) →
        (∀ l ∈ Token.listLexemes tokens, l.text ≠ "abs" ∧ l.text ≠ "root") →
        parse env' limits tokens = parse env limits tokens ∧
          ∀ bindings, (parse env' limits tokens).map (fun n => n.evaluate bindings) =
            (parse env limits tokens).map fun n => n.evaluate bindings := by
  refine ⟨fun _ _ _ => parse_congr limits, fun symbols _ _ _ => parse_tokens_congr symbols limits,
    fun names d d' text hd hnames => ?redeclared, fun env env' tokens henv hl => ?builtIn⟩
  case redeclared =>
    exact parse_tokens_congr .standard .standard fun t ht => hd.agreesAt (hnames t ht)
  case builtIn =>
    have heq : parse env' limits tokens = parse env limits tokens :=
      parse_congr limits fun l hmem => henv l.text (hl l hmem).1 (hl l hmem).2
    exact ⟨heq, fun bindings => by rw [heq]⟩

/-- The usual declarations, with another function as `abs`, and with `root` as a
constant too. -/
def Declarations.otherAbs : Declarations :=
  (Declarations.standard.withFunction "abs" 2 (Body.binary fun x y => x + y)).withConstant "root" 7

theorem Declarations.redeclares_otherAbs :
    Declarations.Redeclares (fun name => name = "abs" ∨ name = "root") .standard .otherAbs :=
  .withConstant (.withFunction .refl (.inl rfl) 2 _) (.inr rfl) 7

/-- A square root between bars. -/
def rootInBars : List Token :=
  [.group ⟨'|', '|', ','⟩ [[.radical [.lexeme (.variableName "x")] []]]]

theorem tokens_sine :
    (Reader.standard Declarations.standard.toEnvironment).tokens "sin x" =
      [.lexeme (.functionName "sin"), .lexeme (.variableName "x")] := by
  have hsine : (Reader.standard Declarations.standard.toEnvironment).next? "sin x".toList =
      some (.functionName "sin", " x".toList) := by decide +kernel
  have hx : (Reader.standard Declarations.standard.toEnvironment).next? " x".toList =
      some (.variableName "x", []) := by decide +kernel
  rw [Reader.tokens, Reader.lexemes_of_next?_eq_some hsine, Reader.lexemes_of_next?_eq_some hx,
    Reader.lexemes_nil]
  rfl

theorem parse_of_agreesAt_otherAbs :
    Declarations.Redeclares (fun name => name = "abs" ∨ name = "root") .standard .otherAbs ∧
      parse Declarations.otherAbs.toEnvironment .standard rootInBars =
        parse Declarations.standard.toEnvironment .standard rootInBars ∧
      parse Declarations.otherAbs.toEnvironment .standard
          ((Reader.standard Declarations.otherAbs.toEnvironment).tokens "sin x") =
        parse Declarations.standard.toEnvironment .standard
          ((Reader.standard Declarations.standard.toEnvironment).tokens "sin x") ∧
      parseText Declarations.otherAbs.toEnvironment "sin x" =
        parseText Declarations.standard.toEnvironment "sin x" ∧
      (parse Declarations.otherAbs.toEnvironment .standard rootInBars).map
          (fun n => n.evaluate fun _ => some 4) =
        (parse Declarations.standard.toEnvironment .standard rootInBars).map
          fun n => n.evaluate fun _ => some 4 := by
  obtain ⟨htokens, hreader, htext, hbuiltIn⟩ := parse_of_agreesAt .standard
  have hd := Declarations.redeclares_otherAbs
  have hl : ∀ l ∈ Token.listLexemes rootInBars, l.text ≠ "abs" ∧ l.text ≠ "root" := by
    simp [rootInBars, Token.listLexemes, Token.lexemes, Token.elementLexemes, Lexeme.variableName]
  have ht : ∀ t ∈ (Reader.standard Declarations.standard.toEnvironment).tokens "sin x",
      ¬ (t.text = "abs" ∨ t.text = "root") := by
    rw [tokens_sine]
    simp [Token.text, Lexeme.functionName, Lexeme.variableName]
  have heq := htokens _ _ rootInBars fun l hmem => hd.agreesAt (not_or.mpr (hl l hmem))
  refine ⟨hd, heq, hreader _ _ _ "sin x" fun t hmem => hd.agreesAt (ht t hmem),
    htext _ _ _ "sin x" hd ht, ?_⟩
  exact (hbuiltIn _ _ rootInBars (fun _ habs hroot => hd.agreesAt (not_or.mpr ⟨habs, hroot⟩))
    hl).2 _

end Formula
