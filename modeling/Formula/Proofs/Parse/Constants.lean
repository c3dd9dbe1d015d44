/-
Formula.Proofs.Parse.Constants — constants and bound names.

A name has the same value in a formula whether it is declared as a constant
before the text is read or bound when the formula is evaluated, and nothing else
changes: the same texts are read, with the same errors where they are not
(`parseText_withConstant`).

The declaration changes the kind of some lexemes and the leaves of the tree that
are made of them. Both are operands with the same text and the same height, so
the two parses are a pairing (`Pairing.declaring`). A name that is also a
function stays one.

The name has to be one that a text can have as a name. A character that is no
letter is read as a free name too, but the environment is not asked about it.
-/
import Formula.Proofs.Infix.RoundTrip
import Formula.Proofs.Lexeme.Separation
import Formula.Proofs.Nodes
import Formula.Proofs.Pairing.Scans

namespace Formula

/-! ## 1. Declaring a name in a formula -/

/-- The values of free names with another value for one of them. -/
def Bindings.set (bindings : Bindings) (name : String) (value : Float) : Bindings :=
  fun x => if x = name then some value else bindings x

namespace Expr

mutual

/-- The formula with a constant in place of a free name. -/
def declare (name : String) (value : Float) : Expr → Expr
  | .literal x => .literal x
  | .free x => if x = name then .constant name value else .free x
  | .constant x v => .constant x v
  | .arithmetic op a b => .arithmetic op (declare name value a) (declare name value b)
  | .signed s a => .signed s (declare name value a)
  | .power a b => .power (declare name value a) (declare name value b)
  | .root a b => .root (declare name value a) (declare name value b)
  | .call f body arguments => .call f body (declareList name value arguments)
  | .equation a b => .equation (declare name value a) (declare name value b)

/-- The formulas of a list with a constant in place of a free name. -/
def declareList (name : String) (value : Float) : List Expr → List Expr
  | [] => []
  | a :: rest => declare name value a :: declareList name value rest

end

variable {name : String} {value : Float}

theorem declareList_eq_map (as : List Expr) :
    declareList name value as = as.map (declare name value) := by
  induction as with
  | nil => rfl
  | cons a rest ih => simp [declareList, ih]

/-- A constant has the value that the name would have to be bound to. -/
theorem evaluate_declare (bindings : Bindings) (n : Expr) :
    (n.declare name value).evaluate bindings = n.evaluate (bindings.set name value) := by
  induction n using Expr.induction with
  | literal x => rfl
  | free x =>
    by_cases hx : x = name
    · simp [declare, evaluate, Bindings.set, hx]
    · simp [declare, evaluate, Bindings.set, hx]
  | constant x v => rfl
  | arithmetic op a b iha ihb => simp [declare, evaluate, iha, ihb]
  | signed s a ih => simp [declare, evaluate, ih]
  | power a b iha ihb => simp [declare, evaluate, iha, ihb]
  | root a b iha ihb => simp [declare, evaluate, iha, ihb]
  | call f body arguments ih =>
    rw [declare, declareList_eq_map, evaluate, evaluate, evaluateAll_map ih]
  | equation a b iha ihb => simp [declare, evaluate, iha, ihb]

theorem level_declare (n : Expr) : (n.declare name value).level = n.level := by
  cases n with
  | free x =>
    rw [declare]
    split <;> rfl
  | _ => rfl

/-- A constant is written as its name. -/
theorem toInfix_declare (n : Expr) : (n.declare name value).toInfix = n.toInfix := by
  induction n using Expr.induction with
  | literal x => rfl
  | free x =>
    rw [declare]
    split
    · rename_i hx
      rw [hx, toInfix, toInfix]
    · rfl
  | constant x v => rfl
  | arithmetic op a b iha ihb => simp [declare, toInfix, iha, ihb, level_declare]
  | signed s a ih => simp [declare, toInfix, ih, level_declare]
  | power a b iha ihb => simp [declare, toInfix, iha, ihb, level_declare]
  | root a b iha ihb => simp [declare, toInfix, iha, ihb]
  | call f body arguments ih =>
    have hall : (arguments.map (declare name value)).map toInfix = arguments.map toInfix := by
      rw [List.map_map]
      exact List.map_congr_left ih
    simp [declare, toInfix, declareList_eq_map, toInfixes_eq_map, hall]
  | equation a b iha ihb => simp [declare, toInfix, iha, ihb, level_declare]

end Expr

/-! ## 2. Declaring a name in an environment -/

/-- The environment with one more constant. -/
def Environment.withConstant (env : Environment) (name : String) (value : Float) : Environment :=
  { env with
    isConstant := fun x => x == name || env.isConstant x
    constant? := fun x => if x = name then some value else env.constant? x }

theorem Declarations.toEnvironment_withConstant (d : Declarations) (name : String) (value : Float) :
    (d.withConstant name value).toEnvironment = d.toEnvironment.withConstant name value := by
  have hsome : ∀ x, (if x = name then some value else Dictionary.get? d.constants x).isSome =
      (x == name || (Dictionary.get? d.constants x).isSome) := by
    intro x
    by_cases hx : x = name <;> simp [hx]
  simp only [toEnvironment, withConstant, Environment.withConstant, Dictionary.get?_set, hsome]

/-- The lexeme with the kind that it has once a name is declared. -/
def Lexeme.declare (name : String) (l : Lexeme) : Lexeme :=
  if l = .variableName name then .constantName name else l

section Reading

variable {env : Environment} {name : String} {value : Float}

theorem Lexeme.declare_self : (Lexeme.variableName name).declare name = .constantName name :=
  if_pos rfl

theorem Lexeme.declare_of_ne {l : Lexeme} (h : l ≠ .variableName name) : l.declare name = l :=
  if_neg h

theorem Lexeme.declare_of_kind_ne {l : Lexeme} (h : l.kind ≠ .variableName) :
    l.declare name = l := declare_of_ne fun heq => h (by rw [heq]; rfl)

theorem Lexeme.text_declare (l : Lexeme) : (l.declare name).text = l.text := by
  by_cases h : l = .variableName name
  · rw [h, declare_self]
    rfl
  · rw [declare_of_ne h]

/-- What the environment calls a name once one is declared. -/
theorem Environment.classify_withConstant (hconst : env.isConstant name = false) (x : String) :
    (⟨(env.withConstant name value).classify x, x⟩ : Lexeme) =
      Lexeme.declare name ⟨env.classify x, x⟩ := by
  by_cases hfun : env.isFunction x = true
  · rw [Lexeme.declare_of_kind_ne] <;> simp [classify, withConstant, hfun]
  · by_cases hx : x = name
    · subst hx
      have hfree : env.classify x = .variableName := by simp [classify, hfun, hconst]
      have hdeclared : (env.withConstant x value).classify x = .constantName := by
        simp [classify, withConstant, hfun]
      rw [hfree, hdeclared]
      exact Lexeme.declare_self.symm
    · have hsame : (env.withConstant name value).classify x = env.classify x := by
        simp [classify, withConstant, hx]
      rw [hsame, Lexeme.declare_of_ne]
      intro heq
      exact hx (congrArg Lexeme.text heq)

namespace Reader

/-- The declaration does not change where a lexeme ends. -/
theorem take?_withConstant (hconst : env.isConstant name = false)
    (hname : ∀ c ∈ name.toList.head?, Text.isAlphabetic c = true) (cs : List Char) :
    (standard (env.withConstant name value)).take? cs =
      ((standard env).take? cs).map fun found => (found.1.declare name, found.2) := by
  unfold take? standard
  simp only
  cases hsymbol : SymbolMap.standard.longest? cs with
  | some found =>
    obtain ⟨n, kind⟩ := found
    have hword := SymbolMap.isWord_of_standard hsymbol
    have hkind : kind ≠ .variableName := by
      rintro rfl
      cases hword
    simp [Lexeme.declare_of_kind_ne, hkind]
  | none =>
    cases Number.splitNumeral cs with
    | some found =>
      obtain ⟨numeral, rest⟩ := found
      have hkind : (Lexeme.number (String.ofList numeral)).kind ≠ .variableName := nofun
      simp [Lexeme.declare_of_kind_ne hkind]
    | none =>
      cases cs with
      | nil => rfl
      | cons c rest =>
        by_cases hletter : Text.isAlphabetic c = true
        · simp [hletter, Environment.classify_withConstant hconst]
        · -- A name starts with a letter, so no other character is one by itself.
          have hne : Lexeme.variableName (String.ofList [c]) ≠ .variableName name := by
            intro heq
            have htext : String.ofList [c] = name := congrArg Lexeme.text heq
            exact hletter (hname c (by rw [← htext, String.toList_ofList]; rfl))
          simp only [if_neg hletter, Option.map_some, Lexeme.declare_of_ne hne]

theorem lexemes_withConstant (hconst : env.isConstant name = false)
    (hname : ∀ c ∈ name.toList.head?, Text.isAlphabetic c = true) (cs : List Char) :
    (standard (env.withConstant name value)).lexemes cs =
      ((standard env).lexemes cs).map (Lexeme.declare name) := by
  have hnext : ∀ cs, (standard (env.withConstant name value)).next? cs =
      ((standard env).next? cs).map fun found => (found.1.declare name, found.2) :=
    fun cs => take?_withConstant hconst hname (Text.trimLeft cs)
  fun_induction (standard env).lexemes cs with
  | case1 cs hnone =>
    rw [lexemes_of_next?_eq_none (by rw [hnext, hnone]; rfl)]
    rfl
  | case2 cs first tail hsome _ ih =>
    rw [lexemes_of_next?_eq_some (by rw [hnext, hsome]; rfl), ih]
    rfl

/-- Only declared constants are read as such. -/
theorem isConstant_of_mem {cs : List Char} {l : Lexeme} (hl : l ∈ (standard env).lexemes cs)
    (hk : l.kind = .constantName) : env.isConstant l.text = true := by
  obtain ⟨ds, rest, -, hcuts⟩ := exists_cuts_of_mem hl
  cases hcuts with
  | @symbol _ _ kind h =>
    obtain rfl : kind = .constantName := hk
    cases SymbolMap.isWord_of_standard h
  | numeral _ _ => cases hk
  | name _ _ => exact (Environment.classify_eq_constantName_iff.mp hk).2
  | character _ _ _ => cases hk

end Reader

end Reading

/-! ## 3. Two parses -/

/-- The leaf of a declared name is the constant, and other leaves stay as they
are. -/
theorem Context.leaf_withConstant {ctx ctx' : Context} {name : String} {value : Float}
    (hctx : ctx'.environment = ctx.environment.withConstant name value) {l : Lexeme}
    (hl : l ≠ .constantName name) (ho : l.kind.isOperand = true) :
    ctx'.leaf (l.declare name) = (ctx.leaf l).map (Expr.declare name value) := by
  by_cases hfree : l = .variableName name
  · subst hfree
    rw [Lexeme.declare_self]
    simp [leaf, Lexeme.constantName, Lexeme.variableName, hctx, Environment.withConstant,
      Expr.declare, Except.map]
  · rw [Lexeme.declare_of_ne hfree]
    obtain ⟨kind, text⟩ := l
    unfold leaf
    cases kind with
    | number =>
      simp only
      split <;> rfl
    | variableName =>
      have htext : text ≠ name := by
        rintro rfl
        exact hfree rfl
      simp [Except.map, Expr.declare, htext]
    | constantName =>
      have htext : text ≠ name := by
        rintro rfl
        exact hl rfl
      simp only [hctx, Environment.withConstant, if_neg htext]
      split <;> rfl
    | _ => cases ho

/-- Functions stay as they are. -/
theorem Environment.call_withConstant (env : Environment) (name : String) (value : Float)
    (f : String) (arguments : List Expr) :
    (env.withConstant name value).call f (arguments.map (Expr.declare name value)) =
      (env.call f arguments).map (Expr.declare name value) := by
  unfold call withConstant
  simp only [List.length_map]
  split
  · split
    · simp [Except.map, Expr.declare, Expr.declareList_eq_map]
    · rfl
  · rfl

/-- The parses of a text before and after a name is declared as a constant. -/
def Pairing.declaring (env : Environment) (name : String) (value : Float) :
    Pairing env (env.withConstant name value) where
  lexemes l l' := l ≠ .constantName name ∧ l' = l.declare name
  expr := Expr.declare name value
  text := id
  text_append := by
    rintro _ _ _ _ rfl rfl
    rfl
  lexeme_text := by
    rintro l _ ⟨-, rfl⟩
    exact l.text_declare.symm
  kind := by
    rintro l _ ⟨-, rfl⟩
    by_cases hl : l = .variableName name
    · rw [hl, Lexeme.declare_self]
      exact .inr ⟨rfl, rfl⟩
    · rw [Lexeme.declare_of_ne hl]
      exact .inl rfl
  functionName := by
    rintro f _ ⟨-, rfl⟩ hk
    exact Lexeme.declare_of_kind_ne (by rw [hk]; nofun)
  isFunction _ := rfl
  leaf := by
    rintro ctx ctx' l _ rfl hctx ⟨hl, rfl⟩ ho
    rw [Context.leaf_withConstant hctx hl ho]
    exact .map _ _ fun _ => rfl
  call arguments _ := by
    rw [Environment.call_withConstant]
    exact .map _ _ fun _ => rfl
  join op a b := by cases op <;> rfl
  root _ _ := rfl
  squareRoot _ := rfl
  absolute _ := rfl
  toInfix a := congrArg id a.toInfix_declare.symm

/-- Whether a text is one that is read as a name: a letter, and letters, digits
and underscores after it. -/
def Text.isName : List Char → Bool
  | [] => false
  | c :: rest => isAlphabetic c && rest.all isNamePart

theorem Text.isAlphabetic_of_isName {cs : List Char} (h : isName cs = true) :
    ∀ c ∈ cs.head?, isAlphabetic c = true := by
  cases cs with
  | nil => nofun
  | cons c rest =>
    intro d hd
    cases hd
    exact (Bool.and_eq_true_iff.mp h).1

/-- The lexemes of a text stand for those that it has once the name is
declared. -/
theorem Pairing.tokens_declaring {env : Environment} {name : String}
    (hname : Text.isName name.toList = true) (hconst : env.isConstant name = false) (value : Float)
    (text : String) :
    List.Forall₂ (Token.Pairs (declaring env name value).lexemes)
      ((Reader.standard env).tokens text)
      ((Reader.standard (env.withConstant name value)).tokens text) := by
  unfold Reader.tokens
  rw [Reader.lexemes_withConstant hconst (Text.isAlphabetic_of_isName hname), List.map_map,
    List.forall₂_map_left_iff, List.forall₂_map_right_iff, List.forall₂_same]
  intro l hl
  refine .lexeme ⟨?_, rfl⟩
  rintro rfl
  have hdeclared : env.isConstant name = true := Reader.isConstant_of_mem hl rfl
  rw [hconst] at hdeclared
  cases hdeclared

/-- A name is declared as a constant with a value, or it is bound to this value
when the formula is evaluated: the same texts are read, with the same values or
errors at the end, and those that are not have the same errors. -/
theorem parseText_withConstant (d : Declarations) (name : String) (value : Float) (text : String)
    (hname : Text.isName name.toList = true) (hconst : d.toEnvironment.isConstant name = false) :
    (∃ e, parseText d.toEnvironment text = .error e ∧
      parseText (d.withConstant name value).toEnvironment text = .error e) ∨
    ∃ n n', parseText d.toEnvironment text = .ok n ∧
      parseText (d.withConstant name value).toEnvironment text = .ok n' ∧
        ∀ bindings, n'.evaluate bindings = n.evaluate (bindings.set name value) := by
  have h := (Pairing.declaring d.toEnvironment name value).parse .standard
    (Pairing.tokens_declaring hname hconst value text)
  rw [d.toEnvironment_withConstant name value]
  unfold parseText
  generalize parse d.toEnvironment .standard _ = r at h
  generalize parse (d.toEnvironment.withConstant name value) .standard _ = r' at h
  match r, r', h with
  | .error e, .error e', h =>
    have heq : e.mapText id = e'.mapText id := h
    rw [e.mapText_id, e'.mapText_id] at heq
    exact .inl ⟨e, rfl, by rw [heq]⟩
  | .ok n, .ok _, rfl => exact .inr ⟨n, _, rfl, rfl, fun bindings => n.evaluate_declare bindings⟩

/-- A name that the usual declarations leave free. -/
theorem parseText_withConstant_x :
    Text.isName "x".toList = true ∧ Declarations.standard.toEnvironment.isConstant "x" = false ∧
    ∃ n n', parseText Declarations.standard.toEnvironment "x / sin(x)" = .ok n ∧
      parseText (Declarations.standard.withConstant "x" 2).toEnvironment "x / sin(x)" = .ok n' ∧
        ∀ bindings, n'.evaluate bindings = n.evaluate (bindings.set "x" 2) := by
  have hname : Text.isName "x".toList = true := by decide +kernel
  have hconst : Declarations.standard.toEnvironment.isConstant "x" = false := by decide +kernel
  let sine := Expr.call "sin" (Body.unary Float.sin) [.free "x"]
  have hx : Written (.within .standard .standard 256) "x" .product 0 (.free "x") :=
    (Written.free (Environment.reads_of_next? rfl)).loosen (by decide)
  have hsine : Written (.within .standard .standard 256) ("sin" ++ "(" ++ "x" ++ ")") .signed 1
      sine :=
    (Written.call ⟨Environment.reads_of_next? rfl, rfl, rfl⟩
      (.one (hx.loosen (by decide)))).loosen (by decide)
  have hquotient : Written (.within .standard .standard 256)
      ("x" ++ " " ++ Arithmetic.divide.symbol ++ " " ++ ("sin" ++ "(" ++ "x" ++ ")"))
      (Operator.arithmetic .divide).category (max 0 1) (.arithmetic .divide (.free "x") sine) :=
    .arithmetic hx hsine
  have hread : parseText .standard "x / sin(x)" = .ok (.arithmetic .divide (.free "x") sine) :=
    (hquotient.loosen (by decide)).parse_eq (by decide) (by decide)
  refine ⟨hname, hconst, ?_⟩
  rcases parseText_withConstant .standard "x" 2 "x / sin(x)" hname hconst with ⟨e, herror, -⟩ | hok
  · cases hread.symm.trans herror
  · exact hok

end Formula
