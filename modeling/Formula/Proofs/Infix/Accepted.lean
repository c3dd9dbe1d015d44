/-
Formula.Proofs.Infix.Accepted — the line of text of what was read.

What a plain text was read as is nearly always legible: its names are names
of the text, so they are read alone, and the environment that was asked once
gives the same answers again (`legible_of_parse`). Nothing has to be spelled
differently either, since a text has no markup to make roots of and its
numerals have no signs. So the line of text is read as the same formula.

Two things can be lost on the way. A numeral may exceed the range of
numbers, and what it is read as is spelled like a name. And the writer puts
an exponent with a sign into parentheses, which no text needs, so a text
without any can be read while its line of text nests too deeply
(`nesting_negativeTower`).
-/
import Formula.Proofs.Infix.RoundTrip

namespace Formula

open Reader (standard)
open Number.Binary64 (isNegative)

namespace Expr

/-! ## 1. Where nothing is spelled differently -/

/-- A node that has a spelling of its own. -/
def HasSpelling : Expr → Prop
  | .literal value => isNegative value = false
  | .root _ _ => False
  | _ => True

/-- A formula whose nodes have spellings of their own spells itself. -/
theorem spelled_eq_self (root : Body) (n : Expr) (h : ∀ m ∈ n.nodes, m.HasSpelling) :
    n.spelled root = n := by
  induction n using Expr.induction with
  | literal value =>
    have hsign : isNegative value = false := h _ (mem_nodes_self _)
    simp [spelled, hsign]
  | free name => rfl
  | constant name value => rfl
  | arithmetic op a b iha ihb =>
    rw [spelled, iha fun m hm => h m (by simp [nodes, hm]),
      ihb fun m hm => h m (by simp [nodes, hm])]
  | signed s a ih => rw [spelled, ih fun m hm => h m (by simp [nodes, hm])]
  | power a b iha ihb =>
    rw [spelled, iha fun m hm => h m (by simp [nodes, hm]),
      ihb fun m hm => h m (by simp [nodes, hm])]
  | root a b _ _ => exact (h _ (mem_nodes_self _)).elim
  | call name body arguments ih =>
    have hself : arguments.map (spelled root) = arguments.map id :=
      List.map_congr_left fun a ha =>
        ih a ha fun m hm => h m (List.mem_cons_of_mem _ (nodes_subset_of_mem ha hm))
    rw [spelled, spelledList_eq_map, hself, List.map_id]
  | equation a b iha ihb =>
    rw [spelled, iha fun m hm => h m (by simp [nodes, hm]),
      ihb fun m hm => h m (by simp [nodes, hm])]

/-! ## 2. Formulas that equal themselves -/

/-- A node that equals itself, if its operands do. -/
def IsComparable : Expr → Prop
  | .literal value | .constant _ value => value.isNaN = false
  | _ => True

theorem equalLists_self {as : List Expr} (h : ∀ a ∈ as, a.equal a = true) :
    equalLists as as = true := by
  induction as with
  | nil => rfl
  | cons a rest ih =>
    rw [equalLists, h a (by simp), ih fun b hb => h b (by simp [hb])]
    rfl

/-- A formula without NaNs equals itself. -/
theorem equal_self (n : Expr) (h : ∀ m ∈ n.nodes, m.IsComparable) : n.equal n = true := by
  induction n using Expr.induction with
  | literal value => exact Number.Binary64.beq_self_of_isNaN (h _ (mem_nodes_self _))
  | free name => simp [equal]
  | constant name value =>
    have hvalue : value.isNaN = false := h _ (mem_nodes_self _)
    simp [equal, Number.Binary64.beq_self_of_isNaN hvalue]
  | arithmetic op a b iha ihb =>
    have ha := iha fun m hm => h m (by simp [nodes, hm])
    have hb := ihb fun m hm => h m (by simp [nodes, hm])
    simp [equal, ha, hb]
  | signed s a ih =>
    have ha := ih fun m hm => h m (by simp [nodes, hm])
    simp [equal, ha]
  | power a b iha ihb =>
    have ha := iha fun m hm => h m (by simp [nodes, hm])
    have hb := ihb fun m hm => h m (by simp [nodes, hm])
    simp [equal, ha, hb]
  | root a b iha ihb =>
    have ha := iha fun m hm => h m (by simp [nodes, hm])
    have hb := ihb fun m hm => h m (by simp [nodes, hm])
    simp [equal, ha, hb]
  | call name body arguments ih =>
    have hlist := equalLists_self fun a ha =>
      ih a ha fun m hm => h m (List.mem_cons_of_mem _ (nodes_subset_of_mem ha hm))
    simp [equal, hlist]
  | equation a b iha ihb =>
    have ha := iha fun m hm => h m (by simp [nodes, hm])
    have hb := ihb fun m hm => h m (by simp [nodes, hm])
    simp [equal, ha, hb]

/-! ## 3. What a text was read as -/

/-- What a list of lexemes puts into a node of its formula. -/
def DrawnFrom (env : Environment) (tokens : List Token) : Expr → Prop
  | .literal value => isNegative value = false
  | .free name => .lexeme (.variableName name) ∈ tokens
  | .constant name value =>
    .lexeme (.constantName name) ∈ tokens ∧ env.constant? name = some value
  | .call name body arguments =>
    .lexeme (.functionName name) ∈ tokens ∧ env.arity? name = some arguments.length ∧
      env.body? name = some body
  | .root _ _ => False
  | _ => True

end Expr

variable {env : Environment} {limits : Limits} {text : String} {n : Expr}

/-- The tokens of a text are lexemes. -/
theorem Reader.mem_tokens {r : Reader} {t : Token} (h : t ∈ r.tokens text) :
    ∃ l ∈ r.lexemes text.toList, t = .lexeme l := by
  obtain ⟨l, hl, rfl⟩ := List.mem_map.mp h
  exact ⟨l, hl, rfl⟩

/-- The nodes of what a text is read as are drawn from the text. -/
theorem drawnFrom_of_parse (h : parse env limits ((standard env).tokens text) = .ok n) :
    ∀ m ∈ n.nodes, m.DrawnFrom env ((standard env).tokens text) := by
  have hrun := parse_eq_ok_iff.mp h
  rw [parseWithin_eq_run] at hrun
  have hderives := (Scan.derives_of_run (Context.exact_within env limits _) hrun).1
  refine hderives.forall_nodes ⟨?_, ?_, ?_, ?_⟩ (List.Subset.refl _)
  · intro op a b
    cases op <;> trivial
  · intro f arguments n hmem hf _ hn
    rw [Context.lexicon, Context.within_environment] at hn
    obtain ⟨body, harity, hbody, rfl⟩ := Environment.call_eq_ok_iff.mp hn
    obtain ⟨kind, name⟩ := f
    obtain rfl : kind = .functionName := hf
    exact ⟨hmem, harity, hbody⟩
  · intro t n hmem hn
    obtain ⟨l, -, rfl⟩ := Reader.mem_tokens hmem
    have hdenotes := (Context.value_eq_ok (Context.exactParts_within env limits _) hn).2
    rw [Context.within_environment] at hdenotes
    obtain ⟨kind, name⟩ := l
    intro m hm
    cases hdenotes with
    | number hk hs =>
      obtain rfl := List.mem_singleton.mp hm
      exact Number.Binary64.isNegative_ofNumeral _
    | free hk =>
      obtain rfl := List.mem_singleton.mp hm
      obtain rfl : kind = .variableName := hk
      exact hmem
    | constant hk hv =>
      obtain rfl := List.mem_singleton.mp hm
      obtain rfl : kind = .constantName := hk
      exact ⟨hmem, hv⟩
  · intro f delimiters elements n hmem
    obtain ⟨l, -, hl⟩ := Reader.mem_tokens hmem
    cases hl

/-- A name of a text is read alone. -/
theorem Environment.reads_of_mem {kind : LexemeKind} {name : String}
    (h : .lexeme ⟨kind, name⟩ ∈ (Reader.standard env).tokens text) : env.Reads kind name := by
  obtain ⟨l, hl, heq⟩ := Reader.mem_tokens h
  cases heq
  rw [Reads, Reader.tokens, Reader.lexemes_text_of_mem hl]
  rfl

/-- What a text is read as is legible, if its numerals keep to the range of
numbers, and it spells itself. -/
theorem legible_of_parse (h : parse env limits ((standard env).tokens text) = .ok n)
    (hfinite : ∀ value, .literal value ∈ n.nodes → value.isFinite = true) (root : Body) :
    n.Legible env root ∧ n.spelled root = n := by
  have hdrawn := drawnFrom_of_parse h
  refine ⟨⟨hfinite, ?_, ?_, ?_, ?_⟩, n.spelled_eq_self root fun m hm => ?_⟩
  · intro name hm
    exact Environment.reads_of_mem (hdrawn _ hm)
  · intro name value hm
    obtain ⟨hname, hvalue⟩ := hdrawn _ hm
    exact ⟨Environment.reads_of_mem hname, hvalue⟩
  · intro name body arguments hm
    obtain ⟨hname, harity, hbody⟩ := hdrawn _ hm
    exact ⟨Environment.reads_of_mem hname, harity, hbody⟩
  · intro base degree hm
    exact (hdrawn _ hm).elim
  · have hm := hdrawn m hm
    cases m with
    | literal value => exact hm
    | root a b => exact hm.elim
    | _ => trivial

/-- A text whose numerals keep to the range of numbers is read as a formula
that equals itself, if no constant is a NaN. -/
theorem beq_self_of_parse (h : parse env limits ((standard env).tokens text) = .ok n)
    (hconstants : ∀ name value, env.constant? name = some value → value.isNaN = false)
    (hfinite : ∀ value, .literal value ∈ n.nodes → value.isFinite = true) : (n == n) = true := by
  have hdrawn := drawnFrom_of_parse h
  refine n.equal_self fun m hm => ?_
  cases m with
  | literal value => exact Number.Binary64.isNaN_eq_false_of_isFinite (hfinite value hm)
  | constant name value => exact hconstants name value (hdrawn _ hm).2
  | _ => trivial

/-! ## 4. Exponents with signs, and numerals out of range -/

/-- Powers of two over each other, each exponent with a minus. -/
def negativeTower : Nat → Expr
  | 0 => .literal 2
  | k + 1 => .power (.literal 2) (.signed .minus (negativeTower k))

/-- The same without parentheses. -/
def negativeTowerText : Nat → String
  | 0 => "2"
  | k + 1 => "2" ++ "^" ++ ("-" ++ negativeTowerText k)

theorem height_negativeTower (k : Nat) : (negativeTower k).height = 2 * k + 1 := by
  induction k with
  | zero => rfl
  | succ k ih =>
    simp only [negativeTower, Expr.height, ih]
    omega

theorem level_negativeTower (k : Nat) : Operator.power.level ≤ (negativeTower k).level := by
  cases k with
  | zero => decide
  | succ k => exact Nat.le_refl _

/-- Each exponent is put into parentheses. -/
theorem nesting_negativeTower (k : Nat) : (negativeTower k).nesting = k := by
  induction k with
  | zero => rfl
  | succ k ih =>
    have hlevel := level_negativeTower k
    have hoperand : ¬ (negativeTower k).level < (Operator.sign .minus).level := by
      simp only [Operator.level] at hlevel ⊢
      omega
    have hexponent : (Operator.sign .minus).level < Operator.power.level := by decide
    have hbase : ¬ (Expr.literal 2).level ≤ Operator.power.level := by decide
    have hsigned : (Expr.signed .minus (negativeTower k)).level =
        (Operator.sign .minus).level := rfl
    simp [negativeTower, Expr.nesting, Expr.parenthesized, hoperand, hexponent, hbase, hsigned, ih]

theorem legible_negativeTower (env : Environment) (root : Body) (k : Nat) :
    (negativeTower k).Legible env root := by
  have hnodes : ∀ m ∈ (negativeTower k).nodes, m = .literal 2 ∨
      (∃ a b, m = .power a b) ∨ ∃ s a, m = .signed s a := by
    induction k with
    | zero => simp [negativeTower, Expr.nodes]
    | succ k ih =>
      intro m hm
      simp only [negativeTower, Expr.nodes, List.cons_append, List.nil_append, List.mem_cons] at hm
      rcases hm with rfl | rfl | rfl | hm
      · exact .inr (.inl ⟨_, _, rfl⟩)
      · exact .inl rfl
      · exact .inr (.inr ⟨_, _, rfl⟩)
      · exact ih m hm
  constructor
  · intro value hm
    rcases hnodes _ hm with h | ⟨a, b, h⟩ | ⟨s, a, h⟩ <;> cases h
    decide
  · intro name hm
    rcases hnodes _ hm with h | ⟨a, b, h⟩ | ⟨s, a, h⟩ <;> cases h
  · intro name value hm
    rcases hnodes _ hm with h | ⟨a, b, h⟩ | ⟨s, a, h⟩ <;> cases h
  · intro name body arguments hm
    rcases hnodes _ hm with h | ⟨a, b, h⟩ | ⟨s, a, h⟩ <;> cases h
  · intro base degree hm
    rcases hnodes _ hm with h | ⟨a, b, h⟩ | ⟨s, a, h⟩ <;> cases h

theorem written_negativeTowerText (ctx : Context) (k : Nat) :
    Written ctx (negativeTowerText k) .power 0 (negativeTower k) := by
  have htwo : Written ctx "2" .atom 0 (.literal 2) := by
    have hdigits : Number.IsNumeral ['2'] := by
      refine .whole (fun c hc => ?_) (List.cons_ne_nil _ _)
      rw [List.mem_singleton.mp hc]
      rfl
    have hnearest : Number.Binary64.nearest (.ofNumeral ['2']) = 0x4000000000000000 := by
      unfold Number.Binary64.nearest
      decide +kernel
    have hvalue : Number.Binary64.ofNumeral ['2'] = 2 := by
      rw [Number.Binary64.ofNumeral, hnearest]
      decide
    rw [← hvalue]
    exact .numeral hdigits
  induction k with
  | zero => exact htwo.loosen (by decide)
  | succ k ih =>
    have hsigned : Written ctx ("-" ++ negativeTowerText k) .signed 0
        (.signed .minus (negativeTower k)) := .sign .minus (ih.loosen (by decide))
    exact .power htwo hsigned

/-- A tower is read up to the limit of heights. -/
theorem parseText_negativeTowerText {k : Nat} (hk : 2 * k + 1 ≤ Limits.standard.maxHeight) :
    parseText env (negativeTowerText k) = .ok (negativeTower k) := by
  refine Written.parse_eq ((written_negativeTowerText _ k).loosen (by decide)) (Nat.zero_le _) ?_
  rw [height_negativeTower]
  exact hk

/-- A numeral beyond the range of numbers, one followed by 309 zeros. -/
def overflowText : String := String.ofList ('1' :: List.replicate 309 '0')

/-- What it is read as. -/
def overflow : Expr := .literal (Number.Binary64.ofPattern Number.Binary64.infinity)

theorem parseText_overflowText : parseText env overflowText = .ok overflow := by
  have hdigits : Number.IsNumeral ('1' :: List.replicate 309 '0') := by
    refine .whole (fun c hc => ?_) (List.cons_ne_nil _ _)
    rcases List.mem_cons.mp hc with rfl | hc
    · rfl
    · rw [List.eq_of_mem_replicate hc]
      rfl
  have hnearest : Number.Binary64.nearest (.ofNumeral ('1' :: List.replicate 309 '0')) =
      Number.Binary64.infinity := by
    unfold Number.Binary64.nearest
    decide +kernel
  have hwritten : Written (.within env .standard 256) overflowText .atom 0 overflow := by
    rw [overflow, ← hnearest]
    exact .numeral hdigits
  exact Written.parse_eq (hwritten.loosen (by decide)) (Nat.zero_le _) (by decide)

/-- It is spelled like a name. -/
theorem toInfix_overflow : overflow.toInfix = "inf" := by
  have hpattern := Number.Binary64.pattern_ofPattern (Nat.le_refl Number.Binary64.infinity)
  have hsign := Number.Binary64.isNegative_ofPattern (Nat.le_refl Number.Binary64.infinity)
  simp [overflow, Expr.toInfix, Number.text, Number.signed, hpattern, hsign]

/-- No constant of the usual environment is a NaN. -/
theorem isNaN_standard {name : String} {value : Float}
    (h : Environment.standard.constant? name = some value) : value.isNaN = false := by
  have hlist : ∀ entry ∈ Declarations.standard.constants, entry.2.isNaN = false := by decide
  exact hlist (name, value) (Dictionary.mem_of_get? h)

/-! ## 5. Reading twice -/

/-- The line of text of a formula that was read from a text is read as the
same formula, if its parentheses keep to the limit, and is otherwise refused
for that. -/
theorem parseText_toInfix (env : Environment)
    (hconstants : ∀ name value, env.constant? name = some value → value.isNaN = false)
    (text : String) (n : Expr) (h : parseText env text = .ok n)
    (hfinite : ∀ value, .literal value ∈ n.nodes → value.isFinite = true) :
    (Token.peak 0 ((standard env).tokens n.toInfix) ≤ Limits.standard.maxDepth →
      parseText env n.toInfix = .ok n ∧ (n == n) = true) ∧
    (Limits.standard.maxDepth < Token.peak 0 ((standard env).tokens n.toInfix) →
      ∃ k, parseText env n.toInfix = .error (.nestingTooDeep k)) := by
  obtain ⟨hlegible, hself⟩ := legible_of_parse h hfinite Body.absolute
  have hheight : n.height ≤ Limits.standard.maxHeight := height_le_of_parse h
  rw [Expr.peak_tokens_toInfix hlegible]
  constructor
  · intro hdepth
    have hread := Expr.parse_tokens_toInfix hlegible hdepth (hself.symm ▸ hheight)
    rw [hself] at hread
    exact ⟨hread, beq_self_of_parse h hconstants hfinite⟩
  · intro hdepth
    exact Expr.parse_tokens_toInfix_of_lt hlegible hdepth

/-- An exponent with a sign gets its parentheses, and is read again. -/
theorem parseText_toInfix_negativeTower :
    parseText .standard "2^-2" = .ok (negativeTower 1) ∧
      parseText .standard (negativeTower 1).toInfix = .ok (negativeTower 1) := by
  have hread : parseText .standard "2^-2" = .ok (negativeTower 1) :=
    parseText_negativeTowerText (k := 1) (by decide)
  have hlegible := legible_negativeTower .standard Body.absolute 1
  have hpeak := Expr.peak_tokens_toInfix hlegible
  rw [nesting_negativeTower] at hpeak
  refine ⟨hread, ((parseText_toInfix .standard (fun _ _ h => isNaN_standard h) _ _ hread
    hlegible.literal).1 ?_).1⟩
  rw [hpeak]
  decide

/-- In the usual environment, a text is read whose line of text nests too
deeply, and another one whose line of text is that of a name. -/
theorem not_read_back :
    (parseText .standard (negativeTowerText 257) = .ok (negativeTower 257) ∧
      ∃ k, parseText .standard (negativeTower 257).toInfix = .error (.nestingTooDeep k)) ∧
    (parseText .standard overflowText = .ok overflow ∧
      parseText .standard overflow.toInfix = .ok (.free "inf") ∧
        (Expr.free "inf" == overflow) = false) ∧
    ∀ name value, Environment.standard.constant? name = some value → value.isNaN = false := by
  refine ⟨⟨parseText_negativeTowerText (by decide), ?_⟩,
    ⟨parseText_overflowText, ?_, rfl⟩, fun _ _ h => isNaN_standard h⟩
  · refine Expr.parse_tokens_toInfix_of_lt (legible_negativeTower .standard Body.absolute 257) ?_
    rw [nesting_negativeTower]
    decide
  · have hname : Written (.within .standard .standard 256) "inf" .atom 0 (.free "inf") :=
      .free (Environment.reads_of_next? rfl)
    rw [toInfix_overflow]
    exact Written.parse_eq (hname.loosen (by decide)) (Nat.zero_le _) (by decide)

end Formula
