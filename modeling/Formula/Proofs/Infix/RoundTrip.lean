/-
Formula.Proofs.Infix.RoundTrip — reading undoes writing.

The line of text of a legible formula is written for what it spells
(`Expr.written`), by induction over the formula: each node is one of the
constructions of `Formula.Proofs.Infix.Written`, with the categories that
the grammar asks of the operands. The writer compares levels of its own, and
the only thing to see here is that what it leaves without parentheses is
tight enough for its place.

From there, the scan finds the tree (`Written.parse_eq`), and the depth of
parentheses it meets is that of `Expr.nesting`.
-/
import Formula.Proofs.Infix.Written
import Formula.Proofs.Lexeme.Numbers
import Formula.Proofs.Number.Magnitude
import Formula.Proofs.Parse.Bounds

namespace Formula

open Reader (standard)
open Number.Binary64 (isNegative pattern)

variable {ctx : Context} {root : Body}

/-! ## 1. Leaves -/

/-- A numeral is read alone. -/
theorem Environment.reads_numeral {env : Environment} {digits : List Char}
    (h : Number.IsNumeral digits) : env.Reads .number (String.ofList digits) := by
  rw [Reads, Reader.tokens, String.toList_ofList, Reader.lexemes_numeral h]
  rfl

/-- A numeral, as the number that it spells. -/
theorem Written.numeral {digits : List Char} (h : Number.IsNumeral digits) :
    Written ctx (String.ofList digits) .atom 0
      (.literal (Number.Binary64.ofNumeral digits)) := by
  have hleaf : ctx.leaf (.number (String.ofList digits)) =
      .ok (.literal (Number.Binary64.ofNumeral digits)) := by
    rw [Context.leaf_of_isNumeral (by rwa [String.toList_ofList]), String.toList_ofList]
  have hreads : ctx.environment.Reads .number (String.ofList digits) :=
    Environment.reads_numeral h
  refine .value (l := .number (String.ofList digits)) (.of_alone hreads rfl rfl) rfl ?_
  rw [Context.value, hleaf]
  rfl

/-- A finite number without a sign. -/
theorem Written.number {value : Float} (hfinite : value.isFinite = true)
    (hsign : isNegative value = false) :
    Written ctx (Number.text value) .atom 0 (.literal value) := by
  have h : Written ctx (String.ofList (Number.plainDigits (pattern value))) .atom 0
      (.literal (Number.Binary64.ofNumeral (Number.plainDigits (pattern value)))) :=
    .numeral (Number.isNumeral_plainDigits _)
  rw [Number.Binary64.ofNumeral_plainDigits hfinite hsign] at h
  rw [Number.Binary64.text_eq_digits hfinite hsign]
  exact h

/-- A finite number. -/
theorem Written.literal {value : Float} (hfinite : value.isFinite = true) :
    Written ctx (Number.text value) (Expr.literal value).category 0
      ((Expr.literal value).spelled root) := by
  cases hsign : isNegative value with
  | false =>
    simp only [Expr.category, Expr.spelled, hsign]
    exact .number hfinite hsign
  | true =>
    simp only [Expr.category, Expr.spelled, hsign, if_true]
    rw [Number.Binary64.text_eq_minus hfinite hsign]
    have habs : Written ctx (Number.text value.abs) .atom 0 (.literal value.abs) :=
      .number (Number.Binary64.isFinite_abs hfinite) (Number.Binary64.abs_of_isFinite hfinite).2
    exact .sign .minus (habs.loosen (by decide))

theorem Written.free {name : String} (h : ctx.environment.Reads .variableName name) :
    Written ctx name .atom 0 (.free name) :=
  .value (.of_alone h rfl rfl) rfl rfl

theorem Written.constant {name : String} {value : Float}
    (h : ctx.environment.Reads .constantName name)
    (hvalue : ctx.environment.constant? name = some value) :
    Written ctx name .atom 0 (.constant name value) := by
  refine .value (.of_alone h rfl rfl) rfl ?_
  have hleaf : ctx.leaf ⟨.constantName, name⟩ = .ok (.constant name value) := by
    simp only [Context.leaf, hvalue]
  rw [Context.value, hleaf]
  rfl

/-! ## 2. Operators -/

/-- The right operand of an operator is at most one level tighter. -/
theorem Operator.level_right_le (op : Operator) : op.right.level ≤ op.level + 1 := by
  rcases op with _ | op | s | _ <;> try cases op
  all_goals simp [right, level, Category.level]

/-- An operator that is grouped from the left takes its own category on that
side. -/
theorem Operator.left?_arithmetic (op : Arithmetic) :
    (Operator.arithmetic op).left? = some (Operator.arithmetic op).category := by
  cases op <;> rfl

variable {a b m k : Expr} {d e : Nat}

theorem Written.arithmetic {op : Arithmetic} {left right : String}
    (hl : Written ctx left (Operator.arithmetic op).category d m)
    (hr : Written ctx right (Operator.arithmetic op).right e k) :
    Written ctx (left ++ " " ++ op.symbol ++ " " ++ right) (Operator.arithmetic op).category
      (max d e) (.arithmetic op m k) := by
  have htext : left ++ " " ++ op.symbol ++ " " ++ right =
      left ++ (Operator.arithmetic op).spaced ++ right := by
    simp [Operator.spaced, String.append_assoc]
  rw [htext]
  exact .binary (.arithmetic op) (Operator.left?_arithmetic op) hl hr

theorem Written.equation {left right : String} (hl : Written ctx left .equation d m)
    (hr : Written ctx right .sum e k) :
    Written ctx (left ++ " = " ++ right) .equation (max d e) (.equation m k) :=
  .binary .equals rfl hl hr

theorem Written.power {left right : String} (hl : Written ctx left .atom d m)
    (hr : Written ctx right .signed e k) :
    Written ctx (left ++ "^" ++ right) .power (max d e) (.power m k) :=
  .binary .power rfl hl hr

/-! ## 3. Formulas -/

/-- A parse reads a text as it is written, within its limits. -/
theorem Written.parse_eq {env : Environment} {limits : Limits} {text : String}
    (h : Written (.within env limits limits.maxDepth) text .equation d m)
    (hdepth : d ≤ limits.maxDepth) (hheight : m.height ≤ limits.maxHeight) :
    parse env limits ((standard env).tokens text) = .ok m := by
  have hderives := h.derives
  have hpeak := h.peak 0
  rw [Context.within_environment] at hderives hpeak
  rw [parse_eq_ok_iff, parseWithin_eq_run]
  refine Scan.run_of_derives hderives ?_ ?_
  · rw [hpeak, Context.within_room, Nat.zero_add]
    exact hdepth
  · rw [Context.within_limits]
    exact hheight

namespace Expr

/-- What the writer leaves without parentheses is tight enough for its place. -/
theorem level_le_of_not_needed {c : Category} {n : Expr} {level : Nat} {needed : Prop}
    [Decidable needed] (hc : c.level ≤ level) (hneeded : n.level < level → needed)
    (h : decide needed = false) : c.level ≤ n.category.level := by
  rw [level_category]
  refine Nat.le_trans hc (Nat.le_of_not_lt fun hlt => ?_)
  exact of_decide_eq_false h (hneeded hlt)

mutual

/-- The line of text of a legible formula is written for what it spells. -/
theorem written (n : Expr) (h : n.Legible ctx.environment root) :
    Written ctx n.toInfix n.category n.nesting (n.spelled root) := by
  cases n with
  | literal value => exact .literal (h.literal value (by simp [nodes]))
  | free name => exact .free (h.free name (by simp [nodes]))
  | constant name value =>
    obtain ⟨hname, hvalue⟩ := h.constant name value (by simp [nodes])
    exact .constant hname hvalue
  | arithmetic op a b =>
    have ha := written a (h.of_subset (by simp [nodes]))
    have hb := written b (h.of_subset (by simp [nodes]))
    exact .arithmetic
      (ha.operand (level_le_of_not_needed (Nat.le_of_eq (Operator.level_category _)) id))
      (hb.operand (level_le_of_not_needed (Operator.level_right_le _) Nat.le_of_lt_succ))
  | signed s a =>
    have ha := written a (h.of_subset (by simp [nodes]))
    exact .sign s (ha.operand (level_le_of_not_needed (Nat.le_refl _) id))
  | power a b =>
    have ha := written a (h.of_subset (by simp [nodes]))
    have hb := written b (h.of_subset (by simp [nodes]))
    exact .power (ha.operand (level_le_of_not_needed (Nat.le_refl _) Nat.le_of_lt_succ))
      (hb.operand (level_le_of_not_needed (by decide) id))
  | root a b =>
    have ha := written a (h.of_subset (by simp [nodes]))
    have hb := written b (h.of_subset (by simp [nodes]))
    have hroot := h.root a b (by simp [nodes])
    have hlist := WrittenArguments.cons (ha.loosen (Nat.zero_le _))
      (.one (hb.loosen (Nat.zero_le _)))
    have htext : toInfix (.root a b) =
        "root" ++ "(" ++ (toInfix a ++ ", " ++ toInfix b) ++ ")" := by
      have hopen : "root(" = "root" ++ "(" := rfl
      simp [toInfix, hopen, String.append_assoc]
    rw [htext]
    exact .call hroot hlist
  | call name body arguments =>
    have hname := h.call name body arguments (by simp [nodes])
    by_cases hnil : arguments = []
    · subst hnil
      exact .emptyCall hname
    · have hlist := writtenArguments arguments hnil fun m hm =>
        h.of_subset (List.Subset.trans (nodes_subset_of_mem hm) (by simp [nodes]))
      refine .call ?_ hlist
      rw [length_spelledList]
      exact hname
  | equation a b =>
    have ha := written a (h.of_subset (by simp [nodes]))
    have hb := written b (h.of_subset (by simp [nodes]))
    exact .equation (ha.operand (level_le_of_not_needed (Nat.le_refl _) id))
      (hb.operand (level_le_of_not_needed (Operator.level_right_le .equals) Nat.le_of_lt_succ))

theorem writtenArguments (as : List Expr) (hne : as ≠ [])
    (h : ∀ m ∈ as, m.Legible ctx.environment root) :
    WrittenArguments ctx (String.intercalate ", " (toInfixes as)) (nestingOfList as)
      (spelledList root as) := by
  cases as with
  | nil => exact absurd rfl hne
  | cons a rest =>
    have ha : Written ctx a.toInfix .equation a.nesting (a.spelled root) :=
      (written a (h a (by simp))).loosen (Nat.zero_le _)
    by_cases hrest : rest = []
    · have hdepth : nestingOfList [a] = a.nesting := Nat.max_zero _
      rw [hrest, hdepth, toInfixes, toInfixes, String.intercalate_singleton]
      exact .one ha
    · have hlist := writtenArguments rest hrest fun m hm => h m (by simp [hm])
      have htexts : toInfixes rest ≠ [] := by simpa [toInfixes_eq_map] using hrest
      rw [toInfixes, String.intercalate_cons_of_ne_nil htexts]
      exact .cons ha hlist

end

variable {env : Environment} {limits : Limits} {n : Expr}

/-- The same in the context of a parse. -/
theorem written_within (limits : Limits) (h : n.Legible env root) (room : Nat) :
    Written (.within env limits room) n.toInfix .equation n.nesting (n.spelled root) := by
  have h : n.Legible (Context.within env limits room).environment root := by simpa using h
  exact (written n h).loosen (Nat.zero_le _)

/-- The parentheses that a parse meets in the line of text. -/
theorem peak_tokens_toInfix (h : n.Legible env root) :
    Token.peak 0 ((standard env).tokens n.toInfix) = n.nesting := by
  have hpeak := (written_within .standard h 0).peak 0
  rwa [Context.within_environment, Nat.zero_add] at hpeak

/-- The line of text of a legible formula has what it spells, if its
parentheses do not nest too deeply and the tree is not too high. -/
theorem parse_tokens_toInfix (h : n.Legible env root) (hdepth : n.nesting ≤ limits.maxDepth)
    (hheight : (n.spelled root).height ≤ limits.maxHeight) :
    parse env limits ((standard env).tokens n.toInfix) = .ok (n.spelled root) :=
  (written_within limits h limits.maxDepth).parse_eq hdepth hheight

/-- It is refused if they nest too deeply, and for no other reason. -/
theorem parse_tokens_toInfix_of_lt (h : n.Legible env root) (hdepth : limits.maxDepth < n.nesting) :
    ∃ k, parse env limits ((standard env).tokens n.toInfix) = .error (.nestingTooDeep k) := by
  have hlarge : parse env ⟨n.nesting, (n.spelled root).height⟩ ((standard env).tokens n.toInfix) =
      .ok (n.spelled root) := parse_tokens_toInfix h (Nat.le_refl _) (Nat.le_refl _)
  have hgives : Gives True (parseWithin env limits limits.maxDepth _) _ :=
    parseWithin_gives (parse_eq_ok_iff.mp hlarge)
  rcases hgives with hok | ⟨-, k, hk⟩
  · have hpeak := peak_le_of_parse (parse_eq_ok_iff.mpr hok)
    rw [peak_tokens_toInfix h] at hpeak
    omega
  · refine ⟨k, ?_⟩
    rw [parse, hk]
    rfl

end Expr

/-! ## 4. The round trip -/

/-- A name is read alone if it is the first lexeme of its text and nothing
is left after it. -/
theorem Environment.reads_of_next? {env : Environment} {kind : LexemeKind} {name : String}
    (h : (Reader.standard env).next? name.toList = some (⟨kind, name⟩, [])) :
    env.Reads kind name := by
  rw [Reads, Reader.tokens, Reader.lexemes_of_next?_eq_some h, Reader.lexemes_nil]
  rfl

/-- Reading undoes writing: the line of text of a legible formula is read as
what it spells, within any limits that the spelled tree itself keeps. -/
theorem parse_toInfix (env : Environment) (limits : Limits) (root : Body) (n : Expr)
    (hlegible : n.Legible env root) (hdepth : (n.spelled root).height ≤ limits.maxDepth)
    (hheight : (n.spelled root).height ≤ limits.maxHeight) :
    parse env limits ((standard env).tokens n.toInfix) = .ok (n.spelled root) := by
  have hnesting := n.nesting_le root
  exact n.parse_tokens_toInfix hlegible (by omega) hheight

/-- A root of a negative number is read as a call over a sign. -/
theorem parse_toInfix_negative_root :
    parse .standard ⟨4, 4⟩ ((standard .standard).tokens
        (Expr.arithmetic .multiply (.root (.literal (-8)) (.literal 3)) (.free "x")).toInfix) =
      .ok (.arithmetic .multiply (.call "root" (Body.binary Number.realRoot)
        [.signed .minus (.literal 8), .literal 3]) (.free "x")) := by
  have hspelled : (Expr.arithmetic .multiply (.root (.literal (-8)) (.literal 3))
      (.free "x")).spelled (Body.binary Number.realRoot) =
        .arithmetic .multiply (.call "root" (Body.binary Number.realRoot)
          [.signed .minus (.literal 8), .literal 3]) (.free "x") := by
    have hminus : isNegative (-8) = true := by decide
    have hplus : isNegative 3 = false := by decide
    have habs : (-8 : Float).abs = 8 := by decide
    simp [Expr.spelled, hminus, hplus, habs]
  rw [← hspelled]
  refine parse_toInfix .standard ⟨4, 4⟩ _ _ ⟨?_, ?_, ?_, ?_, ?_⟩ ?_ ?_
  · intro value h
    simp only [Expr.nodes, List.cons_append, List.nil_append, List.mem_cons, List.not_mem_nil,
      Expr.literal.injEq, reduceCtorEq, false_or, or_false] at h
    rcases h with rfl | rfl <;> decide
  · intro name h
    obtain rfl : name = "x" := by simpa [Expr.nodes] using h
    exact Environment.reads_of_next? rfl
  · intro name value h
    simp [Expr.nodes] at h
  · intro name body arguments h
    simp [Expr.nodes] at h
  · intro base degree _
    exact ⟨Environment.reads_of_next? rfl, rfl, rfl⟩
  · rw [hspelled]
    decide
  · rw [hspelled]
    decide

end Formula
