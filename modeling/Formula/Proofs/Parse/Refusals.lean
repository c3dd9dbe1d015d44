/-
Formula.Proofs.Parse.Refusals — why a token has no value.

A token is refused for what it is, in which case it is `Unfit`, for one of
the lists in it, or for the height of its tree. `Context.value_ends` says
that there are no other reasons, and bounds the height of the value at the
same time: if the trees of the lists are no higher than the lists are
large (`Measured.Fits`), neither is that of the token.
-/
import Formula.Proofs.Parse.Language
import Formula.Proofs.Scan.Supply

namespace Formula

open Token

/-- Why a group cannot be the arguments of a function, whatever its elements
mean. -/
inductive UnfitCall (env : Environment) (f : Lexeme) (delimiters : Delimiters)
    (elements : List (List Token)) : ParseError → Prop
  | undeclared (hfun : env.isFunction f.text = false) :
      UnfitCall env f delimiters elements (.unrecognizedFunction f.text)
  | delimiters (hd : delimiters.isArgumentList = false) :
      UnfitCall env f delimiters elements
        (.invalidArgumentList (Token.group delimiters elements).text)
  | call {e} (hfun : env.isFunction f.text = true)
      (h : CallError env f.text (argumentLists elements).length e) :
      UnfitCall env f delimiters elements e

/-- Why a token has no value, whatever the lists in it mean. -/
inductive Token.Unfit (env : Environment) : Token → ParseError → Prop
  | number {l} (hk : l.kind = .number)
      (hs : ∀ numeral, Number.splitNumeral (Text.trim l.text.toList) ≠ some (numeral, [])) :
      Unfit env (.lexeme l) (.malformedLiteral l.text)
  | constant {l} (hk : l.kind = .constantName) (hv : env.constant? l.text = none) :
      Unfit env (.lexeme l) (.undeclaredConstant l.text)
  | noOperand {l} (hk : l.kind.isOperand = false) :
      Unfit env (.lexeme l) (.internal (.notAValue l.text))
  | name {name delimiters elements} (hf : Context.calledFunction? env name = none) :
      Unfit env (.application name delimiters elements)
        (.unrecognizedFunction (Token.application name delimiters elements).text)
  | call {name f exponent delimiters elements e}
      (hf : Context.calledFunction? env name = some (f, exponent))
      (h : UnfitCall env f delimiters elements e) :
      Unfit env (.application name delimiters elements) e
  | delimiters {delimiters elements} (hg : Context.grouping? delimiters = none) :
      Unfit env (.group delimiters elements)
        (.unsupportedDelimiters (Token.group delimiters elements).text)
  | noElement {delimiters} (hg : Context.grouping? delimiters ≠ none) :
      Unfit env (.group delimiters [])
        (.malformedExpression (.emptyGroup (Token.group delimiters []).text))
  | severalElements {delimiters elements} (hg : Context.grouping? delimiters ≠ none)
      (hlen : 2 ≤ elements.length) :
      Unfit env (.group delimiters elements)
        (.unexpectedSeparator (Token.group delimiters elements).text)

theorem foldl_max_le_iff {heights : List Nat} {start bound : Nat} :
    heights.foldl max start ≤ bound ↔ start ≤ bound ∧ ∀ k ∈ heights, k ≤ bound := by
  induction heights generalizing start with
  | nil => simp
  | cons k rest ih => simp only [List.foldl_cons, ih, Nat.max_le, List.forall_mem_cons, and_assoc]

/-- A value with a height that a list of this size can have. -/
def Measured.Fits (size : Nat) (m : Measured) : Prop := 0 < m.height ∧ m.height ≤ size

theorem Measured.Fits.mono {size size' : Nat} {m : Measured} (h : m.Fits size)
    (hle : size ≤ size') : m.Fits size' := ⟨h.1, Nat.le_trans h.2 hle⟩

/-- What a parse finds is not higher than its list is large. -/
theorem Measured.fits_of_parseWithin {env : Environment} {limits : Limits} {room : Nat}
    {ts : List Token} {m : Measured} (h : parseWithin env limits room ts = .ok m) :
    m.Fits (sizes ts) := by
  have hexact : m = m.expr.measured := Context.exactParts_within env limits (room + 1) ts m h
  rw [hexact] at h ⊢
  exact ⟨m.expr.height_pos, Environment.height_le_of_parseWithin h⟩

/-- So only the errors of a parse remain to be found. -/
theorem parseWithin_ends {env : Environment} {limits : Limits} {room : Nat} {ts : List Token}
    {E : ParseError → Prop} (h : Ends (fun _ => True) E (parseWithin env limits room ts)) :
    Ends (Measured.Fits (sizes ts)) E (parseWithin env limits room ts) :=
  Ends.iff_forall.mpr ⟨fun _ => Measured.fits_of_parseWithin, (Ends.iff_forall.mp h).2⟩

namespace Context

variable {ctx : Context} {E : ParseError → Prop}

theorem leaf_ends (l : Lexeme) :
    Ends (fun n => n.height = 1) (Unfit ctx.environment (.lexeme l)) (ctx.leaf l) := by
  unfold leaf
  split
  · rename_i hk
    split
    · rfl
    · rename_i hs
      exact .number hk hs
  · rfl
  · rename_i hk
    split
    · rfl
    · rename_i hv
      exact .constant hk hv
  · rename_i hnumber hvariable hconstant
    refine .noOperand ?_
    cases hk : l.kind <;> simp_all [LexemeKind.isOperand]

/-- A node grows, or it is higher than allowed. -/
theorem grow_ends {heights : List Nat} {bound : Nat} (hbound : heights.foldl max 0 + 1 ≤ bound)
    (hhigh : ctx.limits.maxHeight < bound → E (.nestingTooDeep ctx.limits.maxHeight)) :
    Ends (fun height => 0 < height ∧ height ≤ bound) E (ctx.grow heights) := by
  unfold grow
  cases hg : Formula.grow ctx.limits.maxHeight heights with
  | ok height =>
    obtain ⟨rfl, -⟩ := grow_eq_ok_iff.mp hg
    exact ⟨Nat.succ_pos _, hbound⟩
  | error e =>
    obtain rfl := eq_of_grow_eq_error hg
    refine hhigh (Nat.lt_of_lt_of_le ?_ hbound)
    by_contra hle
    rw [grow_eq_ok_iff.mpr ⟨rfl, Nat.not_lt.mp hle⟩] at hg
    cases hg

theorem node_ends {heights : List Nat} {bound : Nat} (n : Expr)
    (hbound : heights.foldl max 0 + 1 ≤ bound)
    (hhigh : ctx.limits.maxHeight < bound → E (.nestingTooDeep ctx.limits.maxHeight)) :
    Ends (Measured.Fits bound) E (ctx.grow heights >>= fun height => .ok ⟨n, height⟩) :=
  (grow_ends hbound hhigh).bind fun _ hheight => hheight

/-- The arguments of a call, of which none is higher than all elements
together are large. -/
theorem arguments_ends {elements : List (List Token)}
    (hparts : ∀ us ∈ elements, Ends (Measured.Fits (sizes us)) E (ctx.nested us)) :
    Ends (fun ms => ms.length = elements.length ∧ ∀ m ∈ ms, m.height ≤ elementSizes elements) E
      (ctx.arguments elements) := by
  induction elements with
  | nil => exact ⟨rfl, by simp⟩
  | cons element rest ih =>
    refine (hparts element List.mem_cons_self).bind fun m hm => ?_
    refine (ih fun us hus => hparts us (List.mem_cons_of_mem _ hus)).bind ?_
    rintro ms ⟨hlen, hms⟩
    refine ⟨by simp [hlen], fun k hk => ?_⟩
    rw [elementSizes]
    rcases List.mem_cons.mp hk with rfl | hk
    · exact Nat.le_trans hm.2 (Nat.le_add_right _ _)
    · exact Nat.le_trans (hms k hk) (Nat.le_add_left _ _)

theorem call_ends {f : Lexeme} {delimiters : Delimiters} {elements : List (List Token)}
    (hparts : ∀ us ∈ elements, Ends (Measured.Fits (sizes us)) E (ctx.nested us))
    (hunfit : ∀ e, UnfitCall ctx.environment f delimiters elements e → E e)
    (hhigh : ctx.limits.maxHeight < elementSizes elements + 1 →
      E (.nestingTooDeep ctx.limits.maxHeight)) :
    Ends (Measured.Fits (elementSizes elements + 1)) E (ctx.call f delimiters elements) := by
  unfold call
  split
  · rename_i hfun
    exact hunfit _ (.undeclared (by simpa using hfun))
  · rename_i hfun
    split
    · rename_i hd
      exact hunfit _ (.delimiters (by simpa using hd))
    · have hlists : elementSizes (argumentLists elements) ≤ elementSizes elements := by
        unfold argumentLists
        split
        · exact Nat.zero_le _
        · exact Nat.le_refl _
      have harguments : ∀ us ∈ argumentLists elements,
          Ends (Measured.Fits (sizes us)) E (ctx.nested us) :=
        fun us hus => hparts us (mem_of_mem_argumentLists hus)
      refine (arguments_ends harguments).bind ?_
      rintro ms ⟨hlen, hms⟩
      have hheights : (ms.map Measured.height).foldl max 0 ≤ elementSizes elements := by
        refine foldl_max_le_iff.mpr ⟨Nat.zero_le _, fun k hk => ?_⟩
        obtain ⟨m, hm, rfl⟩ := List.mem_map.mp hk
        exact Nat.le_trans (hms m hm) hlists
      have hcall : Ends (fun _ => True) E
          (ctx.environment.call f.text (ms.map Measured.expr)) := by
        refine (Environment.call_ends _ _).mono (fun _ h => h) fun e he => ?_
        rw [List.length_map, hlen] at he
        exact hunfit e (.call (by simpa using hfun) he)
      exact (grow_ends (Nat.succ_le_succ hheights) hhigh).bind fun height hheight =>
        hcall.bind fun _ _ => hheight

/-- Markup over two lists. -/
theorem pair_ends {ts us : List Token} {node : Expr → Expr → Expr} {bound : Nat}
    (hts : Ends (Measured.Fits (sizes ts)) E (ctx.nested ts))
    (hus : Ends (Measured.Fits (sizes us)) E (ctx.nested us))
    (hbound : sizes ts + sizes us + 1 ≤ bound)
    (hhigh : ctx.limits.maxHeight < bound → E (.nestingTooDeep ctx.limits.maxHeight)) :
    Ends (Measured.Fits bound) E (do
      let a ← ctx.nested ts
      let b ← ctx.nested us
      let height ← ctx.grow [a.height, b.height]
      .ok ⟨node a.expr b.expr, height⟩) := by
  refine hts.bind fun a ha => hus.bind fun b hb => node_ends _ ?_ hhigh
  have := ha.2
  have := hb.2
  simp only [List.foldl_cons, List.foldl_nil]
  omega

theorem group_ends {delimiters : Delimiters} {elements : List (List Token)}
    (hparts : ∀ us ∈ elements, Ends (Measured.Fits (sizes us)) E (ctx.nested us))
    (hunfit : ∀ e, Unfit ctx.environment (.group delimiters elements) e → E e)
    (hhigh : ctx.limits.maxHeight < elementSizes elements + 1 →
      E (.nestingTooDeep ctx.limits.maxHeight)) :
    Ends (Measured.Fits (elementSizes elements + 1)) E (ctx.group delimiters elements) := by
  unfold group
  split
  · rename_i hg
    exact hunfit _ (.delimiters hg)
  · rename_i grouping hg
    have hmeaning : grouping? delimiters ≠ none := by simp [hg]
    split
    · rename_i element
      refine (hparts element List.mem_cons_self).bind fun inner hinner => ?_
      have hsize : sizes element = elementSizes [element] := (Nat.add_zero _).symm
      cases grouping with
      | plain => exact hinner.mono (by omega)
      | bars =>
        refine node_ends _ ?_ hhigh
        have := hinner.2
        simp only [List.foldl_cons, List.foldl_nil]
        omega
    · exact hunfit _ (.noElement hmeaning)
    · rename_i hone hnil
      refine hunfit _ (.severalElements hmeaning ?_)
      match elements, hone, hnil with
      | [], _, hnil => exact absurd rfl hnil
      | [element], hone, _ => exact absurd rfl (hone element)
      | _ :: _ :: _, _, _ => exact Nat.le_add_left 2 _

theorem application_ends {name : List Token} {delimiters : Delimiters}
    {elements : List (List Token)}
    (hparts : ∀ us, sizes us ≤ sizes name + elementSizes elements →
      Ends (Measured.Fits (sizes us)) E (ctx.nested us))
    (hunfit : ∀ e, Unfit ctx.environment (.application name delimiters elements) e → E e)
    (hhigh : ctx.limits.maxHeight < sizes name + elementSizes elements + 1 →
      E (.nestingTooDeep ctx.limits.maxHeight)) :
    Ends (Measured.Fits (sizes name + elementSizes elements + 1)) E
      (ctx.application name delimiters elements) := by
  have hcall : ∀ f exponent, calledFunction? ctx.environment name = some (f, exponent) →
      Ends (Measured.Fits (elementSizes elements + 1)) E (ctx.call f delimiters elements) := by
    intro f exponent hf
    refine call_ends (fun us hus => hparts us ?_) (fun e he => hunfit e (.call hf he))
      fun hlt => hhigh (by omega)
    exact Nat.le_trans (sizes_le_elementSizes hus) (Nat.le_add_left _ _)
  unfold application
  split
  · rename_i f hf
    exact (hcall f none hf).mono (fun m hm => hm.mono (by omega)) fun _ h => h
  · rename_i f exponent hf
    refine (hcall f (some exponent) hf).bind fun call hcall => ?_
    have hsize : sizes exponent + 2 ≤ sizes name := by
      rw [calledFunction?_eq_some hf]
      simp only [sizes, size]
      omega
    refine (hparts exponent (by omega)).bind fun m hexponent => node_ends _ ?_ hhigh
    have := hcall.2
    have := hexponent.2
    simp only [List.foldl_cons, List.foldl_nil]
    omega
  · rename_i hf
    exact hunfit _ (.name hf)

/-- The value of a token, or why it has none. -/
theorem value_ends {t : Token}
    (hparts : ∀ us, sizes us < t.size → Ends (Measured.Fits (sizes us)) E (ctx.nested us))
    (hunfit : ∀ e, t.Unfit ctx.environment e → E e)
    (hhigh : ctx.limits.maxHeight < t.size → E (.nestingTooDeep ctx.limits.maxHeight)) :
    Ends (Measured.Fits t.size) E (ctx.value t) := by
  cases t with
  | lexeme l =>
    exact ((leaf_ends l).mono (fun _ h => h) hunfit).bind fun _ _ => ⟨Nat.one_pos, Nat.le_refl 1⟩
  | fraction numerator denominator =>
    rw [size] at hparts
    exact pair_ends (hparts _ (by omega)) (hparts _ (by omega)) (Nat.le_refl _) hhigh
  | superscript base exponent =>
    rw [size] at hparts
    exact pair_ends (hparts _ (by omega)) (hparts _ (by omega)) (Nat.le_refl _) hhigh
  | radical base degree =>
    rw [size] at hparts
    cases degree with
    | nil =>
      refine (hparts base (by omega)).bind fun m hm => node_ends _ ?_ hhigh
      -- The degree two is a leaf of its own, but no higher than the base.
      obtain ⟨hpos, hle⟩ := hm
      simp only [List.foldl_cons, List.foldl_nil, size]
      omega
    | cons t rest =>
      exact pair_ends (hparts _ (by omega)) (hparts _ (by omega)) (Nat.le_refl _) hhigh
  | group delimiters elements =>
    refine group_ends (fun us hus => hparts us ?_) hunfit hhigh
    exact Nat.lt_succ_of_le (sizes_le_elementSizes hus)
  | application name delimiters elements =>
    exact application_ends (fun us hus => hparts us (Nat.lt_succ_of_le hus)) hunfit hhigh

end Context

end Formula
