/-
Formula.Proofs.Parse.Markup — what single tokens denote.

A token is a leaf or a piece of markup over lists of tokens, and its tree is
made of the trees of these lists. `Denotes` says how, for any relation
between lists and trees, so it can be read with the parse of the parts as
well as with the grammar.

The value that the parse gives to a token is what the token denotes, and its
height is right (`Context.value_eq_ok`). The other way round, a token has
the value that it denotes unless a limit forbids it (`Context.value_within`),
and if the height is allowed nothing does (`Context.value_of_denotes`).
-/
import Formula.Proofs.Scan.Soundness
import Formula.Parse
import Mathlib.Data.List.Forall2

namespace Formula

/-! ## 1. Denotations -/

/-- The elements of a group as arguments. One empty element stands for no
argument. -/
def argumentLists (elements : List (List Token)) : List (List Token) :=
  if elements matches [[]] then [] else elements

/-- The tree of a call with a group of arguments. -/
inductive DenotesCall (env : Environment) (parts : List Token → Expr → Prop) (f : Lexeme)
    (delimiters : Delimiters) (elements : List (List Token)) (n : Expr) : Prop
  | intro {arguments} (hfun : env.isFunction f.text = true)
      (hd : delimiters.isArgumentList = true)
      (list : List.Forall₂ parts (argumentLists elements) arguments)
      (hn : env.call f.text arguments = .ok n)

/-- Each argument is the tree of an element. -/
theorem exists_element_of_mem {parts : List Token → Expr → Prop} {lists : List (List Token)}
    {arguments : List Expr} (h : List.Forall₂ parts lists arguments) {a : Expr}
    (ha : a ∈ arguments) : ∃ element ∈ lists, parts element a := by
  induction h with
  | nil => cases ha
  | cons hpart _ ih =>
    rcases List.mem_cons.mp ha with rfl | ha
    · exact ⟨_, List.mem_cons_self, hpart⟩
    · obtain ⟨element, hmem, hpart⟩ := ih ha
      exact ⟨element, List.mem_cons_of_mem _ hmem, hpart⟩

/-- The tree of a token that is no operator, where `parts` relates the lists
in it to their trees. -/
inductive Denotes (env : Environment) (parts : List Token → Expr → Prop) : Token → Expr → Prop
  | number {l numeral} (hk : l.kind = .number)
      (hs : Number.splitNumeral (Text.trim l.text.toList) = some (numeral, [])) :
      Denotes env parts (.lexeme l) (.literal (Number.Binary64.ofNumeral numeral))
  | free {l} (hk : l.kind = .variableName) : Denotes env parts (.lexeme l) (.free l.text)
  | constant {l value} (hk : l.kind = .constantName) (hv : env.constant? l.text = some value) :
      Denotes env parts (.lexeme l) (.constant l.text value)
  | fraction {numerator denominator a b} (ha : parts numerator a) (hb : parts denominator b) :
      Denotes env parts (.fraction numerator denominator) (.arithmetic .divide a b)
  | superscript {base exponent a b} (ha : parts base a) (hb : parts exponent b) :
      Denotes env parts (.superscript base exponent) (.power a b)
  | squareRoot {base a} (ha : parts base a) : Denotes env parts (.radical base []) a.squareRoot
  | radical {base degree a b} (hd : degree ≠ []) (ha : parts base a) (hb : parts degree b) :
      Denotes env parts (.radical base degree) (.root a b)
  | plain {delimiters element a} (hg : Context.grouping? delimiters = some .plain)
      (ha : parts element a) : Denotes env parts (.group delimiters [element]) a
  | bars {delimiters element a} (hg : Context.grouping? delimiters = some .bars)
      (ha : parts element a) : Denotes env parts (.group delimiters [element]) a.absolute
  | application {name f delimiters elements n}
      (hf : Context.calledFunction? env name = some (f, none))
      (hn : DenotesCall env parts f delimiters elements n) :
      Denotes env parts (.application name delimiters elements) n
  | poweredApplication {name f exponent delimiters elements n b}
      (hf : Context.calledFunction? env name = some (f, some exponent))
      (hn : DenotesCall env parts f delimiters elements n) (hb : parts exponent b) :
      Denotes env parts (.application name delimiters elements) (.power n b)

namespace Context

variable {ctx : Context}

/-- The lists with a tree in a context. -/
def parts (ctx : Context) (ts : List Token) (n : Expr) : Prop := ctx.nested ts = .ok n.measured

/-! ## 2. The value of a token is what it denotes -/

theorem arguments_eq_ok_iff {elements : List (List Token)} {ms : List Measured} :
    ctx.arguments elements = .ok ms ↔
      List.Forall₂ (fun element m => ctx.nested element = .ok m) elements ms := by
  induction elements generalizing ms with
  | nil =>
    simp only [arguments, Except.ok.injEq, List.forall₂_nil_left_iff]
    exact eq_comm
  | cons element rest ih =>
    simp only [arguments, bind_eq_ok_iff, List.forall₂_cons_left_iff, ih]
    constructor
    · rintro ⟨m, hm, ms', hms, hout⟩
      cases hout
      exact ⟨m, ms', hm, hms, rfl⟩
    · rintro ⟨m, ms', hm, hms, rfl⟩
      exact ⟨m, hm, ms', hms, rfl⟩

/-- The heights of the parts are right. -/
def ExactParts (ctx : Context) : Prop := ∀ ts m, ctx.nested ts = .ok m → m = m.expr.measured

theorem parts_of_nested (h : ctx.ExactParts) {ts : List Token} {m : Measured}
    (hm : ctx.nested ts = .ok m) : ∃ n, m = n.measured ∧ ctx.parts ts n :=
  ⟨m.expr, h ts m hm, (h ts m hm) ▸ hm⟩

theorem arguments_of_forall₂ (h : ctx.ExactParts) {elements : List (List Token)}
    {ms : List Measured} (hms : List.Forall₂ (fun e m => ctx.nested e = .ok m) elements ms) :
    ∃ arguments : List Expr, ms = arguments.map Expr.measured ∧
      List.Forall₂ ctx.parts elements arguments := by
  induction hms with
  | nil => exact ⟨[], rfl, .nil⟩
  | cons hm _ ih =>
    obtain ⟨n, rfl, hpart⟩ := parts_of_nested h hm
    obtain ⟨arguments, rfl, hrest⟩ := ih
    exact ⟨n :: arguments, rfl, .cons hpart hrest⟩

theorem call_eq_ok (h : ctx.ExactParts) {f : Lexeme} {delimiters : Delimiters}
    {elements : List (List Token)} {m : Measured} (hm : ctx.call f delimiters elements = .ok m) :
    m = m.expr.measured ∧ DenotesCall ctx.environment ctx.parts f delimiters elements m.expr := by
  unfold call at hm
  split at hm
  · cases hm
  · rename_i hfun
    split at hm
    · cases hm
    · rename_i hd
      obtain ⟨ms, hms, hm⟩ := bind_eq_ok_iff.mp hm
      obtain ⟨arguments, rfl, hparts⟩ := arguments_of_forall₂ h (arguments_eq_ok_iff.mp hms)
      obtain ⟨-, hm⟩ := Item.grow_bind_eq_ok_iff.mp hm
      obtain ⟨n, hn, hm⟩ := bind_eq_ok_iff.mp hm
      cases hm
      rw [map_expr_measured] at hn
      rw [map_height_measured, ← Expr.heightOfList_eq_foldl, ← Item.height_call hn]
      exact ⟨rfl, .intro (by simpa using hfun) (by simpa using hd) hparts hn⟩

/-- Markup over two lists. -/
theorem pair_eq_ok (h : ctx.ExactParts) {ts us : List Token} {node : Expr → Expr → Expr}
    (hnode : ∀ a b, (node a b).height = max a.height b.height + 1) {m : Measured}
    (hm : (do
      let a ← ctx.nested ts
      let b ← ctx.nested us
      let height ← ctx.grow [a.height, b.height]
      .ok ⟨node a.expr b.expr, height⟩) = Except.ok m) :
    ∃ a b, ctx.parts ts a ∧ ctx.parts us b ∧ m = (node a b).measured := by
  obtain ⟨a, ha, hm⟩ := bind_eq_ok_iff.mp hm
  obtain ⟨b, hb, hm⟩ := bind_eq_ok_iff.mp hm
  obtain ⟨-, hm⟩ := Item.grow_bind_eq_ok_iff.mp hm
  obtain ⟨a, rfl, ha⟩ := parts_of_nested h ha
  obtain ⟨b, rfl, hb⟩ := parts_of_nested h hb
  cases hm
  refine ⟨a, b, ha, hb, ?_⟩
  simp [Expr.measured, hnode]

theorem leaf_eq_ok {l : Lexeme} {n : Expr} (hn : ctx.leaf l = .ok n) :
    n.height = 1 ∧ Denotes ctx.environment ctx.parts (.lexeme l) n := by
  unfold leaf at hn
  split at hn
  · rename_i hk
    split at hn
    · rename_i hs
      cases hn
      exact ⟨rfl, .number hk hs⟩
    · cases hn
  · rename_i hk
    cases hn
    exact ⟨rfl, .free hk⟩
  · rename_i hk
    split at hn
    · rename_i hv
      cases hn
      exact ⟨rfl, .constant hk hv⟩
    · cases hn
  · cases hn

theorem group_eq_ok (h : ctx.ExactParts) {delimiters : Delimiters}
    {elements : List (List Token)} {m : Measured} (hm : ctx.group delimiters elements = .ok m) :
    m = m.expr.measured ∧
      Denotes ctx.environment ctx.parts (.group delimiters elements) m.expr := by
  unfold group at hm
  split at hm
  · cases hm
  · rename_i grouping hg
    split at hm
    · rename_i element
      obtain ⟨inner, hinner, hm⟩ := bind_eq_ok_iff.mp hm
      obtain ⟨a, rfl, ha⟩ := parts_of_nested h hinner
      cases grouping with
      | plain =>
        cases hm
        exact ⟨rfl, .plain hg ha⟩
      | bars =>
        obtain ⟨-, hm⟩ := Item.grow_bind_eq_ok_iff.mp hm
        cases hm
        refine ⟨?_, .bars hg ha⟩
        simp [Expr.measured, Expr.absolute, Expr.height, Expr.heightOfList]
    · cases hm
    · cases hm

theorem application_eq_ok (h : ctx.ExactParts) {name : List Token} {delimiters : Delimiters}
    {elements : List (List Token)} {m : Measured}
    (hm : ctx.application name delimiters elements = .ok m) :
    m = m.expr.measured ∧
      Denotes ctx.environment ctx.parts (.application name delimiters elements) m.expr := by
  unfold application at hm
  split at hm
  · rename_i hf
    obtain ⟨hexact, hn⟩ := call_eq_ok h hm
    exact ⟨hexact, .application hf hn⟩
  · rename_i hf
    obtain ⟨call, hcall, hm⟩ := bind_eq_ok_iff.mp hm
    obtain ⟨exponent, hexponent, hm⟩ := bind_eq_ok_iff.mp hm
    obtain ⟨-, hm⟩ := Item.grow_bind_eq_ok_iff.mp hm
    obtain ⟨hexact, hn⟩ := call_eq_ok h hcall
    obtain ⟨b, rfl, hb⟩ := parts_of_nested h hexponent
    cases hm
    refine ⟨?_, .poweredApplication hf hn hb⟩
    rw [hexact]
    simp [Expr.measured, Expr.height]
  · cases hm

/-- The value of a token is what the token denotes, with its height. -/
theorem value_eq_ok (h : ctx.ExactParts) {t : Token} {m : Measured}
    (hm : ctx.value t = .ok m) :
    m = m.expr.measured ∧ Denotes ctx.environment ctx.parts t m.expr := by
  cases t with
  | lexeme l =>
    obtain ⟨n, hn, hm⟩ := bind_eq_ok_iff.mp hm
    obtain ⟨hheight, hdenotes⟩ := leaf_eq_ok hn
    cases hm
    exact ⟨by rw [Expr.measured, hheight], hdenotes⟩
  | fraction numerator denominator =>
    obtain ⟨a, b, ha, hb, rfl⟩ := pair_eq_ok h (fun _ _ => rfl) hm
    exact ⟨rfl, .fraction ha hb⟩
  | superscript base exponent =>
    obtain ⟨a, b, ha, hb, rfl⟩ := pair_eq_ok h (fun _ _ => rfl) hm
    exact ⟨rfl, .superscript ha hb⟩
  | radical base degree =>
    cases degree with
    | nil =>
      obtain ⟨a, ha, hm⟩ := bind_eq_ok_iff.mp hm
      obtain ⟨-, hm⟩ := Item.grow_bind_eq_ok_iff.mp hm
      obtain ⟨a, rfl, ha⟩ := parts_of_nested h ha
      cases hm
      refine ⟨?_, .squareRoot ha⟩
      simp [Expr.measured, Expr.squareRoot, Expr.height]
    | cons t rest =>
      obtain ⟨a, b, ha, hb, rfl⟩ := pair_eq_ok h (fun _ _ => rfl) hm
      exact ⟨rfl, .radical (List.cons_ne_nil _ _) ha hb⟩
  | group delimiters elements => exact group_eq_ok h hm
  | application name delimiters elements => exact application_eq_ok h hm

theorem exact_of_exactParts (h : ctx.ExactParts) : ctx.Exact where
  value hv := (value_eq_ok h hv).1
  call hv := (call_eq_ok h hv).1

end Context

/-! ## 3. What a token denotes is its value, within the limits -/

/-- A result is the given one, or where that is excused, a refusal for
depth. -/
def Gives {α : Type} (excused : Prop) (r : Except ParseError α) (a : α) : Prop :=
  r = .ok a ∨ excused ∧ ∃ k, r = .error (.nestingTooDeep k)

namespace Gives

variable {α β : Type} {excused : Prop}

theorem ok (a : α) : Gives excused (.ok a) a := .inl rfl

theorem bind {x : Except ParseError α} {f : α → Except ParseError β} {a : α} {b : β}
    (hx : Gives excused x a) (hf : Gives excused (f a) b) : Gives excused (x >>= f) b := by
  rcases hx with rfl | ⟨hex, k, rfl⟩
  · exact hf
  · exact .inr ⟨hex, k, rfl⟩

theorem grow {maxHeight height : Nat} {heights : List Nat}
    (hheight : height = heights.foldl max 0 + 1) (hle : excused ∨ height ≤ maxHeight) :
    Gives excused (grow maxHeight heights) height := by
  cases hg : Formula.grow maxHeight heights with
  | ok h =>
    obtain ⟨rfl, -⟩ := grow_eq_ok_iff.mp hg
    rw [hheight]
    exact .ok _
  | error e =>
    rcases hle with hex | hle
    · exact .inr ⟨hex, maxHeight, by rw [eq_of_grow_eq_error hg]⟩
    · rw [grow_eq_ok_iff.mpr ⟨hheight, hle⟩] at hg
      cases hg

/-- A node over formulas that carry their heights. -/
theorem node {maxHeight : Nat} {heights : List Nat} {n : Expr}
    (hn : n.height = heights.foldl max 0 + 1) (hle : excused ∨ n.height ≤ maxHeight) :
    Gives excused (Formula.grow maxHeight heights >>= fun height => .ok ⟨n, height⟩) n.measured :=
  (grow hn hle).bind (.ok _)

theorem eq_ok {x : Except ParseError α} {a : α} (h : Gives False x a) : x = .ok a := by
  rcases h with h | ⟨h, -⟩
  · exact h
  · exact h.elim

end Gives

namespace Context

variable {ctx : Context} {excused : Prop}

theorem arguments_of_parts {elements : List (List Token)} {arguments : List Expr}
    (h : List.Forall₂ (fun ts n => Gives excused (ctx.nested ts) n.measured) elements arguments) :
    Gives excused (ctx.arguments elements) (arguments.map Expr.measured) := by
  induction h with
  | nil => exact .ok _
  | cons hn _ ih => exact hn.bind (ih.bind (.ok _))

theorem call_of_denotes {f : Lexeme} {delimiters : Delimiters} {elements : List (List Token)}
    {n : Expr}
    (h : DenotesCall ctx.environment (fun ts n => Gives excused (ctx.nested ts) n.measured)
      f delimiters elements n)
    (hle : excused ∨ n.height ≤ ctx.limits.maxHeight) :
    Gives excused (ctx.call f delimiters elements) n.measured := by
  obtain ⟨hfun, hd, list, hn⟩ := h
  unfold call
  rw [if_neg (by simp [hfun]), if_neg (by simp [hd])]
  refine (arguments_of_parts list).bind (Gives.bind (Gives.grow ?_ hle) ?_)
  · rw [Item.height_call hn, map_height_measured, Expr.heightOfList_eq_foldl]
  · rw [map_expr_measured, hn]
    exact .ok _

theorem foldl_max_pair (a b : Expr) :
    [a.measured.height, b.measured.height].foldl max 0 + 1 = max a.height b.height + 1 := by
  simp [Expr.measured]

theorem foldl_max_single (a : Expr) : [a.measured.height].foldl max 0 + 1 = a.height + 1 := by
  simp [Expr.measured]

/-- A token has the value that it denotes, unless it is too high. -/
theorem value_of_denotes {t : Token} {n : Expr}
    (h : Denotes ctx.environment (fun ts n => Gives excused (ctx.nested ts) n.measured) t n)
    (hle : excused ∨ n.height ≤ ctx.limits.maxHeight) :
    Gives excused (ctx.value t) n.measured := by
  cases h with
  | @number l numeral hk hs =>
    refine .inl ?_
    simp [value, leaf, hk, hs, bind, Except.bind, Expr.measured, Expr.height]
  | @free l hk =>
    refine .inl ?_
    simp [value, leaf, hk, bind, Except.bind, Expr.measured, Expr.height]
  | @constant l v hk hv =>
    refine .inl ?_
    simp [value, leaf, hk, hv, bind, Except.bind, Expr.measured, Expr.height]
  | fraction ha hb => exact ha.bind (hb.bind (.node (foldl_max_pair _ _).symm hle))
  | superscript ha hb => exact ha.bind (hb.bind (.node (foldl_max_pair _ _).symm hle))
  | squareRoot ha => exact ha.bind (.node (foldl_max_pair _ (.literal 2)).symm hle)
  | @radical base degree a b hd ha hb =>
    cases degree with
    | nil => exact absurd rfl hd
    | cons t rest => exact ha.bind (hb.bind (.node (foldl_max_pair _ _).symm hle))
  | plain hg ha =>
    show Gives excused (ctx.group _ _) _
    unfold group
    rw [hg]
    exact ha.bind (.ok _)
  | bars hg ha =>
    show Gives excused (ctx.group _ _) _
    unfold group
    rw [hg]
    refine ha.bind (.node ?_ hle)
    rw [foldl_max_single]
    simp [Expr.absolute, Expr.height, Expr.heightOfList, Expr.measured]
  | application hf hn =>
    show Gives excused (ctx.application _ _ _) _
    unfold application
    rw [hf]
    exact call_of_denotes hn hle
  | @poweredApplication name f exponent delimiters elements n b hf hn hb =>
    show Gives excused (ctx.application _ _ _) _
    unfold application
    rw [hf]
    have hcall : excused ∨ n.height ≤ ctx.limits.maxHeight := by
      rcases hle with hex | hle
      · exact .inl hex
      · rw [Expr.height] at hle
        exact .inr (by omega)
    exact (call_of_denotes hn hcall).bind (hb.bind (.node (foldl_max_pair _ _).symm hle))

end Context

end Formula
