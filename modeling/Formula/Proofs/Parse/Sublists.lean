/-
Formula.Proofs.Parse.Sublists — the lists inside of a token.

A parse enters the lists that a piece of markup is made of, and what a
token denotes depends on nothing else (`Denotes.mono_sublists`). Each of
them has a tree, which is a part of the tree of the token and no higher
(`Denotes.exists_of_mem_sublists`).
-/
import Formula.Proofs.Parse.Markup

namespace Formula

/-! ## 1. The lists of a token -/

/-- The exponents that the name of a function carries: one or none. -/
def exponentLists : List Token → List (List Token)
  | [.superscript [.lexeme _] exponent] => [exponent]
  | _ => []

/-- The lists that a parse enters from a token. A group with one empty
element has none: as arguments it stands for no argument, and otherwise it
has no meaning. Neither does a parse enter the name of a function, other
than an exponent of it. -/
def Token.sublists : Token → List (List Token)
  | .lexeme _ => []
  | .fraction numerator denominator => [numerator, denominator]
  | .superscript base exponent => [base, exponent]
  | .radical base [] => [base]
  | .radical base degree => [base, degree]
  | .group _ elements => argumentLists elements
  | .application name _ elements => argumentLists elements ++ exponentLists name

theorem mem_of_mem_argumentLists {element : List Token} {elements : List (List Token)}
    (h : element ∈ argumentLists elements) : element ∈ elements := by
  unfold argumentLists at h
  split at h
  · cases h
  · exact h

theorem mem_argumentLists_or {element : List Token} {elements : List (List Token)}
    (h : element ∈ elements) : element ∈ argumentLists elements ∨ element = [] := by
  unfold argumentLists
  split
  · exact .inr (List.mem_singleton.mp h)
  · exact .inl h

/-! ## 2. Names of functions -/

/-- The name of an application without an exponent. -/
theorem Context.calledFunction?_eq_none {env : Environment} {name : List Token} {f : Lexeme}
    (h : calledFunction? env name = some (f, none)) : name = [.lexeme f] := by
  unfold calledFunction? at h
  split at h
  · split at h
    · simp only [Option.some.injEq, Prod.mk.injEq] at h
      obtain ⟨rfl, -⟩ := h
      rfl
    · cases h
  · split at h <;> simp at h
  · cases h

/-- The name of an application with an exponent. -/
theorem Context.calledFunction?_eq_some {env : Environment} {name exponent : List Token}
    {f : Lexeme} (h : calledFunction? env name = some (f, some exponent)) :
    name = [.superscript [.lexeme f] exponent] := by
  unfold calledFunction? at h
  split at h
  · split at h <;> simp at h
  · split at h
    · simp only [Option.some.injEq, Prod.mk.injEq] at h
      obtain ⟨rfl, rfl⟩ := h
      rfl
    · cases h
  · cases h

/-! ## 3. What a token denotes -/

variable {env : Environment} {p q : List Token → Expr → Prop}

theorem DenotesCall.mono_arguments {f : Lexeme} {delimiters : Delimiters}
    {elements : List (List Token)} {n : Expr} (h : DenotesCall env p f delimiters elements n)
    (hpq : ∀ us m, us ∈ argumentLists elements → m.height < n.height → p us m → q us m) :
    DenotesCall env q f delimiters elements n := by
  obtain ⟨hfun, hd, list, hn⟩ := h
  refine .intro hfun hd ?_ hn
  rw [List.forall₂_iff_zip] at list ⊢
  refine ⟨list.1, fun {us m} hmem => hpq us m (List.of_mem_zip hmem).1 ?_ (list.2 hmem)⟩
  rw [Item.height_call hn]
  exact Nat.lt_succ_of_le (Expr.height_le_heightOfList (List.of_mem_zip hmem).2)

theorem DenotesCall.exists_of_mem {f : Lexeme} {delimiters : Delimiters}
    {elements : List (List Token)} {n : Expr} (h : DenotesCall env p f delimiters elements n)
    {us : List Token} (hus : us ∈ argumentLists elements) : ∃ m, p us m := by
  obtain ⟨-, -, list, -⟩ := h
  obtain ⟨i, hi, rfl⟩ := List.mem_iff_getElem.mp hus
  exact ⟨_, list.get hi (list.length_eq ▸ hi)⟩

/-- What a token denotes depends only on the trees of its lists, and these
are no higher. -/
theorem Denotes.mono_sublists {t : Token} {n : Expr} (h : Denotes env p t n)
    (hpq : ∀ us m, us ∈ t.sublists ∨ us = [] → m.height ≤ n.height → p us m → q us m) :
    Denotes env q t n := by
  cases h with
  | number hk hs => exact .number hk hs
  | free hk => exact .free hk
  | constant hk hv => exact .constant hk hv
  | fraction ha hb =>
    refine .fraction (hpq _ _ (.inl ?_) ?_ ha) (hpq _ _ (.inl ?_) ?_ hb)
    all_goals simp only [Token.sublists, Expr.height, List.mem_cons, true_or, or_true]
    all_goals omega
  | superscript ha hb =>
    refine .superscript (hpq _ _ (.inl ?_) ?_ ha) (hpq _ _ (.inl ?_) ?_ hb)
    all_goals simp only [Token.sublists, Expr.height, List.mem_cons, true_or, or_true]
    all_goals omega
  | squareRoot ha =>
    refine .squareRoot (hpq _ _ (.inl ?_) ?_ ha)
    all_goals simp only [Token.sublists, Expr.squareRoot, Expr.height, List.mem_cons, true_or]
    omega
  | @radical base degree _ _ hd ha hb =>
    have hsub : (Token.radical base degree).sublists = [base, degree] := by
      cases degree with
      | nil => exact absurd rfl hd
      | cons _ _ => rfl
    refine .radical hd (hpq _ _ (.inl ?_) ?_ ha) (hpq _ _ (.inl ?_) ?_ hb)
    all_goals simp only [hsub, Expr.height, List.mem_cons, true_or, or_true]
    all_goals omega
  | plain hg ha =>
    exact .plain hg (hpq _ _ (mem_argumentLists_or List.mem_cons_self) (Nat.le_refl _) ha)
  | bars hg ha =>
    refine .bars hg (hpq _ _ (mem_argumentLists_or List.mem_cons_self) ?_ ha)
    simp only [Expr.absolute, Expr.height, Expr.heightOfList]
    omega
  | application hf hn =>
    refine .application hf (hn.mono_arguments fun us m hus hm => ?_)
    exact hpq us m (.inl (List.mem_append_left _ hus)) (Nat.le_of_lt hm)
  | @poweredApplication _ _ exponent _ _ _ _ hf hn hb =>
    have hname := Context.calledFunction?_eq_some hf
    subst hname
    refine .poweredApplication hf (hn.mono_arguments fun us m hus hm => hpq us m (.inl ?_) ?_)
      (hpq _ _ (.inl ?_) ?_ hb)
    · exact List.mem_append_left _ hus
    · simp only [Expr.height]
      omega
    · exact List.mem_append_right _ List.mem_cons_self
    · simp only [Expr.height]
      omega

/-- The lists of a token with a tree have trees. -/
theorem Denotes.exists_of_mem_sublists {t : Token} {n : Expr} (h : Denotes env p t n)
    {us : List Token} (hus : us ∈ t.sublists) : ∃ m, p us m := by
  cases h with
  | number _ _ => cases hus
  | free _ => cases hus
  | constant _ _ => cases hus
  | fraction ha hb =>
    simp only [Token.sublists, List.mem_cons, List.not_mem_nil, or_false] at hus
    rcases hus with rfl | rfl
    · exact ⟨_, ha⟩
    · exact ⟨_, hb⟩
  | superscript ha hb =>
    simp only [Token.sublists, List.mem_cons, List.not_mem_nil, or_false] at hus
    rcases hus with rfl | rfl
    · exact ⟨_, ha⟩
    · exact ⟨_, hb⟩
  | squareRoot ha =>
    obtain rfl := List.mem_singleton.mp hus
    exact ⟨_, ha⟩
  | @radical base degree _ _ hd ha hb =>
    cases degree with
    | nil => exact absurd rfl hd
    | cons _ _ =>
      simp only [Token.sublists, List.mem_cons, List.not_mem_nil, or_false] at hus
      rcases hus with rfl | rfl
      · exact ⟨_, ha⟩
      · exact ⟨_, hb⟩
  | plain _ ha =>
    obtain rfl := List.mem_singleton.mp (mem_of_mem_argumentLists hus)
    exact ⟨_, ha⟩
  | bars _ ha =>
    obtain rfl := List.mem_singleton.mp (mem_of_mem_argumentLists hus)
    exact ⟨_, ha⟩
  | application hf hn =>
    have hname := Context.calledFunction?_eq_none hf
    subst hname
    rcases List.mem_append.mp hus with hus | hus
    · exact hn.exists_of_mem hus
    · cases hus
  | poweredApplication hf hn hb =>
    have hname := Context.calledFunction?_eq_some hf
    subst hname
    rcases List.mem_append.mp hus with hus | hus
    · exact hn.exists_of_mem hus
    · obtain rfl := List.mem_singleton.mp hus
      exact ⟨_, hb⟩

end Formula
