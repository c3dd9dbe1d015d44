/-
Formula.Proofs.Parse.Size — the size of a list bounds all that limits count.

The size of a list is the number of its tokens, those inside of markup
included. Neither the parentheses of a list nor its markup can nest deeper,
and its tree is not higher.
-/
import Formula.Proofs.Parse.Sublists

namespace Formula

namespace Token

mutual

/-- The number of tokens of a token: itself, and those inside. -/
def size : Token → Nat
  | .lexeme _ => 1
  | .fraction numerator denominator => sizes numerator + sizes denominator + 1
  | .superscript base exponent => sizes base + sizes exponent + 1
  | .radical base degree => sizes base + sizes degree + 1
  | .group _ elements => elementSizes elements + 1
  | .application name _ elements => sizes name + elementSizes elements + 1

/-- The number of tokens of a list. -/
def sizes : List Token → Nat
  | [] => 0
  | t :: rest => size t + sizes rest

/-- The number of tokens of the elements of a group. -/
def elementSizes : List (List Token) → Nat
  | [] => 0
  | element :: rest => sizes element + elementSizes rest

end

theorem size_pos (t : Token) : 0 < t.size := by
  cases t <;> simp [size]

theorem sizes_append (ts us : List Token) : sizes (ts ++ us) = sizes ts + sizes us := by
  induction ts with
  | nil => simp [sizes]
  | cons t rest ih =>
    simp only [List.cons_append, sizes, ih]
    omega

theorem size_le_sizes {t : Token} {ts : List Token} (h : t ∈ ts) : t.size ≤ sizes ts := by
  induction ts with
  | nil => cases h
  | cons u rest ih =>
    rw [sizes]
    rcases List.mem_cons.mp h with rfl | h
    · omega
    · have := ih h
      omega

theorem sizes_le_elementSizes {element : List Token} {elements : List (List Token)}
    (h : element ∈ elements) : sizes element ≤ elementSizes elements := by
  induction elements with
  | nil => cases h
  | cons e rest ih =>
    rw [elementSizes]
    rcases List.mem_cons.mp h with rfl | h
    · omega
    · have := ih h
      omega

/-- Each token opens one parenthesis at most. -/
theorem peak_le (depth : Nat) (ts : List Token) : peak depth ts ≤ depth + sizes ts := by
  induction ts generalizing depth with
  | nil => simp [peak, sizes]
  | cons t rest ih =>
    have hstep : t.depthAfter depth ≤ depth + 1 := by
      unfold depthAfter
      split
      · split <;> omega
      · omega
    have hrest := ih (t.depthAfter depth)
    have hpos := t.size_pos
    rw [peak, sizes]
    omega

end Token

open Token

/-! ## 1. Parts of a token -/

/-- The lists of a token are smaller than the token. -/
theorem Token.sizes_lt_of_mem_sublists {t : Token} {us : List Token} (h : us ∈ t.sublists) :
    sizes us < t.size := by
  cases t with
  | lexeme l => cases h
  | fraction numerator denominator =>
    simp only [sublists, List.mem_cons, List.not_mem_nil, or_false] at h
    rw [size]
    rcases h with rfl | rfl <;> omega
  | superscript base exponent =>
    simp only [sublists, List.mem_cons, List.not_mem_nil, or_false] at h
    rw [size]
    rcases h with rfl | rfl <;> omega
  | radical base degree =>
    have h : us = base ∨ us = degree := by
      cases degree with
      | nil => exact .inl (List.mem_singleton.mp h)
      | cons _ _ => simpa [sublists] using h
    rw [size]
    rcases h with rfl | rfl <;> omega
  | group delimiters elements =>
    exact Nat.lt_succ_of_le (sizes_le_elementSizes (mem_of_mem_argumentLists h))
  | application name delimiters elements =>
    rw [size]
    rcases List.mem_append.mp h with h | h
    · have := sizes_le_elementSizes (mem_of_mem_argumentLists h)
      omega
    · unfold exponentLists at h
      split at h
      · obtain rfl := List.mem_singleton.mp h
        simp only [sizes, size]
        omega
      · cases h

/-- The arguments that a group denotes a call by are no larger than the
group. -/
theorem DenotesCall.mono {env : Environment} {p q : List Token → Expr → Prop} {f : Lexeme}
    {delimiters : Delimiters} {elements : List (List Token)} {n : Expr}
    (h : DenotesCall env p f delimiters elements n)
    (hpq : ∀ ts m, sizes ts ≤ elementSizes elements → p ts m → q ts m) :
    DenotesCall env q f delimiters elements n :=
  h.mono_arguments fun us m hus _ =>
    hpq us m (sizes_le_elementSizes (mem_of_mem_argumentLists hus))

/-- What a token denotes depends only on lists that are smaller than the
token. -/
theorem Denotes.mono {env : Environment} {p q : List Token → Expr → Prop} {t : Token} {n : Expr}
    (h : Denotes env p t n) (hpq : ∀ ts m, sizes ts < t.size → p ts m → q ts m) :
    Denotes env q t n := by
  refine h.mono_sublists fun us m hus _ => hpq us m ?_
  rcases hus with hus | rfl
  · exact sizes_lt_of_mem_sublists hus
  · exact t.size_pos

/-! ## 2. Heights -/

theorem Expr.height_pos (n : Expr) : 0 < n.height := by
  cases n <;> simp [height]

theorem Expr.heightOfList_le_iff {as : List Expr} {k : Nat} :
    heightOfList as ≤ k ↔ ∀ a ∈ as, a.height ≤ k := by
  induction as with
  | nil => simp [heightOfList]
  | cons a rest ih => simp only [heightOfList, List.forall_mem_cons, Nat.max_le, ih]

variable {env : Environment} {parts : List Token → Expr → Prop}

theorem DenotesCall.height_le (hparts : ∀ ts m, parts ts m → m.height ≤ sizes ts) {f : Lexeme}
    {delimiters : Delimiters} {elements : List (List Token)} {n : Expr}
    (h : DenotesCall env parts f delimiters elements n) : n.height ≤ elementSizes elements + 1 := by
  obtain ⟨-, -, list, hn⟩ := h
  rw [Item.height_call hn]
  refine Nat.succ_le_succ (Expr.heightOfList_le_iff.mpr fun a ha => ?_)
  obtain ⟨element, hmem, hpart⟩ := exists_element_of_mem list ha
  exact Nat.le_trans (hparts _ _ hpart) (sizes_le_elementSizes (mem_of_mem_argumentLists hmem))

theorem Denotes.height_le (hparts : ∀ ts m, parts ts m → m.height ≤ sizes ts) {t : Token}
    {n : Expr} (h : Denotes env parts t n) : n.height ≤ t.size := by
  cases h with
  | number _ _ => exact Nat.le_refl 1
  | free _ => exact Nat.le_refl 1
  | constant _ _ => exact Nat.le_refl 1
  | fraction ha hb =>
    have := hparts _ _ ha
    have := hparts _ _ hb
    simp only [Expr.height, size]
    omega
  | superscript ha hb =>
    have := hparts _ _ ha
    have := hparts _ _ hb
    simp only [Expr.height, size]
    omega
  | @squareRoot base a ha =>
    have := hparts _ _ ha
    have := a.height_pos
    simp only [Expr.squareRoot, Expr.height, size]
    omega
  | radical _ ha hb =>
    have := hparts _ _ ha
    have := hparts _ _ hb
    simp only [Expr.height, size]
    omega
  | plain _ ha =>
    have := hparts _ _ ha
    simp only [size, elementSizes]
    omega
  | bars _ ha =>
    have := hparts _ _ ha
    simp only [Expr.absolute, Expr.height, Expr.heightOfList, size, elementSizes]
    omega
  | application _ hn =>
    have := hn.height_le hparts
    simp only [size]
    omega
  | poweredApplication hf hn hb =>
    have := hn.height_le hparts
    have := hparts _ _ hb
    rw [Context.calledFunction?_eq_some hf]
    simp only [Expr.height, size, sizes]
    omega

/-- A grammar in which no token has a tree that is too high for it. -/
structure Lexicon.Bounded (x : Lexicon) : Prop where
  value : ∀ {t n}, x.value t n → n.height ≤ t.size
  groupCall : ∀ {f delimiters elements n}, x.groupCall f delimiters elements n →
    n.height ≤ elementSizes elements + 1

/-- The tree of a list is not higher than the list is large. -/
theorem Derives.height_le {x : Lexicon} (hx : x.Bounded) {c : Category} {ts : List Token}
    {n : Expr} (h : Derives x c ts n) : n.height ≤ sizes ts := by
  induction h using Derives.roles (Q := fun ts as _ => Expr.heightOfList as ≤ sizes ts) with
  | loose _ _ ih => exact ih
  | @binary op _ _ _ _ _ _ hc _ _ _ ihl ihr =>
    have hop : op.left?.isSome = true := by rw [hc]; rfl
    rw [Item.height_join hop, sizes_append, sizes, size]
    omega
  | sign _ _ ih =>
    rw [Expr.height, sizes, size]
    omega
  | value _ hn => exact Nat.le_trans (hx.value hn) (Nat.le_add_right _ _)
  | parens _ _ _ ih =>
    rw [sizes, sizes_append]
    omega
  | call _ _ _ _ _ hn ih =>
    rw [Item.height_call hn]
    simp only [sizes, size, sizes_append]
    omega
  | emptyCall _ _ _ _ hn =>
    rw [Item.height_call hn]
    simp [sizes, size, Expr.heightOfList]
  | groupCall _ _ hn =>
    have := hx.groupCall hn
    simp only [sizes, size]
    omega
  | one _ ih =>
    rw [Expr.heightOfList_le_iff]
    intro a ha
    obtain rfl := List.mem_singleton.mp ha
    exact ih
  | more _ _ _ ihf ihl =>
    rw [Expr.heightOfList_le_iff] at ihf ⊢
    intro a ha
    rw [sizes_append, sizes]
    rcases List.mem_append.mp ha with ha | ha
    · have := ihf a ha
      omega
    · obtain rfl := List.mem_singleton.mp ha
      omega

/-- A grammar with only the trees that are not too high. -/
def Lexicon.upTo (x : Lexicon) (bound : Nat) : Lexicon where
  environment := x.environment
  value t n := x.value t n ∧ n.height ≤ bound
  groupCall f delimiters elements n := x.groupCall f delimiters elements n ∧ n.height ≤ bound

/-- The trees of the tokens of a list are no higher than the tree of the
list. -/
theorem Derives.upTo {x : Lexicon} {bound : Nat} {c : Category} {ts : List Token} {n : Expr}
    (h : Derives x c ts n) : n.height ≤ bound → Derives (x.upTo bound) c ts n := by
  induction h using Derives.roles (Q := fun ts as _ =>
    Expr.heightOfList as ≤ bound → DerivesArguments (x.upTo bound) ts as) with
  | loose hle _ ih => exact fun hn => (ih hn).loosen hle
  | binary hc hl _ _ ihl ihr =>
    intro hn
    rw [Item.height_join (by rw [hc]; rfl)] at hn
    exact .binary hc hl (ihl (by omega)) (ihr (by omega))
  | sign hl _ ih =>
    intro hn
    rw [Expr.height] at hn
    exact .sign hl (ih (by omega))
  | value ht hv => exact fun hn => .value ht ⟨hv, hn⟩
  | parens hl _ hr ih => exact fun hn => .parens hl (ih hn) hr
  | call hf hfun hl _ hr hn ih =>
    intro hle
    rw [Item.height_call hn] at hle
    exact .call hf hfun hl (ih (by omega)) hr hn
  | emptyCall hf hfun hl hr hn => exact fun _ => .emptyCall hf hfun hl hr hn
  | groupCall hf hfun hv => exact fun hn => .groupCall hf hfun ⟨hv, hn⟩
  | one _ ih =>
    rename_i hle
    exact .one (ih (Expr.heightOfList_le_iff.mp hle _ List.mem_cons_self))
  | more _ hs _ ihf ihl =>
    rename_i hle
    rw [Expr.heightOfList_le_iff] at hle
    refine .more (ihf (Expr.heightOfList_le_iff.mpr fun a ha => ?_)) hs (ihl ?_)
    · exact hle a (List.mem_append_left _ ha)
    · exact hle _ (List.mem_append_right _ List.mem_cons_self)

/-- A list with a tree is not empty. -/
theorem Derives.sizes_pos {x : Lexicon} {c : Category} {ts : List Token} {n : Expr}
    (h : Derives x c ts n) : 0 < sizes ts := by
  induction h using Derives.roles (Q := fun _ _ _ => True) with
  | loose _ _ ih => exact ih
  | one _ _ => trivial
  | more _ _ _ _ _ => trivial
  | @value t _ _ _ =>
    have := t.size_pos
    rw [sizes]
    omega
  | _ =>
    simp only [sizes_append, sizes, size]
    omega

end Formula
