/-
Formula.Proofs.Infix.Parentheses — which parentheses are needed.

A layout that shows a formula has the operators of the formula where they are,
but its pairs of parentheses may stand anywhere. It is read as this formula only
if each operator holds together as tightly as its place asks, unless a pair stands
around it (`Layout.Fits`).

The reason is that a derivation of its tokens has no choice. The formula says
which operator is the last one to apply. The left operand has as many tokens as
its formula, parentheses aside (`Expr.breadth`), so the operator is found where
the layout has it; and it can neither be reached into a pair of parentheses nor be
missed by one, since what a derivation reads is balanced
(`Layout.Shows.fits_of_derives`).

The writer puts a pair where the operand alone would not fit. If it is taken out,
the layout does not fit any more, wherever in the line it stood
(`Expr.not_fits_of_drops`). The line of text then has no formula, or has another
one (`parse_ne_of_drops`).
-/
import Formula.Proofs.Infix.Layout
import Formula.Proofs.Parse.Language
import Formula.Proofs.Scan.Balance

namespace Formula

open Reader (standard)
open Number.Binary64 (isNegative)
open Token

/-! ## 1. Counting tokens -/

mutual

/-- The number of tokens of a formula that is written without parentheses. -/
def Expr.breadth : Expr → Nat
  | .literal _ | .free _ | .constant _ _ => 1
  | .arithmetic _ a b | .power a b | .root a b | .equation a b => a.breadth + (1 + b.breadth)
  | .signed _ a => 1 + a.breadth
  | .call _ _ arguments => 1 + Expr.breadthOfList arguments

/-- The same for the formulas of a list, with separators between them. -/
def Expr.breadthOfList : List Expr → Nat
  | [] => 0
  | [a] => a.breadth
  | a :: b :: rest => a.breadth + (1 + Expr.breadthOfList (b :: rest))

end

theorem Expr.breadth_of_isLeaf {n : Expr} (h : n.isLeaf = true) : n.breadth = 1 := by
  cases n with
  | literal _ | free _ | constant _ _ => rfl
  | _ => cases h

theorem Expr.breadthOfList_concat {as : List Expr} (h : as ≠ []) (n : Expr) :
    breadthOfList (as ++ [n]) = breadthOfList as + (1 + n.breadth) := by
  induction as with
  | nil => exact absurd rfl h
  | cons a rest ih =>
    cases rest with
    | nil => rfl
    | cons b rest =>
      have ih := ih (List.cons_ne_nil _ _)
      simp only [List.cons_append, breadthOfList] at ih ⊢
      omega

theorem Item.breadth_join {op : Operator} (hop : op.left?.isSome = true) (a b : Expr) :
    (join op a b).breadth = a.breadth + (1 + b.breadth) := by
  cases op with
  | sign s => cases hop
  | _ => rfl

/-- What an operator between operands makes shows the operator and them. -/
theorem Item.join_injective {op op' : Operator} {a b a' b' : Expr} (hop : op.left?.isSome = true)
    (hop' : op'.left?.isSome = true) (h : join op a b = join op' a' b') :
    op = op' ∧ a = a' ∧ b = b' := by
  cases op <;> cases op' <;> simp_all [join, Operator.left?]

theorem Item.isLeaf_join {op : Operator} (a b : Expr) : (join op a b).isLeaf = false := by
  cases op <;> rfl

namespace Token

/-- How many tokens of a list are no parentheses. -/
def width (ts : List Token) : Nat := ts.countP fun t => !t.isParen

variable {t t' : Token} {ts ts' us us' : List Token}

theorem width_append (ts us : List Token) : width (ts ++ us) = width ts + width us :=
  List.countP_append

theorem width_cons (t : Token) (ts : List Token) : width (t :: ts) = width [t] + width ts :=
  width_append [t] ts

theorem width_of_isParen (h : t.isParen = false) : width [t] = 1 := by simp [width, h]

theorem width_operator {l : Lexeme} {op : Operator} (h : l.kind = op.kind) :
    width [.lexeme l] = 1 :=
  width_of_isParen (Scan.isParen_of_operator h).1

/-- The tokens of a pair do not count. -/
theorem width_enclosed {l r : Lexeme} (hl : l.kind = .leftParen) (hr : r.kind = .rightParen)
    (ts : List Token) : width (.lexeme l :: (ts ++ [.lexeme r])) = width ts := by
  have hleft : width [.lexeme l] = 0 := by simp [width, isParen, kind?, hl]
  have hright : width [.lexeme r] = 0 := by simp [width, isParen, kind?, hr]
  rw [width_cons, width_append, hleft, hright]
  omega

/-- An argument more takes a separator and its own tokens. -/
theorem width_more {sep : Lexeme} {as : List Expr} {n : Expr} (hs : sep.kind = .separator)
    (hts : as ≠ [] ∧ width ts = Expr.breadthOfList as) (hus : width us = n.breadth) :
    as ++ [n] ≠ [] ∧ width (ts ++ .lexeme sep :: us) = Expr.breadthOfList (as ++ [n]) := by
  refine ⟨by simp, ?_⟩
  rw [width_append, width_cons, hts.2, hus, width_of_isParen (isParen_of_ne hs (by decide)),
    Expr.breadthOfList_concat hts.1]

/-- Two ways to part a list at a token that is no parenthesis are one if as much
stands before it. -/
theorem eq_of_width_eq (h : ts ++ t :: us = ts' ++ t' :: us') (hwidth : width ts = width ts')
    (ht : width [t] = 1) (ht' : width [t'] = 1) : ts = ts' ∧ t = t' ∧ us = us' := by
  rcases List.append_eq_append_iff.mp h with ⟨vs, rfl, heq⟩ | ⟨vs, rfl, heq⟩ <;>
    cases vs with
    | nil => simpa [eq_comm] using heq
    | cons v vs =>
      obtain ⟨rfl, -⟩ := List.cons.inj heq
      rw [width_append, width_cons] at hwidth
      omega

end Token

/-! ## 2. Derivations -/

/-- The grammar of an environment for lists of lexemes. It does not ask which
number or name a token is. -/
def Lexicon.leaves (env : Environment) : Lexicon where
  environment := env
  value _ n := n.isLeaf = true
  groupCall _ _ _ _ := False

/-- What a parse finds in a list of lexemes derives. -/
theorem derives_leaves_of_parse {env : Environment} {limits : Limits} {ts : List Token} {n : Expr}
    (h : parse env limits ts = .ok n) (hts : ∀ t ∈ ts, ∃ l, t = .lexeme l) :
    Derives (.leaves env) .equation ts n := by
  refine (Environment.derives_of_parseWithin (parse_eq_ok_iff.mp h)).embed ⟨rfl, ?_, ?_⟩
  · intro t ht n hn
    obtain ⟨l, rfl⟩ := hts t ht
    cases Environment.denotes_of_value hn with
    | number _ _ | free _ | constant _ _ => rfl
  · intro f delimiters elements hmem
    obtain ⟨l, hl⟩ := hts _ hmem
    cases hl

namespace Derives

variable {x : Lexicon} {env : Environment} {c : Category} {ts : List Token} {n : Expr}

/-- What derives is balanced. -/
theorem balanced (h : Derives x c ts n) : Balanced ts := by
  induction h using Derives.roles (Q := fun ts _ _ => Balanced ts) with
  | loose _ _ ih => exact ih
  | binary _ hl _ _ iha ihb =>
    rw [List.append_cons]
    exact (iha.append (.of_isParen (Scan.isParen_of_operator hl).1)).append ihb
  | @sign s _ _ l hl _ ih =>
    have hsign : l.kind = (Operator.sign s).kind := hl
    exact .append (.of_isParen (Scan.isParen_of_operator hsign).1) ih
  | value ht _ => exact .of_isParen (Scan.isParen_of_isOperand ht).1
  | parens hl _ hr ih => exact ih.enclosed hl hr
  | call hf _ hl _ hr _ ih =>
    exact .append (.of_isParen (isParen_of_ne hf (by decide))) (ih.enclosed hl hr)
  | emptyCall hf _ hl hr _ =>
    exact .append (.of_isParen (isParen_of_ne hf (by decide))) (Balanced.nil.enclosed hl hr)
  | groupCall hf _ _ =>
    exact .append (.of_isParen (isParen_of_ne hf (by decide))) (.of_isParen rfl)
  | one _ ih => exact ih
  | more _ hs _ ihf ihl =>
    rw [List.append_cons]
    exact (ihf.append (.of_isParen (isParen_of_ne hs (by decide)))).append ihl

/-- Parentheses aside, as many tokens derive a formula as it has. -/
theorem width_eq (h : Derives (.leaves env) c ts n) : width ts = n.breadth := by
  induction h using Derives.roles
    (Q := fun ts as _ => as ≠ [] ∧ width ts = Expr.breadthOfList as) with
  | loose _ _ ih => exact ih
  | binary hc hl _ _ iha ihb =>
    rw [width_append, width_cons, iha, ihb, width_operator hl,
      Item.breadth_join (by rw [hc]; rfl)]
  | @sign s _ _ l hl _ ih =>
    have hsign : l.kind = (Operator.sign s).kind := hl
    rw [width_cons, ih, width_operator hsign]
    rfl
  | value ht hn =>
    rw [width_of_isParen (Scan.isParen_of_isOperand ht).1, Expr.breadth_of_isLeaf hn]
  | parens hl _ hr ih => rw [width_enclosed hl hr, ih]
  | call hf _ hl _ hr hn ih =>
    obtain ⟨body, -, -, rfl⟩ := Environment.call_eq_ok_iff.mp hn
    rw [width_cons, width_enclosed hl hr, ih.2, width_of_isParen (isParen_of_ne hf (by decide))]
    rfl
  | emptyCall hf _ hl hr hn =>
    obtain ⟨body, -, -, rfl⟩ := Environment.call_eq_ok_iff.mp hn
    have hempty : width [.lexeme _, .lexeme _] = 0 := width_enclosed hl hr []
    rw [width_cons, hempty, width_of_isParen (isParen_of_ne hf (by decide))]
    rfl
  | groupCall _ _ hn => exact hn.elim
  | one _ ih => exact ⟨List.cons_ne_nil _ _, ih⟩
  | more _ hs _ ihf ihl => exact width_more hs ihf ihl

end Derives

theorem DerivesArguments.width_eq {env : Environment} {ts : List Token} {as : List Expr}
    (h : DerivesArguments (.leaves env) ts as) :
    as ≠ [] ∧ width ts = Expr.breadthOfList as := by
  match h with
  | .one h => exact ⟨List.cons_ne_nil _ _, h.width_eq⟩
  | .more first hs last => exact width_more hs first.width_eq last.width_eq
termination_by structural h

/-! ## 3. Layouts -/

namespace Layout

variable {env : Environment} {L : Layout} {n : Expr} {as : List Layout} {ns : List Expr}

theorem balanced_argumentTokens (h : ∀ a ∈ as, ∀ n, a.Shows env n → Balanced a.tokens)
    (has : List.Forall₂ (Shows env) as ns) : Balanced (argumentTokens as) := by
  induction has with
  | nil => exact .nil
  | @cons a n as ns ha has ih =>
    have hrest := ih fun b hb => h b (by simp [hb])
    cases has with
    | nil => exact h a (by simp) n ha
    | cons hb has =>
      rw [argumentTokens_cons_cons, List.append_cons]
      exact ((h a (by simp) n ha).append (.of_isParen rfl)).append hrest

/-- The tokens of a layout that shows a formula are balanced. -/
theorem Shows.balanced (h : L.Shows env n) : Balanced L.tokens := by
  induction L using Layout.induction generalizing n with
  | leaf l =>
    cases h with
    | leaf hl _ _ => exact .of_isParen (Scan.isParen_of_isOperand (t := .lexeme l) hl).1
  | sign s a ih =>
    cases h with
    | sign ha => exact .append (.of_isParen (by cases s <;> rfl)) (ih ha)
  | binary op a b iha ihb =>
    cases h with
    | binary _ ha hb _ =>
      rw [tokens_binary, List.append_cons]
      exact ((iha ha).append (.of_isParen (Scan.isParen_of_operator rfl).1)).append (ihb hb)
  | call name as ih =>
    cases h with
    | call _ has =>
      have hlist := balanced_argumentTokens (fun a ha n => ih a ha) has
      rw [tokens_call]
      exact .append (.of_isParen rfl) (hlist.enclosed rfl rfl)
  | parens a ih =>
    cases h with
    | parens ha =>
      rw [tokens_parens]
      exact (ih ha).enclosed rfl rfl

theorem width_argumentTokens (h : ∀ a ∈ as, ∀ n, a.Shows env n → width a.tokens = n.breadth)
    (has : List.Forall₂ (Shows env) as ns) : width (argumentTokens as) = Expr.breadthOfList ns := by
  induction has with
  | nil => rfl
  | @cons a n as ns ha has ih =>
    have hrest := ih fun b hb => h b (by simp [hb])
    cases has with
    | nil => exact h a (by simp) n ha
    | cons hb has =>
      rw [argumentTokens_cons_cons, width_append, width_cons, hrest, h a (by simp) n ha]
      rfl

/-- Parentheses aside, a layout has as many tokens as its formula. -/
theorem Shows.width_eq (h : L.Shows env n) : width L.tokens = n.breadth := by
  induction L using Layout.induction generalizing n with
  | leaf l =>
    cases h with
    | leaf hl _ hn =>
      rw [Expr.breadth_of_isLeaf hn]
      exact width_of_isParen (Scan.isParen_of_isOperand (t := .lexeme l) hl).1
  | sign s a ih =>
    cases h with
    | sign ha =>
      have hsign : (Lexeme.punctuation s.kind).kind = (Operator.sign s).kind := rfl
      rw [tokens_sign, width_cons, ih ha, width_operator hsign]
      rfl
  | binary op a b iha ihb =>
    cases h with
    | binary hop ha hb hn =>
      rw [tokens_binary, width_append, width_cons, iha ha, ihb hb, width_operator rfl, hn,
        Item.breadth_join hop]
  | call name as ih =>
    cases h with
    | call _ has =>
      rw [tokens_call, width_cons, width_enclosed rfl rfl,
        width_argumentTokens (fun a ha n => ih a ha) has, width_of_isParen rfl]
      rfl
  | parens a ih =>
    cases h with
    | parens ha => rw [tokens_parens, width_enclosed rfl rfl, ih ha]

/-- A layout of a single token is a leaf. -/
theorem eq_leaf_of_tokens {t : Token} (h : L.tokens = [t]) : ∃ l, L = .leaf l := by
  cases L with
  | leaf l => exact ⟨l, rfl⟩
  | sign s a => exact absurd (List.cons.inj h).2 a.tokens_ne_nil
  | binary op a b =>
    rw [tokens_binary, List.append_eq_singleton_iff] at h
    rcases h with ⟨ha, -⟩ | ⟨-, h⟩
    · exact absurd ha a.tokens_ne_nil
    · cases h
  | call name as =>
    rw [tokens_call] at h
    cases h
  | parens a =>
    rw [tokens_parens] at h
    simp at h

theorem argumentTokens_concat (has : as ≠ []) (a : Layout) :
    argumentTokens (as ++ [a]) =
      argumentTokens as ++ .lexeme (.punctuation .separator) :: a.tokens := by
  induction as with
  | nil => exact absurd rfl has
  | cons b as ih =>
    cases as with
    | nil => rw [List.singleton_append, argumentTokens_cons_cons]; rfl
    | cons c as =>
      have ih := ih (List.cons_ne_nil _ _)
      rw [List.cons_append] at ih
      simp only [List.cons_append, argumentTokens_cons_cons, ih, List.append_assoc]

/-! ## 4. Layouts that fit -/

/-- A layout may stand where formulas of a category may, and so may all that is in
it. -/
inductive Fits : Category → Layout → Prop
  | leaf {c l} : Fits c (.leaf l)
  | sign {c s a} (hc : c.level ≤ Category.signed.level) (ha : Fits .signed a) :
      Fits c (.sign s a)
  | binary {c d op a b} (hc : c.level ≤ op.level) (hd : op.left? = some d) (ha : Fits d a)
      (hb : Fits op.right b) : Fits c (.binary op a b)
  | call {c name as} (has : ∀ a ∈ as, Fits .equation a) : Fits c (.call name as)
  | parens {c a} (ha : Fits .equation a) : Fits c (.parens a)

theorem Fits.loosen {c d : Category} (hle : c.level ≤ d.level) (h : L.Fits d) : L.Fits c := by
  cases h with
  | leaf => exact .leaf
  | sign hc ha => exact .sign (Nat.le_trans hle hc) ha
  | binary hc hd ha hb => exact .binary (Nat.le_trans hle hc) hd ha hb
  | call has => exact .call has
  | parens ha => exact .parens ha

/-! ## 5. What a derivation finds -/

variable {ts us vs : List Token} {l r f : Lexeme}

/-- Where a formula is made by an operator, a layout that parts its tokens at the
operator is the layout of the operator. -/
theorem Shows.eq_binary {op : Operator} {c : Category} {m k : Expr}
    (h : L.Shows env (Item.join op m k)) (hop : op.left?.isSome = true)
    (htokens : L.tokens = us ++ .lexeme l :: vs) (hl : l.kind = op.kind)
    (hus : Derives (.leaves env) c us m) :
    ∃ a b, L = .binary op a b ∧ (a.Shows env m ∧ a.tokens = us) ∧
      b.Shows env k ∧ b.tokens = vs := by
  generalize hn : Item.join op m k = n at h
  cases h with
  | leaf _ _ hleaf =>
    rw [← hn, Item.isLeaf_join] at hleaf
    cases hleaf
  | sign _ =>
    cases op with
    | sign _ => cases hop
    | _ => cases hn
  | binary hop' ha hb hn' =>
    obtain ⟨rfl, rfl, rfl⟩ := Item.join_injective hop hop' (hn.trans hn')
    have hwidth := ha.width_eq.trans hus.width_eq.symm
    rw [tokens_binary] at htokens
    obtain ⟨hleft, -, hright⟩ :=
      eq_of_width_eq htokens hwidth (width_operator rfl) (width_operator hl)
    exact ⟨_, _, rfl, ⟨ha, hleft⟩, hb, hright⟩
  | call _ _ => cases op <;> cases hn
  | parens ha =>
    -- A pair around all of it would be closed before the operator.
    rw [tokens_parens] at htokens
    have hne : us ≠ [] := by
      rintro rfl
      exact Nat.lt_irrefl 0 hus.sizes_pos
    exact (ha.balanced.not_append_of_enclosed hus.balanced hne rfl htokens).elim

/-- A layout that starts with the sign of a formula is that of the sign. -/
theorem Shows.eq_sign {s : Sign} (h : L.Shows env (.signed s n))
    (htokens : L.tokens = .lexeme l :: ts) (hl : l.kind = s.kind) :
    ∃ a, L = .sign s a ∧ a.Shows env n ∧ a.tokens = ts := by
  cases h with
  | leaf _ _ hleaf => cases hleaf
  | sign ha => exact ⟨_, rfl, ha, (List.cons.inj htokens).2⟩
  | @binary op _ _ _ _ _ hop _ _ hn =>
    cases op with
    | sign _ => cases hop
    | _ => cases hn
  | parens _ =>
    obtain ⟨rfl⟩ := (List.cons.inj htokens).1
    cases s <;> cases hl

/-- A layout in parentheses that are closed at its end is a pair of parentheses. -/
theorem Shows.eq_parens (h : L.Shows env n)
    (htokens : L.tokens = .lexeme l :: (ts ++ [.lexeme r])) (hl : l.kind = .leftParen)
    (hts : Balanced ts) : ∃ a, L = .parens a ∧ a.Shows env n ∧ a.tokens = ts := by
  cases h with
  | leaf _ _ _ => simp [tokens, lexemes] at htokens
  | @sign s _ _ _ =>
    obtain ⟨rfl⟩ := (List.cons.inj htokens).1
    cases s <;> cases hl
  | binary _ ha _ _ =>
    rw [tokens_binary] at htokens
    exact (hts.not_append_of_enclosed ha.balanced (tokens_ne_nil _) hl htokens.symm).elim
  | call _ _ =>
    obtain ⟨rfl⟩ := (List.cons.inj htokens).1
    cases hl
  | parens ha =>
    rw [tokens_parens] at htokens
    exact ⟨_, rfl, ha, (List.append_inj' (List.cons.inj htokens).2 rfl).1⟩

/-- A layout of a call that starts with the name of a function is the call. -/
theorem Shows.eq_call {name : String} {body : Body} (h : L.Shows env (.call name body ns))
    (htokens : L.tokens = .lexeme f :: .lexeme l :: (ts ++ [.lexeme r]))
    (hf : f.kind = .functionName) :
    ∃ as, L = .call name as ∧ List.Forall₂ (Shows env) as ns ∧ argumentTokens as = ts := by
  cases h with
  | leaf _ _ hleaf => cases hleaf
  | @binary op _ _ _ _ _ _ _ _ hn => cases op <;> cases hn
  | call _ has =>
    rw [tokens_call] at htokens
    have hrest := (List.cons.inj (List.cons.inj htokens).2).2
    exact ⟨_, rfl, has, (List.append_inj' hrest rfl).1⟩
  | parens _ =>
    obtain ⟨rfl⟩ := (List.cons.inj htokens).1
    cases hf

theorem exists_of_forall₂_concat {α β : Type} {R : α → β → Prop} {as : List α} {bs : List β} {b : β}
    (h : List.Forall₂ R as (bs ++ [b])) :
    ∃ init a, as = init ++ [a] ∧ List.Forall₂ R init bs ∧ R a b := by
  obtain ⟨a, rest, ha, hrest, hlast⟩ :=
    List.forall₂_cons_right_iff.mp (List.forall₂_drop_append as bs [b] h)
  obtain rfl := List.forall₂_nil_right_iff.mp hrest
  refine ⟨as.take bs.length, a, ?_, List.forall₂_take_append as bs [b] h, ha⟩
  rw [← hlast, List.take_append_drop]

/-- Layouts of arguments that part their tokens before the last argument have it at
their end. -/
theorem exists_eq_concat (has : List.Forall₂ (Shows env) as (ns ++ [n]))
    (htokens : argumentTokens as = ts ++ .lexeme l :: us) (hl : l.kind = .separator)
    (hts : DerivesArguments (.leaves env) ts ns) :
    ∃ init a, as = init ++ [a] ∧ (List.Forall₂ (Shows env) init ns ∧ argumentTokens init = ts) ∧
      a.Shows env n ∧ a.tokens = us := by
  obtain ⟨init, a, rfl, hinit, ha⟩ := exists_of_forall₂_concat has
  obtain ⟨hne, hwidth⟩ := hts.width_eq
  have hinitWidth := width_argumentTokens (fun a _ n h => h.width_eq) hinit
  have hinitNe : init ≠ [] := by
    rintro rfl
    cases hinit
    exact hne rfl
  rw [argumentTokens_concat hinitNe] at htokens
  obtain ⟨hfirst, -, hlast⟩ := eq_of_width_eq htokens (hinitWidth.trans hwidth.symm)
    (width_of_isParen rfl) (width_of_isParen (isParen_of_ne hl (by decide)))
  exact ⟨init, a, rfl, ⟨hinit, hfirst⟩, ha, hlast⟩

/-- A layout that is read as the formula it shows fits. -/
theorem Shows.fits_of_derives {c : Category} (h : L.Shows env n)
    (hderives : Derives (.leaves env) c L.tokens n) : L.Fits c := by
  generalize htokens : L.tokens = ts at hderives
  -- The induction is on the derivation. Its last rule determines the layout.
  induction hderives using Derives.roles
    (Q := fun ts ns _ => ∀ as, List.Forall₂ (Shows env) as ns → argumentTokens as = ts →
      ∀ a ∈ as, a.Fits .equation) generalizing L with
  | loose hle _ ih => exact (ih h htokens).loosen hle
  | @binary op _ _ _ _ _ _ hc hl left _ iha ihb =>
    obtain ⟨a, b, rfl, ⟨ha, hleft⟩, hb, hright⟩ :=
      h.eq_binary (by rw [hc]; rfl) htokens hl left
    exact .binary (Nat.le_of_eq (Operator.level_category op)) hc (iha ha hleft) (ihb hb hright)
  | sign hl _ ih =>
    obtain ⟨a, rfl, ha, htokens⟩ := h.eq_sign htokens hl
    exact .sign (Nat.le_refl _) (ih ha htokens)
  | value _ _ =>
    obtain ⟨l, rfl⟩ := eq_leaf_of_tokens htokens
    exact .leaf
  | parens hl inner _ ih =>
    obtain ⟨a, rfl, ha, htokens⟩ := h.eq_parens htokens hl inner.balanced
    exact .parens (ih ha htokens)
  | call hf _ _ _ _ hn ih =>
    obtain ⟨body, -, -, rfl⟩ := Environment.call_eq_ok_iff.mp hn
    obtain ⟨as, rfl, has, htokens⟩ := h.eq_call htokens hf
    exact .call (ih as has htokens)
  | emptyCall hf _ _ _ hn =>
    obtain ⟨body, -, -, rfl⟩ := Environment.call_eq_ok_iff.mp hn
    have hempty : L.tokens = .lexeme _ :: .lexeme _ :: ([] ++ [.lexeme _]) := htokens
    obtain ⟨as, rfl, has, -⟩ := h.eq_call hempty hf
    cases has
    exact .call fun a ha => nomatch ha
  | groupCall _ _ hn => exact hn.elim
  | one _ ih =>
    rename_i as has htokens b hb
    obtain ⟨a, rest, ha, hrest, rfl⟩ := List.forall₂_cons_right_iff.mp has
    cases hrest
    rw [List.mem_singleton.mp hb]
    exact ih ha htokens
  | more first hs _ ihf ihl =>
    rename_i as has htokens b hb
    obtain ⟨init, a, rfl, ⟨hinit, hfirst⟩, ha, hlast⟩ := exists_eq_concat has htokens hs first
    rcases List.mem_append.mp hb with hb | hb
    · exact ihf init hinit hfirst b hb
    · rw [List.mem_singleton.mp hb]
      exact ihl ha hlast

end Layout

/-! ## 6. Pairs that are taken out -/

namespace Layout

variable {L L' a b : Layout} {c : Category} {needed aNeeded bNeeded : Bool}

/-- What is left of an operand does not fit if the operand does not fit without its
pair. -/
theorem Drops.not_fits_enclose (h : (enclose needed L).Drops L')
    (ih : ∀ c L', L.Drops L' → ¬ L'.Fits c)
    (hneeded : needed = true → L' = L → ¬ L.Fits c) : ¬ L'.Fits c := by
  cases needed with
  | false => exact ih c L' h
  | true =>
    cases (h : (parens L).Drops L') with
    | here => exact hneeded rfl rfl
    | inner h =>
      intro hfits
      cases hfits with
      | parens hfits => exact ih _ _ h hfits

/-- The same for the operands of an operator. -/
theorem Drops.not_fits_binary {op : Operator}
    (h : (binary op (enclose aNeeded a) (enclose bNeeded b)).Drops L')
    (iha : ∀ c L', a.Drops L' → ¬ L'.Fits c) (ihb : ∀ c L', b.Drops L' → ¬ L'.Fits c)
    (ha : aNeeded = true → ∀ d, op.left? = some d → ¬ a.Fits d)
    (hb : bNeeded = true → (op = .power → b.isSigned = false) → ¬ b.Fits op.right) :
    ¬ L'.Fits c := by
  intro hfits
  cases h with
  | left h =>
    cases hfits with
    | binary _ hd hleft _ => exact h.not_fits_enclose iha (fun hn _ => ha hn _ hd) hleft
  | right h hexponent =>
    cases hfits with
    | binary _ _ _ hright =>
      refine h.not_fits_enclose ihb (fun hn heq => hb hn fun hop => ?_) hright
      rw [← heq]
      exact hexponent hop (by rw [hn, heq]; rfl)

theorem Drops.not_fits_call {name : String} {as : List Layout} (h : (call name as).Drops L')
    (ih : ∀ a ∈ as, ∀ c L', a.Drops L' → ¬ L'.Fits c) : ¬ L'.Fits c := by
  intro hfits
  cases h with
  | argument h =>
    cases hfits with
    | call has => exact ih _ (by simp) _ _ h (has _ (by simp))

end Layout

theorem Category.level_le_atomLevel (c : Category) : c.level ≤ Expr.atomLevel := by
  cases c <;> decide

namespace Expr

variable {n : Expr} {c : Category} {L' : Layout}

/-- The line of text of a formula fits only where its level allows it. -/
theorem level_le_of_fits (h : n.layout.Fits c) : c.level ≤ n.level := by
  cases n with
  | literal value =>
    rw [layout] at h
    rw [level]
    cases hsign : isNegative value with
    | false => exact c.level_le_atomLevel
    | true =>
      rw [hsign] at h
      cases h with
      | sign hc _ => exact hc
  | arithmetic op a b =>
    cases h with
    | binary hc _ _ _ => exact hc
  | signed s a =>
    cases h with
    | sign hc _ => exact hc
  | power a b =>
    cases h with
    | binary hc _ _ _ => exact hc
  | equation a b =>
    cases h with
    | binary hc _ _ _ => exact hc
  | _ => exact c.level_le_atomLevel

/-- A formula of the level of signs is written with a sign. -/
theorem isSigned_of_level (h : n.level = Category.signed.level) : n.layout.isSigned = true := by
  cases n with
  | literal value =>
    rw [level] at h
    rw [layout]
    split at h
    · simp [*, Layout.isSigned]
    · cases h
  | arithmetic op a b => cases op <;> cases h
  | signed s a => rfl
  | _ => cases h

/-- A left operand that is put into parentheses does not fit without them. -/
theorem not_fits_left {op : Operator} {d : Category} (hd : op.left? = some d)
    (h : decide (n.level < op.level) = true) : ¬ n.layout.Fits d := by
  intro hfits
  have hle := level_le_of_fits hfits
  have hcategory := Operator.level_category_le hd
  have hlt : n.level < op.level := of_decide_eq_true h
  rw [Operator.level_category] at hcategory
  omega

/-- The same for a right operand, unless it is an exponent. -/
theorem not_fits_right {op : Operator} (hop : op.level < op.right.level)
    (h : decide (n.level ≤ op.level) = true) : ¬ n.layout.Fits op.right := by
  intro hfits
  have hle := level_le_of_fits hfits
  have hlevel : n.level ≤ op.level := of_decide_eq_true h
  omega

/-- An exponent in parentheses fits without them exactly if it has a sign. -/
theorem not_fits_exponent (h : decide (n.level < Operator.power.level) = true)
    (hsigned : n.layout.isSigned = false) : ¬ n.layout.Fits .signed := by
  intro hfits
  have hle := level_le_of_fits hfits
  have hlt : n.level < Operator.power.level := of_decide_eq_true h
  have heq : n.level = Category.signed.level := Nat.le_antisymm (Nat.le_of_lt_succ hlt) hle
  rw [isSigned_of_level heq] at hsigned
  cases hsigned

/-- Each pair that the writer puts around an operand is needed, wherever in the line
it stands. -/
theorem not_fits_of_drops (n : Expr) (c : Category) (L' : Layout) (h : n.layout.Drops L') :
    ¬ L'.Fits c := by
  induction n using Expr.induction generalizing c L' with
  | literal value =>
    rw [layout] at h
    split at h
    · cases h with
      | operand h => cases h
    · cases h
  | free name => cases h
  | constant name value => cases h
  | arithmetic op a b iha ihb =>
    have hright : (Operator.arithmetic op).level < (Operator.arithmetic op).right.level := by
      cases op <;> decide
    exact h.not_fits_binary iha ihb (fun hn d hd => not_fits_left hd hn)
      (fun hn _ => not_fits_right hright hn)
  | signed s a ih =>
    intro hfits
    cases h with
    | operand h =>
      cases hfits with
      | sign _ hoperand =>
        refine h.not_fits_enclose ih (fun hn _ hfits => ?_) hoperand
        exact absurd (level_le_of_fits hfits) (Nat.not_le_of_lt (of_decide_eq_true hn))
  | power a b iha ihb =>
    refine h.not_fits_binary iha ihb (fun hn d hd hfits => ?_) fun hn hexponent =>
      not_fits_exponent hn (hexponent rfl)
    cases hd
    have hle := level_le_of_fits hfits
    exact absurd (of_decide_eq_true hn) (Nat.not_le_of_lt hle)
  | root a b iha ihb =>
    refine h.not_fits_call fun m hm => ?_
    rcases List.mem_pair.mp hm with rfl | rfl
    · exact iha
    · exact ihb
  | call name body arguments ih =>
    refine h.not_fits_call fun m hm => ?_
    rw [layouts_eq_map] at hm
    obtain ⟨a, ha, rfl⟩ := List.mem_map.mp hm
    exact ih a ha
  | equation a b iha ihb =>
    exact h.not_fits_binary iha ihb (fun hn d hd => not_fits_left hd hn)
      (fun hn _ => not_fits_right (by decide) hn)

end Expr

/-! ## 7. Lines of text -/

theorem Expr.isLeaf_of_equal {m n : Expr} (h : m.equal n = true) (hn : n.isLeaf = true) :
    m.isLeaf = true := by
  cases m <;> cases n <;> simp_all [equal, isLeaf]

/-- What equals a formula that an operator makes is made by the operator. -/
theorem Expr.exists_join_of_equal {op : Operator} {m a b : Expr} (hop : op.left?.isSome = true)
    (h : m.equal (Item.join op a b) = true) :
    ∃ a' b', m = Item.join op a' b' ∧ a'.equal a = true ∧ b'.equal b = true := by
  cases op with
  | equals =>
    cases m with
    | equation a' b' =>
      obtain ⟨ha, hb⟩ := Bool.and_eq_true_iff.mp h
      exact ⟨a', b', rfl, ha, hb⟩
    | _ => cases h
  | arithmetic op =>
    cases m with
    | arithmetic op' a' b' =>
      simp only [Item.join, equal, Bool.and_eq_true, beq_iff_eq] at h
      obtain ⟨⟨rfl, ha⟩, hb⟩ := h
      exact ⟨a', b', rfl, ha, hb⟩
    | _ => cases h
  | sign s => cases hop
  | power =>
    cases m with
    | power a' b' =>
      obtain ⟨ha, hb⟩ := Bool.and_eq_true_iff.mp h
      exact ⟨a', b', rfl, ha, hb⟩
    | _ => cases h

namespace Layout

variable {env : Environment} {L : Layout}

theorem forall₂_of_equalLists {as : List Layout} {ms ns : List Expr}
    (ih : ∀ a ∈ as, ∀ m n, a.Shows env n → m.equal n = true → a.Shows env m)
    (has : List.Forall₂ (Shows env) as ns) (heq : Expr.equalLists ms ns = true) :
    List.Forall₂ (Shows env) as ms := by
  induction has generalizing ms with
  | nil =>
    cases ms with
    | nil => exact .nil
    | cons m ms => cases heq
  | @cons a n as ns ha _ ihas =>
    cases ms with
    | nil => cases heq
    | cons m ms =>
      obtain ⟨hm, hms⟩ := Bool.and_eq_true_iff.mp heq
      exact .cons (ih a (by simp) m n ha hm) (ihas (fun b hb => ih b (by simp [hb])) hms)

/-- A layout of a formula shows what equals the formula as well. -/
theorem Shows.of_equal {m n : Expr} (h : L.Shows env n) (heq : m.equal n = true) :
    L.Shows env m := by
  induction L using Layout.induction generalizing m n with
  | leaf l =>
    cases h with
    | leaf hl hread hn => exact .leaf hl hread (Expr.isLeaf_of_equal heq hn)
  | sign s a ih =>
    cases h with
    | sign ha =>
      cases m with
      | signed s' m =>
        simp only [Expr.equal, Bool.and_eq_true, beq_iff_eq] at heq
        rw [heq.1]
        exact .sign (ih ha heq.2)
      | _ => cases heq
  | binary op a b iha ihb =>
    cases h with
    | binary hop ha hb hn =>
      rw [hn] at heq
      obtain ⟨m', k', hm, ham, hbk⟩ := Expr.exists_join_of_equal hop heq
      exact .binary hop (iha ha ham) (ihb hb hbk) hm
  | call name as ih =>
    cases h with
    | call hread has =>
      cases m with
      | call name' body' ms =>
        simp only [Expr.equal, Bool.and_eq_true, beq_iff_eq] at heq
        rw [heq.1]
        exact .call hread (forall₂_of_equalLists (fun a ha m n => ih a ha) has heq.2)
      | _ => cases heq
  | parens a ih =>
    cases h with
    | parens ha => exact .parens (ih ha heq)

end Layout

/-- The line of text of a legible formula has no pair of parentheses that can be
taken out, other than those of calls and those around exponents with a sign. Without
any of the others, the line has no formula or another one. -/
theorem parse_ne_of_drops (env : Environment) (root : Body) (n : Expr) (L' : Layout)
    (hlegible : n.Legible env root) (hdrops : n.layout.Drops L') :
    n.layout.text = n.toInfix ∧ Unwraps n.toInfix L'.text ∧
      ∀ limits m, parse env limits ((standard env).tokens L'.text) = .ok m →
        m ≠ n.spelled root ∧ (m == n.spelled root) = false := by
  have htext := n.text_layout hlegible.literal
  have hshows := hdrops.shows (Expr.shows_layout hlegible)
  refine ⟨htext, htext ▸ hdrops.unwraps, fun limits m hparse => ?_⟩
  have hread : ¬ L'.Shows env m := by
    intro h
    rw [h.tokens_text] at hparse
    have hlexemes : ∀ t ∈ L'.tokens, ∃ l, t = Token.lexeme l := by
      intro t ht
      obtain ⟨l, -, rfl⟩ := List.mem_map.mp ht
      exact ⟨l, rfl⟩
    exact n.not_fits_of_drops .equation L' hdrops
      (h.fits_of_derives (derives_leaves_of_parse hparse hlexemes))
  constructor
  · rintro rfl
    exact hread hshows
  · exact Bool.eq_false_iff.mpr fun heq => hread (hshows.of_equal heq)

/-- The sum in `(x + y) * z` keeps its pair. -/
theorem parse_ne_of_drops_product :
    Unwraps "(x + y) * z" "x + y * z" ∧
      ∀ limits m, parse .standard limits ((standard .standard).tokens "x + y * z") = .ok m →
        m ≠ .arithmetic .multiply (.arithmetic .add (.free "x") (.free "y")) (.free "z") ∧
        (m == .arithmetic .multiply (.arithmetic .add (.free "x") (.free "y")) (.free "z")) =
          false := by
  have hdrops : (Expr.arithmetic .multiply (.arithmetic .add (.free "x") (.free "y"))
      (.free "z")).layout.Drops (.binary (.arithmetic .multiply)
        (.binary (.arithmetic .add) (.leaf (.variableName "x")) (.leaf (.variableName "y")))
        (.leaf (.variableName "z"))) := .left (.here _)
  have h := parse_ne_of_drops .standard .absolute _ _ ⟨?_, ?_, ?_, ?_, ?_⟩ hdrops
  · exact h.2
  · intro value h
    simp [Expr.nodes] at h
  · intro name h
    have hname : name = "x" ∨ name = "y" ∨ name = "z" := by simpa [Expr.nodes] using h
    rcases hname with rfl | rfl | rfl <;> exact Environment.reads_of_next? rfl
  · intro name value h
    simp [Expr.nodes] at h
  · intro name body arguments h
    simp [Expr.nodes] at h
  · intro base degree h
    simp [Expr.nodes] at h

end Formula
