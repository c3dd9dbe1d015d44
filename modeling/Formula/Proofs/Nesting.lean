/-
Formula.Proofs.Nesting — how deeply the parentheses of a list nest.

A scan counts open parentheses and refuses one that is too many. `peak` is
the greatest count that a scan of the list meets, as a function of the list
alone. What a derivation reads closes all that it opens
(`Derives.depthAfter_eq`), so the counts of the parts of a formula do not
depend on what stands before them.
-/
import Formula.Proofs.Grammar

namespace Formula

namespace Token

/-- The number of open parentheses after a token. -/
def depthAfter (depth : Nat) : Token → Nat
  | .lexeme l =>
    match l.kind with
    | .leftParen => depth + 1
    | .rightParen => depth - 1
    | _ => depth
  | _ => depth

/-- The greatest number of parentheses that are open at once in a list, with
`depth` of them open before it. -/
def peak (depth : Nat) : List Token → Nat
  | [] => depth
  | t :: rest => max depth (peak (t.depthAfter depth) rest)

theorem le_peak (depth : Nat) (ts : List Token) : depth ≤ peak depth ts := by
  cases ts with
  | nil => exact Nat.le_refl _
  | cons t rest => exact Nat.le_max_left _ _

theorem peak_append (depth : Nat) (ts us : List Token) :
    peak depth (ts ++ us) = max (peak depth ts) (peak (ts.foldl depthAfter depth) us) := by
  induction ts generalizing depth with
  | nil =>
    have := le_peak depth us
    simp only [List.nil_append, peak, List.foldl_nil]
    omega
  | cons t rest ih =>
    simp only [List.cons_append, peak, List.foldl_cons, ih]
    omega

theorem depthAfter_of_isOperand {t : Token} (h : t.isOperand = true) (depth : Nat) :
    t.depthAfter depth = depth := by
  cases t with
  | lexeme l =>
    cases hk : l.kind <;> simp [isOperand, LexemeKind.isOperand, hk] at h
    all_goals simp [depthAfter, hk]
  | _ => rfl

theorem depthAfter_leftParen {l : Lexeme} (h : l.kind = .leftParen) (depth : Nat) :
    (lexeme l).depthAfter depth = depth + 1 := by
  simp [depthAfter, h]

theorem depthAfter_rightParen {l : Lexeme} (h : l.kind = .rightParen) (depth : Nat) :
    (lexeme l).depthAfter depth = depth - 1 := by
  simp [depthAfter, h]

/-- Only parentheses change the count. -/
theorem depthAfter_of_ne {l : Lexeme} {kind : LexemeKind} (h : l.kind = kind)
    (hkind : kind ≠ .leftParen ∧ kind ≠ .rightParen) (depth : Nat) :
    (lexeme l).depthAfter depth = depth := by
  subst h
  cases hk : l.kind <;> simp_all [depthAfter]

theorem depthAfter_operator {l : Lexeme} {op : Operator} (h : l.kind = op.kind) (depth : Nat) :
    (lexeme l).depthAfter depth = depth := by
  obtain ⟨hl, hr, -⟩ := op.kind_ne
  exact depthAfter_of_ne h ⟨hl, hr⟩ depth

/-! Lists that close what they open. -/

variable {ts us : List Token} {d e : Nat}

/-- A pair of parentheses around a list that closes what it opens. -/
theorem peak_enclosed (hbalance : ∀ k, ts.foldl depthAfter k = k)
    (hts : ∀ k, peak k ts = k + d) (k : Nat) :
    peak k (.lexeme (.punctuation .leftParen) ::
      (ts ++ [.lexeme (.punctuation .rightParen)])) = k + (d + 1) := by
  have hopen : (lexeme (.punctuation .leftParen)).depthAfter k = k + 1 := rfl
  have hclose : (lexeme (.punctuation .rightParen)).depthAfter (k + 1) = k := rfl
  simp only [peak, peak_append, hopen, hbalance, hclose, hts]
  omega

/-- Two such lists with something between them that is no parenthesis. -/
theorem peak_between {t : Token} (hbalance : ∀ k, ts.foldl depthAfter k = k)
    (hts : ∀ k, peak k ts = k + d) (hus : ∀ k, peak k us = k + e)
    (ht : ∀ k, t.depthAfter k = k) (k : Nat) : peak k (ts ++ t :: us) = k + max d e := by
  simp only [peak_append, peak, hbalance, ht, hts, hus]
  omega

/-- A list in parentheses. -/
def parenthesized (ts : List Token) : List Token :=
  .lexeme (.punctuation .leftParen) :: (ts ++ [.lexeme (.punctuation .rightParen)])

end Token

/-- A formula closes the parentheses that it opens. -/
theorem Derives.depthAfter_eq {x : Lexicon} {c : Category} {ts : List Token} {n : Expr}
    (h : Derives x c ts n) : ∀ depth, ts.foldl Token.depthAfter depth = depth := by
  induction h using Derives.roles (Q := fun ts _ _ =>
    ∀ depth, ts.foldl Token.depthAfter depth = depth) with
  | loose _ _ ih => exact ih
  | binary _ hl _ _ ihl ihr =>
    intro depth
    simp only [List.foldl_append, List.foldl_cons, ihl, Token.depthAfter_operator hl, ihr]
  | @sign s _ _ l hl _ ih =>
    intro depth
    have hl : l.kind = (Operator.sign s).kind := hl
    simp only [List.foldl_cons, Token.depthAfter_operator hl, ih]
  | value ht _ =>
    intro depth
    exact Token.depthAfter_of_isOperand ht depth
  | parens hl _ hr ih =>
    intro depth
    simp [Token.depthAfter_leftParen hl, Token.depthAfter_rightParen hr, ih]
  | call hf _ hl _ hr _ ih =>
    intro depth
    simp [Token.depthAfter_of_ne hf (by decide), Token.depthAfter_leftParen hl,
      Token.depthAfter_rightParen hr, ih]
  | emptyCall hf _ hl hr _ =>
    intro depth
    simp [Token.depthAfter_of_ne hf (by decide), Token.depthAfter_leftParen hl,
      Token.depthAfter_rightParen hr]
  | groupCall hf _ _ =>
    intro depth
    simp only [List.foldl_cons, Token.depthAfter_of_ne hf (by decide)]
    rfl
  | one _ ih => exact ih _
  | more _ hs _ ihf ihl =>
    simp only [List.foldl_append, List.foldl_cons, ihf, Token.depthAfter_of_ne hs (by decide), ihl]

theorem Derives.parenthesized {x : Lexicon} {ts : List Token} {n : Expr}
    (h : Derives x .equation ts n) : Derives x .atom (Token.parenthesized ts) n := .parens rfl h rfl

/-- The content of an argument list closes the parentheses that it opens. -/
theorem DerivesArguments.depthAfter_eq {x : Lexicon} {ts : List Token} {as : List Expr} :
    DerivesArguments x ts as → ∀ depth, ts.foldl Token.depthAfter depth = depth
  | .one h, depth => h.depthAfter_eq depth
  | .more first hs last, depth => by
    simp only [List.foldl_append, List.foldl_cons, first.depthAfter_eq,
      Token.depthAfter_of_ne hs (by decide), last.depthAfter_eq]

end Formula
