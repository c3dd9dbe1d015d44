/-
Formula.Proofs.Scan.Counts — what a scan keeps twice.

A scan has two counters and a flag beside its stack and the token that it read
last. All of them could be read off the latter two, and they always agree with
them (`Scan.InStep`): the counters are the numbers of parentheses and of calls on
the stack, and an operand is awaited exactly if the token read last is followed
by one. So no counter is ever taken below zero.

The parentheses on the stack are those of the list that are open, with the
spelling that they have there (`Token.unclosed`). A list that ends inside
parentheses is therefore refused with the innermost of them, and never with the
name of a call.
-/
import Formula.Environment.Standard
import Formula.Proofs.Scan.Balance
import Formula.Proofs.Scan.Bounds

namespace Formula

/-! ## 1. The parentheses that are open after a list -/

namespace Token

/-- The open parentheses after a token, the innermost one first. -/
def unclosedAfter (outer : List Lexeme) : Token → List Lexeme
  | .lexeme l =>
    match l.kind with
    | .leftParen => l :: outer
    | .rightParen => outer.tail
    | _ => outer
  | _ => outer

/-- The parentheses that are open after a list, the innermost one first. -/
def unclosed (ts : List Token) : List Lexeme := ts.foldl unclosedAfter []

variable {ts : List Token} {t : Token} {l : Lexeme} {ls : List Lexeme}

theorem unclosed_concat (ts : List Token) (t : Token) :
    unclosed (ts ++ [t]) = unclosedAfter (unclosed ts) t := by
  rw [unclosed, List.foldl_concat]
  rfl

theorem unclosedAfter_leftParen (h : l.kind = .leftParen) (ls : List Lexeme) :
    unclosedAfter ls (.lexeme l) = l :: ls := by
  simp [unclosedAfter, h]

theorem unclosedAfter_rightParen (h : l.kind = .rightParen) (ls : List Lexeme) :
    unclosedAfter ls (.lexeme l) = ls.tail := by
  simp [unclosedAfter, h]

theorem unclosedAfter_of_isParen (h : t.isParen = false) (ls : List Lexeme) :
    unclosedAfter ls t = ls := by
  cases t with
  | lexeme l => cases hk : l.kind <;> simp_all [unclosedAfter, isParen, kind?]
  | _ => rfl

theorem exists_kind_of_isParen (h : t.isParen = true) :
    ∃ l, t = .lexeme l ∧ (l.kind = .leftParen ∨ l.kind = .rightParen) := by
  cases t with
  | lexeme l => exact ⟨l, rfl, by simpa [isParen, kind?] using h⟩
  | _ => cases h

theorem length_unclosedAfter (ls : List Lexeme) (t : Token) :
    (unclosedAfter ls t).length = t.depthAfter ls.length := by
  cases t with
  | lexeme l => cases hk : l.kind <;> simp [unclosedAfter, depthAfter, hk]
  | _ => rfl

/-- The innermost parenthesis that is open is followed by a balanced list. -/
theorem exists_balanced_of_unclosed (h : unclosed ts = l :: ls) :
    ∃ us vs, ts = us ++ .lexeme l :: vs ∧ l.kind = .leftParen ∧ Balanced vs ∧
      unclosed us = ls := by
  induction hn : ts.length using Nat.strongRecOn generalizing ts l ls with
  | ind n ih =>
    subst hn
    rcases List.eq_nil_or_concat' ts with rfl | ⟨ts, t, rfl⟩
    · cases h
    rw [unclosed_concat] at h
    by_cases hparen : t.isParen = false
    · rw [unclosedAfter_of_isParen hparen] at h
      obtain ⟨us, vs, rfl, hl, hvs, hus⟩ := ih ts.length (by simp) h rfl
      refine ⟨us, vs ++ [t], by simp, hl, hvs.append (.of_isParen hparen), hus⟩
    · obtain ⟨r, rfl, hr⟩ := exists_kind_of_isParen (by simpa using hparen)
      rcases hr with hr | hr
      · rw [unclosedAfter_leftParen hr] at h
        obtain ⟨rfl, rfl⟩ := List.cons.inj h
        exact ⟨ts, [], rfl, hr, .nil, rfl⟩
      · -- The parenthesis closes the one after `l`, and what is between the two is balanced.
        rw [unclosedAfter_rightParen hr] at h
        cases hts : unclosed ts with
        | nil => simp [hts] at h
        | cons m ms =>
          obtain rfl : ms = l :: ls := by simpa [hts] using h
          obtain ⟨us, vs, rfl, hm, hvs, hus⟩ := ih ts.length (by simp) hts rfl
          obtain ⟨us, ws, rfl, hl, hws, hus⟩ := ih us.length (by simp) hus rfl
          exact ⟨us, ws ++ .lexeme m :: (vs ++ [.lexeme r]), by simp, hl,
            hws.append (.enclosed hm hr hvs), hus⟩

end Token

open Token

/-! ## 2. The entries of a stack -/

namespace Pending

/-- The parenthesis that an entry of a stack is. -/
def paren? : Pending → Option Lexeme
  | .paren l => some l
  | _ => none

/-- Whether an entry of a stack is a call. -/
def isCall : Pending → Bool
  | .call _ _ => true
  | _ => false

end Pending

/-- The parentheses on a stack, its top first. -/
def Yard.parens (y : Yard) : List Lexeme := y.stack.filterMap Pending.paren?

/-- Popping operators takes no parentheses away. -/
theorem Yard.parens_eq {y : Yard} {p : Operator → Bool} {rest : List Pending}
    (hpop : (popOperators p y.stack).2 = rest) : y.parens = rest.filterMap Pending.paren? := by
  obtain ⟨ops, -, hstack, -⟩ := exists_operators_append p y.stack
  have hops : (ops.map fun o => Pending.operator o.1 o.2).filterMap Pending.paren? = [] := by
    simp [Pending.paren?]
  rw [parens, hstack, List.filterMap_append, hops, List.nil_append, hpop]

theorem Yard.parens_pushOperator (y : Yard) (op : Operator) (l : Lexeme) :
    (y.pushOperator op l).parens = y.parens := (parens_eq rfl).symm

namespace Stands

variable {stack : List Pending} {calls : List Bool}

theorem countP_isCall (h : Stands stack calls) :
    stack.countP Pending.isCall = calls.count true := by
  induction h with
  | nil => rfl
  | operator _ ih => rw [List.countP_cons_of_neg (by simp [Pending.isCall]), ih]
  | paren _ ih => rw [List.countP_cons_of_neg (by simp [Pending.isCall]), ih]; simp
  | call _ ih =>
    rw [List.countP_cons_of_neg (by simp [Pending.isCall]), List.countP_cons_of_pos rfl, ih]
    simp

/-- Each call has its parenthesis directly on top of it. -/
theorem paren_suffix (h : Stands stack calls) {f : Lexeme} {count : Nat} {below : List Pending}
    (hcall : .call f count :: below <:+ stack) :
    ∃ p, .paren p :: .call f count :: below <:+ stack := by
  induction h with
  | nil => simp at hcall
  | @operator stack _ op l _ ih =>
    rcases List.suffix_cons_iff.mp hcall with heq | hcall
    · cases heq
    · obtain ⟨p, hp⟩ := ih hcall
      exact ⟨p, hp.trans (List.suffix_cons _ _)⟩
  | paren _ ih =>
    rcases List.suffix_cons_iff.mp hcall with heq | hcall
    · cases heq
    · obtain ⟨p, hp⟩ := ih hcall
      exact ⟨p, hp.trans (List.suffix_cons _ _)⟩
  | @call stack _ l g n _ ih =>
    rcases List.suffix_cons_iff.mp hcall with heq | hcall
    · cases heq
    · rcases List.suffix_cons_iff.mp hcall with heq | hcall
      · exact ⟨l, heq ▸ List.suffix_refl _⟩
      · obtain ⟨p, hp⟩ := ih hcall
        exact ⟨p, hp.trans ((List.suffix_cons _ _).trans (List.suffix_cons _ _))⟩

end Stands

/-! ## 3. A scan in step with what it read -/

/-- Whether a lexeme of this kind is followed by an operand: it is an operator,
an opening parenthesis or a separator. -/
def LexemeKind.leadsOperand : LexemeKind → Bool
  | .plus | .minus | .times | .divide | .power | .equals | .leftParen | .separator => true
  | _ => false

/-- Whether an operand has to follow the token read last, if one was read. -/
def Token.operandFollows : Option Token → Bool
  | none => true
  | some (.lexeme l) => l.kind.leadsOperand
  | some _ => false

namespace Scan

/-- The counters and the flag of a scan agree with its stack and with the token
read last. -/
structure InStep (s : Scan) : Prop where
  openParens : s.openParens = s.yard.stack.countP (·.paren?.isSome)
  openCalls : s.openCalls = s.yard.stack.countP Pending.isCall
  /-- Each call has its parenthesis directly on top of it. -/
  paren_suffix : ∀ f count below, .call f count :: below <:+ s.yard.stack →
    ∃ p, .paren p :: .call f count :: below <:+ s.yard.stack
  awaiting : s.awaiting = Token.operandFollows s.previous

/-- A scan that has read a list has its open parentheses on the stack. -/
structure Follows (ts : List Token) (s : Scan) : Prop extends Tracks ts s where
  parens : s.yard.parens = unclosed ts
  openParens : s.openParens = (unclosed ts).length
  awaiting : s.awaiting = Token.operandFollows s.previous
  /-- The name of a function stands where an operand is awaited. -/
  awaiting_of_called : ∀ f, s.called = some f → s.awaiting = true

variable {ctx : Context} {s s' : Scan} {t : Token} {ts us : List Token}

theorem follows_start : Follows [] start where
  toTracks := tracks_start
  parens := rfl
  openParens := rfl
  awaiting := rfl
  awaiting_of_called := nofun

/-- The parentheses on the stack change as those of the list. -/
theorem Moves.parens_eq (h : Moves ctx s t s') :
    s'.yard.parens = unclosedAfter s.yard.parens t := by
  cases h with
  | operand _ ht _ _ => exact (unclosedAfter_of_isParen (isParen_of_isOperand ht).1 _).symm
  | functionName _ hk _ _ => exact (unclosedAfter_of_isParen (isParen_of_ne hk (by decide)) _).symm
  | groupCall _ _ => rfl
  | openCall _ hk _ => exact (unclosedAfter_leftParen hk _).symm
  | openParen _ hk _ _ => exact (unclosedAfter_leftParen hk _).symm
  | closeCall _ hk _ hpop =>
    rw [unclosedAfter_rightParen hk, Yard.parens_eq hpop]
    rfl
  | closeParen _ hk _ _ hpop _ =>
    rw [unclosedAfter_rightParen hk, Yard.parens_eq hpop]
    rfl
  | separator _ hk _ _ hpop =>
    rw [unclosedAfter_of_isParen (isParen_of_ne hk (by decide)), Yard.parens_eq hpop]
    rfl
  | @sign l sign _ hk _ =>
    have hsign : l.kind = (Operator.sign sign).kind := hk
    rw [unclosedAfter_of_isParen (isParen_of_operator hsign).1, Yard.parens_pushOperator]
  | operator _ _ hk _ =>
    rw [unclosedAfter_of_isParen (isParen_of_operator hk).1, Yard.parens_pushOperator]

theorem operandFollows_of_isOperand {t : Token} (h : t.isOperand = true) :
    Token.operandFollows (some t) = false := by
  cases t with
  | lexeme l =>
    have h : l.kind.isOperand = true := h
    rw [Token.operandFollows]
    cases hk : l.kind <;> simp_all [LexemeKind.leadsOperand, LexemeKind.isOperand]
  | _ => rfl

theorem operandFollows_of_operator {l : Lexeme} {op : Operator} (h : l.kind = op.kind) :
    Token.operandFollows (some (.lexeme l)) = true := by
  rw [Token.operandFollows, h]
  rcases op with _ | op | sign | _
  · rfl
  · cases op <;> rfl
  · cases sign <;> rfl
  · rfl

/-- Every move sets the flag by the token that it reads. -/
theorem Moves.awaiting_eq (h : Moves ctx s t s')
    (hs : s.awaiting = Token.operandFollows s.previous)
    (hcalled : ∀ f, s.called = some f → s.awaiting = true) :
    s'.awaiting = Token.operandFollows s'.previous ∧
      ∀ f, s'.called = some f → s'.awaiting = true := by
  have hkind : ∀ l : Lexeme, ∀ kind, l.kind = kind →
      Token.operandFollows (some (.lexeme l)) = kind.leadsOperand := by
    rintro l _ rfl
    rfl
  have hsettled : ∀ {P : Prop}, s.called = none → ∀ f, s.called = some f → P := by
    intro P hc f hf
    rw [hc] at hf
    cases hf
  cases h with
  | operand hc ht _ _ => exact ⟨(operandFollows_of_isOperand ht).symm, hsettled hc⟩
  | functionName _ _ ha _ => exact ⟨hs, fun _ _ => ha⟩
  | groupCall _ _ => exact ⟨rfl, nofun⟩
  | openCall hc hk _ => exact ⟨(hcalled _ hc).trans (hkind _ _ hk).symm, nofun⟩
  | openParen hc hk ha _ => exact ⟨ha.trans (hkind _ _ hk).symm, hsettled hc⟩
  | closeCall hc hk _ _ => exact ⟨(hkind _ _ hk).symm, hsettled hc⟩
  | closeParen hc hk _ _ _ _ => exact ⟨(hkind _ _ hk).symm, hsettled hc⟩
  | separator hc hk _ _ _ => exact ⟨(hkind _ _ hk).symm, hsettled hc⟩
  | @sign l sign hc hk _ =>
    have hsign : l.kind = (Operator.sign sign).kind := hk
    exact ⟨(operandFollows_of_operator hsign).symm, hsettled hc⟩
  | operator hc _ hk _ => exact ⟨(operandFollows_of_operator hk).symm, hsettled hc⟩

theorem Moves.follows (h : Moves ctx s t s') (hs : Follows ts s) : Follows (ts ++ [t]) s' where
  toTracks := h.tracks hs.toTracks
  parens := by rw [h.parens_eq, hs.parens, unclosed_concat]
  openParens := by rw [h.openParens_eq, hs.openParens, unclosed_concat, length_unclosedAfter]
  awaiting := (h.awaiting_eq hs.awaiting hs.awaiting_of_called).1
  awaiting_of_called := (h.awaiting_eq hs.awaiting hs.awaiting_of_called).2

theorem Follows.inStep (hs : Follows ts s) : InStep s := by
  obtain ⟨calls, -, hstack, hcount⟩ := hs.opened
  refine ⟨?_, hcount.trans hstack.countP_isCall.symm, fun _ _ _ => hstack.paren_suffix, hs.awaiting⟩
  rw [hs.openParens, ← hs.parens, Yard.parens, List.length_filterMap_eq_countP]

theorem Follows.foldlM (hs : Follows us s) (h : ts.foldlM (step ctx) s = .ok s') :
    Follows (us ++ ts) s' :=
  foldlM_reads (fun hmove hs => hmove.follows hs) hs h

/-! ## 4. Parentheses that are closed, and that are not -/

/-- A parenthesis that is closed is counted, and so is a call that is closed. -/
theorem Follows.pos_of_closeParen (hs : Follows ts s) {l : Lexeme} {empty closesCall : Bool}
    {yard : Yard} (h : s.yard.closeParen l empty = .ok (yard, closesCall)) :
    0 < s.openParens ∧ (closesCall = true → 0 < s.openCalls) := by
  obtain ⟨calls, -, hstack, hcount⟩ := hs.opened
  rw [hs.openParens, ← hs.parens]
  unfold Yard.closeParen at h
  simp only at h
  split at h
  · rename_i p f count below hpop
    obtain ⟨calls, rfl, -⟩ := (hstack.of_pop hpop).tail_of_call
    rw [Yard.parens_eq hpop, hcount, List.count_cons_self]
    exact ⟨Nat.succ_pos _, fun _ => Nat.succ_pos _⟩
  · rename_i p below _ hpop
    split at h
    · cases h
    · cases h
      rw [Yard.parens_eq hpop]
      exact ⟨Nat.succ_pos _, nofun⟩
  · cases h
  · cases h

/-- Where parentheses are open, the innermost of them is beneath the operators on
top of the stack. -/
theorem Follows.exists_paren (hs : Follows ts s) (hopen : 0 < s.openParens) :
    ∃ l below, (popOperators (fun _ => true) s.yard.stack).2 = .paren l :: below ∧
      ∃ ls, unclosed ts = l :: ls := by
  obtain ⟨calls, -, hstack, -⟩ := hs.opened
  have hno := popOperators_all_ne_operator s.yard.stack
  rw [hs.openParens] at hopen
  rw [← hs.parens] at hopen ⊢
  cases hpop : (popOperators (fun _ => true) s.yard.stack).2 with
  | nil =>
    rw [Yard.parens_eq hpop] at hopen
    cases hopen
  | cons entry below =>
    cases entry with
    | operator op l => exact absurd hpop (hno below op l)
    | paren l => exact ⟨l, below, rfl, _, Yard.parens_eq hpop⟩
    | call f count => exact absurd (hstack.of_pop hpop) Stands.ne_call

/-- Where parentheses are open at the end of a list, the list is refused with the
innermost of them. -/
theorem Follows.finish_eq (hs : Follows ts s) (hc : s.called = none) (ha : s.awaiting = false)
    (hopen : 0 < s.openParens) :
    ∃ us l vs below, ts = us ++ .lexeme l :: vs ∧ l.kind = .leftParen ∧ Balanced vs ∧
      (popOperators (fun _ => true) s.yard.stack).2 = .paren l :: below ∧
      s.finish = .error (.mismatchedParentheses l.text) := by
  obtain ⟨l, below, hpop, ls, hunclosed⟩ := hs.exists_paren hopen
  obtain ⟨us, vs, rfl, hl, hvs, -⟩ := exists_balanced_of_unclosed hunclosed
  exact ⟨us, l, vs, below, rfl, hl, hvs, hpop, by simp [finish, hc, ha, Yard.drain, hpop]⟩

end Scan

/-- Between any two tokens, the counters and the flag of a scan agree with its
stack and with the token read last. So a parenthesis that is closed was counted,
and if it is that of a call, then so was the call. A list that ends with
parentheses open, and without an operand missing, is refused with the innermost
of them, which then is what waits on the stack. -/
theorem scan_inStep (ctx : Context) (tokens : List Token) (s : Scan)
    (h : tokens.foldlM (Scan.step ctx) Scan.start = .ok s) :
    s.InStep ∧
      (∀ l empty yard closesCall, s.yard.closeParen l empty = .ok (yard, closesCall) →
        0 < s.openParens ∧ (closesCall = true → 0 < s.openCalls)) ∧
      (s.called = none → s.awaiting = false → 0 < s.openParens →
        ∃ us l vs below, tokens = us ++ .lexeme l :: vs ∧ l.kind = .leftParen ∧ Balanced vs ∧
          (popOperators (fun _ => true) s.yard.stack).2 = .paren l :: below ∧
          Scan.run ctx tokens = .error (.mismatchedParentheses l.text)) := by
  have hs : s.Follows tokens := Scan.follows_start.foldlM h
  refine ⟨hs.inStep, fun _ _ _ _ => hs.pos_of_closeParen, fun hc ha hopen => ?_⟩
  obtain ⟨us, l, vs, below, htokens, hl, hvs, hpop, hfinish⟩ := hs.finish_eq hc ha hopen
  refine ⟨us, l, vs, below, htokens, hl, hvs, hpop, ?_⟩
  rw [Scan.run, h]
  show s.finish >>= reduce ctx.environment ctx.limits.maxHeight = _
  rw [hfinish]
  rfl

namespace Scan

/-- A sine with a bracket inside its parenthesis, and neither of them closed. -/
def openSine : List Token :=
  [.lexeme (.functionName "sin"), .lexeme ⟨.leftParen, "("⟩, .lexeme ⟨.leftParen, "["⟩,
    .lexeme (.variableName "x")]

/-- A context with room for two parentheses. -/
def twoParens : Context :=
  ⟨.standard, .standard, 2, fun _ => .error (.nestingTooDeep Limits.standard.maxDepth)⟩

/-- The scan that has read the sine. -/
def sineRead : Scan where
  yard := ⟨[.paren ⟨.leftParen, "["⟩, .paren ⟨.leftParen, "("⟩, .call (.functionName "sin") 1],
    #[.value ⟨.free "x", 1⟩]⟩
  previous := some (.lexeme (.variableName "x"))
  awaiting := false
  called := none
  openCalls := 1
  openParens := 2

end Scan

/-- The bracket is the innermost one. -/
theorem scan_inStep_openSine :
    Scan.openSine.foldlM (Scan.step Scan.twoParens) Scan.start = .ok Scan.sineRead ∧
      Scan.sineRead.InStep ∧ 0 < Scan.sineRead.openParens ∧
      ∃ us l vs, Scan.openSine = us ++ .lexeme l :: vs ∧ Balanced vs ∧ l.text = "[" ∧
        Scan.run Scan.twoParens Scan.openSine = .error (.mismatchedParentheses l.text) := by
  have h : Scan.openSine.foldlM (Scan.step Scan.twoParens) Scan.start = .ok Scan.sineRead := rfl
  have hclose : Scan.sineRead.yard.closeParen (.punctuation .rightParen) false =
      .ok (⟨[.paren ⟨.leftParen, "("⟩, .call (.functionName "sin") 1],
        #[.value ⟨.free "x", 1⟩]⟩, false) := rfl
  obtain ⟨hinStep, hpos, hrefused⟩ := scan_inStep Scan.twoParens Scan.openSine Scan.sineRead h
  obtain ⟨hparens, -⟩ := hpos _ _ _ _ hclose
  obtain ⟨us, l, vs, below, htokens, -, hvs, hpop, hrun⟩ := hrefused rfl rfl hparens
  have hl : l = ⟨.leftParen, "["⟩ := by
    cases hpop
    rfl
  exact ⟨h, hinStep, hparens, us, l, vs, htokens, hvs, by rw [hl], hrun⟩

end Formula
