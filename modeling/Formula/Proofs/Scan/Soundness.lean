/-
Formula.Proofs.Scan.Soundness — what the scan accepts derives.

A state of the scan is a cut through a derivation. The stack says which
rules are open at the cut, and the values of the output queue are the trees
of what these rules have read completely (`Open`); where no operand is
awaited, one more operand has been read (`Tracks`). Every move keeps this.
The moves that pop operators close the rules of these operators, the
innermost first (`Open.collapse`).

The queue is reduced only after the scan, so the invariant speaks of every
stack of values that the queue leads to, and says nothing where it leads to
none.
-/
import Formula.Proofs.Scan.Completeness

namespace Formula

/-! ## 1. Open rules -/

/-- The rules that are open: the stack of the scan, the trees of their
parts, the last one first, and the tokens that were read for them. -/
inductive Open (x : Lexicon) : List Pending → List Expr → List Token → Prop
  | start : Open x [] [] []
  | paren {stack vs ts l} (below : Open x stack vs ts) (hl : l.kind = .leftParen) :
      Open x (.paren l :: stack) vs (ts ++ [.lexeme l])
  | call {stack vs ts f l} (below : Open x stack vs ts) (hf : f.kind = .functionName)
      (hfun : x.environment.isFunction f.text = true) (hl : l.kind = .leftParen) :
      Open x (.paren l :: .call f 1 :: stack) vs (ts ++ [.lexeme f, .lexeme l])
  | arguments {stack vs ts us f l sep arguments} (below : Open x stack vs ts)
      (hf : f.kind = .functionName) (hfun : x.environment.isFunction f.text = true)
      (hl : l.kind = .leftParen) (list : DerivesArguments x us arguments)
      (hs : sep.kind = .separator) :
      Open x (.paren l :: .call f (arguments.length + 1) :: stack) (arguments.reverse ++ vs)
        (ts ++ .lexeme f :: .lexeme l :: us ++ [.lexeme sep])
  | sign {stack vs ts l} {s : Sign} (below : Open x stack vs ts) (hl : l.kind = s.kind) :
      Open x (.operator (.sign s) l :: stack) vs (ts ++ [.lexeme l])
  | operator {stack vs ts us a l op c} (below : Open x stack vs ts)
      (hc : Operator.left? op = some c) (left : Derives x c us a) (hl : l.kind = op.kind)
      (hadm : Admits op.level stack) :
      Open x (.operator op l :: stack) (a :: vs) (ts ++ us ++ [.lexeme l])

namespace Open

variable {x : Lexicon} {stack : List Pending} {vs : List Expr} {ts : List Token}

/-- Whatever is open, a sign may follow. -/
theorem admits_sign (h : Open x stack vs ts) : Admits 3 stack := by
  have hright : ∀ op : Operator, op.right.level ≤ 3 := by
    rintro (_ | op | s | _)
    · decide
    · cases op <;> decide
    · exact Nat.le_refl 3
    · decide
  cases h with
  | sign _ _ => exact hright _
  | operator _ _ _ _ _ => exact hright _
  | _ => trivial

/-- An operator that is not popped does not have the property. -/
theorem eq_false_of_popOperators {p : Operator → Bool} {stack rest : List Pending}
    {op : Operator} {l : Lexeme} (h : (popOperators p stack).2 = .operator op l :: rest) :
    p op = false := by
  induction stack with
  | nil => simp [popOperators] at h
  | cons entry below ih =>
    cases entry with
    | operator top l' =>
      rw [popOperators] at h
      split at h
      · exact ih h
      · rename_i hp
        cases h
        simpa using hp
    | paren l' => simp [popOperators] at h
    | call f count => simp [popOperators] at h

/-- After what yields was popped, the stack admits the operator that
comes. -/
theorem admits_of_popOperators {op : Operator} {pending : List Pending}
    (h : Open x (popOperators (·.yieldsTo op) pending).2 vs ts) :
    Admits op.level (popOperators (·.yieldsTo op) pending).2 := by
  generalize hstack : (popOperators (·.yieldsTo op) pending).2 = stack at h
  have hkeep : ∀ {top : Operator} {l : Lexeme} {rest : List Pending},
      stack = .operator top l :: rest → top.right.level ≤ op.level := by
    intro top l rest hs
    have := eq_false_of_popOperators (hstack.trans hs)
    rw [Operator.yieldsTo_eq] at this
    simpa using this
  cases h with
  | sign _ _ => exact hkeep rfl
  | operator _ _ _ _ _ => exact hkeep rfl
  | _ => trivial

/-! ## 2. Closing rules -/

/-- Popping operators closes their rules: the operand read last becomes the
right operand of the operator on top, the result that of the next one, and
so on. What is left is an operand of the category `d`, if the operators that
are popped bind tightly enough. -/
theorem collapse {p : Operator → Bool} {d : Category} {maxHeight : Nat}
    (hp : ∀ o, p o = true → d.level ≤ o.level) (h : Open x stack vs ts) :
    ∀ {c : Category} {us : List Token} {n : Expr} {out : List Measured},
      Derives x c us n → d.level ≤ c.level → Admits c.level stack →
        (popOperators p stack).1.foldlM (Item.apply x.environment maxHeight)
            ((n :: vs).map Expr.measured) = .ok out →
          ∃ vs' ts' us' n', out = (n' :: vs').map Expr.measured ∧
            Open x (popOperators p stack).2 vs' ts' ∧ Derives x d us' n' ∧
              ts ++ us = ts' ++ us' := by
  induction h with
  | @sign stack vs ts l s below hl ih =>
    intro c us n out hn hd hadm hout
    by_cases hpop : p (.sign s) = true
    · have hrest : popOperators p (.operator (.sign s) l :: stack) =
          (.operator (.sign s) l :: (popOperators p stack).1, (popOperators p stack).2) := by
        simp [popOperators, hpop]
      rw [hrest] at hout ⊢
      obtain ⟨mid, hmid, hout⟩ := bind_eq_ok_iff.mp hout
      obtain ⟨-, rfl⟩ := Item.apply_sign_eq_ok_iff.mp hmid
      have hsigned : Derives x .signed (.lexeme l :: us) (.signed s n) :=
        .sign hl (hn.loosen hadm)
      obtain ⟨vs', ts', us', n', hout', hopen, hn', hts⟩ :=
        ih hsigned (hp _ hpop) below.admits_sign hout
      exact ⟨vs', ts', us', n', hout', hopen, hn', by rw [← hts]; simp⟩
    · have hrest : popOperators p (.operator (.sign s) l :: stack) =
          ([], .operator (.sign s) l :: stack) := by simp [popOperators, hpop]
      rw [hrest] at hout ⊢
      cases hout
      exact ⟨_, _, us, n, rfl, .sign below hl, hn.loosen hd, rfl⟩
  | @operator stack vs ts us₀ a l op c₀ below hc left hl hadm₀ ih =>
    intro c us n out hn hd hadm hout
    by_cases hpop : p op = true
    · have hrest : popOperators p (.operator op l :: stack) =
          (.operator op l :: (popOperators p stack).1, (popOperators p stack).2) := by
        simp [popOperators, hpop]
      rw [hrest] at hout ⊢
      obtain ⟨mid, hmid, hout⟩ := bind_eq_ok_iff.mp hout
      have hleft : op.left?.isSome = true := by rw [hc]; rfl
      obtain ⟨-, rfl⟩ := (Item.apply_operator_eq_ok_iff hleft).mp hmid
      have hjoin := Derives.binary hc hl left (hn.loosen hadm)
      rw [← Operator.level_category] at hadm₀
      obtain ⟨vs', ts', us', n', hout', hopen, hn', hts⟩ :=
        ih hjoin (by rw [Operator.level_category]; exact hp _ hpop) hadm₀ hout
      exact ⟨vs', ts', us', n', hout', hopen, hn', by rw [← hts]; simp⟩
    · have hrest : popOperators p (.operator op l :: stack) =
          ([], .operator op l :: stack) := by simp [popOperators, hpop]
      rw [hrest] at hout ⊢
      cases hout
      exact ⟨_, _, us, n, rfl, .operator below hc left hl hadm₀, hn.loosen hd, rfl⟩
  | start =>
    intro c us n out hn hd _ hout
    cases hout
    exact ⟨_, _, us, n, rfl, .start, hn.loosen hd, rfl⟩
  | paren below hl =>
    intro c us n out hn hd _ hout
    cases hout
    exact ⟨_, _, us, n, rfl, .paren below hl, hn.loosen hd, rfl⟩
  | call below hf hfun hl =>
    intro c us n out hn hd _ hout
    cases hout
    exact ⟨_, _, us, n, rfl, .call below hf hfun hl, hn.loosen hd, rfl⟩
  | arguments below hf hfun hl list hs =>
    intro c us n out hn hd _ hout
    cases hout
    exact ⟨_, _, us, n, rfl, .arguments below hf hfun hl list hs, hn.loosen hd, rfl⟩

/-- The last argument completes what is read of an argument list. -/
theorem lastArgument {p f : Lexeme} {count : Nat} {below : List Pending} {us : List Token}
    {n : Expr} (h : Open x (.paren p :: .call f count :: below) vs ts)
    (last : Derives x .equation us n) :
    ∃ arguments vs' ts' us', Open x below vs' ts' ∧ f.kind = .functionName ∧
      x.environment.isFunction f.text = true ∧ p.kind = .leftParen ∧
        DerivesArguments x us' arguments ∧ count = arguments.length ∧
          n :: vs = arguments.reverse ++ vs' ∧
            ts ++ us = ts' ++ .lexeme f :: .lexeme p :: us' := by
  cases h with
  | paren below _ => cases below
  | call below hf hfun hl =>
    exact ⟨[n], vs, _, us, below, hf, hfun, hl, .one last, rfl, rfl, by simp⟩
  | @arguments _ vs ts us₀ _ _ sep arguments below hf hfun hl list hs =>
    exact ⟨arguments ++ [n], vs, ts, us₀ ++ .lexeme sep :: us, below, hf, hfun, hl,
      .more list hs last, by simp, by simp, by simp⟩

/-- Directly after an opening parenthesis no operator waits, and a list of
arguments is empty. -/
theorem emptyList {p f : Lexeme} {count : Nat} {below : List Pending} {t : Token}
    (h : Open x stack vs ts) (hlast : ts.getLast? = some t) (ht : t.kind? = some .leftParen)
    (hpop : (popOperators (fun _ => true) stack).2 = .paren p :: .call f count :: below) :
    (popOperators (fun _ => true) stack).1 = [] ∧ ∃ ts', Open x below vs ts' ∧
      f.kind = .functionName ∧ x.environment.isFunction f.text = true ∧ p.kind = .leftParen ∧
        ts = ts' ++ [.lexeme f, .lexeme p] := by
  cases h with
  | start => cases hpop
  | paren below hl =>
    cases hpop
    cases below
  | call below hf hfun hl =>
    cases hpop
    exact ⟨rfl, _, below, hf, hfun, hl, rfl⟩
  | arguments below hf hfun hl list hs =>
    rw [List.getLast?_concat] at hlast
    cases hlast
    simp [Token.kind?, hs] at ht
  | @sign _ _ _ l s _ hl =>
    rw [List.getLast?_concat] at hlast
    cases hlast
    cases s <;> simp [Token.kind?, hl, Sign.kind] at ht
  | @operator _ _ _ _ _ l op _ _ _ _ hl =>
    rw [List.getLast?_concat] at hlast
    cases hlast
    simp only [Token.kind?, hl, Option.some.injEq] at ht
    exact absurd ht op.kind_ne.1

end Open

/-! ## 3. States of the scan -/

/-- What a state of the scan says about the tokens read and the values put
out. -/
inductive Tracks (x : Lexicon) (s : Scan) : List Token → List Expr → Prop
  | naming {ts vs f} (hc : s.called = some f) (ha : s.awaiting = true)
      (hf : f.kind = .functionName) (hfun : x.environment.isFunction f.text = true)
      (rules : Open x s.yard.stack vs ts) : Tracks x s (ts ++ [.lexeme f]) vs
  | awaiting {ts vs} (hc : s.called = none) (ha : s.awaiting = true)
      (hp : s.previous = ts.getLast?) (rules : Open x s.yard.stack vs ts) : Tracks x s ts vs
  | settled {ts us vs n} (hc : s.called = none) (ha : s.awaiting = false)
      (hp : s.justOpened = false) (rules : Open x s.yard.stack vs ts)
      (operand : Derives x .atom us n) : Tracks x s (ts ++ us) (n :: vs)

/-- The invariant of the scan: wherever the queue leads to values, these
values and the stack describe the tokens read. -/
def Describes (ctx : Context) (s : Scan) (ts : List Token) : Prop :=
  ∀ values, s.yard.queue.toList.foldlM
      (Item.apply ctx.environment ctx.limits.maxHeight) [] = .ok values →
    ∃ vs, values = vs.map Expr.measured ∧ Tracks ctx.lexicon s ts vs

variable {ctx : Context} {s s' : Scan} {ts : List Token} {t : Token}

theorem Describes.start : Describes ctx .start [] := by
  intro values h
  cases h
  exact ⟨[], rfl, .awaiting rfl rfl rfl .start⟩

/-- The values before a move, when the move puts out items. -/
theorem Describes.before {items : List Item} {values : List Measured} (h : Describes ctx s ts)
    (hvalues : (s.yard.queue.toList ++ items).foldlM
      (Item.apply ctx.environment ctx.limits.maxHeight) [] = .ok values) :
    ∃ vs, Tracks ctx.lexicon s ts vs ∧
      items.foldlM (Item.apply ctx.environment ctx.limits.maxHeight)
        (vs.map Expr.measured) = .ok values := by
  rw [List.foldlM_append] at hvalues
  obtain ⟨mid, hmid, hrest⟩ := bind_eq_ok_iff.mp hvalues
  obtain ⟨vs, rfl, htracks⟩ := h mid hmid
  exact ⟨vs, htracks, hrest⟩

theorem Tracks.awaiting_inv {vs : List Expr} (h : Tracks ctx.lexicon s ts vs)
    (hc : s.called = none) (ha : s.awaiting = true) :
    s.previous = ts.getLast? ∧ Open ctx.lexicon s.yard.stack vs ts := by
  cases h with
  | naming hc' _ _ _ _ => rw [hc] at hc'; cases hc'
  | awaiting _ _ hp rules => exact ⟨hp, rules⟩
  | settled _ ha' _ _ _ => rw [ha] at ha'; cases ha'

theorem Tracks.settled_inv {vs : List Expr} (h : Tracks ctx.lexicon s ts vs)
    (hc : s.called = none) (ha : s.awaiting = false) :
    ∃ ts₀ us vs₀ n, ts = ts₀ ++ us ∧ vs = n :: vs₀ ∧ s.justOpened = false ∧
      Open ctx.lexicon s.yard.stack vs₀ ts₀ ∧ Derives ctx.lexicon .atom us n := by
  cases h with
  | naming hc' _ _ _ _ => rw [hc] at hc'; cases hc'
  | awaiting _ ha' _ _ => rw [ha] at ha'; cases ha'
  | settled _ _ hp rules operand => exact ⟨_, _, _, _, rfl, rfl, hp, rules, operand⟩

theorem Tracks.naming_inv {vs : List Expr} {f : Lexeme} (h : Tracks ctx.lexicon s ts vs)
    (hc : s.called = some f) :
    s.awaiting = true ∧ ∃ ts₀, ts = ts₀ ++ [.lexeme f] ∧ f.kind = .functionName ∧
      ctx.environment.isFunction f.text = true ∧ Open ctx.lexicon s.yard.stack vs ts₀ := by
  cases h with
  | naming hc' ha hf hfun rules =>
    obtain rfl := Option.some.inj (hc'.symm.trans hc)
    exact ⟨ha, _, rfl, hf, hfun, rules⟩
  | awaiting hc' _ _ _ => rw [hc] at hc'; cases hc'
  | settled hc' _ _ _ _ => rw [hc] at hc'; cases hc'

/-- What a settled state comes to when the operators with a property are
popped. -/
theorem Tracks.collapse {p : Operator → Bool} {d : Category} {vs : List Expr}
    {out : List Measured} (h : Tracks ctx.lexicon s ts vs) (hc : s.called = none)
    (ha : s.awaiting = false) (hp : ∀ o, p o = true → d.level ≤ o.level)
    (hout : (popOperators p s.yard.stack).1.foldlM
      (Item.apply ctx.environment ctx.limits.maxHeight) (vs.map Expr.measured) = .ok out) :
    s.justOpened = false ∧ ∃ vs' ts' us' n', out = (n' :: vs').map Expr.measured ∧
      Open ctx.lexicon (popOperators p s.yard.stack).2 vs' ts' ∧
        Derives ctx.lexicon d us' n' ∧ ts = ts' ++ us' := by
  obtain ⟨ts₀, us, vs₀, n, rfl, rfl, hopened, rules, operand⟩ := h.settled_inv hc ha
  have hatom : ∀ c : Category, c.level ≤ Category.atom.level := by
    intro c
    cases c <;> decide
  have hadm := rules.admits_sign.mono (show 3 ≤ Category.atom.level by decide)
  exact ⟨hopened, rules.collapse hp operand (hatom d) hadm hout⟩

/-- The values that a context gives have their right heights. -/
structure Context.Exact (ctx : Context) : Prop where
  value : ∀ {t v}, ctx.value t = .ok v → v = v.expr.measured
  call : ∀ {f delimiters elements v}, ctx.call f delimiters elements = .ok v →
    v = v.expr.measured

/-! ## 4. Every move keeps the invariant -/

theorem Describes.operand {v : Measured} (h : Describes ctx s ts) (hctx : ctx.Exact)
    (hc : s.called = none) (ht : t.isOperand = true) (ha : s.awaiting = true)
    (hv : ctx.value t = .ok v) : Describes ctx (s.pushValue v t) (ts ++ [t]) := by
  intro values hvalues
  simp only [Scan.pushValue, Yard.pushValue, Array.toList_push] at hvalues
  obtain ⟨vs, htracks, hout⟩ := h.before hvalues
  obtain ⟨-, rules⟩ := htracks.awaiting_inv hc ha
  have hexact := hctx.value hv
  have hn : ctx.lexicon.value t v.expr := hexact ▸ hv
  cases hout
  exact ⟨v.expr :: vs, by rw [List.map_cons, ← hexact],
    .settled hc rfl (Token.kind?_ne_of_isOperand ht) rules (.value ht hn)⟩

theorem Describes.groupCall {v : Measured} {f : Lexeme} {delimiters : Delimiters}
    {elements : List (List Token)} (h : Describes ctx s ts) (hctx : ctx.Exact)
    (hc : s.called = some f) (hv : ctx.call f delimiters elements = .ok v) :
    Describes ctx { s.pushValue v (.group delimiters elements) with called := none }
      (ts ++ [.group delimiters elements]) := by
  intro values hvalues
  simp only [Scan.pushValue, Yard.pushValue, Array.toList_push] at hvalues
  obtain ⟨vs, htracks, hout⟩ := h.before hvalues
  obtain ⟨-, ts₀, rfl, hf, hfun, rules⟩ := htracks.naming_inv hc
  have hexact := hctx.call hv
  have hn : ctx.lexicon.groupCall f delimiters elements v.expr := hexact ▸ hv
  cases hout
  rw [List.append_assoc]
  exact ⟨v.expr :: vs, by rw [List.map_cons, ← hexact],
    .settled rfl rfl rfl rules (.groupCall hf hfun hn)⟩

/-- The end of an argument list: the call is put out, with the arguments
that were read. -/
theorem Describes.closeCall {l p f : Lexeme} {count : Nat} {below : List Pending}
    (h : Describes ctx s ts) (hc : s.called = none) (hk : l.kind = .rightParen)
    (ha : s.awaiting = true → s.justOpened = true)
    (hpop : (popOperators (fun _ => true) s.yard.stack).2 = .paren p :: .call f count :: below) :
    Describes ctx
      { s with
        yard := ⟨below, (s.yard.queue ++ (popOperators (fun _ => true) s.yard.stack).1).push
          (.call f (if s.justOpened then 0 else count))⟩
        previous := some (.lexeme l)
        awaiting := false
        openCalls := s.openCalls - 1
        openParens := s.openParens - 1 } (ts ++ [.lexeme l]) := by
  intro values hvalues
  simp only [Array.toList_push, Array.toList_appendList, List.append_assoc] at hvalues
  obtain ⟨vs, htracks, hout⟩ := h.before hvalues
  have hclosed : Scan.justOpened
      { s with
        yard := ⟨below, (s.yard.queue ++ (popOperators (fun _ => true) s.yard.stack).1).push
          (.call f (if s.justOpened then 0 else count))⟩
        previous := some (.lexeme l)
        awaiting := false
        openCalls := s.openCalls - 1
        openParens := s.openParens - 1 } = false := by
    simp [Scan.justOpened, Token.kind?, hk]
  cases hawait : s.awaiting with
  | true =>
    obtain ⟨hp, rules⟩ := htracks.awaiting_inv hc hawait
    have hopened := ha hawait
    obtain ⟨last, hlast, hkind⟩ :
        ∃ last, ts.getLast? = some last ∧ last.kind? = some .leftParen := by
      rw [Scan.justOpened, hp] at hopened
      cases hts : ts.getLast? with
      | none => rw [hts] at hopened; cases hopened
      | some last =>
        rw [hts] at hopened
        exact ⟨last, rfl, by simpa using hopened⟩
    obtain ⟨hnone, ts', rules', hf, hfun, hl, rfl⟩ := rules.emptyList hlast hkind hpop
    rw [hnone, hopened] at hout
    obtain ⟨out, hcall, hout⟩ := bind_eq_ok_iff.mp hout
    obtain ⟨n, hn, rfl⟩ := Item.call_of_apply_eq_ok [] hcall
    cases hout
    rw [List.append_assoc]
    exact ⟨n :: vs, rfl, .settled hc rfl hclosed rules' (.emptyCall hf hfun hl hk hn)⟩
  | false =>
    rw [List.foldlM_append] at hout
    obtain ⟨mid, hmid, hout⟩ := bind_eq_ok_iff.mp hout
    obtain ⟨hopened, vs', ts', us', n', rfl, rules, hn', rfl⟩ :=
      htracks.collapse (d := .equation) hc hawait (fun _ _ => Nat.zero_le _) hmid
    rw [hpop] at rules
    obtain ⟨arguments, vs₀, ts₀, us₀, rules₀, hf, hfun, hl, list, rfl, hvs, hts⟩ :=
      rules.lastArgument hn'
    rw [hopened, hvs] at hout
    obtain ⟨out, hcall, hout⟩ := bind_eq_ok_iff.mp hout
    obtain ⟨n, hn, rfl⟩ := Item.call_of_apply_eq_ok arguments hcall
    cases hout
    refine ⟨n :: vs₀, rfl, ?_⟩
    have htoks : ts' ++ us' ++ [.lexeme l] =
        ts₀ ++ (.lexeme f :: .lexeme p :: (us₀ ++ [.lexeme l])) := by
      rw [hts]
      simp
    rw [htoks]
    exact .settled hc rfl hclosed rules₀ (.call hf hfun hl list hk hn)

theorem Describes.closeParen {l p : Lexeme} {below : List Pending} (h : Describes ctx s ts)
    (hc : s.called = none) (hk : l.kind = .rightParen) (ha : s.awaiting = false)
    (hpop : (popOperators (fun _ => true) s.yard.stack).2 = .paren p :: below)
    (hbelow : ∀ f count rest, below ≠ .call f count :: rest) :
    Describes ctx
      { s with
        yard := ⟨below, s.yard.queue ++ (popOperators (fun _ => true) s.yard.stack).1⟩
        previous := some (.lexeme l)
        awaiting := false
        openParens := s.openParens - 1 } (ts ++ [.lexeme l]) := by
  intro values hvalues
  simp only [Array.toList_appendList] at hvalues
  obtain ⟨vs, htracks, hout⟩ := h.before hvalues
  obtain ⟨-, vs', ts', us', n', rfl, rules, hn', rfl⟩ :=
    htracks.collapse (d := .equation) hc ha (fun _ _ => Nat.zero_le _) hout
  rw [hpop] at rules
  refine ⟨n' :: vs', rfl, ?_⟩
  cases rules with
  | call => exact absurd rfl (hbelow _ _ _)
  | arguments => exact absurd rfl (hbelow _ _ _)
  | @paren _ _ ts₀ _ rules₀ hl =>
    have htoks : ts₀ ++ [.lexeme p] ++ us' ++ [.lexeme l] =
        ts₀ ++ (.lexeme p :: (us' ++ [.lexeme l])) := by simp
    rw [htoks]
    exact .settled hc rfl (by simp [Scan.justOpened, Token.kind?, hk]) rules₀ (.parens hl hn' hk)

theorem Describes.separator {l p f : Lexeme} {count : Nat} {below : List Pending}
    (h : Describes ctx s ts) (hc : s.called = none) (hk : l.kind = .separator)
    (ha : s.awaiting = false)
    (hpop : (popOperators (fun _ => true) s.yard.stack).2 = .paren p :: .call f count :: below) :
    Describes ctx
      { s with
        yard := ⟨.paren p :: .call f (count + 1) :: below,
          s.yard.queue ++ (popOperators (fun _ => true) s.yard.stack).1⟩
        previous := some (.lexeme l)
        awaiting := true } (ts ++ [.lexeme l]) := by
  intro values hvalues
  simp only [Array.toList_appendList] at hvalues
  obtain ⟨vs, htracks, hout⟩ := h.before hvalues
  obtain ⟨-, vs', ts', us', n', rfl, rules, hn', rfl⟩ :=
    htracks.collapse (d := .equation) hc ha (fun _ _ => Nat.zero_le _) hout
  rw [hpop] at rules
  obtain ⟨arguments, vs₀, ts₀, us₀, rules₀, hf, hfun, hl, list, rfl, hvs, hts⟩ :=
    rules.lastArgument hn'
  rw [hvs, hts]
  refine ⟨_, rfl, .awaiting hc rfl (List.getLast?_concat).symm ?_⟩
  exact .arguments rules₀ hf hfun hl list hk

theorem Describes.sign {l : Lexeme} {sign : Sign} (h : Describes ctx s ts)
    (hc : s.called = none) (hk : l.kind = sign.kind) (ha : s.awaiting = true) :
    Describes ctx
      { s with
        yard := s.yard.pushOperator (.sign sign) l
        previous := some (.lexeme l)
        awaiting := true } (ts ++ [.lexeme l]) := by
  intro values hvalues
  simp only [Yard.pushOperator, popOperators_sign, Array.toList_appendList] at hvalues ⊢
  obtain ⟨vs, htracks, hout⟩ := h.before hvalues
  obtain ⟨-, rules⟩ := htracks.awaiting_inv hc ha
  cases hout
  exact ⟨vs, rfl, .awaiting hc rfl (List.getLast?_concat).symm (.sign rules hk)⟩

theorem Describes.operator {l : Lexeme} {op : Operator} (h : Describes ctx s ts)
    (hc : s.called = none) (hop : op.left?.isSome = true) (hk : l.kind = op.kind)
    (ha : s.awaiting = false) :
    Describes ctx
      { s with
        yard := s.yard.pushOperator op l
        previous := some (.lexeme l)
        awaiting := true } (ts ++ [.lexeme l]) := by
  intro values hvalues
  obtain ⟨d, hd⟩ := Option.isSome_iff_exists.mp hop
  simp only [Yard.pushOperator, Array.toList_appendList] at hvalues ⊢
  obtain ⟨vs, htracks, hout⟩ := h.before hvalues
  obtain ⟨-, vs', ts', us', n', rfl, rules, hn', rfl⟩ :=
    htracks.collapse (d := d) hc ha (fun o ho => (Operator.yieldsTo_iff_of_left? hd o).mp ho) hout
  refine ⟨n' :: vs', rfl, .awaiting hc rfl (List.getLast?_concat).symm ?_⟩
  exact .operator rules hd hn' hk rules.admits_of_popOperators

theorem Describes.moves (h : Describes ctx s ts) (hctx : ctx.Exact)
    (hmove : Scan.Moves ctx s t s') : Describes ctx s' (ts ++ [t]) := by
  cases hmove with
  | operand hc ht ha hv => exact h.operand hctx hc ht ha hv
  | functionName hc hk ha hf =>
    intro values hvalues
    obtain ⟨vs, rfl, htracks⟩ := h values hvalues
    exact ⟨vs, rfl, .naming rfl ha hk hf (htracks.awaiting_inv hc ha).2⟩
  | groupCall hc hv => exact h.groupCall hctx hc hv
  | openCall hc hk _ =>
    intro values hvalues
    obtain ⟨vs, rfl, htracks⟩ := h values hvalues
    obtain ⟨ha, ts₀, rfl, hf, hfun, rules⟩ := htracks.naming_inv hc
    refine ⟨vs, rfl, .awaiting rfl ha (List.getLast?_concat).symm ?_⟩
    rw [List.append_assoc]
    exact .call rules hf hfun hk
  | openParen hc hk ha _ =>
    intro values hvalues
    obtain ⟨vs, rfl, htracks⟩ := h values hvalues
    obtain ⟨-, rules⟩ := htracks.awaiting_inv hc ha
    exact ⟨vs, rfl, .awaiting hc ha (List.getLast?_concat).symm (.paren rules hk)⟩
  | closeCall hc hk ha hpop => exact h.closeCall hc hk ha hpop
  | closeParen hc hk ha _ hpop hbelow => exact h.closeParen hc hk ha hpop hbelow
  | separator hc hk _ ha hpop => exact h.separator hc hk ha hpop
  | sign hc hk ha => exact h.sign hc hk ha
  | operator hc hop hk ha => exact h.operator hc hop hk ha

theorem Describes.run {us : List Token} (h : Describes ctx s ts) (hctx : ctx.Exact)
    (hrun : us.foldlM (Scan.step ctx) s = .ok s') : Describes ctx s' (ts ++ us) :=
  Scan.foldlM_reads (P := fun ts s => Describes ctx s ts)
    (fun hmove h => h.moves hctx hmove) h hrun

/-- A list with a formula derives it, and the height that was counted is the
height of the formula. -/
theorem Scan.derives_of_run (hctx : ctx.Exact) {ts : List Token} {m : Measured}
    (h : run ctx ts = .ok m) :
    Derives ctx.lexicon .equation ts m.expr ∧ m = m.expr.measured := by
  obtain ⟨s, queue, hrun, hfinish, hreduce⟩ := run_eq_ok_iff.mp h
  obtain ⟨hc, ha, hnone, rfl⟩ := finish_eq_ok_iff.mp hfinish
  have hdesc : Describes ctx s ts := Describes.start.run hctx hrun
  obtain ⟨vs, htracks, hout⟩ := hdesc.before hreduce
  obtain ⟨-, vs', ts', us', n', hvs, rules, hn', rfl⟩ :=
    htracks.collapse (d := .equation) hc ha (fun _ _ => Nat.zero_le _) hout
  rw [hnone] at rules
  cases rules
  cases hvs
  exact ⟨hn', rfl⟩

end Formula
