/-
Formula.Proofs.Scan.Completeness — the scan reads whatever derives.

Where an operand is awaited, the scan reads the tokens of a formula and
leaves what was on the stack untouched below a few operators that still
wait (`Settles`). With these operators, the items put out since then yield
the formula. That is shown along the derivation, for any stack that admits
the category: the operator on top must not yield to the operators of the
formula (`Admits`), and those that still wait must yield to whatever can
follow it (`Yielding`).

The limits enter as two bounds on the list alone, the peak of its
parentheses and the height of its tree.
-/
import Formula.Proofs.Nesting
import Formula.Proofs.Scan.Reduction

namespace Formula

/-! ## 1. Operators that wait -/

/-- Operators as entries of the stack, the top first. -/
def waiting (ops : List (Operator × Lexeme)) : List Pending :=
  ops.map fun o => .operator o.1 o.2

/-- Operators as items of the output queue, in the order in which they leave
the stack. -/
def released (ops : List (Operator × Lexeme)) : List Item :=
  ops.map fun o => .operator o.1 o.2

theorem popOperators_waiting_append {p : Operator → Bool} {ops : List (Operator × Lexeme)}
    (h : ∀ o ∈ ops, p o.1 = true) (stack : List Pending) :
    popOperators p (waiting ops ++ stack) =
      (released ops ++ (popOperators p stack).1, (popOperators p stack).2) := by
  induction ops with
  | nil => rfl
  | cons o rest ih =>
    have ho : p o.1 = true := h o (by simp)
    have hrest := ih fun o ho => h o (by simp [ho])
    simp only [waiting, released, List.map_cons, List.cons_append] at hrest ⊢
    rw [popOperators, if_pos ho, hrest]

/-- Whether a stack lets a formula of a level follow: the operator on top
keeps what binds that tightly as a part of its right operand. A pending
call has its parenthesis above it and is never on top. -/
def Admits (level : Nat) : List Pending → Prop
  | .operator op _ :: _ => op.right.level ≤ level
  | .call _ _ :: _ => False
  | _ => True

theorem Admits.mono {level level' : Nat} {stack : List Pending} (hle : level ≤ level')
    (h : Admits level stack) : Admits level' stack := by
  cases stack with
  | nil => trivial
  | cons entry rest =>
    cases entry with
    | operator op l => exact Nat.le_trans h hle
    | paren l => trivial
    | call f count => exact h

/-- Nothing yields to an operator that the stack admits. -/
theorem popOperators_of_admits {incoming : Operator} {stack : List Pending}
    (h : Admits incoming.level stack) :
    popOperators (·.yieldsTo incoming) stack = ([], stack) := by
  cases stack with
  | nil => rfl
  | cons entry rest =>
    cases entry with
    | operator op l =>
      have hno : op.yieldsTo incoming = false := by
        rw [Operator.yieldsTo_eq]
        simpa [Admits] using h
      simp [popOperators, hno]
    | paren l => rfl
    | call f count => exact h.elim

/-- Operators that yield to every operator with a left operand of the
category, or of a looser one. -/
def Yielding (c : Category) (ops : List (Operator × Lexeme)) : Prop :=
  ∀ o ∈ ops, ∀ (incoming : Operator) (d : Category), incoming.left? = some d →
    d.level ≤ c.level → o.1.yieldsTo incoming = true

/-- An operator waits for the operators of its right operand, and they do
not wait longer than it does. -/
theorem Yielding.binary {op : Operator} {l : Lexeme} {ops : List (Operator × Lexeme)}
    (h : Yielding op.right ops) : Yielding op.category (ops ++ [(op, l)]) := by
  intro o ho incoming d hd hle
  rcases List.mem_append.mp ho with ho | ho
  · refine h o ho incoming d hd ?_
    -- After a power comes nothing that has a power for its left operand.
    rcases op with _ | op | s | _
    · exact Nat.le_trans hle (Nat.zero_le _)
    · cases op <;> exact Nat.le_trans hle (by decide)
    · exact hle
    · rcases incoming with _ | op | s | _
      · cases hd
        decide
      · cases op <;> cases hd <;> decide
      · cases hd
      · cases hd
        revert hle
        decide
  · obtain rfl := List.mem_singleton.mp ho
    rw [Operator.yieldsTo_iff_of_left? hd, ← Operator.level_category]
    exact hle

/-! ## 2. What reading does to a scan -/

/-- An operand was read: the operators in `ops` wait above `base`, and
`items` were put out. -/
structure Settles (s : Scan) (base : List Pending) (ops : List (Operator × Lexeme))
    (items : List Item) (s' : Scan) : Prop where
  called : s'.called = none
  awaiting : s'.awaiting = false
  closed : s'.justOpened = false
  openCalls : s'.openCalls = s.openCalls
  openParens : s'.openParens = s.openParens
  stack : s'.yard.stack = waiting ops ++ base
  queue : s'.yard.queue.toList = s.yard.queue.toList ++ items

/-- The scan reads a list as a formula of a category. -/
def ReadsFormula (ctx : Context) (c : Category) (ts : List Token) (n : Expr) : Prop :=
  ∀ s : Scan, s.called = none → s.awaiting = true → Admits c.level s.yard.stack →
    Token.peak s.openParens ts ≤ ctx.room → n.height ≤ ctx.limits.maxHeight →
      ∃ s' ops items, ts.foldlM (Scan.step ctx) s = .ok s' ∧
        Settles s s.yard.stack ops items s' ∧ Yielding c ops ∧
          Yields ctx.environment ctx.limits.maxHeight (items ++ released ops) [n]

/-- The scan reads a list as the arguments of the call on top of the
stack. -/
def ReadsArguments (ctx : Context) (ts : List Token) (arguments : List Expr) : Prop :=
  ∀ (s : Scan) (p f : Lexeme) (below : List Pending), s.called = none → s.awaiting = true →
    s.openCalls ≠ 0 → s.yard.stack = .paren p :: .call f 1 :: below →
      Token.peak s.openParens ts ≤ ctx.room →
        (∀ n ∈ arguments, n.height ≤ ctx.limits.maxHeight) →
          ∃ s' ops items, ts.foldlM (Scan.step ctx) s = .ok s' ∧
            Settles s (.paren p :: .call f arguments.length :: below) ops items s' ∧
              Yields ctx.environment ctx.limits.maxHeight (items ++ released ops) arguments

/-- The scan reads a list as a call with the given arguments. It does so whether
or not the function takes them: that is seen only when the queue is reduced. -/
def ReadsCall (ctx : Context) (f : Lexeme) (ts : List Token) (arguments : List Expr) : Prop :=
  ∀ s : Scan, s.called = none → s.awaiting = true → Token.peak s.openParens ts ≤ ctx.room →
    (∀ a ∈ arguments, a.height ≤ ctx.limits.maxHeight) →
      ∃ s' items, ts.foldlM (Scan.step ctx) s = .ok s' ∧
        Settles s s.yard.stack [] (items ++ [.call f arguments.length]) s' ∧
          Yields ctx.environment ctx.limits.maxHeight items arguments

/-- The grammar that a parse within limits follows: the values of tokens are
those that the parse finds, with their right heights. -/
def Context.lexicon (ctx : Context) : Lexicon where
  environment := ctx.environment
  value t n := ctx.value t = .ok n.measured
  groupCall f delimiters elements n := ctx.call f delimiters elements = .ok n.measured

/-! ## 3. The rules, one by one -/

variable {ctx : Context}

theorem ReadsFormula.loosen {c d : Category} {ts : List Token} {n : Expr}
    (hle : c.level ≤ d.level) (h : ReadsFormula ctx d ts n) : ReadsFormula ctx c ts n := by
  intro s hc ha hadm hpeak hheight
  obtain ⟨s', ops, items, hrun, hs, hyield, hout⟩ :=
    h s hc ha (hadm.mono hle) hpeak hheight
  exact ⟨s', ops, items, hrun, hs,
    fun o ho incoming e he hele => hyield o ho incoming e he (Nat.le_trans hele hle), hout⟩

/-- After the left operand, its operator takes the place of those that
waited for it. -/
theorem Settles.operator {s s₁ : Scan} {ops : List (Operator × Lexeme)} {items : List Item}
    {op : Operator} {c : Category} {l : Lexeme} (h : Settles s s.yard.stack ops items s₁)
    (hc : op.left? = some c) (hl : l.kind = op.kind) (hyield : Yielding c ops)
    (hadm : Admits op.level s.yard.stack) :
    ∃ s₂, Scan.Moves ctx s₁ (.lexeme l) s₂ ∧ s₂.called = none ∧ s₂.awaiting = true ∧
      s₂.openCalls = s.openCalls ∧ s₂.openParens = s.openParens ∧
        s₂.yard.stack = .operator op l :: s.yard.stack ∧
          s₂.yard.queue.toList = s.yard.queue.toList ++ items ++ released ops := by
  have hleft : op.left?.isSome = true := by rw [hc]; rfl
  have hpop : popOperators (·.yieldsTo op) s₁.yard.stack = (released ops, s.yard.stack) := by
    rw [h.stack, popOperators_waiting_append fun o ho => hyield o ho op c hc (Nat.le_refl _),
      popOperators_of_admits hadm, List.append_nil]
  refine ⟨_, .operator h.called hleft hl h.awaiting, h.called, rfl, h.openCalls, h.openParens,
    ?_, ?_⟩
  · simp [Yard.pushOperator, hpop]
  · simp [Yard.pushOperator, hpop, h.queue]

theorem ReadsFormula.binary {op : Operator} {c : Category} {ts us : List Token} {a b : Expr}
    {l : Lexeme} (hc : op.left? = some c) (hl : l.kind = op.kind)
    (hbalance : ∀ depth, ts.foldl Token.depthAfter depth = depth)
    (left : ReadsFormula ctx c ts a) (right : ReadsFormula ctx op.right us b) :
    ReadsFormula ctx op.category (ts ++ .lexeme l :: us) (Item.join op a b) := by
  intro s hcalled ha hadm hpeak hheight
  have hop : op.left?.isSome = true := by rw [hc]; rfl
  have hcle : op.category.level ≤ c.level := Operator.level_category_le hc
  rw [Token.peak_append, Token.peak, hbalance, Token.depthAfter_operator hl] at hpeak
  rw [Item.height_join hop] at hheight
  obtain ⟨s₁, opsL, itemsL, hrun₁, hs₁, hyield₁, hout₁⟩ :=
    left s hcalled ha (hadm.mono hcle) (by omega) (by omega)
  obtain ⟨s₂, hmove, hcalled₂, ha₂, hcalls₂, hparens₂, hstack₂, hqueue₂⟩ :=
    hs₁.operator hc hl hyield₁ (by rwa [← Operator.level_category])
  obtain ⟨s₃, opsR, itemsR, hrun₃, hs₃, hyield₃, hout₃⟩ :=
    right s₂ hcalled₂ ha₂ (by rw [hstack₂]; exact Nat.le_refl _)
      (by rw [hparens₂]; omega) (by omega)
  refine ⟨s₃, opsR ++ [(op, l)], itemsL ++ released opsL ++ itemsR, ?_, ?_, hyield₃.binary, ?_⟩
  · exact Scan.foldlM_append_of_eq_ok hrun₁ (Scan.foldlM_cons_of_moves hmove hrun₃)
  · refine ⟨hs₃.called, hs₃.awaiting, hs₃.closed, ?_, ?_, ?_, ?_⟩
    · rw [hs₃.openCalls, hcalls₂]
    · rw [hs₃.openParens, hparens₂]
    · rw [hs₃.stack, hstack₂]
      simp [waiting]
    · rw [hs₃.queue, hqueue₂]
      simp
  · have hout := (hout₁.append hout₃).operator (l := l) hop (by rw [Item.height_join hop]; omega)
    simpa [released] using hout

theorem ReadsFormula.sign {sign : Sign} {ts : List Token} {n : Expr} {l : Lexeme}
    (hl : l.kind = sign.kind) (h : ReadsFormula ctx .signed ts n) :
    ReadsFormula ctx .signed (.lexeme l :: ts) (.signed sign n) := by
  intro s hc ha hadm hpeak hheight
  have hkind : l.kind = (Operator.sign sign).kind := hl
  rw [Token.peak, Token.depthAfter_operator hkind] at hpeak
  rw [Expr.height] at hheight
  have hinner : Token.peak s.openParens ts ≤ ctx.room := by omega
  have hyard : s.yard.pushOperator (.sign sign) l =
      ⟨.operator (.sign sign) l :: s.yard.stack, s.yard.queue⟩ := by
    simp [Yard.pushOperator, popOperators_sign]
  have hmove : Scan.Moves ctx s (.lexeme l) _ := .sign hc hl ha
  rw [hyard] at hmove
  obtain ⟨s₂, ops, items, hrun, hs, hyield, hout⟩ :=
    h { s with
        yard := ⟨.operator (.sign sign) l :: s.yard.stack, s.yard.queue⟩
        previous := some (.lexeme l)
        awaiting := true } hc rfl (Nat.le_refl _) hinner (by omega)
  refine ⟨s₂, ops ++ [(.sign sign, l)], items, Scan.foldlM_cons_of_moves hmove hrun, ?_, ?_, ?_⟩
  · refine ⟨hs.called, hs.awaiting, hs.closed, hs.openCalls, hs.openParens, ?_, hs.queue⟩
    rw [hs.stack]
    simp [waiting]
  · exact Yielding.binary (show Yielding (Operator.sign sign).right ops from hyield)
  · have hout := hout.sign (s := sign) (l := l) (by rw [Expr.height]; omega)
    simpa [released] using hout

theorem ReadsFormula.value {t : Token} {n : Expr} (ht : t.isOperand = true)
    (hn : ctx.value t = .ok n.measured) : ReadsFormula ctx .atom [t] n := by
  intro s hc ha _ _ _
  have hmove := Scan.Moves.operand (s := s) hc ht ha hn
  have hclosed : (s.pushValue n.measured t).justOpened = false := Token.kind?_ne_of_isOperand ht
  refine ⟨_, [], [.value n.measured], Scan.foldlM_cons_of_moves hmove rfl, ?_, ?_,
    Yields.value n⟩
  · exact ⟨hc, rfl, hclosed, rfl, rfl, rfl, by simp [Scan.pushValue, Yard.pushValue]⟩
  · intro o ho
    cases ho

theorem ReadsFormula.groupCall {n : Expr} {f : Lexeme} {delimiters : Delimiters}
    {elements : List (List Token)} (hf : f.kind = .functionName)
    (hfun : ctx.environment.isFunction f.text = true)
    (hn : ctx.call f delimiters elements = .ok n.measured) :
    ReadsFormula ctx .atom [.lexeme f, .group delimiters elements] n := by
  intro s hc ha _ _ _
  have hname := Scan.Moves.functionName (s := s) hc hf ha hfun
  have hgroup := Scan.Moves.groupCall (s := { s with called := some f }) rfl hn
  refine ⟨_, [], [.value n.measured],
    Scan.foldlM_cons_of_moves hname (Scan.foldlM_cons_of_moves hgroup rfl), ?_, ?_,
    Yields.value n⟩
  · exact ⟨rfl, rfl, rfl, rfl, rfl, rfl, by simp [Scan.pushValue, Yard.pushValue]⟩
  · intro o ho
    cases ho

/-- At a closing parenthesis all operators above the opening one are put
out. -/
theorem popOperators_all_waiting {ops : List (Operator × Lexeme)} {p : Lexeme}
    {below : List Pending} :
    popOperators (fun _ => true) (waiting ops ++ .paren p :: below) =
      (released ops, .paren p :: below) := by
  rw [popOperators_waiting_append fun _ _ => rfl]
  simp [popOperators]

theorem ReadsFormula.parens {ts : List Token} {n : Expr} {l r : Lexeme}
    (hl : l.kind = .leftParen) (hr : r.kind = .rightParen)
    (hbalance : ∀ depth, ts.foldl Token.depthAfter depth = depth)
    (h : ReadsFormula ctx .equation ts n) :
    ReadsFormula ctx .atom (.lexeme l :: (ts ++ [.lexeme r])) n := by
  intro s hc ha hadm hpeak hheight
  have hle := Token.le_peak (s.openParens + 1) ts
  rw [Token.peak, Token.depthAfter_leftParen hl, Token.peak_append, hbalance] at hpeak
  have hinner : Token.peak (s.openParens + 1) ts ≤ ctx.room := by omega
  have hopen : Scan.Moves ctx s (.lexeme l) _ := .openParen hc hl ha (by omega)
  obtain ⟨s₁, ops, items, hrun, hs, -, hout⟩ :=
    h { s with
        yard := s.yard.pushParen l
        previous := some (.lexeme l)
        openParens := s.openParens + 1 } hc ha trivial hinner hheight
  have hstack : s₁.yard.stack = waiting ops ++ .paren l :: s.yard.stack := hs.stack
  have hpop : popOperators (fun _ => true) s₁.yard.stack =
      (released ops, .paren l :: s.yard.stack) := by
    rw [hstack, popOperators_all_waiting]
  have hclose : Scan.Moves ctx s₁ (.lexeme r) _ := .closeParen hs.called hr hs.awaiting hs.closed
    (by rw [hpop]) fun f count rest hcall => by rw [hcall] at hadm; exact hadm
  refine ⟨_, [], items ++ released ops, Scan.foldlM_cons_of_moves hopen
    (Scan.foldlM_append_of_eq_ok hrun (Scan.foldlM_cons_of_moves hclose rfl)), ?_, ?_, ?_⟩
  · refine ⟨hs.called, rfl, ?_, hs.openCalls, ?_, rfl, ?_⟩
    · simp [Scan.justOpened, Token.kind?, hr]
    · simp [hs.openParens]
    · simp [hpop, hs.queue, Yard.pushParen]
  · intro o ho
    cases ho
  · simpa [released] using hout

/-- The state in which the content of an argument list is read. -/
def Scan.openedCall (s : Scan) (f l : Lexeme) : Scan :=
  { s with
    yard := s.yard.pushCall f l
    previous := some (.lexeme l)
    called := none
    openCalls := s.openCalls + 1
    openParens := s.openParens + 1 }

theorem foldlM_openedCall {s : Scan} {f l : Lexeme} {ts : List Token} {r : Except ParseError Scan}
    (hc : s.called = none) (ha : s.awaiting = true) (hf : f.kind = .functionName)
    (hfun : ctx.environment.isFunction f.text = true) (hl : l.kind = .leftParen)
    (hroom : s.openParens < ctx.room)
    (hrest : ts.foldlM (Scan.step ctx) (s.openedCall f l) = r) :
    (.lexeme f :: .lexeme l :: ts).foldlM (Scan.step ctx) s = r := by
  have hname := Scan.Moves.functionName hc hf ha hfun
  have hopen : Scan.Moves ctx { s with called := some f } (.lexeme l) _ := .openCall rfl hl hroom
  exact Scan.foldlM_cons_of_moves hname (Scan.foldlM_cons_of_moves hopen hrest)

theorem ReadsCall.list {ts : List Token} {f l r : Lexeme} {arguments : List Expr}
    (hf : f.kind = .functionName) (hfun : ctx.environment.isFunction f.text = true)
    (hl : l.kind = .leftParen) (hr : r.kind = .rightParen)
    (hbalance : ∀ depth, ts.foldl Token.depthAfter depth = depth)
    (h : ReadsArguments ctx ts arguments) :
    ReadsCall ctx f (.lexeme f :: .lexeme l :: (ts ++ [.lexeme r])) arguments := by
  intro s hc ha hpeak hargs
  have hle := Token.le_peak (s.openParens + 1) ts
  rw [Token.peak, Token.depthAfter_of_ne hf (by decide), Token.peak, Token.depthAfter_leftParen hl,
    Token.peak_append, hbalance] at hpeak
  have hinner : Token.peak (s.openParens + 1) ts ≤ ctx.room := by omega
  obtain ⟨s₁, ops, items, hrun, hs, hout⟩ :=
    h (s.openedCall f l) l f s.yard.stack rfl ha (Nat.succ_ne_zero _) rfl hinner hargs
  have hpop : popOperators (fun _ => true) s₁.yard.stack =
      (released ops, .paren l :: .call f arguments.length :: s.yard.stack) := by
    rw [hs.stack, popOperators_all_waiting]
  have hclose : Scan.Moves ctx s₁ (.lexeme r) _ := .closeCall hs.called hr
    (fun hawait => by rw [hs.awaiting] at hawait; cases hawait) (by rw [hpop])
  refine ⟨_, items ++ released ops,
    foldlM_openedCall hc ha hf hfun hl (by omega)
      (Scan.foldlM_append_of_eq_ok hrun (Scan.foldlM_cons_of_moves hclose rfl)), ?_, hout⟩
  refine ⟨hs.called, rfl, ?_, ?_, ?_, rfl, ?_⟩
  · simp [Scan.justOpened, Token.kind?, hr]
  · simp [hs.openCalls, Scan.openedCall]
  · simp [hs.openParens, Scan.openedCall]
  · simp [hpop, hs.queue, hs.closed, Scan.openedCall, Yard.pushCall]

theorem ReadsCall.empty {f l r : Lexeme} (hf : f.kind = .functionName)
    (hfun : ctx.environment.isFunction f.text = true) (hl : l.kind = .leftParen)
    (hr : r.kind = .rightParen) : ReadsCall ctx f [.lexeme f, .lexeme l, .lexeme r] [] := by
  intro s hc ha hpeak _
  have hopened : (s.openedCall f l).justOpened = true := by
    simp [Scan.openedCall, Scan.justOpened, Token.kind?, hl]
  rw [Token.peak, Token.depthAfter_of_ne hf (by decide), Token.peak, Token.depthAfter_leftParen hl,
    Token.peak, Token.depthAfter_rightParen hr, Token.peak] at hpeak
  have hpop : (popOperators (fun _ => true) (s.openedCall f l).yard.stack).2 =
      .paren l :: .call f 1 :: s.yard.stack := rfl
  have hclose : Scan.Moves ctx (s.openedCall f l) (.lexeme r) _ :=
    .closeCall rfl hr (fun _ => hopened) hpop
  refine ⟨_, [], foldlM_openedCall hc ha hf hfun hl (by omega)
    (Scan.foldlM_cons_of_moves hclose rfl), ?_, Yields.nil⟩
  refine ⟨rfl, rfl, ?_, ?_, ?_, rfl, ?_⟩
  · simp [Scan.justOpened, Token.kind?, hr]
  · simp [Scan.openedCall]
  · simp [Scan.openedCall]
  · simp [Scan.openedCall, Scan.justOpened, Token.kind?, hl, Yard.pushCall, popOperators]

/-- A call that the function takes is a formula. -/
theorem ReadsCall.formula {ts : List Token} {f : Lexeme} {arguments : List Expr} {n : Expr}
    (h : ReadsCall ctx f ts arguments) (hn : ctx.environment.call f.text arguments = .ok n) :
    ReadsFormula ctx .atom ts n := by
  intro s hc ha _ hpeak hheight
  have hargs : ∀ a ∈ arguments, a.height ≤ ctx.limits.maxHeight := by
    intro a hmem
    have hnode := Item.height_call hn
    have hmax := Expr.height_le_heightOfList hmem
    omega
  obtain ⟨s', items, hrun, hs, hout⟩ := h s hc ha hpeak hargs
  refine ⟨s', [], items ++ [.call f arguments.length], hrun, hs, ?_, ?_⟩
  · intro o ho
    cases ho
  · simpa [released] using hout.call hn hheight

/-! ## 4. Arguments -/

theorem ReadsArguments.one {ts : List Token} {n : Expr} (h : ReadsFormula ctx .equation ts n) :
    ReadsArguments ctx ts [n] := by
  intro s p f below hc ha hcalls hstack hpeak hheight
  have hadm : Admits Category.equation.level s.yard.stack := by
    rw [hstack]
    trivial
  obtain ⟨s₁, ops, items, hrun, hs, -, hout⟩ := h s hc ha hadm hpeak (hheight n (by simp))
  exact ⟨s₁, ops, items, hrun, hstack ▸ hs, hout⟩

theorem ReadsArguments.more {ts us : List Token} {n : Expr} {sep : Lexeme} {arguments : List Expr}
    (hs : sep.kind = .separator) (hbalance : ∀ depth, ts.foldl Token.depthAfter depth = depth)
    (first : ReadsArguments ctx ts arguments) (last : ReadsFormula ctx .equation us n) :
    ReadsArguments ctx (ts ++ .lexeme sep :: us) (arguments ++ [n]) := by
  intro s p f below hc ha hcalls hstack hpeak hheight
  rw [Token.peak_append, Token.peak, hbalance, Token.depthAfter_of_ne hs (by decide)] at hpeak
  obtain ⟨s₁, opsL, itemsL, hrun₁, hs₁, hout₁⟩ :=
    first s p f below hc ha hcalls hstack (by omega) fun m hm => hheight m (by simp [hm])
  have hpop : popOperators (fun _ => true) s₁.yard.stack =
      (released opsL, .paren p :: .call f arguments.length :: below) := by
    rw [hs₁.stack, popOperators_all_waiting]
  have hmove : Scan.Moves ctx s₁ (.lexeme sep) _ := .separator hs₁.called hs
    (by rw [hs₁.openCalls]; exact hcalls) hs₁.awaiting (by rw [hpop])
  have hinner : Token.peak s₁.openParens us ≤ ctx.room := by
    rw [hs₁.openParens]
    omega
  obtain ⟨s₃, opsR, itemsR, hrun₃, hs₃, -, hout₃⟩ :=
    last { s₁ with
        yard := ⟨.paren p :: .call f (arguments.length + 1) :: below,
          s₁.yard.queue ++ (popOperators (fun _ => true) s₁.yard.stack).1⟩
        previous := some (.lexeme sep)
        awaiting := true } hs₁.called rfl trivial hinner (hheight n (by simp))
  refine ⟨s₃, opsR, itemsL ++ released opsL ++ itemsR,
    Scan.foldlM_append_of_eq_ok hrun₁ (Scan.foldlM_cons_of_moves hmove hrun₃), ?_, ?_⟩
  · refine ⟨hs₃.called, hs₃.awaiting, hs₃.closed, ?_, ?_, ?_, ?_⟩
    · rw [hs₃.openCalls, ← hs₁.openCalls]
    · rw [hs₃.openParens, ← hs₁.openParens]
    · rw [hs₃.stack]
      simp
    · rw [hs₃.queue]
      simp [hpop, hs₁.queue]
  · simpa using hout₁.append hout₃

/-! ## 5. Derivations -/

/-- The scan reads what derives. -/
theorem Derives.reads {c : Category} {ts : List Token} {n : Expr}
    (h : Derives ctx.lexicon c ts n) : ReadsFormula ctx c ts n := by
  induction h using Derives.roles (Q := fun ts arguments _ => ReadsArguments ctx ts arguments) with
  | loose hle _ ih => exact ih.loosen hle
  | binary hc hl left _ ihl ihr => exact .binary hc hl left.depthAfter_eq ihl ihr
  | sign hl _ ih => exact .sign hl ih
  | value ht hn => exact .value ht hn
  | parens hl inner hr ih => exact .parens hl hr inner.depthAfter_eq ih
  | call hf hfun hl list hr hn ih =>
    exact (ReadsCall.list hf hfun hl hr list.depthAfter_eq ih).formula hn
  | emptyCall hf hfun hl hr hn => exact (ReadsCall.empty hf hfun hl hr).formula hn
  | groupCall hf hfun hn => exact .groupCall hf hfun hn
  | one _ ih => exact .one ih
  | more first hs _ ihf ihl => exact .more hs first.depthAfter_eq ihf ihl

theorem DerivesArguments.reads {ts : List Token} {arguments : List Expr}
    (h : DerivesArguments ctx.lexicon ts arguments) : ReadsArguments ctx ts arguments := by
  match h with
  | .one h => exact .one h.reads
  | .more first hs last => exact .more hs first.depthAfter_eq (reads first) last.reads
termination_by structural h

/-- A list that derives has its formula, if it keeps the limits. -/
theorem Scan.run_of_derives {ts : List Token} {n : Expr} (h : Derives ctx.lexicon .equation ts n)
    (hpeak : Token.peak 0 ts ≤ ctx.room) (hheight : n.height ≤ ctx.limits.maxHeight) :
    run ctx ts = .ok n.measured := by
  obtain ⟨s, ops, items, hrun, hs, -, hout⟩ := h.reads start rfl rfl trivial hpeak hheight
  have hpop : popOperators (fun _ => true) s.yard.stack = (released ops, []) := by
    rw [hs.stack, popOperators_waiting_append fun _ _ => rfl]
    simp [start, Yard.empty, popOperators]
  refine run_eq_ok_iff.mpr ⟨s, items ++ released ops, hrun, ?_, hout []⟩
  refine finish_eq_ok_iff.mpr ⟨hs.called, hs.awaiting, ?_, ?_⟩
  · rw [hpop]
  · rw [hpop, hs.queue]
    rfl

end Formula
