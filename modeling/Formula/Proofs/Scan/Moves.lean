/-
Formula.Proofs.Scan.Moves — what one token can do to a scan.

`Moves` lists the successful steps of a scan, one constructor for each, with
everything that a step checks and everything that it changes.
`step_eq_ok_iff` says that there are no others, so what every step keeps is
shown by cases on `Moves`, and no later proof opens `Scan.step`.

`finish_eq_ok_iff` and `run_eq_ok_iff` do the same for the end of a list and
for the whole of it.
-/
import Formula.Proofs.Grammar

namespace Formula

/-! ## 1. Binds of results -/

/-- A bind has a result exactly if both of its parts have one. -/
theorem bind_eq_ok_iff {ε α β : Type} {x : Except ε α} {f : α → Except ε β} {b : β} :
    (x >>= f) = .ok b ↔ ∃ a, x = .ok a ∧ f a = .ok b := by
  cases x with
  | error e => simp [bind, Except.bind]
  | ok a => simp [bind, Except.bind]

/-- What every step of a fold keeps, a fold that has a result keeps. -/
theorem foldlM_preserves {ε α β : Type} {step : β → α → Except ε β} {P : β → Prop} {xs : List α}
    {b c : β} (hstep : ∀ b x c, x ∈ xs → P b → step b x = .ok c → P c) (hb : P b)
    (h : xs.foldlM step b = .ok c) : P c := by
  induction xs generalizing b with
  | nil =>
    cases h
    exact hb
  | cons x rest ih =>
    rw [List.foldlM_cons] at h
    obtain ⟨mid, hmid, hrest⟩ := bind_eq_ok_iff.mp h
    have hnext : P mid := hstep b x mid (by simp) hb hmid
    exact ih (fun b y c hy => hstep b y c (List.mem_cons_of_mem _ hy)) hnext hrest

/-- A fold that has a result has made a step with each member of its list. -/
theorem exists_step_of_mem {ε α β : Type} {step : β → α → Except ε β} {xs : List α} {b c : β}
    (h : xs.foldlM step b = .ok c) {x : α} (hx : x ∈ xs) : ∃ b' c', step b' x = .ok c' := by
  induction xs generalizing b with
  | nil => cases hx
  | cons y rest ih =>
    rw [List.foldlM_cons] at h
    obtain ⟨mid, hmid, hrest⟩ := bind_eq_ok_iff.mp h
    rcases List.mem_cons.mp hx with rfl | hx
    · exact ⟨b, mid, hmid⟩
    · exact ih hrest hx

/-- An operand is no opening parenthesis. -/
theorem Token.kind?_ne_of_isOperand {t : Token} (h : t.isOperand = true) :
    (t.kind? == some .leftParen) = false := by
  cases t with
  | lexeme l =>
    cases hk : l.kind <;> simp [isOperand, LexemeKind.isOperand, hk] at h
    all_goals simp [kind?, hk]
  | _ => rfl

/-- Nothing yields to a sign. -/
theorem popOperators_sign (sign : Sign) (stack : List Pending) :
    popOperators (·.yieldsTo (.sign sign)) stack = ([], stack) := by
  obtain ⟨ops, hout, hstack, hall⟩ := exists_operators_append (·.yieldsTo (.sign sign)) stack
  cases ops with
  | nil => exact Prod.ext hout hstack.symm
  | cons o rest => exact absurd (hall o List.mem_cons_self) Bool.false_ne_true

/-- A queue reduces to the one value that it leaves. -/
theorem reduce_eq_ok_iff {env : Environment} {maxHeight : Nat} {queue : List Item} {m : Measured} :
    reduce env maxHeight queue = .ok m ↔
      queue.foldlM (Item.apply env maxHeight) [] = .ok [m] := by
  have honly : ∀ values : List Measured, onlyValue values = .ok m ↔ values = [m] := by
    intro values
    match values with
    | [] => simp [onlyValue]
    | [v] => simp [onlyValue]
    | v :: extra :: rest => simp [onlyValue]
  simp only [reduce, bind_eq_ok_iff, honly]
  constructor
  · rintro ⟨values, hv, rfl⟩
    exact hv
  · exact fun hv => ⟨[m], hv, rfl⟩

namespace Scan

/-! ## 2. One token -/

/-- Whether the token read last is an opening parenthesis. -/
def justOpened (s : Scan) : Bool := s.previous.bind Token.kind? == some .leftParen

/-- The successful steps of a scan. -/
inductive Moves (ctx : Context) (s : Scan) : Token → Scan → Prop
  | operand {t v} (hc : s.called = none) (ht : t.isOperand = true) (ha : s.awaiting = true)
      (hv : ctx.value t = .ok v) : Moves ctx s t (s.pushValue v t)
  | functionName {f} (hc : s.called = none) (hk : f.kind = .functionName)
      (ha : s.awaiting = true) (hf : ctx.environment.isFunction f.text = true) :
      Moves ctx s (.lexeme f) { s with called := some f }
  | groupCall {f delimiters elements v} (hc : s.called = some f)
      (hv : ctx.call f delimiters elements = .ok v) :
      Moves ctx s (.group delimiters elements)
        { s.pushValue v (.group delimiters elements) with called := none }
  | openCall {f l} (hc : s.called = some f) (hk : l.kind = .leftParen)
      (hroom : s.openParens < ctx.room) :
      Moves ctx s (.lexeme l)
        { s with
          yard := s.yard.pushCall f l
          previous := some (.lexeme l)
          called := none
          openCalls := s.openCalls + 1
          openParens := s.openParens + 1 }
  | openParen {l} (hc : s.called = none) (hk : l.kind = .leftParen) (ha : s.awaiting = true)
      (hroom : s.openParens < ctx.room) :
      Moves ctx s (.lexeme l)
        { s with
          yard := s.yard.pushParen l
          previous := some (.lexeme l)
          openParens := s.openParens + 1 }
  | closeCall {l p f count below} (hc : s.called = none) (hk : l.kind = .rightParen)
      (ha : s.awaiting = true → s.justOpened = true)
      (hpop : (popOperators (fun _ => true) s.yard.stack).2 = .paren p :: .call f count :: below) :
      Moves ctx s (.lexeme l)
        { s with
          yard := ⟨below, (s.yard.queue ++ (popOperators (fun _ => true) s.yard.stack).1).push
            (.call f (if s.justOpened then 0 else count))⟩
          previous := some (.lexeme l)
          awaiting := false
          openCalls := s.openCalls - 1
          openParens := s.openParens - 1 }
  | closeParen {l p below} (hc : s.called = none) (hk : l.kind = .rightParen)
      (ha : s.awaiting = false) (hempty : s.justOpened = false)
      (hpop : (popOperators (fun _ => true) s.yard.stack).2 = .paren p :: below)
      (hbelow : ∀ f count rest, below ≠ .call f count :: rest) :
      Moves ctx s (.lexeme l)
        { s with
          yard := ⟨below, s.yard.queue ++ (popOperators (fun _ => true) s.yard.stack).1⟩
          previous := some (.lexeme l)
          awaiting := false
          openParens := s.openParens - 1 }
  | separator {l p f count below} (hc : s.called = none) (hk : l.kind = .separator)
      (ho : s.openCalls ≠ 0) (ha : s.awaiting = false)
      (hpop : (popOperators (fun _ => true) s.yard.stack).2 = .paren p :: .call f count :: below) :
      Moves ctx s (.lexeme l)
        { s with
          yard := ⟨.paren p :: .call f (count + 1) :: below,
            s.yard.queue ++ (popOperators (fun _ => true) s.yard.stack).1⟩
          previous := some (.lexeme l)
          awaiting := true }
  | sign {l} {sign : Sign} (hc : s.called = none) (hk : l.kind = sign.kind)
      (ha : s.awaiting = true) :
      Moves ctx s (.lexeme l)
        { s with
          yard := s.yard.pushOperator (.sign sign) l
          previous := some (.lexeme l)
          awaiting := true }
  | operator {l op} (hc : s.called = none) (hop : op.left?.isSome = true) (hk : l.kind = op.kind)
      (ha : s.awaiting = false) :
      Moves ctx s (.lexeme l)
        { s with
          yard := s.yard.pushOperator op l
          previous := some (.lexeme l)
          awaiting := true }

variable {ctx : Context} {s s' : Scan}

/-! The checks that several steps make. -/

theorem needOperand_eq_ok_iff {t : Token} {u : Unit} :
    s.needOperand t = .ok u ↔ s.awaiting = true := by
  unfold needOperand
  split <;> simp_all

theorem needRoom_eq_ok_iff {u : Unit} : s.needRoom ctx = .ok u ↔ s.openParens < ctx.room := by
  unfold needRoom
  split
  · simp
    omega
  · simp
    omega

/-! Each handler by itself. -/

theorem moves_of_leftParen {l : Lexeme} (hc : s.called = none) (hk : l.kind = .leftParen)
    (h : s.leftParen ctx l = .ok s') : Moves ctx s (.lexeme l) s' := by
  obtain ⟨_, ha, h⟩ := bind_eq_ok_iff.mp h
  obtain ⟨_, hroom, h⟩ := bind_eq_ok_iff.mp h
  cases h
  exact .openParen hc hk (needOperand_eq_ok_iff.mp ha) (needRoom_eq_ok_iff.mp hroom)

theorem moves_of_rightParen {l : Lexeme} (hc : s.called = none) (hk : l.kind = .rightParen)
    (h : s.rightParen l = .ok s') : Moves ctx s (.lexeme l) s' := by
  unfold rightParen at h
  simp only at h
  split at h
  · cases h
  · rename_i ha
    have ha : s.awaiting = true → s.justOpened = true := by
      intro hawait
      simpa [hawait, justOpened] using ha
    obtain ⟨⟨yard, closes⟩, hy, hs⟩ := bind_eq_ok_iff.mp h
    simp only [Except.ok.injEq] at hs
    subst hs
    unfold Yard.closeParen at hy
    simp only at hy
    split at hy
    · rename_i p f count below hpop
      simp only [Except.ok.injEq, Prod.mk.injEq] at hy
      obtain ⟨rfl, rfl⟩ := hy
      exact .closeCall hc hk ha hpop
    · rename_i p below hbelow hpop
      split at hy
      · cases hy
      · rename_i hempty
        simp only [Except.ok.injEq, Prod.mk.injEq] at hy
        obtain ⟨rfl, rfl⟩ := hy
        have hempty : s.justOpened = false := by simpa [justOpened] using hempty
        have ha : s.awaiting = false := by
          cases hawait : s.awaiting with
          | false => rfl
          | true => rw [ha hawait] at hempty; cases hempty
        exact .closeParen hc hk ha hempty hpop fun f count rest hb => hbelow f count rest hb
    · cases hy
    · cases hy

theorem moves_of_separator {l : Lexeme} (hc : s.called = none) (hk : l.kind = .separator)
    (h : s.separator l = .ok s') : Moves ctx s (.lexeme l) s' := by
  unfold separator at h
  split at h
  · cases h
  · rename_i ho
    split at h
    · cases h
    · rename_i ha
      obtain ⟨yard, hy, hs⟩ := bind_eq_ok_iff.mp h
      cases hs
      unfold Yard.separate at hy
      simp only at hy
      split at hy
      · rename_i p f count below hpop
        cases hy
        exact .separator hc hk ho (by simpa using ha) hpop
      · cases hy

theorem moves_of_operator {l : Lexeme} (hc : s.called = none)
    (h : s.operator l = .ok s') : Moves ctx s (.lexeme l) s' := by
  unfold operator at h
  split at h
  · cases h
  · rename_i hsign
    split at h
    · cases h
    · rename_i op hop
      cases h
      cases ha : s.awaiting with
      | true =>
        have hk : l.kind = .plus ∨ l.kind = .minus := by
          by_cases hplus : l.kind = .plus
          · exact .inl hplus
          · exact .inr (by simpa [ha, hplus] using hsign)
        obtain ⟨sign, rfl, hk⟩ := (Operator.ofKind?_true_iff hk).mp (ha ▸ hop)
        exact .sign hc hk ha
      | false =>
        obtain ⟨hleft, hk⟩ := Operator.ofKind?_false_iff.mp (ha ▸ hop)
        exact .operator hc hleft hk ha

theorem moves_of_functionName {f : Lexeme} (hc : s.called = none) (hk : f.kind = .functionName)
    (h : s.functionName ctx f = .ok s') : Moves ctx s (.lexeme f) s' := by
  obtain ⟨_, ha, h⟩ := bind_eq_ok_iff.mp h
  split at h
  · rename_i hf
    cases h
    exact .functionName hc hk (needOperand_eq_ok_iff.mp ha) hf
  · cases h

theorem moves_of_functionArguments {f : Lexeme} {t : Token} (hc : s.called = some f)
    (h : s.functionArguments ctx f t = .ok s') : Moves ctx s t s' := by
  unfold functionArguments at h
  split at h
  · obtain ⟨v, hv, h⟩ := bind_eq_ok_iff.mp h
    cases h
    exact .groupCall hc hv
  · split at h
    · rename_i hk
      obtain ⟨_, hroom, h⟩ := bind_eq_ok_iff.mp h
      cases h
      exact .openCall hc hk (needRoom_eq_ok_iff.mp hroom)
    · cases h
  · cases h

theorem moves_of_value {t : Token} (hc : s.called = none) (ht : t.isOperand = true)
    (h : (do
      s.needOperand t
      let v ← ctx.value t
      .ok (s.pushValue v t)) = Except.ok s') : Moves ctx s t s' := by
  obtain ⟨_, ha, h⟩ := bind_eq_ok_iff.mp h
  obtain ⟨v, hv, h⟩ := bind_eq_ok_iff.mp h
  cases h
  exact .operand hc ht (needOperand_eq_ok_iff.mp ha) hv

theorem moves_of_lexeme {l : Lexeme} (hc : s.called = none)
    (h : s.lexeme ctx l = .ok s') : Moves ctx s (.lexeme l) s' := by
  unfold lexeme at h
  split at h
  case h_1 hk => exact moves_of_value hc (by simp [Token.isOperand, LexemeKind.isOperand, hk]) h
  case h_2 hk => exact moves_of_value hc (by simp [Token.isOperand, LexemeKind.isOperand, hk]) h
  case h_3 hk => exact moves_of_value hc (by simp [Token.isOperand, LexemeKind.isOperand, hk]) h
  case h_4 hk => exact moves_of_functionName hc hk h
  case h_5 hk => exact moves_of_leftParen hc hk h
  case h_6 hk => exact moves_of_rightParen hc hk h
  case h_7 hk => exact moves_of_separator hc hk h
  all_goals exact moves_of_operator hc h

/-- Every step is one of the moves. -/
theorem moves_of_step {t : Token} (h : step ctx s t = .ok s') : Moves ctx s t s' := by
  unfold step at h
  split at h
  · rename_i f hc
    exact moves_of_functionArguments hc h
  · rename_i hc
    split at h
    · exact moves_of_lexeme hc h
    · rename_i hno
      refine moves_of_value hc ?_ h
      cases t with
      | lexeme l => exact absurd rfl (hno l)
      | _ => rfl

/-! What a move says, the step does. -/

theorem step_operand {t : Token} (hc : s.called = none) (ht : t.isOperand = true)
    (ha : s.awaiting = true) :
    step ctx s t = ctx.value t >>= fun v => .ok (s.pushValue v t) := by
  have hneed : s.needOperand t = .ok () := needOperand_eq_ok_iff.mpr ha
  cases t with
  | lexeme l =>
    cases hk : l.kind <;> simp [Token.isOperand, LexemeKind.isOperand, hk] at ht
    all_goals simp [step, hc, lexeme, hk, hneed, bind, Except.bind]
  | _ => simp [step, hc, hneed, bind, Except.bind]

theorem step_groupCall {f : Lexeme} {delimiters : Delimiters} {elements : List (List Token)}
    (hc : s.called = some f) :
    step ctx s (.group delimiters elements) =
      ctx.call f delimiters elements >>= fun v =>
        .ok { s.pushValue v (.group delimiters elements) with called := none } := by
  simp [step, hc, functionArguments]

theorem step_openCall {f l : Lexeme} (hc : s.called = some f) (hk : l.kind = .leftParen) :
    step ctx s (.lexeme l) = s.needRoom ctx >>= fun _ => .ok
      { s with
        yard := s.yard.pushCall f l
        previous := some (.lexeme l)
        called := none
        openCalls := s.openCalls + 1
        openParens := s.openParens + 1 } := by
  simp [step, hc, functionArguments, hk]

theorem step_openParen {l : Lexeme} (hc : s.called = none) (hk : l.kind = .leftParen)
    (ha : s.awaiting = true) :
    step ctx s (.lexeme l) = s.needRoom ctx >>= fun _ => .ok
      { s with
        yard := s.yard.pushParen l
        previous := some (.lexeme l)
        openParens := s.openParens + 1 } := by
  have hneed : s.needOperand (.lexeme l) = .ok () := needOperand_eq_ok_iff.mpr ha
  simp [step, hc, lexeme, hk, leftParen, hneed, bind, Except.bind]

theorem step_sign {l : Lexeme} {sign : Sign} (hc : s.called = none) (hk : l.kind = sign.kind)
    (ha : s.awaiting = true) :
    step ctx s (.lexeme l) = .ok
      { s with
        yard := s.yard.pushOperator (.sign sign) l
        previous := some (.lexeme l)
        awaiting := true } := by
  cases sign with
  | plus => simp [step, hc, lexeme, hk, Sign.kind, operator, ha, Operator.ofKind?]
  | minus => simp [step, hc, lexeme, hk, Sign.kind, operator, ha, Operator.ofKind?]

theorem step_operator {l : Lexeme} {op : Operator} (hc : s.called = none)
    (hleft : op.left?.isSome = true) (hk : l.kind = op.kind) (ha : s.awaiting = false) :
    step ctx s (.lexeme l) = .ok
      { s with
        yard := s.yard.pushOperator op l
        previous := some (.lexeme l)
        awaiting := true } := by
  have hop : Operator.ofKind? l.kind s.awaiting = some op := by
    rw [ha]
    exact Operator.ofKind?_false_iff.mpr ⟨hleft, hk⟩
  have hlexeme : s.lexeme ctx l = s.operator l := by
    unfold lexeme
    rcases op with _ | op | sign | _
    · rw [hk]
      rfl
    · rw [hk]
      cases op <;> rfl
    · cases hleft
    · rw [hk]
      rfl
  simp [step, hc, hlexeme, operator, ha, ha ▸ hop]

theorem step_closeCall {l p f : Lexeme} {count : Nat} {below : List Pending}
    (hc : s.called = none) (hk : l.kind = .rightParen)
    (ha : s.awaiting = true → s.justOpened = true)
    (hpop : (popOperators (fun _ => true) s.yard.stack).2 = .paren p :: .call f count :: below) :
    step ctx s (.lexeme l) = .ok
      { s with
        yard := ⟨below, (s.yard.queue ++ (popOperators (fun _ => true) s.yard.stack).1).push
          (.call f (if s.justOpened then 0 else count))⟩
        previous := some (.lexeme l)
        awaiting := false
        openCalls := s.openCalls - 1
        openParens := s.openParens - 1 } := by
  have hopen : (s.awaiting && !s.justOpened) = false := by
    cases hawait : s.awaiting with
    | false => rfl
    | true => simp [ha hawait]
  have hright : step ctx s (.lexeme l) = s.rightParen l := by simp [step, hc, lexeme, hk]
  rw [hright]
  unfold rightParen Yard.closeParen
  unfold justOpened at hopen ⊢
  simp only [hopen, hpop]
  rfl

theorem step_closeParen {l p : Lexeme} {below : List Pending} (hc : s.called = none)
    (hk : l.kind = .rightParen) (ha : s.awaiting = false) (hempty : s.justOpened = false)
    (hpop : (popOperators (fun _ => true) s.yard.stack).2 = .paren p :: below)
    (hbelow : ∀ f count rest, below ≠ .call f count :: rest) :
    step ctx s (.lexeme l) = .ok
      { s with
        yard := ⟨below, s.yard.queue ++ (popOperators (fun _ => true) s.yard.stack).1⟩
        previous := some (.lexeme l)
        awaiting := false
        openParens := s.openParens - 1 } := by
  have hright : step ctx s (.lexeme l) = s.rightParen l := by simp [step, hc, lexeme, hk]
  rw [hright]
  unfold rightParen Yard.closeParen
  unfold justOpened at hempty
  cases below with
  | nil => simp [ha, hempty, hpop, bind, Except.bind]
  | cons entry rest =>
    cases entry with
    | call f count => exact absurd rfl (hbelow f count rest)
    | operator op l => simp [ha, hempty, hpop, bind, Except.bind]
    | paren q => simp [ha, hempty, hpop, bind, Except.bind]

/-- The moves are exactly the successful steps. -/
theorem step_eq_ok_iff {t : Token} : step ctx s t = .ok s' ↔ Moves ctx s t s' := by
  refine ⟨moves_of_step, ?_⟩
  intro h
  cases h with
  | operand hc ht ha hv =>
    rw [step_operand hc ht ha, hv]
    rfl
  | functionName hc hk ha hf =>
    simp [step, hc, lexeme, hk, functionName, needOperand, ha, hf, bind, Except.bind]
  | groupCall hc hv =>
    rw [step_groupCall hc, hv]
    rfl
  | openCall hc hk hroom =>
    have hneed : s.needRoom ctx = .ok () := needRoom_eq_ok_iff.mpr hroom
    rw [step_openCall hc hk, hneed]
    rfl
  | openParen hc hk ha hroom =>
    have hneed : s.needRoom ctx = .ok () := needRoom_eq_ok_iff.mpr hroom
    rw [step_openParen hc hk ha, hneed]
    rfl
  | closeCall hc hk ha hpop => exact step_closeCall hc hk ha hpop
  | closeParen hc hk ha hempty hpop hbelow => exact step_closeParen hc hk ha hempty hpop hbelow
  | separator hc hk ho ha hpop =>
    simp [step, hc, lexeme, hk, separator, ho, ha, Yard.separate, hpop, bind, Except.bind]
  | sign hc hk ha => exact step_sign hc hk ha
  | operator hc hleft hk ha => exact step_operator hc hleft hk ha

/-! ## 3. Several tokens -/

theorem foldlM_cons_of_moves {t : Token} {ts : List Token} {r : Except ParseError Scan}
    (h : Moves ctx s t s') (hrest : ts.foldlM (step ctx) s' = r) :
    (t :: ts).foldlM (step ctx) s = r := by
  rw [List.foldlM_cons, step_eq_ok_iff.mpr h]
  exact hrest

theorem foldlM_append_of_eq_ok {ts us : List Token} {r : Except ParseError Scan}
    (h : ts.foldlM (step ctx) s = .ok s') (hrest : us.foldlM (step ctx) s' = r) :
    (ts ++ us).foldlM (step ctx) s = r := by
  rw [List.foldlM_append, h]
  exact hrest

/-- What every move keeps, of the tokens read so far and the scan that has read
them, a scan of several tokens keeps. -/
theorem foldlM_reads {P : List Token → Scan → Prop} {ts us : List Token}
    (hmoves : ∀ {ts s t s'}, Moves ctx s t s' → P ts s → P (ts ++ [t]) s') (hs : P us s)
    (h : ts.foldlM (step ctx) s = .ok s') : P (us ++ ts) s' := by
  induction ts generalizing us s with
  | nil =>
    cases h
    rwa [List.append_nil]
  | cons t rest ih =>
    rw [List.foldlM_cons] at h
    obtain ⟨mid, hstep, hrest⟩ := bind_eq_ok_iff.mp h
    rw [List.append_cons]
    exact ih (hmoves (step_eq_ok_iff.mp hstep) hs) hrest

/-! ## 4. The end of a list -/

/-- A scan may end where no operand, argument list or parenthesis is
missing, and puts out what still waits. -/
theorem finish_eq_ok_iff {queue : List Item} :
    s.finish = .ok queue ↔
      s.called = none ∧ s.awaiting = false ∧ (popOperators (fun _ => true) s.yard.stack).2 = [] ∧
        queue = s.yard.queue.toList ++ (popOperators (fun _ => true) s.yard.stack).1 := by
  unfold finish
  cases hc : s.called with
  | some f => simp
  | none =>
    cases ha : s.awaiting with
    | true => simp
    | false =>
      have hno := popOperators_all_ne_operator s.yard.stack
      simp only [Bool.false_eq_true, if_false, Yard.drain, true_and]
      cases hpop : (popOperators (fun _ => true) s.yard.stack).2 with
      | nil => simp [eq_comm]
      | cons entry rest =>
        cases entry with
        | operator op l => exact absurd hpop (hno rest op l)
        | paren p => simp
        | call f count => simp

/-- A list has a formula if its scan ends and the queue has one value. -/
theorem run_eq_ok_iff {tokens : List Token} {m : Measured} :
    run ctx tokens = .ok m ↔
      ∃ s queue, tokens.foldlM (step ctx) start = .ok s ∧ s.finish = .ok queue ∧
        queue.foldlM (Item.apply ctx.environment ctx.limits.maxHeight) [] = .ok [m] := by
  simp only [run, bind_eq_ok_iff, reduce_eq_ok_iff]
  constructor
  · rintro ⟨s, hs, queue, hq, hv⟩
    exact ⟨s, queue, hs, hq, hv⟩
  · rintro ⟨s, queue, hs, hq, hv⟩
    exact ⟨s, hs, queue, hq, hv⟩

end Scan

end Formula
