/-
Formula.Proofs.Scan.Balance — the parentheses of a list and the stack of a scan.

Whether the parentheses of a list match is a property of the list alone
(`Balanced`), and so is whether the innermost one that is open at some place is
that of a call (`InCall`). A scan sees neither. It pops entries from a stack,
counts open calls, and looks at the entry below the topmost parenthesis.

The two agree because the stack without its operators is a picture of what was
read (`Stands`, `Opened`): one entry for each parenthesis that is open, which
says whether the name of a function stands directly before it. Every move keeps
this (`Scan.Moves.tracks`). A scan that reads all of its list has therefore read
a well nested one, and one that refuses a parenthesis or a separator for its
place is right (`Scan.Refuses.blames`).
-/
import Formula.Proofs.Scan.Supply

namespace Formula

/-! ## 1. Balanced lists -/

namespace Token

/-- How many opening parentheses are in a list. -/
def opens (ts : List Token) : Nat := ts.countP fun t => t.kind? == some .leftParen

/-- How many closing parentheses are in a list. -/
def closes (ts : List Token) : Nat := ts.countP fun t => t.kind? == some .rightParen

theorem opens_append (ts us : List Token) : opens (ts ++ us) = opens ts + opens us :=
  List.countP_append

theorem closes_append (ts us : List Token) : closes (ts ++ us) = closes ts + closes us :=
  List.countP_append

theorem opens_cons (t : Token) (ts : List Token) : opens (t :: ts) = opens [t] + opens ts :=
  opens_append [t] ts

theorem closes_cons (t : Token) (ts : List Token) : closes (t :: ts) = closes [t] + closes ts :=
  closes_append [t] ts

/-- Whether a token is a parenthesis. -/
def isParen (t : Token) : Bool := t.kind? == some .leftParen || t.kind? == some .rightParen

theorem isParen_of_ne {l : Lexeme} {kind : LexemeKind} (h : l.kind = kind)
    (hkind : kind ≠ .leftParen ∧ kind ≠ .rightParen) : (lexeme l).isParen = false := by
  simp [isParen, kind?, h, hkind]

theorem counts_of_isParen {t : Token} (h : t.isParen = false) : opens [t] = 0 ∧ closes [t] = 0 := by
  simpa [isParen, opens, closes] using h

theorem counts_leftParen {l : Lexeme} (h : l.kind = .leftParen) :
    opens [.lexeme l] = 1 ∧ closes [.lexeme l] = 0 := by
  simp [opens, closes, kind?, h]

theorem counts_rightParen {l : Lexeme} (h : l.kind = .rightParen) :
    opens [.lexeme l] = 0 ∧ closes [.lexeme l] = 1 := by
  simp [opens, closes, kind?, h]

/-- The parentheses of a list match: none is closed that is not open, and none
stays open. -/
structure Balanced (ts : List Token) : Prop where
  closes_le : ∀ us, us <+: ts → closes us ≤ opens us
  closes_eq : closes ts = opens ts

namespace Balanced

variable {ts us vs : List Token} {t : Token} {l r : Lexeme}

theorem nil : Balanced [] where
  closes_le us h := by rw [List.prefix_nil.mp h]; exact Nat.le_refl _
  closes_eq := rfl

theorem append (hts : Balanced ts) (hus : Balanced us) : Balanced (ts ++ us) where
  closes_le vs h := by
    rcases List.prefix_or_prefix_of_prefix h (List.prefix_append ts us) with hvs | ⟨ws, rfl⟩
    · exact hts.closes_le vs hvs
    · have hws := hus.closes_le ws ((List.prefix_append_right_inj ts).mp h)
      rw [closes_append, opens_append, hts.closes_eq]
      omega
  closes_eq := by rw [closes_append, opens_append, hts.closes_eq, hus.closes_eq]

theorem of_isParen (h : t.isParen = false) : Balanced [t] where
  closes_le us hus := by
    obtain ⟨-, hcloses⟩ := counts_of_isParen h
    have hle : closes us ≤ closes [t] := hus.sublist.countP_le
    omega
  closes_eq := by rw [(counts_of_isParen h).1, (counts_of_isParen h).2]

theorem enclosed (hl : l.kind = .leftParen) (hr : r.kind = .rightParen) (hts : Balanced ts) :
    Balanced (.lexeme l :: (ts ++ [.lexeme r])) := by
  obtain ⟨hlopens, hlcloses⟩ := counts_leftParen hl
  obtain ⟨hropens, hrcloses⟩ := counts_rightParen hr
  have heq := hts.closes_eq
  constructor
  · intro us hus
    rcases List.prefix_cons_iff.mp hus with rfl | ⟨vs, rfl, hvs⟩
    · exact Nat.le_refl _
    · rw [opens_cons, closes_cons]
      rcases List.prefix_concat_iff.mp hvs with rfl | hvs
      · rw [opens_append, closes_append]
        omega
      · have hle := hts.closes_le vs hvs
        omega
  · rw [opens_cons, closes_cons, opens_append, closes_append]
    omega

/-- A parenthesis before the end of a balanced list is closed in it. -/
theorem not_append_leftParen (h : Balanced (ts ++ .lexeme l :: us)) (hl : l.kind = .leftParen)
    (hus : Balanced us) : False := by
  obtain ⟨hopens, hcloses⟩ := counts_leftParen hl
  have hle := h.closes_le ts (List.prefix_append _ _)
  have heq := h.closes_eq
  have husEq := hus.closes_eq
  rw [opens_append, closes_append, opens_cons, closes_cons] at heq
  omega

/-- Around a balanced list, the first parenthesis is closed by the last one and
not before. -/
theorem not_append_of_enclosed (hts : Balanced ts) (hus : Balanced us) (hne : us ≠ [])
    (hl : l.kind = .leftParen) (h : .lexeme l :: (ts ++ [.lexeme r]) = us ++ t :: vs) : False := by
  obtain ⟨hopens, hcloses⟩ := counts_leftParen hl
  cases us with
  | nil => exact hne rfl
  | cons u us =>
    obtain ⟨rfl, hrest⟩ := List.cons.inj h
    -- what follows the parenthesis ends before the last one
    have hprefix : us <+: ts := by
      rcases List.prefix_concat_iff.mp ⟨t :: vs, hrest.symm⟩ with rfl | hprefix
      · simp at hrest
      · exact hprefix
    have hle := hts.closes_le us hprefix
    have heq := hus.closes_eq
    rw [opens_cons, closes_cons] at heq
    omega

end Balanced

/-- The innermost parenthesis that is open after a list is that of a call: it
stands directly after the name of a function, and what follows it is balanced. -/
def InCall (ts : List Token) : Prop :=
  ∃ us f l vs, ts = us ++ .lexeme f :: .lexeme l :: vs ∧ f.kind = .functionName ∧
    l.kind = .leftParen ∧ Balanced vs

/-- The parentheses of a list match, and its separators divide the arguments of
calls. -/
structure WellNested (ts : List Token) : Prop where
  balanced : Balanced ts
  inCall : ∀ us l vs, ts = us ++ .lexeme l :: vs → l.kind = .separator → InCall us

/-! ## 2. What is open after a list -/

/-- Whether a list ends with the name of a function. -/
def endsInName (ts : List Token) : Bool := ts.getLast?.bind kind? == some .functionName

theorem endsInName_concat (ts : List Token) (t : Token) :
    endsInName (ts ++ [t]) = (t.kind? == some .functionName) := by
  simp [endsInName]

theorem endsInName_iff {ts : List Token} :
    endsInName ts = true ↔ ∃ us f, ts = us ++ [.lexeme f] ∧ f.kind = .functionName := by
  constructor
  · intro h
    rcases List.eq_nil_or_concat' ts with rfl | ⟨us, t, rfl⟩
    · cases h
    · rw [endsInName_concat] at h
      cases t with
      | lexeme f => exact ⟨us, f, rfl, by simpa [kind?] using h⟩
      | _ => cases h
  · rintro ⟨us, f, rfl, hf⟩
    simp [endsInName_concat, kind?, hf]

/-- The parentheses that are open after a list, the innermost one first: for each
of them, whether it is that of a call. -/
inductive Opened : List Token → List Bool → Prop
  | none {ts} (h : Balanced ts) : Opened ts []
  | paren {ts us l calls} (h : Opened ts calls) (hl : l.kind = .leftParen) (hus : Balanced us) :
      Opened (ts ++ .lexeme l :: us) (endsInName ts :: calls)

namespace Opened

variable {ts us : List Token} {calls : List Bool} {call : Bool} {t : Token} {l : Lexeme}

theorem opens_eq (h : Opened ts calls) : opens ts = closes ts + calls.length := by
  induction h with
  | none h => exact h.closes_eq.symm
  | paren _ hl hus ih =>
    obtain ⟨hopens, hcloses⟩ := counts_leftParen hl
    have heq := hus.closes_eq
    rw [opens_append, closes_append, opens_cons, closes_cons, List.length_cons]
    omega

theorem append (h : Opened ts calls) (hus : Balanced us) : Opened (ts ++ us) calls := by
  cases h with
  | none h => exact .none (h.append hus)
  | paren h hl hvs =>
    rw [List.append_assoc, List.cons_append]
    exact .paren h hl (hvs.append hus)

theorem concat (h : Opened ts calls) (ht : t.isParen = false) : Opened (ts ++ [t]) calls :=
  h.append (.of_isParen ht)

theorem leftParen (h : Opened ts calls) (hl : l.kind = .leftParen) :
    Opened (ts ++ [.lexeme l]) (endsInName ts :: calls) := .paren h hl .nil

theorem rightParen (h : Opened ts (call :: calls)) (hl : l.kind = .rightParen) :
    Opened (ts ++ [.lexeme l]) calls := by
  cases h with
  | paren h hk hus =>
    rw [List.append_assoc, List.cons_append]
    exact h.append (.enclosed hk hl hus)

end Opened

/-- There is only one parenthesis with a balanced list after it. -/
theorem Balanced.eq_of_append {ts ts' us us' : List Token} {l l' : Lexeme}
    (h : ts ++ .lexeme l :: us = ts' ++ .lexeme l' :: us') (hl : l.kind = .leftParen)
    (hl' : l'.kind = .leftParen) (hus : Balanced us) (hus' : Balanced us') : ts = ts' := by
  rcases List.append_eq_append_iff.mp h with ⟨vs, rfl, heq⟩ | ⟨vs, rfl, heq⟩
  · cases vs with
    | nil => exact (List.append_nil ts).symm
    | cons v vs =>
      obtain ⟨-, rfl⟩ := List.cons.inj heq
      exact (hus.not_append_leftParen hl' hus').elim
  · cases vs with
    | nil => exact List.append_nil ts'
    | cons v vs =>
      obtain ⟨-, rfl⟩ := List.cons.inj heq
      exact (hus'.not_append_leftParen hl hus).elim

/-- The innermost open parenthesis is that of a call if it is one in the list of
those that are open. -/
theorem Opened.inCall_iff {ts : List Token} {calls : List Bool} (h : Opened ts calls) :
    InCall ts ↔ calls.head? = some true := by
  cases h with
  | none h =>
    refine iff_of_false ?_ nofun
    rintro ⟨us, f, l, vs, rfl, -, hl, hvs⟩
    rw [List.append_cons] at h
    exact h.not_append_leftParen hl hvs
  | @paren ts vs l calls _ hl hvs =>
    rw [List.head?_cons, Option.some.injEq, endsInName_iff]
    constructor
    · rintro ⟨us, f, l', vs', heq, hf, hl', hvs'⟩
      rw [List.append_cons us] at heq
      exact ⟨us, f, Balanced.eq_of_append heq hl hl' hvs hvs', hf⟩
    · rintro ⟨us, f, rfl, hf⟩
      exact ⟨us, f, l, vs, by simp, hf, hl, hvs⟩

end Token

open Token

/-! ## 3. The stack of a scan -/

/-- The parentheses on a stack, its top first: for each of them, whether a call
waits below it. -/
inductive Stands : List Pending → List Bool → Prop
  | nil : Stands [] []
  | operator {stack calls op l} (h : Stands stack calls) :
      Stands (.operator op l :: stack) calls
  | paren {stack calls l} (h : Stands stack calls) : Stands (.paren l :: stack) (false :: calls)
  | call {stack calls l f count} (h : Stands stack calls) :
      Stands (.paren l :: .call f count :: stack) (true :: calls)

namespace Stands

variable {stack below : List Pending} {calls : List Bool} {l f : Lexeme} {count : Nat}

theorem popOperators (p : Operator → Bool) (h : Stands stack calls) :
    Stands (popOperators p stack).2 calls := by
  induction h with
  | nil => exact .nil
  | operator h ih =>
    rw [Formula.popOperators]
    split
    · exact ih
    · exact .operator h
  | paren h _ => exact .paren h
  | call h _ => exact .call h

/-- What is left of a stack once operators are popped has the same parentheses. -/
theorem of_pop (h : Stands stack calls) {p : Operator → Bool} {rest : List Pending}
    (hpop : (Formula.popOperators p stack).2 = rest) : Stands rest calls :=
  hpop ▸ h.popOperators p

/-- The innermost parenthesis of a call is on top of the call once the operators
are popped. -/
theorem exists_call (h : Stands stack (true :: calls)) :
    ∃ p f count below, (Formula.popOperators (fun _ => true) stack).2 =
      .paren p :: .call f count :: below := by
  have hpopped := h.popOperators fun _ => true
  have hno := popOperators_all_ne_operator stack
  generalize (Formula.popOperators (fun _ => true) stack).2 = rest at hpopped hno
  cases hpopped with
  | operator _ => exact absurd rfl (hno _ _ _)
  | call _ => exact ⟨_, _, _, _, rfl⟩

/-- No call waits without its parenthesis. -/
theorem ne_call : ¬ Stands (.call f count :: stack) calls := nofun

/-- A parenthesis that is no call's. -/
theorem tail_of_paren (h : Stands (.paren l :: below) calls)
    (hbelow : ∀ f count rest, below ≠ .call f count :: rest) :
    ∃ calls', calls = false :: calls' ∧ Stands below calls' := by
  cases h with
  | paren h => exact ⟨_, rfl, h⟩
  | call _ => exact absurd rfl (hbelow _ _ _)

theorem tail_of_call (h : Stands (.paren l :: .call f count :: below) calls) :
    ∃ calls', calls = true :: calls' ∧ Stands below calls' := by
  cases h with
  | paren h => exact absurd h ne_call
  | call h => exact ⟨_, rfl, h⟩

end Stands

namespace Scan

/-- A scan that has read a list: its stack has the parentheses that are open, its
count is that of the open calls, and it waits for arguments after a name. -/
structure Tracks (ts : List Token) (s : Scan) : Prop where
  called : s.called.isSome = endsInName ts
  opened : ∃ calls, Opened ts calls ∧ Stands s.yard.stack calls ∧ s.openCalls = calls.count true

variable {ctx : Context} {s s' : Scan} {t : Token} {ts : List Token} {e : ParseError}

theorem tracks_start : Tracks [] start where
  called := rfl
  opened := ⟨[], .none .nil, .nil, rfl⟩

/-- A scan that waits for no arguments after a token that is no name. -/
theorem Tracks.of_settled {calls : List Bool} (hc : s.called = none)
    (ht : (t.kind? == some .functionName) = false) (hopened : Opened (ts ++ [t]) calls)
    (hstack : Stands s.yard.stack calls) (hcount : s.openCalls = calls.count true) :
    Tracks (ts ++ [t]) s where
  called := by rw [endsInName_concat, ht, hc]; rfl
  opened := ⟨calls, hopened, hstack, hcount⟩

theorem isParen_of_isOperand {t : Token} (h : t.isOperand = true) :
    t.isParen = false ∧ (t.kind? == some .functionName) = false := by
  cases t with
  | lexeme l =>
    have h : l.kind.isOperand = true := h
    cases hk : l.kind <;> simp_all [isParen, kind?, LexemeKind.isOperand]
  | _ => exact ⟨rfl, rfl⟩

theorem isParen_of_operator {l : Lexeme} {op : Operator} (h : l.kind = op.kind) :
    (Token.lexeme l).isParen = false ∧
      ((Token.lexeme l).kind? == some .functionName) = false := by
  obtain ⟨hl, hr, hf, -⟩ := op.kind_ne
  refine ⟨isParen_of_ne h ⟨hl, hr⟩, ?_⟩
  simp [kind?, h, hf]

/-- Every move keeps the picture of what was read. -/
theorem Moves.tracks (h : Moves ctx s t s') (hs : Tracks ts s) : Tracks (ts ++ [t]) s' := by
  obtain ⟨calls, hopened, hstack, hcount⟩ := hs.opened
  cases h with
  | operand hc ht _ _ =>
    obtain ⟨hparen, hname⟩ := isParen_of_isOperand ht
    exact .of_settled hc hname (hopened.concat hparen) hstack hcount
  | @functionName f hc hk _ _ =>
    refine ⟨?_, calls, hopened.concat (isParen_of_ne hk (by decide)), hstack, hcount⟩
    simp [endsInName_concat, kind?, hk]
  | groupCall _ _ => exact .of_settled rfl rfl (hopened.concat rfl) hstack hcount
  | @openCall f l hc hk _ =>
    have hname : endsInName ts = true := by rw [← hs.called, hc]; rfl
    have hopened := hopened.leftParen hk
    rw [hname] at hopened
    refine .of_settled rfl (by simp [kind?, hk]) hopened (.call hstack) ?_
    rw [List.count_cons_self, hcount]
  | @openParen l hc hk _ _ =>
    have hname : endsInName ts = false := by rw [← hs.called, hc]; rfl
    have hopened := hopened.leftParen hk
    rw [hname] at hopened
    refine .of_settled hc (by simp [kind?, hk]) hopened (.paren hstack) ?_
    rw [List.count_cons_of_ne (by decide), hcount]
  | closeCall hc hk _ hpop =>
    obtain ⟨calls, rfl, hbelow⟩ := (hstack.of_pop hpop).tail_of_call
    refine .of_settled hc (by simp [kind?, hk]) (hopened.rightParen hk) hbelow ?_
    rw [hcount, List.count_cons_self, Nat.add_sub_cancel]
  | closeParen hc hk _ _ hpop hbelow =>
    obtain ⟨calls, rfl, hbelow⟩ := (hstack.of_pop hpop).tail_of_paren hbelow
    refine .of_settled hc (by simp [kind?, hk]) (hopened.rightParen hk) hbelow ?_
    rw [hcount, List.count_cons_of_ne (by decide)]
  | separator hc hk _ _ hpop =>
    obtain ⟨calls, rfl, hbelow⟩ := (hstack.of_pop hpop).tail_of_call
    exact .of_settled hc (by simp [kind?, hk]) (hopened.concat (isParen_of_ne hk (by decide)))
      (.call hbelow) hcount
  | @sign l sign hc hk _ =>
    have hsign : l.kind = (Operator.sign sign).kind := hk
    obtain ⟨hparen, hname⟩ := isParen_of_operator hsign
    exact .of_settled hc hname (hopened.concat hparen) (.operator (hstack.popOperators _)) hcount
  | operator hc _ hk _ =>
    obtain ⟨hparen, hname⟩ := isParen_of_operator hk
    exact .of_settled hc hname (hopened.concat hparen) (.operator (hstack.popOperators _)) hcount

theorem Tracks.foldlM {us : List Token} (hs : Tracks us s) (h : ts.foldlM (step ctx) s = .ok s') :
    Tracks (us ++ ts) s' :=
  foldlM_reads (fun hmove hs => hmove.tracks hs) hs h

/-! ## 4. Lists that are read to their end -/

/-- A separator that a scan lets through stands in a call. -/
theorem Moves.inCall {l : Lexeme} (h : Moves ctx s (.lexeme l) s') (hs : Tracks ts s)
    (hk : l.kind = .separator) : InCall ts := by
  obtain ⟨calls, hopened, hstack, -⟩ := hs.opened
  cases h with
  | separator _ _ _ _ hpop =>
    obtain ⟨calls, rfl, -⟩ := (hstack.of_pop hpop).tail_of_call
    exact hopened.inCall_iff.mpr rfl
  | operand _ ht _ _ =>
    have ht : l.kind.isOperand = true := ht
    rw [hk] at ht
    cases ht
  | @sign _ sign _ hk' _ => cases sign <;> cases hk.symm.trans hk'
  | operator _ _ hk' _ => exact absurd (hk'.symm.trans hk) (Operator.kind_ne _).2.2.2.1
  | functionName _ hk' _ _ => cases hk.symm.trans hk'
  | openCall _ hk' _ => cases hk.symm.trans hk'
  | openParen _ hk' _ _ => cases hk.symm.trans hk'
  | closeCall _ hk' _ _ => cases hk.symm.trans hk'
  | closeParen _ hk' _ _ _ _ => cases hk.symm.trans hk'

/-- A scan that ends with no parenthesis open has read a balanced list. -/
theorem Tracks.balanced (hs : Tracks ts s)
    (hpop : (popOperators (fun _ => true) s.yard.stack).2 = []) : Balanced ts := by
  obtain ⟨calls, hopened, hstack, -⟩ := hs.opened
  cases hstack.of_pop hpop
  cases hopened
  assumption

/-- A list that is read to its end is well nested. -/
theorem wellNested_of_run {m : Measured} (h : run ctx ts = .ok m) : WellNested ts := by
  obtain ⟨s, queue, hread, hfinish, -⟩ := run_eq_ok_iff.mp h
  obtain ⟨-, -, hpop, -⟩ := finish_eq_ok_iff.mp hfinish
  refine ⟨(tracks_start.foldlM hread).balanced hpop, ?_⟩
  rintro us l vs rfl hk
  rw [List.foldlM_append] at hread
  obtain ⟨s₁, hus, hread⟩ := bind_eq_ok_iff.mp hread
  rw [List.foldlM_cons] at hread
  obtain ⟨s₂, hstep, -⟩ := bind_eq_ok_iff.mp hread
  exact (step_eq_ok_iff.mp hstep).inCall (tracks_start.foldlM hus) hk

end Scan

/-! ## 5. Errors -/

namespace Token

/-- A list with a separator that does not stand in a call, or with a group of
several elements that does not follow the name of a function. -/
def Misdivided (ts : List Token) : Prop :=
  (∃ us l vs, ts = us ++ .lexeme l :: vs ∧ l.kind = .separator ∧ ¬ InCall us) ∨
    ∃ us delimiters elements vs, ts = us ++ .group delimiters elements :: vs ∧
      endsInName us = false ∧ Context.grouping? delimiters ≠ none ∧ 2 ≤ elements.length

/-- An error about the structure of a list has its reason in the list. -/
def Blames (ts : List Token) : ParseError → Prop
  | .mismatchedParentheses _ => ¬ Balanced ts
  | .unexpectedSeparator _ => Misdivided ts
  | _ => True

/-- A parenthesis that closes none. -/
theorem not_balanced_of_rightParen {us vs : List Token} {l : Lexeme} (h : Balanced us)
    (hl : l.kind = .rightParen) : ¬ Balanced (us ++ .lexeme l :: vs) := by
  intro hall
  obtain ⟨hopens, hcloses⟩ := counts_rightParen hl
  have hle := hall.closes_le (us ++ [.lexeme l]) ⟨vs, by simp⟩
  have heq := h.closes_eq
  rw [opens_append, closes_append] at hle
  omega

/-- A parenthesis that is never closed. -/
theorem Opened.not_balanced {ts : List Token} {call : Bool} {calls : List Bool}
    (h : Opened ts (call :: calls)) : ¬ Balanced ts := by
  intro hall
  have hopens := h.opens_eq
  have heq := hall.closes_eq
  rw [List.length_cons] at hopens
  omega

end Token

namespace Scan

variable {ctx : Context} {s : Scan} {t : Token} {us vs : List Token} {e : ParseError}

/-- A token has no value, or it is no call of the function before it, or else an
error about the structure has its reason in the list. -/
theorem Refuses.blames (h : Refuses ctx s t e) (hs : Tracks us s) :
    Blames (us ++ t :: vs) e ∨
      (s.called = none ∧ t.isOperand = true ∧ s.awaiting = true ∧ ctx.value t = .error e) ∨
      ∃ f delimiters elements, s.called = some f ∧ t = .group delimiters elements ∧
        ctx.call f delimiters elements = .error e := by
  obtain ⟨calls, hopened, hstack, hcount⟩ := hs.opened
  cases h with
  | operand hc ht ha hv => exact .inr (.inl ⟨hc, ht, ha, hv⟩)
  | groupCall hc hv => exact .inr (.inr ⟨_, _, _, hc, rfl, hv⟩)
  | neverOpened _ hk _ hpop => exact .inl (not_balanced_of_rightParen (hs.balanced hpop) hk)
  | @noOpenCall l _ hk ho =>
    refine .inl (.inl ⟨us, l, vs, rfl, hk, fun hin => ?_⟩)
    obtain ⟨calls, rfl⟩ := List.head?_eq_some_iff.mp (hopened.inCall_iff.mp hin)
    rw [List.count_cons_self] at hcount
    omega
  | @notInCall l _ hk _ _ hpop =>
    refine .inl (.inl ⟨us, l, vs, rfl, hk, fun hin => ?_⟩)
    obtain ⟨calls, rfl⟩ := List.head?_eq_some_iff.mp (hopened.inCall_iff.mp hin)
    obtain ⟨p, f, count, below, hcall⟩ := hstack.exists_call
    exact hpop p f count below hcall
  | _ => exact .inl trivial

/-- A list whose end is refused for an open parenthesis has one. -/
theorem Tracks.finish_blames (hs : Tracks us s) (h : s.finish = .error e) : Blames us e := by
  obtain ⟨calls, hopened, hstack, -⟩ := hs.opened
  unfold finish at h
  split at h
  · cases h
    trivial
  · split at h
    · cases h
      trivial
    · unfold Yard.drain at h
      simp only at h
      split at h
      · rename_i paren below hpop
        cases h
        cases hstack.of_pop hpop with
        | paren _ => exact hopened.not_balanced
        | call _ => exact hopened.not_balanced
      · rename_i name count below hpop
        exact absurd (hstack.of_pop hpop) Stands.ne_call
      · cases h

end Scan

end Formula
