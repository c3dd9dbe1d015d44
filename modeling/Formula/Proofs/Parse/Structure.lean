/-
Formula.Proofs.Parse.Structure — errors about the structure of a formula.

A list that is parsed is well nested, and so is every list that is entered on the
way. An error about parentheses or separators has its reason in a list that was
entered, the one that is read when it arises (`structure_of_parse`).

Which lists are entered is not written down anywhere: a scan asks for the parse
of a list in a token when it gets there, and what it does next depends on the
answer. Such a list is entered if its parse matters (`Context.Enters`). If there
is a formula, these are all (`Entered.of_mem_sublists`), and otherwise
those that were asked for before the error.

`Consults` is what makes this work. An answer that is an error is passed on as it
is. So a computation with a result has got no such answer, and the error of one
that fails is its own or that of the list that it asked for last.
-/
import Formula.Proofs.Parse.Bounds
import Formula.Proofs.Parse.Defects
import Formula.Proofs.Scan.Balance

namespace Formula

open Token

/-! ## 1. Computations that ask for the parses of lists -/

/-- The parses of the lists in tokens. -/
abbrev Parts := List Token → Except ParseError Measured

/-- Parses that differ for one list at most. -/
def Parts.Elsewhere (us : List Token) (nested nested' : Parts) : Prop :=
  ∀ vs, vs ≠ us → nested' vs = nested vs

/-- A computation that asks for the parses of lists among `S`, and ends with the
first error that it gets. Its other errors have the property `E`. -/
structure Consults {α : Type} (S : List Token → Prop) (E : ParseError → Prop)
    (c : Parts → Except ParseError α) : Prop where
  /-- A list without a formula was not asked for if there is a result. -/
  ok : ∀ {nested nested' us e a}, nested us = .error e → Parts.Elsewhere us nested nested' →
    c nested = .ok a → c nested' = .ok a
  /-- Any other error of the list that was asked for last would be passed on as
  well. -/
  error : ∀ {nested e}, c nested = .error e → E e ∨ ∃ us, S us ∧ nested us = .error e ∧
    ∀ {nested' e'}, Parts.Elsewhere us nested nested' → nested' us = .error e' →
      c nested' = .error e'

namespace Consults

variable {α β : Type} {S S' : List Token → Prop} {E E' : ParseError → Prop}
  {c : Parts → Except ParseError α} {f : α → Parts → Except ParseError β}

theorem mono (hc : Consults S E c) (hS : ∀ us, S us → S' us) (hE : ∀ e, E e → E' e) :
    Consults S' E' c where
  ok := hc.ok
  error h := by
    rcases hc.error h with h | ⟨us, hus, h⟩
    · exact .inl (hE _ h)
    · exact .inr ⟨us, hS us hus, h⟩

/-- A computation that asks for nothing. -/
theorem const {r : Except ParseError α} (h : ∀ e, r = .error e → E e) :
    Consults S E fun _ => r where
  ok _ _ h := h
  error he := .inl (h _ he)

theorem pure (a : α) : Consults S E fun _ => .ok a := .const nofun

theorem fail {e : ParseError} (h : E e) : Consults (α := α) S E fun _ => .error e :=
  .const fun _ he => Except.error.inj he ▸ h

/-- The parse of a list. -/
theorem ask {us : List Token} (h : S us) : Consults S E fun nested => nested us where
  ok {nested nested' vs e a} herror hother h := by
    have hne : us ≠ vs := by
      rintro rfl
      cases herror.symm.trans h
    exact (hother us hne).trans h
  error he := .inr ⟨us, h, he, fun _ h => h⟩

/-- What follows a result, where something is known of the results. -/
theorem bind_of {P : α → Prop} (hc : Consults S E c) (hP : ∀ nested a, c nested = .ok a → P a)
    (hf : ∀ a, P a → Consults S E (f a)) :
    Consults S E fun nested => c nested >>= fun a => f a nested where
  ok herror hother h := by
    obtain ⟨a, ha, h⟩ := bind_eq_ok_iff.mp h
    exact bind_eq_ok_iff.mpr ⟨a, hc.ok herror hother ha, (hf a (hP _ a ha)).ok herror hother h⟩
  error h := by
    rcases bind_eq_error_iff.mp h with h | ⟨a, ha, h⟩
    · rcases hc.error h with h | ⟨us, hus, herror, hpass⟩
      · exact .inl h
      · exact .inr ⟨us, hus, herror, fun hother he =>
          bind_eq_error_iff.mpr (.inl (hpass hother he))⟩
    · rcases (hf a (hP _ a ha)).error h with h | ⟨us, hus, herror, hpass⟩
      · exact .inl h
      · exact .inr ⟨us, hus, herror, fun hother he =>
          bind_eq_error_iff.mpr (.inr ⟨a, hc.ok herror hother ha, hpass hother he⟩)⟩

theorem bind (hc : Consults S E c) (hf : ∀ a, Consults S E (f a)) :
    Consults S E fun nested => c nested >>= fun a => f a nested :=
  hc.bind_of (fun _ _ _ => trivial) fun a _ => hf a

theorem ite {p : Prop} [Decidable p] {c' : Parts → Except ParseError α}
    (hc : p → Consults S E c) (hc' : ¬ p → Consults S E c') :
    Consults S E fun nested => if p then c nested else c' nested := by
  split
  · exact hc ‹_›
  · exact hc' ‹_›

end Consults

/-! ## 2. Tokens -/

/-- The context with other parses of the lists in tokens. -/
def Context.asking (ctx : Context) (nested : Parts) : Context := { ctx with nested := nested }

/-- The lists in a token that a parse can ask for. -/
def Token.lists : Token → List (List Token)
  | .lexeme _ => []
  | .fraction numerator denominator => [numerator, denominator]
  | .superscript base exponent => [base, exponent]
  | .radical base degree => [base, degree]
  | .group _ elements => elements
  | .application name _ elements => elements ++ exponentLists name

theorem Token.mem_lists_of_mem_sublists {t : Token} {us : List Token} (h : us ∈ t.sublists) :
    us ∈ t.lists := by
  cases t with
  | lexeme _ => cases h
  | fraction _ _ | superscript _ _ => exact h
  | radical base degree =>
    cases degree with
    | nil => exact List.mem_cons.mpr (.inl (List.mem_singleton.mp h))
    | cons _ _ => exact h
  | group _ _ => exact mem_of_mem_argumentLists h
  | application _ _ _ =>
    exact (List.mem_append.mp h).elim
      (fun h => List.mem_append_left _ (mem_of_mem_argumentLists h)) (List.mem_append_right _)

/-- The errors that a token has by itself: those about the structure of a formula
are for groups with several elements. -/
def Token.Faults (t : Token) : ParseError → Prop
  | .mismatchedParentheses _ => False
  | .unexpectedSeparator _ => ∃ delimiters elements, t = .group delimiters elements ∧
      Context.grouping? delimiters ≠ none ∧ 2 ≤ elements.length
  | _ => True

/-- Errors that are not about the structure of a formula. -/
def ParseError.IsLocal : ParseError → Prop
  | .mismatchedParentheses _ | .unexpectedSeparator _ => False
  | _ => True

theorem Token.Faults.of_isLocal (t : Token) {e : ParseError} (h : e.IsLocal) : t.Faults e := by
  cases e with
  | mismatchedParentheses _ | unexpectedSeparator _ => exact h.elim
  | _ => trivial

namespace Context

variable {ctx : Context} {S : List Token → Prop} {elements : List (List Token)}

theorem consults_grow {E : ParseError → Prop} (hE : ∀ k, E (.nestingTooDeep k))
    (heights : List Nat) : Consults S E fun _ => ctx.grow heights :=
  .const fun e he => by
    obtain rfl := eq_of_grow_eq_error he
    exact hE _

theorem consults_node (name : String) (arguments : List Expr) :
    Consults S ParseError.IsLocal fun _ => ctx.environment.call name arguments :=
  .const fun e he => by
    cases (Ends.iff_forall.mp (Environment.call_ends name arguments)).2 e he <;> trivial

theorem consults_leaf (l : Lexeme) : Consults S (Token.lexeme l).Faults fun _ => ctx.leaf l :=
  .const fun e he => by
    cases (Ends.iff_forall.mp (leaf_ends l)).2 e he <;> trivial

theorem consults_arguments (h : ∀ us ∈ elements, S us) :
    Consults S ParseError.IsLocal fun nested => (ctx.asking nested).arguments elements := by
  induction elements with
  | nil => exact .pure []
  | cons element rest ih =>
    obtain ⟨helement, hrest⟩ := List.forall_mem_cons.mp h
    exact .bind (.ask helement) fun m => .bind (ih hrest) fun ms => .pure (m :: ms)

theorem consults_call (f : Lexeme) (delimiters : Delimiters) (h : ∀ us ∈ elements, S us) :
    Consults S ParseError.IsLocal fun nested => (ctx.asking nested).call f delimiters elements := by
  have harguments : ∀ us ∈ argumentLists elements, S us := fun us hus =>
    h us (mem_of_mem_argumentLists hus)
  refine .ite (p := (!ctx.environment.isFunction f.text) = true) (fun _ => .fail ?_) fun _ =>
    .ite (p := (!delimiters.isArgumentList) = true) (fun _ => .fail ?_) fun _ =>
      .bind (consults_arguments harguments) fun ms => .bind (consults_grow (fun _ => ?_) _)
        fun height => .bind (consults_node _ _) fun n => .pure _
  all_goals trivial

theorem consults_application {name : List Token} (delimiters : Delimiters)
    (h : ∀ us ∈ elements ++ exponentLists name, S us) :
    Consults S ParseError.IsLocal fun nested =>
      (ctx.asking nested).application name delimiters elements := by
  obtain ⟨helements, hexponent⟩ := List.forall_mem_append.mp h
  have henvironment : ∀ nested, (ctx.asking nested).environment = ctx.environment := fun _ => rfl
  simp only [application, henvironment]
  split
  · exact consults_call _ _ helements
  · rename_i f exponent hname
    obtain rfl := calledFunction?_eq_some hname
    have hask : S exponent := hexponent exponent (List.mem_singleton.mpr rfl)
    exact .bind (consults_call _ _ helements) fun c => .bind (.ask hask) fun e =>
      .bind (consults_grow (fun _ => trivial) _) fun _ => .pure _
  · exact .fail trivial

theorem consults_group (delimiters : Delimiters) (h : ∀ us ∈ elements, S us) :
    Consults S (Token.group delimiters elements).Faults fun nested =>
      (ctx.asking nested).group delimiters elements := by
  unfold group
  cases hg : grouping? delimiters with
  | none => exact .fail trivial
  | some grouping =>
    match elements with
    | [] => exact .fail trivial
    | [element] =>
      refine .bind (.ask (h element (by simp))) fun inner => ?_
      cases grouping with
      | plain => exact .pure inner
      | bars => exact .bind (consults_grow (fun _ => trivial) _) fun height => .pure _
    | a :: b :: rest =>
      refine .fail ⟨delimiters, a :: b :: rest, rfl, ?_, by simp⟩
      rw [hg]
      nofun

/-- A token asks for the parses of its lists, one after the other. -/
theorem consults_value (t : Token) :
    Consults (· ∈ t.lists) t.Faults fun nested => (ctx.asking nested).value t := by
  have hpair : ∀ {a b : List Token} (node : Expr → Expr → Expr), a ∈ t.lists → b ∈ t.lists →
      Consults (· ∈ t.lists) t.Faults fun nested => (do
        let a ← nested a
        let b ← nested b
        let height ← ctx.grow [a.height, b.height]
        .ok (⟨node a.expr b.expr, height⟩ : Measured)) := fun node ha hb =>
    .bind (.ask ha) fun m => .bind (.ask hb) fun k =>
      .bind (consults_grow (fun _ => trivial) _) fun _ => .pure _
  cases t with
  | lexeme l => exact .bind (consults_leaf l) fun n => .pure _
  | fraction a b => exact hpair (.arithmetic .divide) (by simp [lists]) (by simp [lists])
  | superscript a b => exact hpair .power (by simp [lists]) (by simp [lists])
  | radical a b =>
    cases b with
    | nil =>
      exact .bind (.ask (by simp [lists])) fun m =>
        .bind (consults_grow (fun _ => trivial) _) fun _ => .pure _
    | cons t ts => exact hpair .root (by simp [lists]) (by simp [lists])
  | application name delimiters elements =>
    exact (consults_application delimiters fun _ h => h).mono (fun _ h => h) fun _ =>
      Token.Faults.of_isLocal _
  | group delimiters elements => exact consults_group _ fun _ h => h

end Context

/-! ## 3. Lists -/

/-- The error of a token outside a call is one of its list. -/
theorem Token.Faults.blames {t : Token} {us vs : List Token} {e : ParseError} (h : t.Faults e)
    (hus : endsInName us = false) : Blames (us ++ t :: vs) e := by
  cases e with
  | mismatchedParentheses _ => exact h.elim
  | unexpectedSeparator _ =>
    obtain ⟨delimiters, elements, rfl, hg, hlen⟩ := h
    exact .inr ⟨us, delimiters, elements, vs, rfl, hus, hg, hlen⟩
  | _ => trivial

theorem ParseError.IsLocal.blames {ts : List Token} {e : ParseError} (h : e.IsLocal) :
    Blames ts e := by
  cases e with
  | mismatchedParentheses _ | unexpectedSeparator _ => exact h.elim
  | _ => trivial

namespace Scan

variable {ctx : Context} {s s' : Scan} {t : Token} {ts us vs : List Token}

/-- A move does not depend on lists that were not asked for. -/
theorem Moves.asking {nested nested' : Parts} {ws : List Token} {e : ParseError}
    (h : Moves (ctx.asking nested) s t s') (herror : nested ws = .error e)
    (hother : Parts.Elsewhere ws nested nested') : Moves (ctx.asking nested') s t s' := by
  cases h with
  | operand hc ht ha hv =>
    exact .operand hc ht ha ((Context.consults_value t).ok herror hother hv)
  | @groupCall f delimiters elements v hc hv =>
    have hcall := ctx.consults_call f delimiters fun _ (h : _ ∈ elements) => h
    exact .groupCall hc (hcall.ok herror hother hv)
  | functionName hc hk ha hf => exact .functionName hc hk ha hf
  | openCall hc hk hroom => exact .openCall hc hk hroom
  | openParen hc hk ha hroom => exact .openParen hc hk ha hroom
  | closeCall hc hk ha hpop => exact .closeCall hc hk ha hpop
  | closeParen hc hk ha hempty hpop hbelow => exact .closeParen hc hk ha hempty hpop hbelow
  | separator hc hk ho ha hpop => exact .separator hc hk ho ha hpop
  | sign hc hk ha => exact .sign hc hk ha
  | operator hc hop hk ha => exact .operator hc hop hk ha

theorem consults_step (hs : Tracks us s) :
    Consults (· ∈ t.lists) (Blames (us ++ t :: vs)) fun nested => step (ctx.asking nested) s t where
  ok herror hother h :=
    step_eq_ok_iff.mpr ((step_eq_ok_iff.mp h).asking herror hother)
  error {nested e} h := by
    have hrefused : Blames (us ++ t :: vs) e ∨ _ := (refuses_of_step h).blames hs
    rcases hrefused with hblames | ⟨hc, ht, ha, hv⟩ | ⟨f, delimiters, elements, hc, rfl, hv⟩
    · exact .inl hblames
    · have hname : endsInName us = false := by rw [← hs.called, hc]; rfl
      refine ((Context.consults_value t).error hv).imp (fun h => h.blames hname) ?_
      rintro ⟨ws, hws, herror, hpass⟩
      refine ⟨ws, hws, herror, fun hother he => ?_⟩
      rw [step_operand hc ht ha, hpass hother he]
      rfl
    · have hcall := ctx.consults_call f delimiters fun _ (h : _ ∈ elements) => h
      refine (hcall.error hv).imp (fun h => h.blames) ?_
      rintro ⟨ws, hws, herror, hpass⟩
      refine ⟨ws, hws, herror, fun hother he => ?_⟩
      rw [step_groupCall hc, hpass hother he]
      rfl

theorem consults_foldlM (hs : Tracks us s) :
    Consults (fun ws => ∃ t ∈ ts, ws ∈ t.lists) (Blames (us ++ ts)) fun nested =>
      ts.foldlM (step (ctx.asking nested)) s := by
  induction ts generalizing us s with
  | nil => exact .pure s
  | cons t rest ih =>
    refine .bind_of (P := Tracks (us ++ [t])) ?first (fun nested s' h =>
      (step_eq_ok_iff.mp h).tracks hs) fun s' hs' => ?rest
    case first =>
      exact (consults_step hs).mono (fun ws hws => ⟨t, by simp, hws⟩) fun _ h => h
    case rest =>
      have hrest := ih hs'
      rw [← List.append_cons] at hrest
      exact hrest.mono (fun ws ⟨t', ht', hws⟩ => ⟨t', by simp [ht'], hws⟩) fun _ h => h

theorem consults_run (ctx : Context) (ts : List Token) :
    Consults (fun ws => ∃ t ∈ ts, ws ∈ t.lists) (Blames ts) fun nested =>
      run (ctx.asking nested) ts := by
  refine .bind_of (P := fun s => Tracks ts s ∧ Supplied ctx.environment s)
    (consults_foldlM tracks_start) (fun nested s h => ⟨tracks_start.foldlM h, ?supplied⟩)
    fun s ⟨htracks, hsupplied⟩ => ?_
  case supplied =>
    have hsupplied : Supplied (ctx.asking nested).environment s := .foldlM h
    exact hsupplied
  obtain ⟨hqueue, -⟩ := Ends.iff_forall.mp hsupplied.finish_ends
  refine .bind_of (P := (Supplies ctx.environment · 1)) (.const fun e => htracks.finish_blames)
    (fun _ => hqueue) fun queue hqueue =>
      .const (r := reduce ctx.environment ctx.limits.maxHeight queue) fun e he => ?_
  have hreduce := (Ends.iff_forall.mp (reduce_ends hqueue)).2 e he
  cases hreduce with
  | tooHigh => trivial
  | call _ h => cases h <;> trivial

end Scan

/-! ## 4. Lists that are entered -/

/-- A list in a token of another list is entered from there if its parse matters:
some other answer for it, and for it alone, changes the result. -/
def Context.Enters (ctx : Context) (ts us : List Token) : Prop :=
  (∃ t ∈ ts, us ∈ t.lists) ∧ ∃ nested, Parts.Elsewhere us ctx.nested nested ∧
    Scan.run (ctx.asking nested) ts ≠ Scan.run ctx ts

namespace Context

variable {ctx : Context} {ts us : List Token}

theorem exists_elsewhere (nested : Parts) (us : List Token) (r : Except ParseError Measured) :
    ∃ nested', Parts.Elsewhere us nested nested' ∧ nested' us = r := by
  classical
  exact ⟨Function.update nested us r, fun vs hvs => Function.update_of_ne hvs _ _,
    Function.update_self _ _ _⟩

/-- What is entered on the way to a formula has one itself. -/
theorem Enters.exists_ok (h : ctx.Enters ts us) {m : Measured} (hm : Scan.run ctx ts = .ok m) :
    ∃ k, ctx.nested us = .ok k := by
  obtain ⟨-, nested, hother, hne⟩ := h
  cases hus : ctx.nested us with
  | ok k => exact ⟨k, rfl⟩
  | error e =>
    have hsame : Scan.run (ctx.asking nested) ts = .ok m :=
      (Scan.consults_run ctx ts).ok hus hother hm
    exact absurd (hsame.trans hm.symm) hne

/-- An error has its reason in the list, or it is that of a list that is
entered. -/
theorem blames_or_exists_enters {e : ParseError} (h : Scan.run ctx ts = .error e) :
    Blames ts e ∨ ∃ us, ctx.Enters ts us ∧ ctx.nested us = .error e := by
  rcases (Scan.consults_run ctx ts).error h with h' | ⟨us, hus, herror, hpass⟩
  · exact .inl h'
  · obtain ⟨e', hne⟩ : ∃ e' : ParseError, e' ≠ e := by
      by_cases he : e = .nestingTooDeep 0
      · exact ⟨.nestingTooDeep 1, by simp [he]⟩
      · exact ⟨.nestingTooDeep 0, Ne.symm he⟩
    obtain ⟨nested, hother, he⟩ := exists_elsewhere ctx.nested us (.error e')
    refine .inr ⟨us, ⟨hus, nested, hother, ?_⟩, herror⟩
    rw [hpass hother he, h]
    exact fun heq => hne (Except.error.inj heq)

/-- All lists in the tokens of a list with a formula are entered. -/
theorem enters_of_mem_sublists (hctx : ctx.ExactParts) {m : Measured}
    (hm : Scan.run ctx ts = .ok m) {t : Token} (ht : t ∈ ts) (hus : us ∈ t.sublists) :
    ctx.Enters ts us := by
  refine ⟨⟨t, ht, mem_lists_of_mem_sublists hus⟩, ?_⟩
  obtain ⟨nested, hother, he⟩ := exists_elsewhere ctx.nested us (.error (.nestingTooDeep 0))
  refine ⟨nested, hother, fun hsame => ?_⟩
  -- With an error as its parse there would be no formula.
  have hexact : (ctx.asking nested).ExactParts := by
    intro vs k hk
    by_cases hvs : vs = us
    · subst hvs
      cases he.symm.trans hk
    · exact hctx vs k ((hother vs hvs).symm.trans hk)
  obtain ⟨n, hn⟩ := Scan.exists_part_of_mem_sublists hexact (hsame.trans hm) ht hus
  cases he.symm.trans hn

end Context

/-- The lists that a parse enters from a list in which `room` more levels may be
opened, itself among them. -/
inductive Entered (env : Environment) (limits : Limits) : Nat → List Token → List Token → Prop
  | self {room ts} : Entered env limits room ts ts
  | part {room ts us vs} (h : (Context.within env limits (room + 1)).Enters ts us)
      (hvs : Entered env limits room us vs) : Entered env limits (room + 1) ts vs

variable {env : Environment} {limits : Limits} {room : Nat} {ts us : List Token}

/-- What is entered on the way to a formula is well nested. -/
theorem Entered.wellNested (h : Entered env limits room ts us) {m : Measured}
    (hm : parseWithin env limits room ts = .ok m) : WellNested us := by
  induction h generalizing m with
  | self =>
    rw [parseWithin_eq_run] at hm
    exact Scan.wellNested_of_run hm
  | part h _ ih =>
    rw [parseWithin_eq_run] at hm
    obtain ⟨k, hk⟩ := h.exists_ok hm
    exact ih hk

/-- On the way to a formula, the lists in the tokens of what is entered are entered
as well. -/
theorem Entered.of_mem_sublists (h : Entered env limits room ts us) {m : Measured}
    (hm : parseWithin env limits room ts = .ok m) {t : Token} (ht : t ∈ us) {vs : List Token}
    (hvs : vs ∈ t.sublists) : Entered env limits room ts vs := by
  induction h generalizing m with
  | @self room us =>
    obtain ⟨k, -, rfl, -⟩ := exists_parse_of_mem_sublists hm ht hvs
    rw [parseWithin_eq_run] at hm
    have hexact := Context.exactParts_within env limits (k + 1)
    exact .part (Context.enters_of_mem_sublists hexact hm ht hvs) .self
  | part h _ ih =>
    rw [parseWithin_eq_run] at hm
    obtain ⟨k, hk⟩ := h.exists_ok hm
    exact .part h (ih hk ht)

/-- An error has its reason in a list that is entered. -/
theorem exists_entered_blames {e : ParseError} (h : parseWithin env limits room ts = .error e) :
    ∃ us, Entered env limits room ts us ∧ Blames us e := by
  induction room generalizing ts with
  | zero =>
    rw [parseWithin_eq_run] at h
    rcases Context.blames_or_exists_enters h with hblames | ⟨us, -, hus⟩
    · exact ⟨ts, .self, hblames⟩
    · obtain rfl : ParseError.nestingTooDeep limits.maxDepth = e := Except.error.inj hus
      exact ⟨ts, .self, trivial⟩
  | succ room ih =>
    rw [parseWithin_eq_run] at h
    rcases Context.blames_or_exists_enters h with hblames | ⟨us, henters, hus⟩
    · exact ⟨ts, .self, hblames⟩
    · obtain ⟨vs, hvs, hblames⟩ := ih hus
      exact ⟨vs, .part henters hvs, hblames⟩

/-- A list with a formula is well nested, with all the lists that are entered on
the way, which are those in its tokens at any depth. If a parse fails for a
parenthesis, those of some list that was entered do not match; if it fails for a
separator, one of some list that was entered does not stand in a call, or a group
outside a call has several elements there. -/
theorem structure_of_parse (env : Environment) (limits : Limits) (tokens : List Token) :
    (∀ n, parse env limits tokens = .ok n →
      ∀ us, Entered env limits limits.maxDepth tokens us → WellNested us ∧
        ∀ t ∈ us, ∀ vs ∈ t.sublists, Entered env limits limits.maxDepth tokens vs) ∧
    (∀ text, parse env limits tokens = .error (.mismatchedParentheses text) →
      ∃ us, Entered env limits limits.maxDepth tokens us ∧ ¬ Balanced us) ∧
    ∀ text, parse env limits tokens = .error (.unexpectedSeparator text) →
      ∃ us, Entered env limits limits.maxDepth tokens us ∧ Misdivided us := by
  have herror : ∀ e, parse env limits tokens = .error e →
      ∃ us, Entered env limits limits.maxDepth tokens us ∧ Blames us e := by
    intro e h
    unfold parse at h
    cases hm : parseWithin env limits limits.maxDepth tokens with
    | error e' =>
      rw [hm] at h
      obtain rfl : e' = e := Except.error.inj h
      exact exists_entered_blames hm
    | ok m =>
      rw [hm] at h
      cases h
  refine ⟨fun n h us hus => ?_, fun text h => herror _ h, fun text h => herror _ h⟩
  have hm := parse_eq_ok_iff.mp h
  exact ⟨hus.wellNested hm, fun t ht vs hvs => hus.of_mem_sublists hm ht hvs⟩

/-- The root of `x` with an absolute value as its degree, which is set between
bars. -/
def rootTokens (degree : List Token) : List Token :=
  [.lexeme (.functionName "root"), .lexeme (.punctuation .leftParen),
    .lexeme (.variableName "x"), .lexeme (.punctuation .separator),
    .group ⟨'|', '|', ','⟩ [degree], .lexeme (.punctuation .rightParen)]

/-- The degree decides: it can be read, or have a parenthesis that is not closed,
or a separator. -/
theorem structure_of_parse_root :
    ((∃ n, parse .standard .standard (rootTokens [.lexeme (.variableName "y")]) = .ok n) ∧
      ∀ us, Entered .standard .standard 256 (rootTokens [.lexeme (.variableName "y")]) us →
        WellNested us ∧ ∀ t ∈ us, ∀ vs ∈ t.sublists,
          Entered .standard .standard 256 (rootTokens [.lexeme (.variableName "y")]) vs) ∧
    (parse .standard .standard
        (rootTokens [.lexeme (.punctuation .leftParen), .lexeme (.variableName "y")]) =
          .error (.mismatchedParentheses "(") ∧
      ∃ us, Entered .standard .standard 256
        (rootTokens [.lexeme (.punctuation .leftParen), .lexeme (.variableName "y")]) us ∧
          ¬ Balanced us) ∧
    parse .standard .standard
        (rootTokens [.lexeme (.variableName "y"), .lexeme (.punctuation .separator)]) =
          .error (.unexpectedSeparator ",") ∧
      ∃ us, Entered .standard .standard 256
        (rootTokens [.lexeme (.variableName "y"), .lexeme (.punctuation .separator)]) us ∧
          Misdivided us := by
  refine ⟨⟨⟨_, rfl⟩, ?_⟩, ⟨rfl, ?_⟩, rfl, ?_⟩
  · exact (structure_of_parse .standard .standard _).1 _ rfl
  · exact (structure_of_parse .standard .standard _).2.1 "(" rfl
  · exact (structure_of_parse .standard .standard _).2.2 "," rfl

end Formula
