/-
Formula.Proofs.Parse.Calls — the three spellings of a call.

A function can be called by its name and a list of arguments in parentheses, by
its name and a group, or by a token of markup that holds both. The first is read
along with the list that it stands in: its arguments are counted by separators,
and only the reduction finds out whether there are as many as the function
takes. The arguments of the other two are parsed for themselves, and a wrong
number ends the scan.

The spellings replace each other in every list (`Scan.Replaces`): from any state
in which a call may start, all of them add one operand. Where the function
refuses its arguments the first spelling leaves a queue behind that does not
reduce, whatever follows, and the others leave none.

No tree of an argument is looked at, so all that has to be known of an argument
is that it has one.
-/
import Formula.Proofs.Scan.Exchange
import Formula.Proofs.Parse.Unlimited

namespace Formula

namespace Token

/-- A call as its name and, in parentheses, the lists of its arguments with
separators between them. -/
def listedCall (f l r sep : Lexeme) (lists : List (List Token)) : List Token :=
  .lexeme f :: .lexeme l :: (List.intercalate [.lexeme sep] lists ++ [.lexeme r])

/-- A call as its name and a group of arguments. -/
def groupedCall (f : Lexeme) (elements : List (List Token)) : List Token :=
  [.lexeme f, .group .parens elements]

/-- A call as one token of markup. -/
def appliedCall (f : Lexeme) (elements : List (List Token)) : List Token :=
  [.application [.lexeme f] .parens elements]

end Token

open Token

/-! ## 1. Arguments in a list -/

theorem derivesArguments_intercalate {x : Lexicon} {sep : Lexeme} (hsep : sep.kind = .separator)
    {lists : List (List Token)} {arguments : List Expr} (hne : lists ≠ [])
    (h : List.Forall₂ (Derives x .equation) lists arguments) :
    DerivesArguments x (List.intercalate [.lexeme sep] lists) arguments := by
  induction h with
  | nil => exact absurd rfl hne
  | cons hfirst hrest ih =>
    cases hrest with
    | nil =>
      rw [List.intercalate_singleton]
      exact .one hfirst
    | cons hsecond hrest =>
      rw [List.intercalate_cons_cons, List.append_assoc]
      exact .cons hfirst hsep (ih (List.cons_ne_nil _ _))

theorem reads_listedCall {ctx : Context} {f l r sep : Lexeme} (hf : f.kind = .functionName)
    (hfun : ctx.environment.isFunction f.text = true) (hl : l.kind = .leftParen)
    (hr : r.kind = .rightParen) (hsep : sep.kind = .separator) {lists : List (List Token)}
    {arguments : List Expr} (h : List.Forall₂ (Derives ctx.lexicon .equation) lists arguments) :
    ReadsCall ctx f (listedCall f l r sep lists) arguments := by
  cases lists with
  | nil =>
    cases h
    exact .empty hf hfun hl hr
  | cons first rest =>
    have hderives := derivesArguments_intercalate hsep (List.cons_ne_nil _ _) h
    exact .list hf hfun hl hr hderives.depthAfter_eq hderives.reads

/-! ## 2. Arguments in a group -/

theorem Delimiters.isArgumentList_parens : parens.isArgumentList = true := rfl

namespace Context

variable {ctx : Context} {f : Lexeme} {delimiters : Delimiters} {elements : List (List Token)}
  {arguments : List Expr}

/-- If its elements have trees, a group is a call exactly if the function takes
them. -/
theorem call_eq_ok_iff {v : Measured} (hfun : ctx.environment.isFunction f.text = true)
    (hd : delimiters.isArgumentList = true)
    (h : List.Forall₂ ctx.parts (argumentLists elements) arguments) :
    ctx.call f delimiters elements = .ok v ↔
      ∃ n, ctx.environment.call f.text arguments = .ok n ∧ n.height ≤ ctx.limits.maxHeight ∧
        v = n.measured := by
  have hgives := Gives.eq_ok (arguments_of_parts (h.imp fun _ _ hpart => .inl hpart))
  unfold call
  rw [if_neg (by simp [hfun]), if_neg (by simp [hd])]
  show (ctx.arguments (argumentLists elements) >>= _) = _ ↔ _
  rw [hgives]
  exact Item.grow_call_eq_ok_iff id

theorem value_appliedCall (hfun : ctx.environment.isFunction f.text = true) :
    ctx.value (.application [.lexeme f] delimiters elements) = ctx.call f delimiters elements := by
  show ctx.application [.lexeme f] delimiters elements = _
  unfold application calledFunction?
  simp only [hfun, if_true]

/-- A queue that ends with a call reduces if what is before the arguments does
and the function takes them. -/
theorem values_call_eq_ok_iff {queue items : List Item} {out : List Measured}
    (h : Yields ctx.environment ctx.limits.maxHeight items arguments) :
    ctx.values (queue ++ (items ++ [.call f arguments.length])) = .ok out ↔
      ∃ values n, ctx.values queue = .ok values ∧
        ctx.environment.call f.text arguments = .ok n ∧ n.height ≤ ctx.limits.maxHeight ∧
          out = n.measured :: values := by
  have hcall : ∀ values, (items ++ [Item.call f arguments.length]).foldlM
      (Item.apply ctx.environment ctx.limits.maxHeight) values =
        Item.apply ctx.environment ctx.limits.maxHeight
          ((arguments.map Expr.measured).reverse ++ values) (.call f arguments.length) := by
    intro values
    rw [List.foldlM_append, h values]
    exact bind_pure (Item.apply ctx.environment ctx.limits.maxHeight _ _)
  simp only [values_append_eq_ok_iff, hcall, Item.apply_call_eq_ok_iff, exists_and_left]

end Context

/-! ## 3. The spellings replace each other -/

namespace Scan

variable {ctx : Context} {depth : Nat} {f : Lexeme} {delimiters : Delimiters}
  {elements : List (List Token)} {s t u : Scan}

/-- The name of a function is read where an operand is awaited. -/
theorem Moves.of_functionName (h : Moves ctx s (.lexeme f) t) (hf : f.kind = .functionName) :
    s.called = none ∧ s.awaiting = true ∧ ctx.environment.isFunction f.text = true ∧
      t = { s with called := some f } := by
  cases h with
  | operand _ ht _ _ => simp [Token.isOperand, LexemeKind.isOperand, hf] at ht
  | functionName hc _ ha hfun => exact ⟨hc, ha, hfun, rfl⟩
  | openCall _ hk _ => simp [hf] at hk
  | openParen _ hk _ _ => simp [hf] at hk
  | closeCall _ hk _ _ => simp [hf] at hk
  | closeParen _ hk _ _ _ _ => simp [hf] at hk
  | separator _ hk _ _ _ => simp [hf] at hk
  | @sign _ sign _ hk _ =>
    obtain ⟨-, -, hne, -⟩ := (Operator.sign sign).kind_ne
    exact absurd (hk.symm.trans hf) hne
  | @operator _ op _ _ hk _ =>
    obtain ⟨-, -, hne, -⟩ := op.kind_ne
    exact absurd (hk.symm.trans hf) hne

/-- A name with a group adds the value of the call, where an operand is awaited. -/
theorem foldlM_groupedCall_eq_ok_iff (hf : f.kind = .functionName) :
    (groupedCall f elements).foldlM (step ctx) s = .ok u ↔
      s.called = none ∧ s.awaiting = true ∧ ctx.environment.isFunction f.text = true ∧
        ∃ v, ctx.call f .parens elements = .ok v ∧
          u = s.pushValue v (.group .parens elements) := by
  have hsame : s.called = none → ∀ v, s.pushValue v (.group .parens elements) =
      { Scan.pushValue { s with called := some f } v (.group .parens elements) with
        called := none } := by
    intro hc v
    cases s
    cases hc
    rfl
  constructor
  · intro h
    rw [groupedCall, List.foldlM_cons] at h
    obtain ⟨mid, hname, h⟩ := bind_eq_ok_iff.mp h
    obtain ⟨hc, ha, hfun, rfl⟩ := (step_eq_ok_iff.mp hname).of_functionName hf
    rw [List.foldlM_cons, step_groupCall rfl] at h
    obtain ⟨last, hcall, h⟩ := bind_eq_ok_iff.mp h
    obtain ⟨v, hv, hlast⟩ := bind_eq_ok_iff.mp hcall
    cases hlast
    cases h
    exact ⟨hc, ha, hfun, v, hv, (hsame hc v).symm⟩
  · rintro ⟨hc, ha, hfun, v, hv, rfl⟩
    have hname : Moves ctx s (.lexeme f) _ := .functionName hc hf ha hfun
    rw [hsame hc v]
    exact foldlM_cons_of_moves hname (foldlM_cons_of_moves (.groupCall rfl hv) rfl)

theorem foldlM_appliedCall_eq_ok_iff (hfun : ctx.environment.isFunction f.text = true) :
    (appliedCall f elements).foldlM (step ctx) s = .ok u ↔
      s.called = none ∧ s.awaiting = true ∧
        ∃ v, ctx.call f .parens elements = .ok v ∧
          u = s.pushValue v (.application [.lexeme f] .parens elements) := by
  constructor
  · intro h
    rw [appliedCall, List.foldlM_cons] at h
    obtain ⟨last, hlast, h⟩ := bind_eq_ok_iff.mp h
    cases h
    cases step_eq_ok_iff.mp hlast with
    | operand hc _ ha hv =>
      rw [Context.value_appliedCall hfun] at hv
      exact ⟨hc, ha, _, hv, rfl⟩
  · rintro ⟨hc, ha, v, hv, rfl⟩
    rw [← Context.value_appliedCall hfun] at hv
    exact foldlM_cons_of_moves (.operand hc rfl ha hv) rfl

/-- An operand by any other name. -/
theorem alike_pushValue (s : Scan) (v : Measured) {x y : Token}
    (hx : (x.kind? == some .leftParen) = false) (hy : (y.kind? == some .leftParen) = false) :
    Alike (s.pushValue v x).yard.queue.toList (s.pushValue v y).yard.queue.toList
      (s.pushValue v x) (s.pushValue v y) :=
  ⟨rfl, rfl, hy.trans hx.symm, rfl, rfl, rfl, [], by simp, by simp⟩

theorem replaces_groupedCall_appliedCall (hf : f.kind = .functionName) :
    Replaces ctx depth (groupedCall f elements) (appliedCall f elements) := by
  intro s u values _ hu hvalues
  obtain ⟨hc, ha, hfun, v, hv, rfl⟩ := (foldlM_groupedCall_eq_ok_iff hf).mp hu
  exact ⟨_, (foldlM_appliedCall_eq_ok_iff hfun).mpr ⟨hc, ha, v, hv, rfl⟩,
    alike_pushValue s v rfl rfl, hvalues⟩

theorem replaces_appliedCall_groupedCall (hf : f.kind = .functionName)
    (hfun : ctx.environment.isFunction f.text = true) :
    Replaces ctx depth (appliedCall f elements) (groupedCall f elements) := by
  intro s u values _ hu hvalues
  obtain ⟨hc, ha, v, hv, rfl⟩ := (foldlM_appliedCall_eq_ok_iff hfun).mp hu
  exact ⟨_, (foldlM_groupedCall_eq_ok_iff hf).mpr ⟨hc, ha, hfun, v, hv, rfl⟩,
    alike_pushValue s v rfl rfl, hvalues⟩

/-- A list that was read as a call leaves the state behind that one operand
does. -/
theorem alike_of_settles {items : List Item} (h : Settles s s.yard.stack [] items u)
    (hc : s.called = none) (v : Measured) {x : Token}
    (hx : (x.kind? == some .leftParen) = false) :
    Alike u.yard.queue.toList (s.pushValue v x).yard.queue.toList u (s.pushValue v x) :=
  ⟨hc.trans h.called.symm, h.awaiting.symm, hx.trans h.closed.symm, h.openCalls.symm,
    h.openParens.symm, h.stack.symm, [], by simp, by simp⟩

theorem values_pushValue_eq_ok_iff {v : Measured} {x : Token} {out : List Measured} :
    ctx.values (s.pushValue v x).yard.queue.toList = .ok out ↔
      ∃ values, ctx.values s.yard.queue.toList = .ok values ∧ out = v :: values := by
  have hqueue : (s.pushValue v x).yard.queue.toList = s.yard.queue.toList ++ [.value v] := by
    simp [pushValue, Yard.pushValue]
  rw [hqueue, Context.values_append_eq_ok_iff]
  refine exists_congr fun values => and_congr_right fun _ => ?_
  show Except.ok (v :: values) = .ok out ↔ _
  rw [Except.ok.injEq, eq_comm]

variable {ts : List Token} {arguments : List Expr}

/-- A call that is read along with its list is a group of the same arguments. -/
theorem replaces_groupedCall (hf : f.kind = .functionName)
    (hreads : ReadsCall ctx f (.lexeme f :: ts) arguments)
    (hroom : depth + sizes (.lexeme f :: ts) ≤ ctx.room)
    (hheights : ∀ a ∈ arguments, a.height ≤ ctx.limits.maxHeight)
    (hparts : List.Forall₂ ctx.parts (argumentLists elements) arguments) :
    Replaces ctx depth (.lexeme f :: ts) (groupedCall f elements) := by
  intro s u values hdepth hu hvalues
  have hfirst := hu
  rw [List.foldlM_cons] at hfirst
  obtain ⟨mid, hname, -⟩ := bind_eq_ok_iff.mp hfirst
  obtain ⟨hc, ha, hfun, -⟩ := (step_eq_ok_iff.mp hname).of_functionName hf
  have hpeak := peak_le s.openParens (.lexeme f :: ts)
  obtain ⟨u', items, hrun, hsettles, hyields⟩ := hreads s hc ha (by omega) hheights
  obtain rfl : u' = u := Except.ok.inj (hrun.symm.trans hu)
  rw [hsettles.queue, Context.values_call_eq_ok_iff hyields] at hvalues
  obtain ⟨below, n, hbelow, hn, hle, rfl⟩ := hvalues
  have hcall := (Context.call_eq_ok_iff hfun Delimiters.isArgumentList_parens hparts).mpr
    ⟨n, hn, hle, rfl⟩
  exact ⟨_, (foldlM_groupedCall_eq_ok_iff hf).mpr ⟨hc, ha, hfun, _, hcall, rfl⟩,
    alike_of_settles hsettles hc _ rfl, values_pushValue_eq_ok_iff.mpr ⟨below, hbelow, rfl⟩⟩

/-- And the other way round. -/
theorem groupedCall_replaces (hf : f.kind = .functionName)
    (hreads : ReadsCall ctx f (.lexeme f :: ts) arguments)
    (hroom : depth + sizes (.lexeme f :: ts) ≤ ctx.room)
    (hheights : ∀ a ∈ arguments, a.height ≤ ctx.limits.maxHeight)
    (hparts : List.Forall₂ ctx.parts (argumentLists elements) arguments) :
    Replaces ctx depth (groupedCall f elements) (.lexeme f :: ts) := by
  intro s u values hdepth hu hvalues
  obtain ⟨hc, ha, hfun, v, hcall, rfl⟩ := (foldlM_groupedCall_eq_ok_iff hf).mp hu
  obtain ⟨n, hn, hle, rfl⟩ :=
    (Context.call_eq_ok_iff hfun Delimiters.isArgumentList_parens hparts).mp hcall
  obtain ⟨below, hbelow, rfl⟩ := values_pushValue_eq_ok_iff.mp hvalues
  have hpeak := peak_le s.openParens (.lexeme f :: ts)
  obtain ⟨u', items, hrun, hsettles, hyields⟩ := hreads s hc ha (by omega) hheights
  refine ⟨u', hrun, (alike_of_settles hsettles hc _ rfl).symm, ?_⟩
  rw [hsettles.queue, Context.values_call_eq_ok_iff hyields]
  exact ⟨below, n, hbelow, hn, hle, rfl⟩

end Scan

/-! ## 4. Calls in any list -/

/-- Two results have the same value, or both have none. -/
theorem toOption_eq_of_ok_iff {ε α : Type} {x y : Except ε α}
    (h : ∀ a, x = .ok a ↔ y = .ok a) : x.toOption = y.toOption := by
  cases x with
  | ok a => rw [(h a).mp rfl]
  | error e =>
    cases y with
    | ok b => cases (h b).mpr rfl
    | error e' => rfl

theorem exists_forall₂ {α β : Type} {R : α → β → Prop} {xs : List α}
    (h : ∀ x ∈ xs, ∃ y, R x y) : ∃ ys, List.Forall₂ R xs ys := by
  induction xs with
  | nil => exact ⟨[], .nil⟩
  | cons x rest ih =>
    obtain ⟨hx, hrest⟩ := List.forall_mem_cons.mp h
    obtain ⟨y, hy⟩ := hx
    obtain ⟨ys, hys⟩ := ih hrest
    exact ⟨y :: ys, .cons hy hys⟩

/-- One empty element stands for no argument, and no argument is empty. -/
theorem argumentLists_eq {lists elements : List (List Token)} (hne : ∀ list ∈ lists, list ≠ [])
    (h : elements = lists ∨ lists = [] ∧ elements = [[]]) : argumentLists elements = lists := by
  rcases h with rfl | ⟨rfl, rfl⟩
  · match elements, hne with
    | [[]], hne => exact absurd rfl (hne [] (List.mem_singleton_self _))
    | [], _ => rfl
    | (_ :: _) :: _, _ => rfl
    | [] :: _ :: _, _ => rfl
  · rfl

variable {env : Environment} {bound : Nat}

/-- Lists that have trees have them within limits that are large enough, both as
a part of a list and as a list of their own. -/
theorem exists_arguments_within {lists : List (List Token)}
    (hsizes : ∀ list ∈ lists, sizes list < bound)
    (hlists : ∀ list ∈ lists, ∃ n, parseUnlimited env list = .ok n) :
    ∃ arguments,
      List.Forall₂ (Derives (Context.within env ⟨bound, bound⟩ bound).lexicon .equation)
        lists arguments ∧
      List.Forall₂ (Context.within env ⟨bound, bound⟩ bound).parts lists arguments ∧
        ∀ a ∈ arguments, a.height ≤ bound := by
  have hderives : ∀ list ∈ lists, ∃ n, sizes list < bound ∧
      Derives env.lexicon .equation list n := by
    intro list hmem
    obtain ⟨n, hn⟩ := hlists list hmem
    exact ⟨n, hsizes list hmem, parseUnlimited_eq_ok_iff.mp hn⟩
  obtain ⟨arguments, harguments⟩ := exists_forall₂ hderives
  refine ⟨arguments, harguments.imp ?_, harguments.imp ?_, fun a ha => ?_⟩
  · rintro list n ⟨hlt, hn⟩
    have hparse : parseWithin env ⟨bound, bound⟩ bound list = .ok n.measured :=
      Environment.parseWithin_of_derives hn (Nat.le_of_lt hlt) (Nat.le_of_lt hlt)
    rw [parseWithin_eq_run] at hparse
    exact (Scan.derives_of_run (Context.exact_within _ _ _) hparse).1
  · rintro list n ⟨hlt, hn⟩
    refine Context.parts_within_iff.mpr ⟨bound - 1, by omega, ?_⟩
    exact Environment.parseWithin_of_derives hn (Nat.le_sub_one_of_lt hlt) (Nat.le_of_lt hlt)
  · obtain ⟨list, -, hlt, hn⟩ := exists_element_of_mem harguments ha
    exact Nat.le_trans (hn.height_le Environment.lexicon_bounded) (Nat.le_of_lt hlt)

theorem parseUnlimited_eq_ok_iff_run {tokens : List Token} {n : Expr}
    (h : sizes tokens ≤ bound) :
    parseUnlimited env tokens = .ok n ↔
      Scan.run (Context.within env ⟨bound, bound⟩ bound) tokens = .ok n.measured := by
  have hsame : parse env ⟨bound, bound⟩ tokens = parseUnlimited env tokens :=
    parse_eq_unlimited h h
  rw [← hsame, parse_eq_ok_iff, parseWithin_eq_run]

/-- Lists that differ in parts that replace each other have the same tree, or
both have none. -/
theorem toOption_parseUnlimited_eq {pre us vs post : List Token}
    (hus : sizes (pre ++ us ++ post) ≤ bound) (hvs : sizes (pre ++ vs ++ post) ≤ bound)
    (h : Scan.Replaces (Context.within env ⟨bound, bound⟩ bound) (sizes pre) us vs)
    (h' : Scan.Replaces (Context.within env ⟨bound, bound⟩ bound) (sizes pre) vs us) :
    (parseUnlimited env (pre ++ us ++ post)).toOption =
      (parseUnlimited env (pre ++ vs ++ post)).toOption := by
  have hpeak : peak 0 pre ≤ sizes pre := by simpa using peak_le 0 pre
  refine toOption_eq_of_ok_iff fun n => ?_
  rw [parseUnlimited_eq_ok_iff_run hus, parseUnlimited_eq_ok_iff_run hvs]
  exact ⟨h.run hpeak, h'.run hpeak⟩

/-- In every list, the three spellings of a call of a declared function give the
same tree or none, if each argument has a tree by itself: without limits, and
within limits that refuse none of the three lists. -/
theorem call_spellings_agree (env : Environment) {f l r sep : Lexeme}
    (hf : f.kind = .functionName) (hfun : env.isFunction f.text = true)
    (hl : l.kind = .leftParen) (hr : r.kind = .rightParen) (hsep : sep.kind = .separator)
    {lists elements : List (List Token)}
    (hlists : ∀ list ∈ lists, ∃ n, parseUnlimited env list = .ok n)
    (helements : elements = lists ∨ lists = [] ∧ elements = [[]]) (pre post : List Token) :
    (parseUnlimited env (pre ++ listedCall f l r sep lists ++ post)).toOption =
        (parseUnlimited env (pre ++ groupedCall f elements ++ post)).toOption ∧
      (parseUnlimited env (pre ++ groupedCall f elements ++ post)).toOption =
        (parseUnlimited env (pre ++ appliedCall f elements ++ post)).toOption ∧
      ∀ limits, ¬ Refused limits (parse env limits (pre ++ listedCall f l r sep lists ++ post)) →
        ¬ Refused limits (parse env limits (pre ++ groupedCall f elements ++ post)) →
        ¬ Refused limits (parse env limits (pre ++ appliedCall f elements ++ post)) →
          (parse env limits (pre ++ listedCall f l r sep lists ++ post)).toOption =
              (parse env limits (pre ++ groupedCall f elements ++ post)).toOption ∧
            (parse env limits (pre ++ groupedCall f elements ++ post)).toOption =
              (parse env limits (pre ++ appliedCall f elements ++ post)).toOption := by
  -- One bound for the three lists, so that all of them are read in the same context.
  obtain ⟨bound, hlisted, hgrouped, happlied⟩ :
      ∃ bound, sizes (pre ++ listedCall f l r sep lists ++ post) ≤ bound ∧
        sizes (pre ++ groupedCall f elements ++ post) ≤ bound ∧
          sizes (pre ++ appliedCall f elements ++ post) ≤ bound :=
    ⟨sizes (pre ++ listedCall f l r sep lists ++ post) +
      sizes (pre ++ groupedCall f elements ++ post) +
        sizes (pre ++ appliedCall f elements ++ post), by omega, by omega, by omega⟩
  have hne : ∀ list ∈ lists, list ≠ [] := by
    rintro list hmem rfl
    obtain ⟨n, hn⟩ := hlists [] hmem
    exact Nat.lt_irrefl 0 (parseUnlimited_eq_ok_iff.mp hn).sizes_pos
  have hsizes : ∀ list ∈ lists, sizes list < bound := by
    intro list hmem
    have hle : sizes list ≤ elementSizes elements := by
      rcases helements with rfl | ⟨rfl, -⟩
      · exact sizes_le_elementSizes hmem
      · cases hmem
    simp only [groupedCall, sizes_append, sizes, size] at hgrouped
    omega
  obtain ⟨arguments, hderives, hparts, hheights⟩ := exists_arguments_within hsizes hlists
  rw [← argumentLists_eq hne helements] at hparts
  have hreads : ReadsCall (Context.within env ⟨bound, bound⟩ bound) f
      (listedCall f l r sep lists) arguments :=
    reads_listedCall hf (by simpa using hfun) hl hr hsep hderives
  have hroom : sizes pre + sizes (listedCall f l r sep lists) ≤
      (Context.within env ⟨bound, bound⟩ bound).room := by
    simp only [sizes_append] at hlisted
    rw [Context.within_room]
    omega
  have hheights' : ∀ a ∈ arguments,
      a.height ≤ (Context.within env ⟨bound, bound⟩ bound).limits.maxHeight := by
    simpa using hheights
  have hlist := toOption_parseUnlimited_eq hlisted hgrouped
    (Scan.replaces_groupedCall hf hreads hroom hheights' hparts)
    (Scan.groupedCall_replaces hf hreads hroom hheights' hparts)
  have hgroup := toOption_parseUnlimited_eq hgrouped happlied
    (Scan.replaces_groupedCall_appliedCall hf)
    (Scan.replaces_appliedCall_groupedCall hf (by simpa using hfun))
  refine ⟨hlist, hgroup, fun limits hlisted hgrouped happlied => ?_⟩
  rw [(parse_eq_unlimited_or_refused _ _ _).resolve_right hlisted,
    (parse_eq_unlimited_or_refused _ _ _).resolve_right hgrouped,
    (parse_eq_unlimited_or_refused _ _ _).resolve_right happlied]
  exact ⟨hlist, hgroup⟩

/-- A list in parentheses as the exponent of a name. -/
def asExponent (tokens : List Token) : List Token :=
  [.lexeme (.variableName "a"), .lexeme (.punctuation .power), .lexeme (.punctuation .leftParen)]
    ++ tokens ++ [.lexeme (.punctuation .rightParen)]

def rootArguments : List (List Token) :=
  [[.lexeme (.variableName "x")], [.lexeme (.variableName "y")]]

theorem call_spellings_agree_root :
    Environment.standard.isFunction "root" = true ∧
      (∀ list ∈ rootArguments, ∃ n, parseUnlimited .standard list = .ok n) ∧
      (parseUnlimited .standard (asExponent (listedCall (.functionName "root")
          (.punctuation .leftParen) (.punctuation .rightParen) (.punctuation .separator)
          rootArguments))).toOption =
        (parseUnlimited .standard
          (asExponent (groupedCall (.functionName "root") rootArguments))).toOption ∧
      (parseUnlimited .standard
        (asExponent (groupedCall (.functionName "root") rootArguments))).toOption.isSome =
          true := by
  have hlists : ∀ list ∈ rootArguments, ∃ n, parseUnlimited .standard list = .ok n := by
    intro list hmem
    rcases List.mem_cons.mp hmem with rfl | hmem
    · exact ⟨.free "x", rfl⟩
    · obtain rfl := List.mem_singleton.mp hmem
      exact ⟨.free "y", rfl⟩
  refine ⟨rfl, hlists, ?_, rfl⟩
  exact (call_spellings_agree .standard rfl rfl rfl rfl rfl hlists (.inl rfl) _ _).1

end Formula
