/-
Formula.Proofs.Scan.Exchange — one part of a list in place of another.

Two scans that differ only in what they put out so far go on alike: nothing that
a scan decides depends on its queue (`Alike`). So one part of a list can stand
for another wherever it stands, in lists that have a formula and in lists that
have none, if from every state both leave the same stack behind and queues that
reduce to the same values (`Replaces`).

The queue of the first part is known to reduce here, not only the part to be
read. This is what a list with a formula provides, as a queue only grows, and
what the spellings of a call need: the scan of one of them does not look at the
number of its arguments, that of another does.
-/
import Formula.Proofs.Scan.Reduction
import Formula.Proofs.Scan.Bounds

namespace Formula

namespace Scan

variable {ctx : Context} {s s' t u : Scan} {q q' : List Item}

/-! ## 1. Scans with different queues -/

/-- Two scans agree on all but a front of their queues, which is `q` in the
first and `q'` in the second. -/
structure Alike (q q' : List Item) (s s' : Scan) : Prop where
  called : s'.called = s.called
  awaiting : s'.awaiting = s.awaiting
  justOpened : s'.justOpened = s.justOpened
  openCalls : s'.openCalls = s.openCalls
  openParens : s'.openParens = s.openParens
  stack : s'.yard.stack = s.yard.stack
  queue : ∃ items, s.yard.queue.toList = q ++ items ∧ s'.yard.queue.toList = q' ++ items

namespace Alike

theorem symm (h : Alike q q' s s') : Alike q' q s' s := by
  obtain ⟨items, hq, hq'⟩ := h.queue
  exact ⟨h.called.symm, h.awaiting.symm, h.justOpened.symm, h.openCalls.symm, h.openParens.symm,
    h.stack.symm, items, hq', hq⟩

/-- Scans that have put out the same since then differ in the same fronts. -/
theorem queue_append (h : Alike q q' s s') (more : List Item) :
    ∃ items, s.yard.queue.toList ++ more = q ++ items ∧
      s'.yard.queue.toList ++ more = q' ++ items := by
  obtain ⟨items, hq, hq'⟩ := h.queue
  exact ⟨items ++ more, by rw [hq, List.append_assoc], by rw [hq', List.append_assoc]⟩

/-- What one of them can do with a token, the other can do. -/
theorem moves {x : Token} (h : Alike q q' s s') (hmove : Moves ctx s x t) :
    ∃ t', Moves ctx s' x t' ∧ Alike q q' t t' := by
  have hstack := h.stack
  cases hmove with
  | @operand _ v hc hx ha hv =>
    refine ⟨_, .operand (h.called.trans hc) hx (h.awaiting.trans ha) hv, ?_⟩
    refine ⟨h.called, rfl, rfl, h.openCalls, h.openParens, h.stack, ?_⟩
    simpa [pushValue, Yard.pushValue] using h.queue_append [.value v]
  | functionName hc hk ha hf =>
    refine ⟨_, .functionName (h.called.trans hc) hk (h.awaiting.trans ha) hf, ?_⟩
    exact ⟨rfl, h.awaiting, h.justOpened, h.openCalls, h.openParens, h.stack, h.queue⟩
  | @groupCall f delimiters elements v hc hv =>
    refine ⟨_, .groupCall (h.called.trans hc) hv, ?_⟩
    refine ⟨rfl, rfl, rfl, h.openCalls, h.openParens, h.stack, ?_⟩
    simpa [pushValue, Yard.pushValue] using h.queue_append [.value v]
  | openCall hc hk hroom =>
    refine ⟨_, .openCall (h.called.trans hc) hk (by rw [h.openParens]; exact hroom), ?_⟩
    refine ⟨rfl, h.awaiting, rfl, ?_, ?_, ?_, h.queue⟩
    · rw [h.openCalls]
    · rw [h.openParens]
    · simp [Yard.pushCall, h.stack]
  | openParen hc hk ha hroom =>
    refine ⟨_, .openParen (h.called.trans hc) hk (h.awaiting.trans ha)
      (by rw [h.openParens]; exact hroom), ?_⟩
    refine ⟨h.called, h.awaiting, rfl, h.openCalls, ?_, ?_, h.queue⟩
    · rw [h.openParens]
    · simp [Yard.pushParen, h.stack]
  | @closeCall l p f count below hc hk ha hpop =>
    refine ⟨_, .closeCall (h.called.trans hc) hk ?_ (by rw [hstack]; exact hpop), ?_⟩
    · rw [h.awaiting, h.justOpened]
      exact ha
    · refine ⟨h.called, rfl, rfl, ?_, ?_, rfl, ?_⟩
      · rw [h.openCalls]
      · rw [h.openParens]
      · simpa [hstack, h.justOpened] using h.queue_append
          ((popOperators (fun _ => true) s.yard.stack).1 ++
            [.call f (if s.justOpened then 0 else count)])
  | @closeParen l p below hc hk ha hempty hpop hbelow =>
    refine ⟨_, .closeParen (h.called.trans hc) hk (h.awaiting.trans ha)
      (h.justOpened.trans hempty) (by rw [hstack]; exact hpop) hbelow, ?_⟩
    refine ⟨h.called, rfl, rfl, h.openCalls, ?_, rfl, ?_⟩
    · rw [h.openParens]
    · simpa [hstack] using h.queue_append (popOperators (fun _ => true) s.yard.stack).1
  | @separator l p f count below hc hk ho ha hpop =>
    refine ⟨_, .separator (h.called.trans hc) hk (by rw [h.openCalls]; exact ho)
      (h.awaiting.trans ha) (by rw [hstack]; exact hpop), ?_⟩
    refine ⟨h.called, rfl, rfl, h.openCalls, h.openParens, rfl, ?_⟩
    simpa [hstack] using h.queue_append (popOperators (fun _ => true) s.yard.stack).1
  | @sign l sign hc hk ha =>
    refine ⟨_, .sign (h.called.trans hc) hk (h.awaiting.trans ha), ?_⟩
    refine ⟨h.called, rfl, rfl, h.openCalls, h.openParens, ?_, ?_⟩
    · simp [Yard.pushOperator, hstack]
    · simpa [Yard.pushOperator, hstack] using
        h.queue_append (popOperators (·.yieldsTo (.sign sign)) s.yard.stack).1
  | @operator l op hc hop hk ha =>
    refine ⟨_, .operator (h.called.trans hc) hop hk (h.awaiting.trans ha), ?_⟩
    refine ⟨h.called, rfl, rfl, h.openCalls, h.openParens, ?_, ?_⟩
    · simp [Yard.pushOperator, hstack]
    · simpa [Yard.pushOperator, hstack] using
        h.queue_append (popOperators (·.yieldsTo op) s.yard.stack).1

/-- What one of them can read, the other can read. -/
theorem foldlM {ts : List Token} (h : Alike q q' s s')
    (hrun : ts.foldlM (step ctx) s = .ok t) :
    ∃ t', ts.foldlM (step ctx) s' = .ok t' ∧ Alike q q' t t' := by
  induction ts generalizing s s' with
  | nil =>
    cases hrun
    exact ⟨s', rfl, h⟩
  | cons x rest ih =>
    rw [List.foldlM_cons] at hrun
    obtain ⟨mid, hmid, hrest⟩ := bind_eq_ok_iff.mp hrun
    obtain ⟨mid', hmove, hmid'⟩ := h.moves (step_eq_ok_iff.mp hmid)
    obtain ⟨t', hrest', ht'⟩ := ih hmid' hrest
    exact ⟨t', foldlM_cons_of_moves hmove hrest', ht'⟩

/-- They end alike, with queues that go on from the two fronts in the same
way. -/
theorem finish {queue : List Item} (h : Alike q q' s s') (hqueue : s.finish = .ok queue) :
    ∃ items, queue = q ++ items ∧ s'.finish = .ok (q' ++ items) := by
  obtain ⟨hc, ha, hpop, rfl⟩ := finish_eq_ok_iff.mp hqueue
  obtain ⟨items, hq, hq'⟩ := h.queue_append (popOperators (fun _ => true) s.yard.stack).1
  refine ⟨items, hq, finish_eq_ok_iff.mpr ⟨h.called.trans hc, h.awaiting.trans ha, ?_, ?_⟩⟩
  · rw [h.stack]
    exact hpop
  · rw [h.stack]
    exact hq'.symm

end Alike

end Scan

/-! ## 2. Parts of a list -/

/-- The values to which the front of a queue reduces. -/
def Context.values (ctx : Context) (queue : List Item) : Except ParseError (List Measured) :=
  queue.foldlM (Item.apply ctx.environment ctx.limits.maxHeight) []

theorem Context.values_append_eq_ok_iff {ctx : Context} {queue items : List Item}
    {out : List Measured} :
    ctx.values (queue ++ items) = .ok out ↔
      ∃ values, ctx.values queue = .ok values ∧
        items.foldlM (Item.apply ctx.environment ctx.limits.maxHeight) values = .ok out := by
  unfold values
  rw [List.foldlM_append, bind_eq_ok_iff]

namespace Scan

variable {ctx : Context} {depth : Nat} {us vs : List Token}

/-- Where no more than `depth` parentheses are open, the second part can stand in
place of the first. -/
def Replaces (ctx : Context) (depth : Nat) (us vs : List Token) : Prop :=
  ∀ s u values, s.openParens ≤ depth → us.foldlM (step ctx) s = .ok u →
    ctx.values u.yard.queue.toList = .ok values →
      ∃ v, vs.foldlM (step ctx) s = .ok v ∧
        Alike u.yard.queue.toList v.yard.queue.toList u v ∧
          ctx.values v.yard.queue.toList = .ok values

/-- A list with the first part in it has the same formula with the second. -/
theorem Replaces.run {pre post : List Token} {m : Measured} (h : Replaces ctx depth us vs)
    (hdepth : Token.peak 0 pre ≤ depth) (hrun : run ctx (pre ++ us ++ post) = .ok m) :
    run ctx (pre ++ vs ++ post) = .ok m := by
  obtain ⟨t, queue, hfold, hfinish, hvalues⟩ := run_eq_ok_iff.mp hrun
  rw [List.foldlM_append, List.foldlM_append] at hfold
  obtain ⟨u, hu, hpost⟩ := bind_eq_ok_iff.mp hfold
  obtain ⟨s, hpre, hus⟩ := bind_eq_ok_iff.mp hu
  -- The queue of the whole list goes on from that of the part, which reduces therefore.
  have hself : Alike u.yard.queue.toList u.yard.queue.toList u u :=
    ⟨rfl, rfl, rfl, rfl, rfl, rfl, [], by simp, by simp⟩
  obtain ⟨_, -, hgrown⟩ := hself.foldlM hpost
  obtain ⟨_, rfl, -⟩ := hgrown.finish hfinish
  obtain ⟨values, hfront, -⟩ := Context.values_append_eq_ok_iff.mp hvalues
  obtain ⟨v, hvs, halike, hfront'⟩ :=
    h s u values (Nat.le_trans (openParens_le_peak hpre) hdepth) hus hfront
  obtain ⟨t', hpost', ht'⟩ := halike.foldlM hpost
  obtain ⟨items, hitems, hfinish'⟩ := ht'.finish hfinish
  refine run_eq_ok_iff.mpr ⟨t', v.yard.queue.toList ++ items, ?_, hfinish', ?_⟩
  · exact foldlM_append_of_eq_ok (foldlM_append_of_eq_ok hpre hvs) hpost'
  · rw [hitems] at hvalues
    obtain ⟨values', hvalues', hrest⟩ := Context.values_append_eq_ok_iff.mp hvalues
    obtain rfl : values = values' := Except.ok.inj (hfront.symm.trans hvalues')
    exact Context.values_append_eq_ok_iff.mpr ⟨values, hfront', hrest⟩

end Scan

end Formula
