/-
Formula.Proofs.Scan.Bounds — what a scan that ends has kept to.

The limits are checked where something grows: a parenthesis when it is
opened, a node when it is built. A list that has a formula therefore never
had more parentheses open than there was room for (`peak_le_of_run`), and
its formula is no higher than the limit, as long as the values that the
tokens contribute are not (`height_le_of_run`).

The second is shown in two parts. The scan puts values into its queue only
as it gets them from its context, whatever else it moves there; and the
reduction of a queue bounds every node that it adds.
-/
import Formula.Proofs.Nesting
import Formula.Proofs.Scan.Reduction

namespace Formula

namespace Scan

variable {ctx : Context} {s s' : Scan} {t : Token} {ts : List Token}

/-! ## 1. Open parentheses -/

/-- The count of the scan is that of the list. -/
theorem Moves.openParens_eq (h : Moves ctx s t s') :
    s'.openParens = t.depthAfter s.openParens := by
  cases h with
  | operand _ ht _ _ => exact (Token.depthAfter_of_isOperand ht _).symm
  | functionName _ hk _ _ => exact (Token.depthAfter_of_ne hk (by decide) _).symm
  | groupCall _ _ => rfl
  | openCall _ hk _ => exact (Token.depthAfter_leftParen hk _).symm
  | openParen _ hk _ _ => exact (Token.depthAfter_leftParen hk _).symm
  | closeCall _ hk _ _ => exact (Token.depthAfter_rightParen hk _).symm
  | closeParen _ hk _ _ _ _ => exact (Token.depthAfter_rightParen hk _).symm
  | separator _ hk _ _ _ => exact (Token.depthAfter_of_ne hk (by decide) _).symm
  | @sign l sign _ hk _ =>
    have hk : l.kind = (Operator.sign sign).kind := hk
    exact (Token.depthAfter_operator hk _).symm
  | operator _ _ hk _ => exact (Token.depthAfter_operator hk _).symm

/-- No parenthesis is opened where there is no room. -/
theorem Moves.openParens_le (h : Moves ctx s t s') (hle : s.openParens ≤ ctx.room) :
    s'.openParens ≤ ctx.room := by
  cases h with
  | openCall _ _ hroom => exact hroom
  | openParen _ _ _ hroom => exact hroom
  | closeCall _ _ _ _ => exact Nat.le_trans (Nat.sub_le _ _) hle
  | closeParen _ _ _ _ _ _ => exact Nat.le_trans (Nat.sub_le _ _) hle
  | _ => exact hle

theorem peak_le_of_foldlM (hle : s.openParens ≤ ctx.room)
    (h : ts.foldlM (step ctx) s = .ok s') : Token.peak s.openParens ts ≤ ctx.room := by
  induction ts generalizing s with
  | nil => exact hle
  | cons t rest ih =>
    rw [List.foldlM_cons] at h
    obtain ⟨s₁, hstep, hrest⟩ := bind_eq_ok_iff.mp h
    have hmove := step_eq_ok_iff.mp hstep
    have hpeak := ih (hmove.openParens_le hle) hrest
    rw [hmove.openParens_eq] at hpeak
    exact Nat.max_le.mpr ⟨hle, hpeak⟩

/-- A list that has a formula never opens more parentheses than there is
room for. -/
theorem peak_le_of_run {m : Measured} (h : run ctx ts = .ok m) : Token.peak 0 ts ≤ ctx.room := by
  obtain ⟨s, queue, hrun, -, -⟩ := run_eq_ok_iff.mp h
  exact peak_le_of_foldlM (s := start) (Nat.zero_le _) hrun

/-- A parenthesis that is open was opened by what was read. -/
theorem openParens_le_peak (h : ts.foldlM (step ctx) s = .ok s') :
    s'.openParens ≤ Token.peak s.openParens ts := by
  induction ts generalizing s with
  | nil =>
    cases h
    exact Nat.le_refl _
  | cons t rest ih =>
    rw [List.foldlM_cons] at h
    obtain ⟨s₁, hstep, hrest⟩ := bind_eq_ok_iff.mp h
    have hle := ih hrest
    rw [(step_eq_ok_iff.mp hstep).openParens_eq] at hle
    exact Nat.le_trans hle (Nat.le_max_right _ _)

/-! ## 2. Values in the queue -/

/-- The values that a token of a list can contribute. -/
def Contributes (ctx : Context) (v : Measured) : Prop :=
  (∃ t, ctx.value t = .ok v) ∨ ∃ f delimiters elements, ctx.call f delimiters elements = .ok v

/-- Popping operators puts out no values. -/
theorem value_not_mem_popOperators (p : Operator → Bool) (stack : List Pending) (v : Measured) :
    Item.value v ∉ (popOperators p stack).1 := by
  obtain ⟨ops, hout, -, -⟩ := exists_operators_append p stack
  rw [hout]
  simp

theorem Moves.contributes (h : Moves ctx s t s')
    (hs : ∀ v, .value v ∈ s.yard.queue.toList → Contributes ctx v) :
    ∀ v, .value v ∈ s'.yard.queue.toList → Contributes ctx v := by
  intro v hv
  cases h with
  | @operand t w _ _ _ hw =>
    simp only [pushValue, Yard.pushValue, Array.toList_push, List.mem_append, List.mem_singleton,
      Item.value.injEq] at hv
    rcases hv with hv | rfl
    · exact hs v hv
    · exact .inl ⟨t, hw⟩
  | groupCall _ hw =>
    simp only [pushValue, Yard.pushValue, Array.toList_push, List.mem_append, List.mem_singleton,
      Item.value.injEq] at hv
    rcases hv with hv | rfl
    · exact hs v hv
    · exact .inr ⟨_, _, _, hw⟩
  | closeCall _ _ _ _ =>
    simp only [Array.toList_push, Array.toList_appendList, List.mem_append, List.mem_singleton,
      value_not_mem_popOperators, reduceCtorEq, or_false] at hv
    exact hs v hv
  | closeParen _ _ _ _ _ _ =>
    simp only [Array.toList_appendList, List.mem_append, value_not_mem_popOperators,
      or_false] at hv
    exact hs v hv
  | separator _ _ _ _ _ =>
    simp only [Array.toList_appendList, List.mem_append, value_not_mem_popOperators,
      or_false] at hv
    exact hs v hv
  | sign _ _ _ =>
    simp only [Yard.pushOperator, Array.toList_appendList, List.mem_append,
      value_not_mem_popOperators, or_false] at hv
    exact hs v hv
  | operator _ _ _ _ =>
    simp only [Yard.pushOperator, Array.toList_appendList, List.mem_append,
      value_not_mem_popOperators, or_false] at hv
    exact hs v hv
  | functionName _ _ _ _ => exact hs v hv
  | openCall _ _ _ => exact hs v hv
  | openParen _ _ _ _ => exact hs v hv

theorem contributes_of_foldlM (h : ts.foldlM (step ctx) s = .ok s')
    (hs : ∀ v, .value v ∈ s.yard.queue.toList → Contributes ctx v) :
    ∀ v, .value v ∈ s'.yard.queue.toList → Contributes ctx v := by
  have hstep : ∀ s t s', t ∈ ts → (∀ v, .value v ∈ s.yard.queue.toList → Contributes ctx v) →
      step ctx s t = .ok s' → ∀ v, .value v ∈ s'.yard.queue.toList → Contributes ctx v :=
    fun s t s' _ hs hstep => (step_eq_ok_iff.mp hstep).contributes hs
  exact foldlM_preserves hstep hs h

end Scan

/-! ## 3. Heights -/

namespace Item

variable {env : Environment} {maxHeight bound : Nat} {item : Item} {values out : List Measured}

/-- An item adds no value that is too high, unless it is one. -/
theorem Applies.height_le (h : Applies env maxHeight values item out) (hlimit : maxHeight ≤ bound)
    (hvalues : ∀ v ∈ values, v.height ≤ bound)
    (hitem : ∀ v, item = .value v → v.height ≤ bound) : ∀ v ∈ out, v.height ≤ bound := by
  have hgrow : ∀ {heights height}, grow maxHeight heights = .ok height → height ≤ bound :=
    fun hheight => Nat.le_trans (grow_eq_ok_iff.mp hheight).2 hlimit
  cases h with
  | value v => exact List.forall_mem_cons.mpr ⟨hitem v rfl, hvalues⟩
  | sign hheight =>
    obtain ⟨-, hbelow⟩ := List.forall_mem_cons.mp hvalues
    exact List.forall_mem_cons.mpr ⟨hgrow hheight, hbelow⟩
  | operator _ hheight =>
    obtain ⟨-, hrest⟩ := List.forall_mem_cons.mp hvalues
    obtain ⟨-, hbelow⟩ := List.forall_mem_cons.mp hrest
    exact List.forall_mem_cons.mpr ⟨hgrow hheight, hbelow⟩
  | call hheight _ =>
    obtain ⟨-, hbelow⟩ := List.forall_mem_append.mp hvalues
    exact List.forall_mem_cons.mpr ⟨hgrow hheight, hbelow⟩

theorem height_le_of_foldlM {items : List Item} (hlimit : maxHeight ≤ bound)
    (hvalues : ∀ v ∈ values, v.height ≤ bound)
    (hitems : ∀ v, .value v ∈ items → v.height ≤ bound)
    (h : items.foldlM (apply env maxHeight) values = .ok out) : ∀ v ∈ out, v.height ≤ bound := by
  have hstep : ∀ values item out, item ∈ items → (∀ v ∈ values, v.height ≤ bound) →
      apply env maxHeight values item = .ok out → ∀ v ∈ out, v.height ≤ bound :=
    fun values item out hmem hvalues hout =>
      (applies_of_apply hout).height_le hlimit hvalues fun v hv => hitems v (hv ▸ hmem)
  exact foldlM_preserves hstep hvalues h

end Item

/-- The formula of a list is no higher than the limit, if no value is that a
token of it contributes. -/
theorem Scan.height_le_of_run {ctx : Context} {ts : List Token} {m : Measured} {bound : Nat}
    (hlimit : ctx.limits.maxHeight ≤ bound)
    (hvalues : ∀ v, Contributes ctx v → v.height ≤ bound) (h : run ctx ts = .ok m) :
    m.height ≤ bound := by
  obtain ⟨s, queue, hrun, hfinish, hreduce⟩ := run_eq_ok_iff.mp h
  obtain ⟨-, -, -, rfl⟩ := finish_eq_ok_iff.mp hfinish
  have hqueue : ∀ v, .value v ∈ s.yard.queue.toList → Contributes ctx v :=
    contributes_of_foldlM (s := start) hrun fun v hv => by simp [start, Yard.empty] at hv
  refine Item.height_le_of_foldlM hlimit (by simp) (fun v hv => ?_) hreduce m (by simp)
  rcases List.mem_append.mp hv with hv | hv
  · exact hvalues v (hqueue v hv)
  · exact absurd hv (value_not_mem_popOperators _ _ _)

end Formula
