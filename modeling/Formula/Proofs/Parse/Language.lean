/-
Formula.Proofs.Parse.Language — the parse finds exactly what derives.

The grammar of an environment has no limits: a token has the tree that a
parse finds for it within some limits (`Environment.lexicon`). A parse whose
limits refuse nothing decides this grammar, and its result is the only tree
of the list. The size of a list is always enough for both limits.
-/
import Formula.Proofs.Parse.Levels
import Formula.Proofs.Parse.Limits

namespace Formula

open Token

/-- The grammar of an environment. -/
def Environment.lexicon (env : Environment) : Lexicon where
  environment := env
  value t n := ∃ limits room height,
    (Context.within env limits room).value t = .ok ⟨n, height⟩
  groupCall f delimiters elements n := ∃ limits room height,
    (Context.within env limits room).call f delimiters elements = .ok ⟨n, height⟩

namespace Environment

variable {env : Environment}

/-- A token has its trees in the grammar from trees of its parts. -/
theorem denotes_of_value {t : Token} {n : Expr} (h : env.lexicon.value t n) :
    Denotes env (fun ts m => ∃ limits room, parseWithin env limits room ts = .ok m.measured)
      t n := by
  obtain ⟨limits, room, height, h⟩ := h
  obtain ⟨-, hdenotes⟩ := Context.value_eq_ok (Context.exactParts_within env limits room) h
  rw [Context.within_environment] at hdenotes
  refine hdenotes.mono fun ts m _ hm => ?_
  obtain ⟨k, -, hk⟩ := Context.parts_within_iff.mp hm
  exact ⟨limits, k, hk⟩

theorem denotesCall_of_groupCall {f : Lexeme} {delimiters : Delimiters}
    {elements : List (List Token)} {n : Expr} (h : env.lexicon.groupCall f delimiters elements n) :
    DenotesCall env (fun ts m => ∃ limits room, parseWithin env limits room ts = .ok m.measured)
      f delimiters elements n := by
  obtain ⟨limits, room, height, h⟩ := h
  obtain ⟨-, hdenotes⟩ := Context.call_eq_ok (Context.exactParts_within env limits room) h
  rw [Context.within_environment] at hdenotes
  refine hdenotes.mono fun ts m _ hm => ?_
  obtain ⟨k, -, hk⟩ := Context.parts_within_iff.mp hm
  exact ⟨limits, k, hk⟩

/-- What a parse finds derives. -/
theorem derives_of_parseWithin {limits : Limits} {room : Nat} {ts : List Token} {n : Expr}
    (h : parseWithin env limits room ts = .ok n.measured) :
    Derives env.lexicon .equation ts n := by
  rw [parseWithin_eq_run] at h
  have hderives := (Scan.derives_of_run (Context.exact_within env limits room) h).1
  refine hderives.embed ⟨Context.within_environment .., ?_, ?_⟩
  · exact fun t _ n hn => ⟨limits, room, n.height, hn⟩
  · exact fun f delimiters elements _ n hn => ⟨limits, room, n.height, hn⟩

theorem height_le_of_parseWithin {limits : Limits} {room : Nat} {ts : List Token} {n : Expr}
    (h : parseWithin env limits room ts = .ok n.measured) : n.height ≤ sizes ts := by
  induction room using Nat.strongRecOn generalizing ts n with
  | ind room ih =>
    have hparts : ∀ us m, (Context.within env limits room).parts us m → m.height ≤ sizes us := by
      intro us m hm
      obtain ⟨k, rfl, hk⟩ := Context.parts_within_iff.mp hm
      exact ih k (Nat.lt_succ_self k) hk
    have hexact := Context.exactParts_within env limits room
    have hbounded : (Context.within env limits room).lexicon.Bounded :=
      ⟨fun hv => (Context.value_eq_ok hexact hv).2.height_le hparts,
        fun hv => (Context.call_eq_ok hexact hv).2.height_le hparts⟩
    rw [parseWithin_eq_run] at h
    exact (Scan.derives_of_run (Context.exact_of_exactParts hexact) h).1.height_le hbounded

/-- No tree of the grammar is higher than its list is large. -/
theorem lexicon_bounded : env.lexicon.Bounded where
  value h := (denotes_of_value h).height_le fun _ _ ⟨_, _, hm⟩ => height_le_of_parseWithin hm
  groupCall h :=
    (denotesCall_of_groupCall h).height_le fun _ _ ⟨_, _, hm⟩ => height_le_of_parseWithin hm

/-- What derives is found, where there are as many levels as the list needs
and its tree is not too high. -/
theorem parseWithin_of_levels_le {limits : Limits} {room : Nat} {ts : List Token} {n : Expr}
    (h : Derives env.lexicon .equation ts n) (hlevels : levels ts ≤ room)
    (hheight : n.height ≤ limits.maxHeight) :
    parseWithin env limits room ts = .ok n.measured := by
  induction room using Nat.strongRecOn generalizing ts n with
  | ind room ih =>
    obtain ⟨hpeak, hsublists⟩ := levels_le_iff.mp hlevels
    have hparts : ∀ t ∈ ts, ∀ us m, us ∈ t.sublists ∨ us = [] → m.height ≤ limits.maxHeight →
        (∃ limits' room', parseWithin env limits' room' us = .ok m.measured) →
          (Context.within env limits room).parts us m := by
      rintro t ht us m hus hm ⟨limits', room', hparse⟩
      have hderives := derives_of_parseWithin hparse
      rcases hus with hus | rfl
      · have hroom := hsublists t ht us hus
        refine Context.parts_within_iff.mpr ⟨room - 1, by omega, ?_⟩
        exact ih (room - 1) (by omega) hderives (by omega) hm
      · exact absurd hderives.sizes_pos (Nat.lt_irrefl 0)
    have hembed : (env.lexicon.upTo limits.maxHeight).Embeds
        (Context.within env limits room).lexicon ts := by
      refine ⟨(Context.within_environment ..).symm, ?_, ?_⟩
      · rintro t ht m ⟨hv, hm⟩
        refine Gives.eq_ok (Context.value_of_denotes ?_ (.inr (by simpa using hm)))
        rw [Context.within_environment]
        exact (denotes_of_value hv).mono_sublists fun us k hus hk hpart =>
          .inl (hparts t ht us k hus (Nat.le_trans hk hm) hpart)
      · rintro f delimiters elements ht m ⟨hv, hm⟩
        refine Gives.eq_ok (Context.call_of_denotes ?_ (.inr (by simpa using hm)))
        rw [Context.within_environment]
        exact (denotesCall_of_groupCall hv).mono_arguments fun us k hus hk hpart =>
          .inl (hparts _ ht us k (.inl hus) (by omega) hpart)
    rw [parseWithin_eq_run]
    exact Scan.run_of_derives ((h.upTo hheight).embed hembed) (by simpa using hpeak)
      (by simpa using hheight)

/-- What derives is found, within limits of the size of the list. -/
theorem parseWithin_of_derives {limits : Limits} {room : Nat} {ts : List Token} {n : Expr}
    (h : Derives env.lexicon .equation ts n) (hroom : sizes ts ≤ room)
    (hheight : sizes ts ≤ limits.maxHeight) :
    parseWithin env limits room ts = .ok n.measured :=
  parseWithin_of_levels_le h (Nat.le_trans (levels_le_sizes ts) hroom)
    (Nat.le_trans (h.height_le lexicon_bounded) hheight)

/-- A token has the trees in the grammar that it denotes by it. -/
theorem value_of_denotes {t : Token} {n : Expr}
    (h : Denotes env (Derives env.lexicon .equation) t n) : env.lexicon.value t n := by
  have hheight : n.height ≤ t.size := h.height_le fun _ _ hm => hm.height_le lexicon_bounded
  have hpos := t.size_pos
  refine ⟨⟨0, t.size⟩, t.size, n.height, ?_⟩
  refine Gives.eq_ok (Context.value_of_denotes ?_ (.inr (by simpa using hheight)))
  rw [Context.within_environment]
  refine h.mono fun us m hus hm => .inl (Context.parts_within_iff.mpr ⟨t.size - 1, by omega, ?_⟩)
  exact parseWithin_of_derives hm (by omega) (Nat.le_of_lt hus)

theorem groupCall_of_denotesCall {f : Lexeme} {delimiters : Delimiters}
    {elements : List (List Token)} {n : Expr}
    (h : DenotesCall env (Derives env.lexicon .equation) f delimiters elements n) :
    env.lexicon.groupCall f delimiters elements n := by
  have hheight : n.height ≤ elementSizes elements + 1 :=
    h.height_le fun _ _ hm => hm.height_le lexicon_bounded
  refine ⟨⟨0, elementSizes elements + 1⟩, elementSizes elements + 1, n.height, ?_⟩
  refine Gives.eq_ok (Context.call_of_denotes ?_ (.inr (by simpa using hheight)))
  rw [Context.within_environment]
  refine h.mono fun us m hus hm => .inl (Context.parts_within_iff.mpr ⟨_, rfl, ?_⟩)
  exact parseWithin_of_derives hm hus (Nat.le_succ_of_le hus)

end Environment

/-- Within limits of the size of the list, a parse finds exactly what
derives; so it does within any limits that refuse nothing; and a list has
one tree at most, whatever its category. -/
theorem parse_eq_ok_iff_derives (env : Environment) (tokens : List Token) :
    (∀ limits : Limits, sizes tokens ≤ limits.maxDepth → sizes tokens ≤ limits.maxHeight →
      ∀ n, parse env limits tokens = .ok n ↔ Derives env.lexicon .equation tokens n) ∧
    (∀ limits : Limits, (∀ k, parse env limits tokens ≠ .error (.nestingTooDeep k)) →
      ∀ n, parse env limits tokens = .ok n ↔ Derives env.lexicon .equation tokens n) ∧
    (∀ c d n m, Derives env.lexicon c tokens n → Derives env.lexicon d tokens m → n = m) := by
  have hsound : ∀ (limits : Limits) (n : Expr), parse env limits tokens = .ok n →
      Derives env.lexicon .equation tokens n :=
    fun limits n h => Environment.derives_of_parseWithin (parse_eq_ok_iff.mp h)
  have hcomplete : ∀ (limits : Limits) (n : Expr), sizes tokens ≤ limits.maxDepth →
      sizes tokens ≤ limits.maxHeight → Derives env.lexicon .equation tokens n →
        parse env limits tokens = .ok n :=
    fun limits n hd hh h => parse_eq_ok_iff.mpr (Environment.parseWithin_of_derives h hd hh)
  refine ⟨fun limits hd hh n => ⟨hsound limits n, hcomplete limits n hd hh⟩, ?_, ?_⟩
  · intro limits hlimits n
    refine ⟨hsound limits n, fun h => ?_⟩
    -- The list parses within some limits, and then these refuse it at most for its depth.
    have hlarge : parseWithin env ⟨sizes tokens, sizes tokens⟩ (sizes tokens) tokens =
        .ok n.measured := Environment.parseWithin_of_derives h (Nat.le_refl _) (Nat.le_refl _)
    have hgives : Gives True (parseWithin env limits limits.maxDepth tokens) n.measured :=
      parseWithin_gives hlarge
    rcases hgives with hok | hdeep
    · exact parse_eq_ok_iff.mpr hok
    · obtain ⟨-, k, hk⟩ := hdeep
      refine absurd ?_ (hlimits k)
      rw [parse, hk]
      rfl
  · intro c d n m hn hm
    have loosest : ∀ {c : Category} {n : Expr}, Derives env.lexicon c tokens n →
        Derives env.lexicon .equation tokens n := fun h => h.loosen (Nat.zero_le _)
    have hn := hcomplete ⟨sizes tokens, sizes tokens⟩ n (Nat.le_refl _) (Nat.le_refl _) (loosest hn)
    have hm := hcomplete ⟨sizes tokens, sizes tokens⟩ m (Nat.le_refl _) (Nat.le_refl _) (loosest hm)
    exact Except.ok.inj (hn.symm.trans hm)

/-- A sign is taken over a power, whatever the names mean. -/
theorem derives_negative_power :
    Derives Environment.standard.lexicon .equation
      [.lexeme (.punctuation .minus), .lexeme (.variableName "x"), .lexeme (.punctuation .power),
        .lexeme (.variableName "y")]
      (.signed .minus (.power (.free "x") (.free "y"))) :=
  ((parse_eq_ok_iff_derives Environment.standard _).1 ⟨4, 4⟩ (by decide) (by decide) _).mp rfl

end Formula
