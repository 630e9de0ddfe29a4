import Mathlib.Order.Bounds.Basic
import Sentential.Proofs.Derivation.Chain
import Sentential.Proofs.Derivation.Language

/-!
# Replaying stored chains

A chain can be produced if applying rules to the start symbol makes exactly its steps. Replaying
accepts these chains and no others, however a chain came about, and a chain that it refuses is
refused at the step where the longest part of it that can be produced ends.
-/

namespace Sentential

/-- Some applications of rules, all of them successful, lead from the start symbol along a chain. -/
def Grammar.Produces (g : Grammar) (steps : List Step) : Prop :=
  ∃ indices d, Derivation.start.applyAll g indices = .ok d ∧ d.steps = steps

/-- How many steps of a chain, counted from its beginning, can be produced; a chain of which
nothing can be produced has zero of them. -/
def Grammar.producedLengths (g : Grammar) (steps : List Step) : Set Nat :=
  {k | k = 0 ∨ ∃ p, p <+: steps ∧ g.Produces p ∧ p.length = k}

theorem Grammar.Produces.head? {g : Grammar} {steps : List Step} (h : g.Produces steps) :
    steps.head? = some Step.initial := by
  obtain ⟨indices, d, -, rfl⟩ := h
  rfl

namespace Derivation

variable {g : Grammar} {d d' : Derivation}

/-- Applications lead from a derivation that follows to one that follows. -/
theorem Follows.applyAll (hd : d.Follows g) {indices : List UInt64}
    (h : d.applyAll g indices = .ok d') : d'.Follows g := by
  induction indices generalizing d with
  | nil =>
    obtain rfl := Except.ok.inj h
    exact hd
  | cons index rest ih =>
    rw [Derivation.applyAll, List.foldlM_cons] at h
    obtain ⟨e, hfirst, hrest⟩ := bind_eq_ok_iff.mp h
    obtain ⟨r, form, hindex, hrule, hform, rfl⟩ := map_snd_apply_eq_ok_iff.mp hfirst
    exact ih (hd.push ((Grammar.rule?_succ hindex).trans hrule) hform) hrest

theorem applyAll_concat {indices : List UInt64} {index : UInt64} :
    d.applyAll g (indices ++ [index]) = .ok d' ↔
      ∃ e, d.applyAll g indices = .ok e ∧ (e.apply g index).map (·.2) = .ok d' := by
  simp only [applyAll, List.foldlM_append, List.foldlM_cons, List.foldlM_nil, bind_pure,
    bind_eq_ok_iff]

/-- A rule that an ordinal names is the one at the index below. -/
theorem exists_index_of_rule? {n : Ordinal} {r : Rule} (h : g.rule? n = some r) :
    ∃ index : UInt64, index + 1 = n ∧ index.toNat + 1 < UInt64.size ∧
      g.rules[index.toNat]? = some r := by
  have hn := Grammar.ne_zero_of_rule? h
  obtain ⟨hindex, hsucc⟩ := Ordinal.ofIndex?_eq_some_iff.mp (Ordinal.ofIndex?_pred hn)
  exact ⟨n - 1, hsucc, hindex, (Grammar.rule?_eq_getElem? hn).symm.trans h⟩

/-- The derivations that follow are those that applications make of the start symbol. -/
theorem follows_iff_exists_applyAll :
    d.Follows g ↔ ∃ indices, start.applyAll g indices = .ok d := by
  constructor
  · intro h
    induction h with
    | start => exact ⟨[], rfl⟩
    | @push d n r form _ hrule happly ih =>
      obtain ⟨indices, hindices⟩ := ih
      obtain ⟨index, rfl, hindex, hget⟩ := exists_index_of_rule? hrule
      refine ⟨indices ++ [index], applyAll_concat.mpr ⟨d, hindices, ?_⟩⟩
      exact map_snd_apply_eq_ok_iff.mpr ⟨r, form, hindex, hget, happly, rfl⟩
  · rintro ⟨indices, hindices⟩
    exact Follows.start.applyAll hindices

theorem produces_iff {steps : List Step} :
    g.Produces steps ↔ ∃ d, replay g steps = .ok d := by
  simp only [replay_eq_ok_iff, follows_iff_exists_applyAll, Grammar.Produces]
  constructor
  · rintro ⟨indices, d, hindices, hsteps⟩
    exact ⟨d, ⟨indices, hindices⟩, hsteps⟩
  · rintro ⟨d, ⟨indices, hindices⟩, hsteps⟩
    exact ⟨indices, d, hindices, hsteps⟩

/-- Following stored steps fails at a step that does not follow, whatever stands behind it. -/
theorem follow_eq_error {position : Nat} {steps : List Step} {cause : DerivationError}
    (h : follow g d position steps = .error cause) :
    ∃ before s after e, steps = before ++ s :: after ∧ follow g d position before = .ok e ∧
      ∀ rest, follow g e (position + before.length) (s :: rest) =
        .error (.inconsistent (position + before.length)) := by
  induction steps generalizing d position with
  | nil => cases h
  | cons s rest ih =>
    cases hordinal : s.ordinal with
    | none => exact ⟨[], s, rest, d, rfl, rfl, fun _ => by simp [follow, hordinal]⟩
    | some n =>
      cases hrule : g.rule? n with
      | none => exact ⟨[], s, rest, d, rfl, rfl, fun _ => by simp [follow, hordinal, hrule]⟩
      | some r =>
        by_cases happly : r.applyLeftmost? d.current = some s.form
        · -- The step follows, so the break is further on.
          have hnext (later : List Step) : follow g d position (s :: later) =
              follow g (d.push ⟨n, s.form⟩) (position + 1) later := by
            simp [follow, hordinal, hrule, happly]
          obtain ⟨before, s', after, e, rfl, hbefore, hbreak⟩ := ih (hnext rest ▸ h)
          refine ⟨s :: before, s', after, e, rfl, (hnext before).trans hbefore, ?_⟩
          have hlength : position + (s :: before).length = position + 1 + before.length := by
            rw [List.length_cons, Nat.add_right_comm, Nat.add_assoc]
          rw [hlength]
          exact hbreak
        · exact ⟨[], s, rest, d, rfl, rfl,
            fun _ => by simp [follow, hordinal, hrule, happly]⟩

/-- A chain is refused at its first step if that is not the initial one, and else at the step where
what comes before is accepted and nothing longer is. -/
theorem replay_eq_error {steps : List Step} {cause : DerivationError}
    (h : replay g steps = .error cause) :
    steps.head? ≠ some Step.initial ∧ cause = .inconsistent 0 ∨
      ∃ before s after, steps = before ++ s :: after ∧ cause = .inconsistent before.length ∧
        (∃ d, replay g before = .ok d) ∧ ∀ rest e, replay g (before ++ s :: rest) ≠ .ok e := by
  cases steps with
  | nil => exact .inl ⟨by simp, (Except.error.inj h).symm⟩
  | cons first rest =>
    by_cases hfirst : first = Step.initial
    · have hreplay (later : List Step) :
          replay g (Step.initial :: later) = follow g start 1 later := by
        rw [replay, if_pos rfl]
      rw [hfirst, hreplay] at h
      obtain ⟨before, s, after, d, rfl, hbefore, hbreak⟩ := follow_eq_error h
      have hrefused (rest : List Step) : replay g (Step.initial :: before ++ s :: rest) =
          .error (.inconsistent (1 + before.length)) := by
        rw [List.cons_append, hreplay, follow_append, hbefore]
        exact hbreak rest
      refine .inr ⟨Step.initial :: before, s, after, by rw [hfirst]; rfl, ?_, ⟨d, ?_⟩, ?_⟩
      · have hcause := hrefused after
        rw [List.cons_append, hreplay, h] at hcause
        rw [List.length_cons, Nat.add_comm]
        exact Except.error.inj hcause
      · rw [hreplay]
        exact hbefore
      · intro rest e
        rw [hrefused]
        simp
    · rw [replay, if_neg hfirst] at h
      exact .inl ⟨by simpa using hfirst, (Except.error.inj h).symm⟩

/-- A refused chain is refused at the length of the longest beginning of it that can be produced. -/
theorem isGreatest_of_replay_eq_error {steps : List Step} {cause : DerivationError}
    (h : replay g steps = .error cause) :
    ∃ k, IsGreatest (g.producedLengths steps) k ∧ cause = .inconsistent k := by
  rcases replay_eq_error h with ⟨hfirst, rfl⟩ | ⟨before, s, after, rfl, rfl, hbefore, hbreak⟩
  · refine ⟨0, ⟨.inl rfl, ?_⟩, rfl⟩
    rintro k (rfl | ⟨p, hp, hproduces, -⟩)
    · exact Nat.le_refl 0
    · -- Whatever can be produced begins with the initial step.
      obtain ⟨rest, rfl⟩ := hp
      rw [List.head?_append, hproduces.head?] at hfirst
      exact absurd rfl hfirst
  · refine ⟨before.length, ⟨.inr ⟨before, List.prefix_append _ _, produces_iff.mpr hbefore, rfl⟩,
      ?_⟩, rfl⟩
    rintro k (rfl | ⟨p, hp, hproduces, rfl⟩)
    · exact Nat.zero_le _
    · refine Nat.le_of_not_lt fun hlonger => ?_
      have hbroken : before ++ [s] <+: p :=
        List.prefix_of_prefix_length_le ⟨after, by simp⟩ hp
          (by simpa using Nat.succ_le_of_lt hlonger)
      obtain ⟨rest, rfl⟩ := hbroken
      obtain ⟨e, he⟩ := produces_iff.mp hproduces
      rw [List.append_assoc, List.singleton_append] at he
      exact hbreak rest e he

/-- Replaying accepts exactly the chains that applications of rules produce, and gives back the
derivation that they lead to. Any other chain is refused at the length of the longest beginning of
it that can be produced, which is zero unless the chain begins with the bare start symbol. -/
theorem replay_exact (g : Grammar) (steps : List Step) :
    (∀ d, replay g steps = .ok d ↔
        (∃ indices, start.applyAll g indices = .ok d) ∧ d.steps = steps) ∧
      (∀ cause, replay g steps = .error cause ↔ ¬ g.Produces steps ∧
        ∃ k, IsGreatest (g.producedLengths steps) k ∧ cause = .inconsistent k) ∧
      (steps.head? ≠ some Step.initial → replay g steps = .error (.inconsistent 0)) := by
  have haccepts (d : Derivation) : replay g steps = .ok d ↔
      (∃ indices, start.applyAll g indices = .ok d) ∧ d.steps = steps := by
    rw [replay_eq_ok_iff, follows_iff_exists_applyAll]
  refine ⟨haccepts, fun cause => ⟨fun h => ⟨?_, isGreatest_of_replay_eq_error h⟩, ?_⟩, ?_⟩
  · rw [produces_iff, h]
    rintro ⟨d, hd⟩
    cases hd
  · rintro ⟨hnot, k, hk, rfl⟩
    cases hreplay : replay g steps with
    | ok d => exact absurd (produces_iff.mpr ⟨d, hreplay⟩) hnot
    | error cause =>
      obtain ⟨k', hk', rfl⟩ := isGreatest_of_replay_eq_error hreplay
      rw [hk.unique hk']
  · intro hfirst
    match steps with
    | [] => rfl
    | s :: rest => exact if_neg (by simpa using hfirst)

/-- A chain for the word `а` whose last step names a rule that the small grammar does not have. -/
def forged : List Step :=
  [⟨['S'], none⟩, ⟨['A', 'A'], some 1⟩, ⟨['A'], some 3⟩, ⟨['а'], some 5⟩]

theorem replay_exact_forged :
    replay Grammar.sample forged = .error (.inconsistent 3) ∧ ¬ Grammar.sample.Produces forged ∧
      IsGreatest (Grammar.sample.producedLengths forged) 3 := by
  have hreplay : replay Grammar.sample forged = .error (.inconsistent 3) := rfl
  obtain ⟨-, hrefuses, -⟩ := replay_exact Grammar.sample forged
  obtain ⟨hnot, k, hk, hcause⟩ := (hrefuses _).mp hreplay
  obtain rfl := DerivationError.inconsistent.inj hcause
  exact ⟨hreplay, hnot, hk⟩

end Derivation

end Sentential
