import Sentential.Proofs.Grammar.Building

/-!
# When a grammar can be saved

Whether a builder is valid and whether it builds its grammar are asked separately, by the same checks in
another order, and the answers agree at every instant. Of what they check only a live rejection passes
with time. So a grammar that can be saved can be saved from then on until it is edited, and what is
saved is the draft, as often as it is built again.
-/

namespace Sentential

namespace Builder

variable {b : Builder} {t u : Nat} {g : Grammar}

theorem isValid_eq_true_iff :
    b.isValid t = true ↔ b.draft.missingPart? = none ∧ b.pending? t = none := by
  rw [isValid, Bool.and_eq_true, Option.isNone_iff_eq_none, Option.isNone_iff_eq_none]

/-- What is built is the draft of a valid builder. -/
theorem build_eq_ok_iff_isValid : b.build t = .ok g ↔ b.isValid t = true ∧ b.draft = g := by
  rw [build_eq_ok_iff, isValid_eq_true_iff, and_comm]

theorem pending?_eq_none_iff :
    b.pending? t = none ↔ ∀ n ∈ b.rejection, n.hasLapsed b.window t = true := by
  simp [pending?, Notice.live?]

/-- When a grammar can be saved: it has terminals, the start symbol and rules, and the window of a
rejection has gone by. -/
structure Ready (b : Builder) (t : Nat) : Prop where
  terminals : b.draft.terminals ≠ []
  start : Symbol.start ∈ b.draft.nonTerminals
  rules : b.draft.rules ≠ []
  lapsed : ∀ n ∈ b.rejection, b.window ≤ t - n.raised

theorem isValid_iff_ready : b.isValid t = true ↔ b.Ready t := by
  simp only [isValid_eq_true_iff, Grammar.missingPart?_eq_none_iff, pending?_eq_none_iff,
    Notice.hasLapsed, decide_eq_true_eq]
  constructor
  · rintro ⟨⟨hterminals, hstart, hrules⟩, hlapsed⟩
    exact ⟨hterminals, hstart, hrules, hlapsed⟩
  · intro h
    exact ⟨⟨h.terminals, h.start, h.rules⟩, h.lapsed⟩

/-- Nothing becomes pending by the mere passing of time. -/
theorem pending?_eq_none_mono (htu : t ≤ u) (h : b.pending? t = none) : b.pending? u = none := by
  rw [pending?_eq_none_iff] at h ⊢
  intro n hn
  exact n.hasLapsed_mono b.window htu (h n hn)

theorem isValid_mono (htu : t ≤ u) (h : b.isValid t = true) : b.isValid u = true := by
  rw [isValid_eq_true_iff] at h ⊢
  exact ⟨h.1, pending?_eq_none_mono htu h.2⟩

/-- Without a rejection a draft from which nothing is missing is valid at every instant. -/
theorem isValid_of_not_rejected (hrejection : b.rejection = none) (h : b.draft.missingPart? = none) :
    b.isValid u = true := by
  refine isValid_eq_true_iff.mpr ⟨h, pending?_eq_none_iff.mpr ?_⟩
  simp [hrejection]

/-- A builder builds at exactly the instants at which it is valid, and these are those at which it is
ready. Once it is valid it remains so, also if a rejection is dismissed meanwhile. Whenever it builds, it
builds its draft, and from a builder that starts with what was built the same is built again, at every
instant and whatever the window. -/
theorem build_agrees_and_lasts (b : Builder) :
    (∀ t, ((∃ g, b.build t = .ok g) ↔ b.isValid t = true) ∧ (b.isValid t = true ↔ b.Ready t)) ∧
      (∀ t u, t ≤ u → b.isValid t = true → b.isValid u = true ∧ b.dismiss.isValid u = true) ∧
      ∀ t g, b.build t = .ok g →
        g = b.draft ∧ ∀ window u, (ofGrammar g window).build u = .ok g := by
  refine ⟨?_, ?_, ?_⟩
  · intro t
    refine ⟨?_, isValid_iff_ready⟩
    simp [build_eq_ok_iff_isValid]
  · intro t u htu h
    exact ⟨isValid_mono htu h, isValid_of_not_rejected rfl (isValid_eq_true_iff.mp h).1⟩
  · intro t g hbuild
    obtain ⟨rfl, hpart⟩ := eq_draft_of_build hbuild
    refine ⟨rfl, ?_⟩
    intro window u
    exact build_eq_ok_iff_isValid.mpr ⟨isValid_of_not_rejected rfl hpart, rfl⟩

/-- A rejected edit bars the small grammar from being saved until its window is over, also at an instant
before the edit. -/
theorem build_agrees_and_lasts_rejected :
    let b := ((ofGrammar Grammar.sample 500).submit 100 (.addTerminal "а")).2
    b.isValid 0 = false ∧ b.isValid 599 = false ∧ b.isValid 600 = true ∧ b.isValid 10000 = true ∧
      b.build 600 = .ok Grammar.sample ∧
      (ofGrammar Grammar.sample 60000).build 0 = .ok Grammar.sample := by
  intro b
  obtain ⟨-, hlasts, hdraft⟩ := build_agrees_and_lasts b
  have hvalid : b.isValid 600 = true := rfl
  have hbuild : b.build 600 = .ok Grammar.sample := rfl
  exact ⟨rfl, rfl, hvalid, (hlasts 600 10000 (by decide) hvalid).1, hbuild,
    (hdraft 600 Grammar.sample hbuild).2 60000 0⟩

end Builder

end Sentential
