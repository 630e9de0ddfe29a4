import Sentential.Proofs.History.Coherence

/-!
# Grammars with the same rules

Two well-formed grammars with the same rules may list different alphabets. Every symbol of a form
stems from the start symbol or from a rule, and among those the non-terminals are the capital
letters, whatever the alphabets. So the grammars agree on which chains replay, on which of their
forms are words and on what they offer for them, and a history that is coherent for one of them is
coherent for the other.
-/

namespace Sentential

variable {g g' : Grammar} {d : Derivation} {h : History}

theorem Grammar.WellFormed.mem_nonTerminals_iff (hg : g.WellFormed) {c : Char}
    (hc : c = Symbol.start ∨ ∃ r ∈ g.rules, c ∈ r.right) :
    c ∈ g.nonTerminals ↔ Symbol.isNonTerminal c = true := by
  refine ⟨hg.nonTerminals_letters c, fun hletter => ?_⟩
  -- A capital letter in a rule is declared, and it can be neither a blank nor a terminal.
  rcases hc with rfl | ⟨r, hr, hmem⟩
  · exact List.mem_of_head? hg.start_first
  rcases (hg.rules_admitted r hr).right_declared c hmem with rfl | hterminal | hnonTerminal
  · exact absurd hletter (by decide)
  · have hnot := Symbol.isNonTerminal_eq_false_of_isTerminal (hg.terminals_letters c hterminal)
    rw [hnot] at hletter
    cases hletter
  · exact hnonTerminal

/-- Well-formed grammars with the same rules declare a symbol of a rule as the same kind. -/
theorem Grammar.WellFormed.shared_symbol (hg : g.WellFormed) (hg' : g'.WellFormed)
    (hrules : g.rules = g'.rules) {c : Char}
    (hc : c = Symbol.start ∨ ∃ r ∈ g.rules, c ∈ r.right) :
    c = Symbol.blank ∨ (c ∈ g.nonTerminals ∧ c ∈ g'.nonTerminals) ∨
      (c ∈ g.terminals ∧ c ∈ g'.terminals) := by
  have hshared : c ∈ g.nonTerminals ↔ c ∈ g'.nonTerminals :=
    (hg.mem_nonTerminals_iff hc).trans (hg'.mem_nonTerminals_iff (hrules ▸ hc)).symm
  by_cases hnonTerminal : c ∈ g.nonTerminals
  · exact .inr (.inl ⟨hnonTerminal, hshared.mp hnonTerminal⟩)
  rcases hc with rfl | ⟨r, hr, hmem⟩
  · exact absurd (List.mem_of_mem_head? hg.start_first) hnonTerminal
  -- The rule fits both alphabets, and it is no non-terminal of either.
  rcases (hg.rules_admitted r hr).right_declared c hmem with hblank | hterminal | hmember
  · exact .inl hblank
  · rcases (hg'.rules_admitted r (hrules ▸ hr)).right_declared c hmem with
      hblank | hterminal' | hmember
    · exact .inl hblank
    · exact .inr (.inr ⟨hterminal, hterminal'⟩)
    · exact absurd (hshared.mpr hmember) hnonTerminal
  · exact absurd hmember hnonTerminal

theorem Grammar.offers_of_rules_eq (hrules : g.rules = g'.rules) (form : Word) :
    g.offers form = g'.offers form := by
  rw [offers, offers, numbered, numbered, hrules]

/-- Two grammars agree on a form if each of its symbols is of the same kind in both, and they tell
the same about it: whether it is completed, and which rules are offered in which order. -/
structure Grammar.AgreeOn (g g' : Grammar) (form : Word) : Prop where
  symbols : ∀ c ∈ form, c = Symbol.blank ∨ (c ∈ g.nonTerminals ∧ c ∈ g'.nonTerminals) ∨
    (c ∈ g.terminals ∧ c ∈ g'.terminals)
  progress_eq : g.progress form = g'.progress form
  offers_eq : g.offers form = g'.offers form

theorem Rule.mem_right_of_mem_replacement {r : Rule} {c : Char} (hc : c ∈ r.replacement) :
    c ∈ r.right := by
  rw [Rule.replacement] at hc
  split at hc
  next => cases hc
  next => exact hc

namespace Derivation

/-- Every symbol of the current form is the start symbol or comes from a rule. -/
theorem Follows.stems (hd : d.Follows g) :
    ∀ c ∈ d.current, c = Symbol.start ∨ ∃ r ∈ g.rules, c ∈ r.right := by
  induction hd with
  | start =>
    intro c hc
    exact .inl (List.mem_singleton.mp hc)
  | @push d n r form _ hrule happly ih =>
    obtain ⟨before, after, hcurrent, -, rfl⟩ := Rule.applyLeftmost?_eq_some_iff.mp happly
    obtain ⟨-, hget⟩ := Grammar.rule?_eq_some_iff.mp hrule
    rw [current_push]
    intro c hc
    rcases List.mem_append.mp hc with hc | hc
    · rcases List.mem_append.mp hc with hc | hc
      · exact ih c (by simp [hcurrent, hc])
      · exact .inr ⟨r, List.mem_of_getElem? hget, Rule.mem_right_of_mem_replacement hc⟩
    · exact ih c (by simp [hcurrent, hc])

theorem Follows.progress_eq (hg : g.WellFormed) (hg' : g'.WellFormed)
    (hrules : g.rules = g'.rules) (hd : d.Follows g) :
    g'.progress d.current = g.progress d.current := by
  have hiff : g'.progress d.current = .completed ↔ g.progress d.current = .completed := by
    rw [Grammar.progress_eq_completed_iff, Grammar.progress_eq_completed_iff]
    refine forall₂_congr fun c hc => not_congr ?_
    have hstems := hd.stems c hc
    rw [hg.mem_nonTerminals_iff hstems, hg'.mem_nonTerminals_iff (hrules ▸ hstems)]
  cases hp : g.progress d.current with
  | completed => exact hiff.mpr hp
  | inProgress =>
    cases hp' : g'.progress d.current with
    | inProgress => rfl
    | completed =>
      rw [hiff.mp hp'] at hp
      cases hp

/-- Grammars with the same rules agree on every form that one of them derives. -/
theorem Follows.agreeOn (hg : g.WellFormed) (hg' : g'.WellFormed) (hrules : g.rules = g'.rules)
    (hd : d.Follows g) : g.AgreeOn g' d.current where
  symbols c hc := hg.shared_symbol hg' hrules (hd.stems c hc)
  progress_eq := (hd.progress_eq hg hg' hrules).symm
  offers_eq := Grammar.offers_of_rules_eq hrules d.current

/-- The rules alone decide which chains replay and to which derivation, and grammars with these
rules agree on every form of such a chain, whatever else their alphabets declare. -/
theorem replay_same_rules (hg : g.Buildable) (hg' : g'.Buildable) (hrules : g.rules = g'.rules)
    (steps : List Step) :
    replay g steps = replay g' steps ∧
      ∀ d, replay g steps = .ok d → ∀ s ∈ steps, g.AgreeOn g' s.form := by
  refine ⟨replay_of_rules_eq hrules steps, ?_⟩
  intro d hreplay s hs
  obtain ⟨hfollows, rfl⟩ := replay_eq_ok_iff.mp hreplay
  obtain ⟨e, he, rfl⟩ := hfollows.exists_of_mem_steps hs
  exact he.agreeOn hg.wellFormed hg'.wellFormed hrules

/-- The small grammar with one more terminal and one more non-terminal, which no rule has. -/
def enlarged : Grammar where
  terminals := ['а', 'б', 'в', 'ъ']
  nonTerminals := ['S', 'A', 'B']
  rules := Grammar.sample.rules

/-- The two grammars agree along a chain that completes a word, though not on a form that no chain
contains. -/
theorem replay_same_rules_enlarged :
    Grammar.sample.Buildable ∧ enlarged.Buildable ∧ Grammar.sample.rules = enlarged.rules ∧
      replay enlarged History.sampleRun.derivation.steps = .ok History.sampleRun.derivation ∧
      (∀ s ∈ History.sampleRun.derivation.steps, Grammar.sample.AgreeOn enlarged s.form) ∧
      Grammar.sample.progress ['B'] ≠ enlarged.progress ['B'] := by
  have henlarged : enlarged.Buildable := by decide
  have hfollows : History.sampleRun.derivation.Follows Grammar.sample :=
    (History.sampleRun_reachable.coherent Grammar.sample_buildable.wellFormed).follows
  obtain ⟨hreplay, hagree⟩ := replay_same_rules Grammar.sample_buildable henlarged rfl
    History.sampleRun.derivation.steps
  exact ⟨Grammar.sample_buildable, henlarged, rfl, hreplay ▸ hfollows.replay_steps,
    hagree _ hfollows.replay_steps, by decide⟩

end Derivation

/-- A coherent history stays coherent for a grammar with other alphabets but the same rules. -/
theorem History.Coherent.of_rules_eq (hg : g.WellFormed) (hg' : g'.WellFormed)
    (hrules : g.rules = g'.rules) (hc : h.Coherent g) : h.Coherent g' where
  grammarId_eq := by rw [hc.grammarId_eq, Grammar.id, hrules, Grammar.id]
  follows := hc.follows.of_rules_eq hrules
  chains_nodup := hc.chains_nodup
  stagedId_eq := by
    rw [hc.stagedId_eq, stageable, stageable, progress, progress,
      hc.follows.progress_eq hg hg' hrules]

end Sentential
