import Sentential.Proofs.Session.Persistence

/-!
# Sessions stay consistent

A grammar in use is there twice, as a value and as the document writes it, and its history lives
beside both. Whatever a session was opened on and whatever commands it has seen, the document
describes the grammar in use and the derivation in progress replays under it. Taking a grammar into
use keeps the history exactly if the rules stay the same.
-/

namespace Sentential

namespace Session

/-- The sessions that a run may begin with: one on a new document, whatever the user is called, or
one on any document that can be opened. -/
inductive Started : Session → Prop
  | new (u : User) : Started (Session.new u)
  | opened {d : Document} {s : Session} : ofDocument d = .ok s → Started s

/-- The document describes the grammar in use, and the history in use belongs to this grammar and
has a chain that replays under it. -/
structure Consistent (s : Session) : Prop where
  loads : s.document.loadGrammar = .ok s.grammar
  grammarId_eq : ∀ a ∈ s.active, a.history.grammarId = a.grammar.id
  replays : ∀ a ∈ s.active,
    Derivation.replay a.grammar a.history.derivation.steps = .ok a.history.derivation

variable {s : Session} {g : Grammar}

theorem Started.coherent (h : s.Started) : s.Coherent := by
  cases h with
  | new u => exact coherent_new u
  | opened hopen => exact coherent_of_ofDocument hopen

theorem Coherent.consistent (hc : s.Coherent) : s.Consistent where
  loads := hc.loads
  grammarId_eq a ha := (hc.history_coherent a ha).grammarId_eq
  replays a ha := (hc.history_coherent a ha).follows.replay_steps

theorem run_append (s : Session) (first rest : List Command) :
    s.run (first ++ rest) = (s.run first).run rest :=
  List.foldl_append

/-- What remains of an admissible run is admissible from where its first part leads. -/
theorem Admissible.rest {first rest : List Command} (h : s.Admissible (first ++ rest)) :
    (s.run first).Admissible rest := by
  induction first generalizing s with
  | nil => exact h
  | cons c first ih => exact ih h.tail

/-- Fingerprints that tell the rules apart let the history of the grammar before go on exactly if
the new grammar has the same rules. -/
theorem Coherent.setGrammar_history (hc : s.Coherent)
    (hseparated : ∀ old ∈ s.grammar, old.id = g.id → old.rules = g.rules) :
    (s.grammar.map (·.rules) = some g.rules → (s.setGrammar g).history = s.history) ∧
      (s.grammar.map (·.rules) ≠ some g.rules →
        (s.setGrammar g).history = some (History.new g) ∧
          (s.setGrammar g).document.historyText = none) := by
  rcases setGrammar_cases g s with ⟨a, hactive, hid, hset⟩ | ⟨hid, hset⟩
  · have hold : a.grammar.id = g.id :=
      (hc.history_coherent a hactive).grammarId_eq.symm.trans hid
    have hgrammar : s.grammar = some a.grammar := by rw [grammar, hactive]; rfl
    have hrules : s.grammar.map (·.rules) = some g.rules := by
      rw [hgrammar, Option.map_some, hseparated a.grammar hgrammar hold]
    refine ⟨fun _ => ?_, fun hother => absurd hrules hother⟩
    rw [hset, history, history, hactive]
    rfl
  · have hrules : s.grammar.map (·.rules) ≠ some g.rules := by
      intro hsame
      obtain ⟨old, hold, hrules⟩ := Option.map_eq_some_iff.mp hsame
      obtain ⟨a, hactive, rfl⟩ := Option.map_eq_some_iff.mp hold
      -- The same rules have the same fingerprint.
      refine hid a hactive ?_
      rw [(hc.history_coherent a hactive).grammarId_eq, Grammar.id, hrules, Grammar.id]
    refine ⟨fun hsame => absurd hsame hrules, fun _ => ?_⟩
    rw [hset]
    exact ⟨rfl, rfl⟩

/-- Every session that a run arrives at is consistent and still has the user and the version that it
began with. Taking one more grammar into use leaves it consistent, and keeps the history if the
rules stay the same; otherwise the history starts afresh, and none is left in the document. -/
theorem run_consistent {final : Session} {commands : List Command} (hs : s.Started)
    (ha : s.Admissible commands) (hfinal : s.run commands = final) :
    final.Consistent ∧ final.document.user = s.document.user ∧
      final.document.version = s.document.version ∧
      ∀ g, s.Admissible (commands ++ [.setGrammar g]) →
        (final.setGrammar g).Consistent ∧ (final.setGrammar g).grammar = some g ∧
          (final.grammar.map (·.rules) = some g.rules →
            (final.setGrammar g).history = final.history) ∧
          (final.grammar.map (·.rules) ≠ some g.rules →
            (final.setGrammar g).history = some (History.new g) ∧
              (final.setGrammar g).document.historyText = none) := by
  subst hfinal
  have hc := hs.coherent.run ha
  obtain ⟨huser, hversion⟩ := s.run_document commands
  refine ⟨hc.consistent, huser, hversion, fun g hnext => ?_⟩
  have hset := hs.coherent.run hnext
  rw [run_append] at hset
  refine ⟨hset.consistent, setGrammar_grammar g _, hc.setGrammar_history ?_⟩
  intro old hold
  refine hnext.rest.separated old ?_ g ?_
  · exact List.mem_append_left _ (Option.mem_toList.mpr hold)
  · exact List.mem_append_right _ (List.mem_singleton_self g)

/-- The small grammar with one more terminal. -/
def widened : Grammar :=
  { Grammar.sample with terminals := Grammar.sample.terminals ++ ['в'] }

/-- The small grammar with one rule less. -/
def narrowed : Grammar :=
  { Grammar.sample with rules := Grammar.sample.rules.take 3 }

theorem widened_admissible :
    (new sampleUser).Admissible (sampleCommands ++ [.setGrammar widened]) where
  buildable := by decide
  separated := by decide +kernel

theorem narrowed_admissible :
    (new sampleUser).Admissible (sampleCommands ++ [.setGrammar narrowed]) where
  buildable := by decide
  separated := by decide +kernel

/-- A run that ends with a completed derivation of the small grammar keeps it when a terminal is
added, and loses it when a rule is taken away. -/
theorem run_consistent_sample :
    (new sampleUser).Started ∧ (new sampleUser).Admissible sampleCommands ∧
      ∃ final, (new sampleUser).run sampleCommands = final ∧ final.Consistent ∧
        final.history.bind (·.stagedId) = some "first" ∧
        (final.setGrammar widened).history = final.history ∧
        (final.setGrammar narrowed).history = some (History.new narrowed) ∧
        (final.setGrammar narrowed).document.historyText = none := by
  obtain ⟨hconsistent, -, -, hset⟩ :=
    run_consistent (.new sampleUser) sampleCommands_admissible rfl
  have hgrammar : ((new sampleUser).run sampleCommands).grammar = some Grammar.sample := by
    simp [run, sampleCommands, perform_grammar, Command.grammar?]
  have hsame : Grammar.sample.rules = widened.rules := rfl
  have hless : Grammar.sample.rules ≠ narrowed.rules := by decide
  rw [hgrammar, Option.map_some] at hset
  obtain ⟨-, -, hkept, -⟩ := hset widened widened_admissible
  obtain ⟨-, -, -, hdropped⟩ := hset narrowed narrowed_admissible
  exact ⟨.new sampleUser, sampleCommands_admissible, _, rfl, hconsistent, rfl,
    hkept (congrArg some hsame), hdropped fun heq => hless (Option.some.inj heq)⟩

end Session

end Sentential
