import Sentential.Proofs.Grammar.Building
import Sentential.Proofs.History.Run
import Sentential.Session

/-!
# Runs of a session

A session is driven by commands, of which one that fails leaves it as it was. Only taking a grammar
into use exchanges the grammar; every other command is at most one call on the history in use and at
most a new text in the settings of the document.
-/

namespace Sentential

/-- Among a number of rules a key selects the same ordinal as ever, or none. -/
theorem Ordinal.ofKeyWithin?_eq_some_iff {count : Nat} {key : Char} {n : Ordinal} :
    ofKeyWithin? count key = some n ↔ ofKey? key = some n ∧ n.toNat ≤ count := by
  simp [ofKeyWithin?, Option.filter_eq_some_iff]

namespace Session

/-- The commands of a session, with the stamps that completions are recorded under. -/
inductive Command where
  | setGrammar (g : Grammar)
  | apply (stamp : Stamp) (n : Ordinal)
  | pressKey (stamp : Stamp) (key : Char)
  | undo
  | reset
  | clear
  | remove (id : String)
  | persist

def Command.grammar? : Command → Option Grammar
  | .setGrammar g => some g
  | _ => none

def Command.stamp? : Command → Option Stamp
  | .apply stamp _ => some stamp
  | .pressKey stamp _ => some stamp
  | _ => none

/-- Carries out a command; the session stays as it is if the command fails. -/
def perform (s : Session) : Command → Session
  | .setGrammar g => s.setGrammar g
  | .apply stamp n =>
    match s.apply stamp n with
    | .ok (_, next) => next
    | .error _ => s
  | .pressKey stamp key =>
    match s.pressKey stamp key with
    | some (_, next) => next
    | none => s
  | .undo =>
    match s.undo with
    | .ok (_, next) => next
    | .error _ => s
  | .reset => s.reset
  | .clear => s.clear
  | .remove id => (s.remove id).2
  | .persist => s.persist

def run (s : Session) (commands : List Command) : Session :=
  commands.foldl perform s

/-- The sessions that a run may begin with: one on a new document for a user taken from input, or
one on a document that was read from a text. -/
inductive Initial : Session → Prop
  | new {lastName firstName patronymic group : String} {u : User} :
      User.ofInput lastName firstName patronymic group = .ok u → Initial (Session.new u)
  | opened {text : String} {d : Document} {s : Session} :
      Document.ofText text = .ok d → ofDocument d = .ok s → Initial s

/-- The grammars in use at the beginning of a run or taken into use during it. -/
def grammars (s : Session) (commands : List Command) : List Grammar :=
  s.grammar.toList ++ commands.filterMap Command.grammar?

/-- The grammars taken into use are buildable, and among all grammars of the run different rules
have different fingerprints. -/
structure Admissible (s : Session) (commands : List Command) : Prop where
  buildable : ∀ c ∈ commands, ∀ g ∈ c.grammar?, g.Buildable
  separated : ∀ g ∈ s.grammars commands, ∀ g' ∈ s.grammars commands,
    g.id = g'.id → g.rules = g'.rules

variable {s next : Session}

theorem apply_eq_ok_iff {stamp : Stamp} {n : Ordinal} {outcome : Outcome} :
    s.apply stamp n = .ok (outcome, next) ↔ ∃ a h, s.active = some a ∧ n ≠ 0 ∧
      a.history.apply a.grammar stamp (n - 1) = .ok (outcome, h) ∧
      next = s.withActive a.grammar h := by
  unfold apply
  cases hactive : s.active with
  | none => simp
  | some a =>
    by_cases hn : n = 0
    · simp [hn]
    · cases happly : a.history.apply a.grammar stamp (n - 1) with
      | error cause => simp [hn, happly]
      | ok pair =>
        obtain ⟨o, h⟩ := pair
        simp [hn, happly, and_assoc, eq_comm]

/-- A key press that has an effect is the application of the ordinal that the key selects. -/
theorem exists_apply_of_pressKey {stamp : Stamp} {key : Char} {outcome : Outcome}
    (h : s.pressKey stamp key = some (outcome, next)) :
    ∃ n, Ordinal.ofKey? key = some n ∧ s.apply stamp n = .ok (outcome, next) := by
  simp only [pressKey, Option.bind_eq_bind, Option.bind_eq_some_iff] at h
  obtain ⟨a, -, n, hn, r, -, h⟩ := h
  split at h
  next => exact ⟨n, (Ordinal.ofKeyWithin?_eq_some_iff.mp hn).1, toOption_eq_some_iff.mp h⟩
  next => cases h

theorem undo_eq_ok_iff {step : Step} :
    s.undo = .ok (step, next) ↔ ∃ a h, s.active = some a ∧
      a.history.undo = .ok (step, h) ∧ next = s.withActive a.grammar h := by
  unfold undo
  cases hactive : s.active with
  | none => simp
  | some a =>
    cases hundo : a.history.undo with
    | error cause => simp [hundo]
    | ok pair =>
      obtain ⟨o, h⟩ := pair
      simp [hundo, and_assoc, eq_comm]

/-- What a command other than taking a grammar into use can do. The document stays as it is, loses
the stored history, or takes in the history in use; that history sees at most one call, and no other
stamp than the one of the command. -/
structure Effect (s : Session) (stamp : Option Stamp) (next : Session) : Prop where
  document : next.document = s.document ∨ next.document = s.document.withHistory none ∨
    ∃ a, next.active = some a ∧
      next.document = s.document.withHistory (some (a.history.snapshot a.grammar).text)
  active : next.active = s.active ∨ ∃ a c, s.active = some a ∧ (∀ drawn ∈ c.stamp?, drawn ∈ stamp) ∧
    next.active = some ⟨a.grammar, (a.history.call a.grammar c).2⟩

theorem effect_self (s : Session) (stamp : Option Stamp) : s.Effect stamp s where
  document := .inl rfl
  active := .inl rfl

theorem effect_of_apply {stamp : Stamp} {n : Ordinal} {outcome : Outcome}
    (happly : s.apply stamp n = .ok (outcome, next)) : s.Effect (some stamp) next := by
  obtain ⟨a, h, hactive, -, hcall, rfl⟩ := apply_eq_ok_iff.mp happly
  refine ⟨.inl rfl, .inr ⟨a, .apply stamp (n - 1), hactive, fun _ hdrawn => hdrawn, ?_⟩⟩
  rw [History.call, hcall]
  rfl

theorem effect_of_undo {step : Step} (hundo : s.undo = .ok (step, next)) : s.Effect none next := by
  obtain ⟨a, h, hactive, hcall, rfl⟩ := undo_eq_ok_iff.mp hundo
  refine ⟨.inl rfl, .inr ⟨a, .undo, hactive, fun _ hdrawn => hdrawn, ?_⟩⟩
  rw [History.call, hcall]
  rfl

@[simp]
theorem reset_document (s : Session) : s.reset.document = s.document := by
  unfold reset
  split <;> rfl

theorem effect_reset (s : Session) : s.Effect none s.reset := by
  refine ⟨.inl s.reset_document, ?_⟩
  unfold reset
  split
  next => exact .inl rfl
  next a hactive => exact .inr ⟨a, .reset, hactive, fun _ hdrawn => hdrawn, rfl⟩

theorem effect_remove (s : Session) (id : String) : s.Effect none (s.remove id).2 := by
  unfold remove
  split
  next => exact s.effect_self none
  next a hactive =>
    exact ⟨.inl rfl, .inr ⟨a, .remove id, hactive, fun _ hdrawn => hdrawn, rfl⟩⟩

@[simp]
theorem persist_active (s : Session) : s.persist.active = s.active := by
  unfold persist
  split <;> rfl

/-- Persisting puts the history in use into the document, if there is one. -/
theorem persist_document (s : Session) : s.persist.document = s.document ∨
    ∃ a, s.active = some a ∧
      s.persist.document = s.document.withHistory (some (a.history.snapshot a.grammar).text) := by
  cases hactive : s.active with
  | none => exact .inl (by rw [persist, hactive])
  | some a => exact .inr ⟨a, rfl, by rw [persist, hactive]⟩

theorem effect_persist (s : Session) : s.Effect none s.persist := by
  refine ⟨?_, .inl s.persist_active⟩
  rcases s.persist_document with hsame | ⟨a, hactive, hdocument⟩
  · exact .inl hsame
  · exact .inr (.inr ⟨a, s.persist_active.trans hactive, hdocument⟩)

/-- Clearing resets, and then either drops the stored history or writes what is left. -/
theorem clear_cases (s : Session) :
    s.clear = { s.reset with document := s.reset.document.withHistory none } ∨
      s.clear = s.reset.persist := by
  unfold clear
  dsimp only
  split
  next =>
    split
    next => exact .inl rfl
    next => exact .inr rfl
  next => exact .inl rfl

theorem effect_clear (s : Session) : s.Effect none s.clear := by
  have hactive := s.effect_reset.active
  rcases s.clear_cases with hclear | hclear
  · rw [hclear]
    exact ⟨.inr (.inl (by rw [reset_document])), hactive⟩
  · rw [hclear]
    have hdocument := s.reset.effect_persist.document
    rw [reset_document] at hdocument
    exact ⟨hdocument, s.reset.persist_active ▸ hactive⟩

theorem effect_perform (s : Session) {c : Command} (hc : c.grammar? = none) :
    s.Effect c.stamp? (s.perform c) := by
  cases c with
  | setGrammar g => cases hc
  | apply stamp n =>
    rw [perform]
    split
    next happly => exact effect_of_apply happly
    next => exact s.effect_self _
  | pressKey stamp key =>
    rw [perform]
    split
    next hkey =>
      obtain ⟨n, -, happly⟩ := exists_apply_of_pressKey hkey
      exact effect_of_apply happly
    next => exact s.effect_self _
  | undo =>
    rw [perform]
    split
    next hundo => exact effect_of_undo hundo
    next => exact s.effect_self _
  | reset => exact s.effect_reset
  | clear => exact s.effect_clear
  | remove id => exact s.effect_remove id
  | persist => exact s.effect_persist

/-- At most the settings of the document change, and at most one call is made on the history in
use. -/
structure Calls (s next : Session) : Prop where
  document : ∃ settings, next.document = { s.document with settings }
  active : next.active = s.active ∨ ∃ a c, s.active = some a ∧
    next.active = some ⟨a.grammar, (a.history.call a.grammar c).2⟩

theorem Effect.calls {stamp : Option Stamp} (h : s.Effect stamp next) : s.Calls next where
  document := by
    rcases h.document with hdocument | hdocument | ⟨a, -, hdocument⟩ <;> exact ⟨_, hdocument⟩
  active := by
    rcases h.active with hsame | ⟨a, c, hactive, -, hnext⟩
    · exact .inl hsame
    · exact .inr ⟨a, c, hactive, hnext⟩

/-- Every command but the one that takes a grammar into use is at most a call. -/
theorem calls_perform (s : Session) {c : Command} (hc : c.grammar? = none) :
    s.Calls (s.perform c) :=
  (s.effect_perform hc).calls

theorem calls_persist (s : Session) : s.Calls s.persist :=
  s.effect_persist.calls

theorem Calls.grammar_eq (h : s.Calls next) : next.grammar = s.grammar := by
  rcases h.active with hsame | ⟨a, c, hactive, hnext⟩
  · rw [grammar, hsame, grammar]
  · rw [grammar, hnext, grammar, hactive]
    rfl

@[simp]
theorem setGrammar_grammar (g : Grammar) (s : Session) : (s.setGrammar g).grammar = some g := by
  unfold setGrammar
  dsimp only
  split
  next =>
    split <;> rfl
  next => rfl

theorem perform_grammar (s : Session) (c : Command) :
    (s.perform c).grammar = c.grammar?.or s.grammar := by
  cases hc : c.grammar? with
  | none => exact (s.calls_perform hc).grammar_eq
  | some g =>
    cases c with
    | setGrammar g' =>
      obtain rfl : g' = g := Option.some.inj hc
      exact setGrammar_grammar g' s
    | _ => cases hc

/-- What remains of an admissible run is admissible from where the first command leads. -/
theorem Admissible.tail {c : Command} {rest : List Command} (h : s.Admissible (c :: rest)) :
    (s.perform c).Admissible rest where
  buildable := fun d hd => h.buildable d (List.mem_cons_of_mem c hd)
  separated := by
    have hsubset : ∀ g ∈ (s.perform c).grammars rest, g ∈ s.grammars (c :: rest) := by
      intro g hg
      rw [grammars, perform_grammar] at hg
      cases hc : c.grammar? with
      | none =>
        rw [hc, Option.none_or] at hg
        rwa [grammars, List.filterMap_cons_none hc]
      | some g' =>
        rw [hc, Option.some_or] at hg
        rw [grammars, List.filterMap_cons_some hc]
        exact List.mem_append_right _ hg
    exact fun g hg g' hg' => h.separated g (hsubset g hg) g' (hsubset g' hg')

end Session

end Sentential
