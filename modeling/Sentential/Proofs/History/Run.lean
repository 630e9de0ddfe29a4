import Sentential.Calendar.Epoch
import Sentential.History
import Sentential.Proofs.Derivation.Chain

/-!
# Runs of a history

The calls that can be made on a history, the histories that they lead to, and the derivation in
progress as a stack of ordinals. Only the last form of a chain can be without a non-terminal,
because every earlier one holds the symbol that the next rule replaces.
-/

namespace Sentential

/-- Whether an application has recorded a new derivation. -/
def Outcome.isRecorded (o : Outcome) : Bool :=
  match o.completion with
  | some (.added _) => true
  | _ => false

namespace History

inductive Call where
  | apply (stamp : Stamp) (index : UInt64)
  | undo
  | reset
  | clear
  | remove (id : String)

/-- Makes a call: why it failed, if it did, and the history afterwards. -/
def call (g : Grammar) (h : History) : Call → Option DerivationError × History
  | .apply stamp index =>
    match h.apply g stamp index with
    | .ok (_, next) => (none, next)
    | .error cause => (some cause, h)
  | .undo =>
    match h.undo with
    | .ok (_, next) => (none, next)
    | .error cause => (some cause, h)
  | .reset => (none, h.reset)
  | .clear => (none, h.clear)
  | .remove id => (none, (h.remove id).2)

/-- The histories that calls lead to from a new history or from any that is restored. -/
inductive Reachable (g : Grammar) : History → Prop
  | new : Reachable g (new g)
  | restore (s : Option Snapshot) : Reachable g (restore g s)
  | call {h : History} (c : Call) : Reachable g h → Reachable g (h.call g c).2

def run (g : Grammar) (h : History) (calls : List Call) : History :=
  calls.foldl (fun h c => (h.call g c).2) h

theorem Reachable.run {g : Grammar} {h : History} (hr : h.Reachable g) (calls : List Call) :
    (h.run g calls).Reachable g := by
  induction calls generalizing h with
  | nil => exact hr
  | cons c rest ih => exact ih (hr.call c)

/-- What a successful call does to a stack of ordinals; an empty stack cannot be undone. -/
def Call.onStack : Call → List Ordinal → Option (List Ordinal)
  | .apply _ index, stack => some ((index + 1) :: stack)
  | .undo, [] => none
  | .undo, _ :: earlier => some earlier
  | .reset, _ => some []
  | .clear, _ => some []
  | .remove _, stack => some stack

/-- The stamp that a call records a completion under. -/
def Call.stamp? : Call → Option Stamp
  | .apply stamp _ => some stamp
  | _ => none

/-- A run on the small grammar that completes the word `а`. -/
def sampleRun : History :=
  let stamp : Stamp := ⟨"first", Calendar.Timestamp.epoch⟩
  (new Grammar.sample).run Grammar.sample
    [.apply stamp 0, .apply stamp 1, .apply stamp 2, .apply stamp 2]

theorem sampleRun_reachable : sampleRun.Reachable Grammar.sample :=
  Reachable.new.run _

end History

namespace Derivation

variable {g : Grammar} {d d' : Derivation}

/-- A derivation in which a rule could be applied was in progress. -/
theorem progress_eq_inProgress_of_apply (hg : g.WellFormed) {index : UInt64} {s : Step}
    (h : d.apply g index = .ok (s, d')) : g.progress d.current = .inProgress := by
  obtain ⟨r, form, -, hrule, hform, -, -⟩ := apply_eq_ok_iff.mp h
  exact Grammar.progress_eq_inProgress hg (List.mem_of_getElem? hrule) hform

/-- Every form but the last of a chain holds the symbol that is replaced next. -/
theorem Follows.exists_nonTerminal (hg : g.WellFormed) (h : d.Follows g) :
    ∀ s ∈ d.steps.dropLast, ∃ c ∈ s.form, c ∈ g.nonTerminals := by
  induction h with
  | start => simp
  | @push d n r form hd hrule happly ih =>
    rw [steps_push, List.dropLast_concat]
    intro s hs
    rw [← dropLast_steps_concat] at hs
    rcases List.mem_append.mp hs with hearlier | hcurrent
    · exact ih s hearlier
    · obtain rfl := List.mem_singleton.mp hcurrent
      obtain ⟨before, after, hform, -, -⟩ := Rule.applyLeftmost?_eq_some_iff.mp happly
      obtain ⟨-, hget⟩ := Grammar.rule?_eq_some_iff.mp hrule
      refine ⟨r.left, ?_, (hg.rules_admitted r (List.mem_of_getElem? hget)).left_mem⟩
      change r.left ∈ d.current
      simp [hform]

end Derivation

namespace History

variable {g : Grammar} {h next kept : History}

/-- Recording an entry either finds its chain among the entries or appends the entry. -/
theorem record_cases (entry : Entry) (h : History) :
    (∃ e, h.saved.find? (·.steps = entry.steps) = some e ∧
        h.record entry = (.duplicate e.id, h)) ∨
      (h.saved.find? (·.steps = entry.steps) = none ∧
        h.record entry = (.added entry.id, { h with saved := h.saved ++ [entry] })) := by
  cases hfind : h.saved.find? (·.steps = entry.steps) with
  | some e => exact .inl ⟨e, rfl, by rw [record, hfind]⟩
  | none => exact .inr ⟨rfl, by rw [record, hfind]⟩

theorem record_eq_with_saved (entry : Entry) (h : History) :
    (h.record entry).2 = { h with saved := (h.record entry).2.saved } := by
  rcases record_cases entry h with ⟨e, -, heq⟩ | ⟨-, heq⟩ <;> rw [heq]

/-- A successful application makes a move and, if this completes the derivation, records the
chain and stages its entry; nothing else happens. -/
theorem apply_cases {stamp : Stamp} {index : UInt64} {outcome : Outcome}
    (ha : h.apply g stamp index = .ok (outcome, next)) :
    ∃ s d, h.derivation.apply g index = .ok (s, d) ∧
      ((g.progress h.derivation.current = .inProgress ∧ g.progress d.current = .completed ∧
          ∃ completion kept,
            ({ h with derivation := d } : History).record (Entry.freeze stamp d.steps) =
              (completion, kept) ∧
            outcome = ⟨s, .completed, some completion⟩ ∧
            next = { kept with stagedId := some completion.id }) ∨
        (¬ (g.progress h.derivation.current = .inProgress ∧
            g.progress d.current = .completed) ∧
          outcome = ⟨s, g.progress d.current, none⟩ ∧ next = { h with derivation := d })) := by
  unfold apply at ha
  split at ha
  next => cases ha
  next s d hd =>
    refine ⟨s, d, hd, ?_⟩
    simp only [progress] at ha
    cases hbefore : g.progress h.derivation.current with
    | completed =>
      rw [hbefore] at ha
      obtain ⟨rfl, rfl⟩ := Prod.mk.inj (Except.ok.inj ha)
      exact .inr ⟨by simp, rfl, rfl⟩
    | inProgress =>
      cases hafter : g.progress d.current with
      | inProgress =>
        rw [hbefore, hafter] at ha
        obtain ⟨rfl, rfl⟩ := Prod.mk.inj (Except.ok.inj ha)
        exact .inr ⟨by simp, rfl, rfl⟩
      | completed =>
        rw [hbefore, hafter] at ha
        obtain ⟨rfl, rfl⟩ := Prod.mk.inj (Except.ok.inj ha)
        exact .inl ⟨rfl, rfl, _, _, rfl, rfl, rfl⟩

/-- An application fails exactly if the derivation cannot take the step. -/
theorem apply_eq_error_iff {stamp : Stamp} {index : UInt64} {cause : DerivationError} :
    h.apply g stamp index = .error cause ↔ h.derivation.apply g index = .error cause := by
  unfold apply
  cases h.derivation.apply g index with
  | error cause' => simp
  | ok pair =>
    dsimp only
    split <;> simp

theorem apply_derivation {stamp : Stamp} {index : UInt64} {outcome : Outcome}
    (ha : h.apply g stamp index = .ok (outcome, next)) :
    ∃ s, h.derivation.apply g index = .ok (s, next.derivation) := by
  obtain ⟨s, d, hd, ⟨-, -, completion, kept, hrecord, -, rfl⟩ | ⟨-, -, rfl⟩⟩ := apply_cases ha
  · have hkept := record_eq_with_saved (Entry.freeze stamp d.steps) { h with derivation := d }
    rw [hrecord] at hkept
    obtain rfl : kept.derivation = d := congrArg derivation hkept
    exact ⟨s, hd⟩
  · exact ⟨s, hd⟩

theorem undo_eq_ok_iff {s : Step} :
    h.undo = .ok (s, next) ↔ ∃ m earlier, h.derivation.moves = m :: earlier ∧ s = m.toStep ∧
      next = { h with derivation := ⟨earlier⟩, stagedId := none } := by
  unfold undo Derivation.undo
  cases hmoves : h.derivation.moves with
  | nil => simp
  | cons m earlier =>
    constructor
    · intro hu
      obtain ⟨rfl, rfl⟩ := Prod.mk.inj (Except.ok.inj hu)
      exact ⟨m, earlier, rfl, rfl, rfl⟩
    · rintro ⟨_, _, heq, rfl, rfl⟩
      obtain ⟨rfl, rfl⟩ := List.cons.inj heq
      rfl

end History

end Sentential
