import Mathlib.Data.List.Nodup
import Sentential.Proofs.History.Restored

/-!
# Names of entries

When entries are recorded they are told apart by their chains, but they are removed and staged by
their names. Names do what they are for as long as no two entries share one. Every run keeps it so
if it draws fresh names, and restoring makes it so exactly if among the stored entries that lead
their chains no two share a name.
-/

namespace Sentential

namespace History

variable {g : Grammar} {h : History}

/-- The name that a call draws: one if it completes the derivation, whether or not an entry is then
added. -/
def Call.drawn? (g : Grammar) (h : History) : Call → Option String
  | .apply stamp index =>
    match h.apply g stamp index with
    | .ok (outcome, _) => outcome.completion.map fun _ => stamp.id
    | .error _ => none
  | _ => none

/-- No name that a run draws belongs to an entry that is there by then. -/
def DrawsFresh (g : Grammar) (h : History) : List Call → Prop
  | [] => True
  | c :: rest =>
    (∀ name ∈ c.drawn? g h, ∀ e ∈ h.saved, e.id ≠ name) ∧ DrawsFresh g (h.call g c).2 rest

/-- Names identify the entries: no two are the same, removing one takes away a single entry, and
the staged entry is the one with the current chain. -/
structure Named (h : History) : Prop where
  ids_nodup : (h.saved.map (·.id)).Nodup
  remove_single : ∀ id, (h.remove id).1 = true → ∃ before e after,
    h.saved = before ++ e :: after ∧ e.id = id ∧ (h.remove id).2.saved = before ++ after
  staged_steps : ∀ e, h.staged = some e → e.steps = h.derivation.steps

theorem remove_eq_true_iff {id : String} :
    (h.remove id).1 = true ↔ ∃ e ∈ h.saved, e.id = id := by
  simp [remove, List.length_filter_eq_length_iff]

/-- Removing the name of an entry takes away this entry alone if names are distinct. -/
theorem remove_saved_of_split {before after : List Entry} {e : Entry}
    (hn : (h.saved.map (·.id)).Nodup) (hsplit : h.saved = before ++ e :: after) :
    (h.remove e.id).2.saved = before ++ after := by
  rw [hsplit, List.map_append, List.map_cons, List.nodup_middle, List.nodup_cons] at hn
  have hothers : ∀ e' ∈ before ++ after, decide (e'.id ≠ e.id) = true := by
    intro e' he'
    refine decide_eq_true fun hid => hn.1 ?_
    rw [← List.map_append, ← hid]
    exact List.mem_map_of_mem he'
  change h.saved.filter (·.id ≠ e.id) = before ++ after
  rw [hsplit, List.filter_append, List.filter_cons_of_neg (by simp), ← List.filter_append]
  exact List.filter_eq_self.mpr hothers

/-- A staged name stands for the entry of the current chain if names are distinct. -/
theorem Coherent.steps_of_staged (hc : h.Coherent g) (hn : (h.saved.map (·.id)).Nodup) {e : Entry}
    (hstaged : h.staged = some e) : e.steps = h.derivation.steps := by
  obtain ⟨id, hid, hfind⟩ := Option.bind_eq_some_iff.mp hstaged
  rw [hc.stagedId_eq] at hid
  cases hp : h.progress g with
  | inProgress =>
    rw [stageable_of_inProgress hp] at hid
    cases hid
  | completed =>
    rw [stageable_of_completed hp] at hid
    obtain ⟨e', hchain, rfl⟩ := Option.map_eq_some_iff.mp hid
    have hname : e.id = e'.id := by simpa using List.find?_some hfind
    have hsteps : e'.steps = h.derivation.steps := by simpa using List.find?_some hchain
    rw [List.inj_on_of_nodup_map hn (List.mem_of_find?_eq_some hfind)
      (List.mem_of_find?_eq_some hchain) hname, hsteps]

theorem Coherent.named (hc : h.Coherent g) (hn : (h.saved.map (·.id)).Nodup) : h.Named where
  ids_nodup := hn
  remove_single id hremoved := by
    obtain ⟨e, he, rfl⟩ := remove_eq_true_iff.mp hremoved
    obtain ⟨before, after, hsplit⟩ := List.append_of_mem he
    exact ⟨before, e, after, hsplit, rfl, remove_saved_of_split hn hsplit⟩
  staged_steps _ hstaged := hc.steps_of_staged hn hstaged

/-- An application that adds an entry draws the name of the entry. -/
theorem drawn?_of_adds (hg : g.WellFormed) {stamp : Stamp} {index : UInt64} {outcome : Outcome}
    {next : History} (ha : h.apply g stamp index = .ok (outcome, next))
    (hadds : Adds g stamp h next) : (Call.apply stamp index).drawn? g h = some stamp.id := by
  rw [Call.drawn?, ha]
  cases applied_of_apply hg ha with
  | unfinished hprogress _ =>
    rw [hadds.completed] at hprogress
    cases hprogress
  | known => rfl
  | added => rfl

/-- A call keeps names distinct if the name that it draws is fresh. -/
theorem ids_nodup_call (hg : g.WellFormed) (hn : (h.saved.map (·.id)).Nodup) {c : Call}
    (hfresh : ∀ name ∈ c.drawn? g h, ∀ e ∈ h.saved, e.id ≠ name) :
    ((h.call g c).2.saved.map (·.id)).Nodup := by
  rcases call_saved hg h c with hsaved | ⟨stamp, index, outcome, next, rfl, hcall, ha, hadds⟩
  · rw [hsaved]
    exact hn.sublist (List.filter_sublist.map _)
  · rw [hcall, hadds.saved_eq, List.map_append, List.map_singleton]
    refine Grammar.nodup_append_singleton hn fun hmem => ?_
    obtain ⟨e, he, hid⟩ := List.mem_map.mp hmem
    exact hfresh stamp.id (drawn?_of_adds hg ha hadds) e he hid

theorem ids_nodup_run (hg : g.WellFormed) (hn : (h.saved.map (·.id)).Nodup) {calls : List Call}
    (hfresh : h.DrawsFresh g calls) : ((h.run g calls).saved.map (·.id)).Nodup := by
  induction calls generalizing h with
  | nil => exact hn
  | cons c rest ih => exact ih (ids_nodup_call hg hn hfresh.1) hfresh.2

/-- Restored names are distinct exactly if no two of the entries that are taken over share one. -/
theorem ids_nodup_restore_iff (s : Option Snapshot) :
    ((restore g s).saved.map (·.id)).Nodup ↔ ∀ snapshot ∈ s, snapshot.grammarId = g.id →
      ∀ e e' : Entry, e.Leads snapshot.saved → e'.Leads snapshot.saved → e.id = e'.id → e = e' := by
  constructor
  · rintro hn snapshot rfl hid e e' he he' hsame
    exact List.inj_on_of_nodup_map hn ((mem_restore_saved_iff hid).mpr he)
      ((mem_restore_saved_iff hid).mpr he') hsame
  · intro hdistinct
    match s with
    | none => exact List.nodup_nil
    | some snapshot =>
      by_cases hid : snapshot.grammarId = g.id
      · have hnodup : (restore g (some snapshot)).saved.Nodup :=
          List.Nodup.of_map _ (chains_nodup_restore g snapshot)
        refine hnodup.map_on fun e he e' he' hsame => ?_
        exact hdistinct snapshot rfl hid e e' ((mem_restore_saved_iff hid).mp he)
          ((mem_restore_saved_iff hid).mp he') hsame
      · rw [restore_saved, if_neg hid]
        exact List.nodup_nil

/-- After every run that draws fresh names, names identify the entries, if and only if of the
stored entries that lead their chains no two share a name. What else a snapshot holds, and whether
it belongs to other rules, plays no part. -/
theorem restored_named_iff (hg : g.Buildable) (s : Option Snapshot) :
    (∀ calls, (restore g s).DrawsFresh g calls → ((restore g s).run g calls).Named) ↔
      ∀ snapshot ∈ s, snapshot.grammarId = g.id →
        ∀ e e' : Entry, e.Leads snapshot.saved → e'.Leads snapshot.saved → e.id = e'.id →
          e = e' := by
  rw [← ids_nodup_restore_iff]
  constructor
  · intro hruns
    exact (hruns [] trivial).ids_nodup
  · intro hn calls hfresh
    have hc := (coherent_restore hg.wellFormed s).run hg.wellFormed calls
    exact hc.named (ids_nodup_run hg.wellFormed hn hfresh)

/-- The run on the small grammar, restored, can go on to a second entry under a fresh name. -/
theorem restored_named_iff_sample :
    Grammar.sample.Buildable ∧ ∃ snapshot calls, snapshot.saved.map (·.id) = ["first"] ∧
      (restore Grammar.sample (some snapshot)).DrawsFresh Grammar.sample calls ∧
      (((restore Grammar.sample (some snapshot)).run Grammar.sample calls).saved.map (·.id)) =
        ["first", "second"] ∧
      ((restore Grammar.sample (some snapshot)).run Grammar.sample calls).Named := by
  let stamp (name : String) : Stamp := ⟨name, Calendar.Timestamp.epoch⟩
  let calls : List Call :=
    [.undo, .apply (stamp "unused") 2, .reset, .apply (stamp "first") 3,
      .apply (stamp "second") 2]
  have hrestore : restore Grammar.sample (some (sampleRun.snapshot Grammar.sample)) = sampleRun :=
    (sampleRun_reachable.coherent Grammar.sample_buildable.wellFormed).restore_snapshot
  have hfresh : sampleRun.DrawsFresh Grammar.sample calls := by
    refine ⟨?_, ?_, ?_, ?_, ?_, trivial⟩ <;> decide
  have hdistinct : ∀ snapshot ∈ some (sampleRun.snapshot Grammar.sample),
      snapshot.grammarId = Grammar.sample.id → ∀ e e' : Entry, e.Leads snapshot.saved →
        e'.Leads snapshot.saved → e.id = e'.id → e = e' :=
    (ids_nodup_restore_iff _).mp (by rw [hrestore]; exact List.nodup_singleton _)
  have hnamed := (restored_named_iff Grammar.sample_buildable _).mpr hdistinct calls
  rw [hrestore] at hnamed
  refine ⟨Grammar.sample_buildable, sampleRun.snapshot Grammar.sample, calls, rfl, ?_⟩
  rw [hrestore]
  exact ⟨hfresh, rfl, hnamed hfresh⟩

/-- A store with two completed derivations of one name, the second of them in progress. -/
def twinStore : Snapshot :=
  let first : List Step := [Step.initial, ⟨['A', 'A'], some 1⟩, ⟨['A'], some 3⟩, ⟨[], some 3⟩]
  let second : List Step := [Step.initial, ⟨['б', 'A', 'б'], some 4⟩, ⟨['б', 'б'], some 3⟩]
  { steps := second
    saved := [⟨"twin", first, Calendar.Timestamp.epoch, []⟩,
      ⟨"twin", second, Calendar.Timestamp.epoch, ['б', 'б']⟩]
    isCompleted := true
    grammarId := Grammar.sample.id }

/-- From a store that can be read from its text two entries of one name come through, although both
are genuine. Removing the name takes away both, and what is staged is not the current chain. -/
theorem twin_names_restored :
    Grammar.sample.Buildable ∧ Snapshot.ofText? twinStore.text = some twinStore ∧
      twinStore.grammarId = Grammar.sample.id ∧
      (∀ e ∈ twinStore.saved, e.Genuine Grammar.sample) ∧
      ∃ h, restore Grammar.sample (some twinStore) = h ∧ h.saved.map (·.id) = ["twin", "twin"] ∧
        (h.remove "twin").1 = true ∧ (h.remove "twin").2.saved = [] ∧
        ∃ e, h.staged = some e ∧ e.steps ≠ h.derivation.steps := by
  have hid : twinStore.grammarId = Grammar.sample.id := rfl
  have hgenuine : ∀ e ∈ twinStore.saved, e.Genuine Grammar.sample := by
    simp only [twinStore, List.mem_cons, List.not_mem_nil, or_false]
    rintro e (rfl | rfl)
    · exact ⟨⟨_, rfl⟩, rfl, by simp⟩
    · exact ⟨⟨_, rfl⟩, rfl, by simp [Grammar.sample]⟩
  have hrestore := restore_of_replay hid
    (d := ⟨[⟨3, ['б', 'б']⟩, ⟨4, ['б', 'A', 'б']⟩]⟩) rfl
  refine ⟨Grammar.sample_buildable, twinStore.ofText?_text, hid, hgenuine, _, hrestore, rfl, ?_,
    rfl, _, rfl, ?_⟩
  · decide
  · decide

end History

end Sentential
