import Sentential.Proofs.History.Genuine
import Sentential.Proofs.History.RoundTrip

/-!
# What restoring takes over

A stored chain in progress is believed only after it has been replayed. Stored entries are taken
over as they are, of those with the same chain the first. So the entries that are restored are
genuine exactly if these were genuine when they were stored.
-/

namespace Sentential

/-- An entry leads its chain if it is the first of the stored entries that have it. -/
def Entry.Leads (stored : List Entry) (e : Entry) : Prop :=
  stored.find? (·.steps = e.steps) = some e

namespace History

variable {g : Grammar} {s : Snapshot} {e : Entry}

/-- Recording an entry does to a search for a chain what appending the entry does. -/
theorem find?_chain_record (entry : Entry) (h : History) (chain : List Step) :
    (h.record entry).2.saved.find? (·.steps = chain) =
      (h.saved ++ [entry]).find? (·.steps = chain) := by
  rcases record_cases entry h with ⟨known, hfind, heq⟩ | ⟨-, heq⟩
  · rw [heq, List.find?_append]
    by_cases hchain : entry.steps = chain
    · rw [← hchain, hfind, Option.some_or]
    · rw [List.find?_cons_of_neg (by simpa using hchain), List.find?_nil, Option.or_none]
  · rw [heq]

theorem find?_chain_recordAll (entries : List Entry) (h : History) (chain : List Step) :
    (h.recordAll entries).saved.find? (·.steps = chain) =
      (h.saved ++ entries).find? (·.steps = chain) := by
  induction entries generalizing h with
  | nil => rw [List.append_nil]; rfl
  | cons entry rest ih =>
    rw [recordAll_cons, ih, List.find?_append, find?_chain_record, ← List.find?_append,
      List.append_assoc, List.singleton_append]

theorem chains_nodup_restore (g : Grammar) (s : Snapshot) :
    ((restore g (some s)).saved.map (·.steps)).Nodup := by
  rw [restore_saved]
  split
  next => exact chains_nodup_recordAll s.saved (h := new g) List.nodup_nil
  next => exact List.nodup_nil

/-- Restoring takes over exactly the entries that lead their chains. -/
theorem mem_restore_saved_iff (hid : s.grammarId = g.id) :
    e ∈ (restore g (some s)).saved ↔ e.Leads s.saved := by
  have hfound : (restore g (some s)).saved.find? (·.steps = e.steps) = some e ↔
      e ∈ (restore g (some s)).saved :=
    (find?_chain_eq_some_iff (chains_nodup_restore g s)).trans (and_iff_left rfl)
  rw [← hfound, restore_saved, if_pos hid, find?_chain_recordAll]
  rfl

/-- Whatever else a snapshot of the same rules holds, what is restored from it are the entries that
lead their chains, none of them checked. So all of them are genuine exactly if those are. -/
theorem restored_genuine_iff (hid : s.grammarId = g.id) :
    (∀ e, e ∈ (restore g (some s)).saved ↔ e.Leads s.saved) ∧
      ((∀ e ∈ (restore g (some s)).saved, e.Genuine g) ↔
        ∀ e : Entry, e.Leads s.saved → e.Genuine g) :=
  ⟨fun _ => mem_restore_saved_iff hid,
    forall_congr' fun _ => imp_congr_left (mem_restore_saved_iff hid)⟩

/-- The entry that the run on the small grammar leaves behind. -/
def sampleEntry : Entry :=
  Entry.freeze ⟨"first", Calendar.Timestamp.epoch⟩ sampleRun.derivation.steps

/-- A store in which an entry with the same chain but another word stands behind that entry. -/
def spoiledStore : Snapshot :=
  { sampleRun.snapshot Grammar.sample with
    saved := [sampleEntry, { sampleEntry with finalWord := ['б'] }] }

/-- The second entry of that store is not genuine, but it does not come through either. -/
theorem restored_genuine_iff_spoiled :
    spoiledStore.grammarId = Grammar.sample.id ∧
      ¬ (∀ e ∈ spoiledStore.saved, e.Genuine Grammar.sample) ∧
      ∀ e ∈ (restore Grammar.sample (some spoiledStore)).saved, e.Genuine Grammar.sample := by
  have hid : spoiledStore.grammarId = Grammar.sample.id := rfl
  have hgenuine : sampleEntry.Genuine Grammar.sample :=
    Entry.genuine_freeze (sampleRun_reachable.coherent Grammar.sample_buildable.wellFormed).follows
      rfl _
  refine ⟨hid, fun hall => ?_, (restored_genuine_iff hid).2.mpr fun e hleads => ?_⟩
  · have hspoiled := hall { sampleEntry with finalWord := ['б'] } (by simp [spoiledStore])
    have hends : some ['а'] = some ['б'] := hspoiled.ends
    cases hends
  · have hsteps : sampleEntry.steps = e.steps := by
      have hmem : e ∈ spoiledStore.saved := List.mem_of_find?_eq_some hleads
      simp only [spoiledStore, List.mem_cons, List.not_mem_nil, or_false] at hmem
      rcases hmem with rfl | rfl <;> rfl
    rw [Entry.Leads, spoiledStore, List.find?_cons_of_pos (by simpa using hsteps)] at hleads
    obtain rfl := Option.some.inj hleads
    exact hgenuine

/-- An entry whose chain applies a rule that the small grammar does not have, stops at a
non-terminal, and does not end in the word of the entry. -/
def forgedEntry : Entry where
  id := "forged"
  steps := [Step.initial, ⟨['A'], some 9⟩]
  timestamp := Calendar.Timestamp.epoch
  finalWord := ['б']

def forgedStore : Snapshot where
  steps := [Step.initial]
  saved := [forgedEntry]
  isCompleted := false
  grammarId := Grammar.sample.id

/-- A store that can be read from its text may bring in an entry that is no completed derivation in
any respect. -/
theorem forged_entry_restored :
    Grammar.sample.Buildable ∧ Snapshot.ofText? forgedStore.text = some forgedStore ∧
      forgedStore.grammarId = Grammar.sample.id ∧
      ∃ e ∈ (restore Grammar.sample (some forgedStore)).saved,
        (∀ d, Derivation.replay Grammar.sample e.steps ≠ .ok d) ∧
          e.steps.getLast?.map (·.form) = some ['A'] ∧ 'A' ∈ Grammar.sample.nonTerminals ∧
          e.finalWord ≠ ['A'] := by
  have hid : forgedStore.grammarId = Grammar.sample.id := rfl
  have hrestored : forgedEntry ∈ (restore Grammar.sample (some forgedStore)).saved :=
    (mem_restore_saved_iff hid).mpr rfl
  have hreplay : Derivation.replay Grammar.sample forgedEntry.steps = .error (.inconsistent 1) := rfl
  refine ⟨Grammar.sample_buildable, forgedStore.ofText?_text, hid, forgedEntry, hrestored, ?_, rfl,
    by decide, by decide⟩
  rw [hreplay]
  nofun

end History

end Sentential
