import Sentential.Proofs.History.Run

/-!
# What every reachable history satisfies

A history is coherent if its derivation consists of rule applications, no two entries have the
same chain, and the staged entry is the one that restoring would stage. Coherence is
established by restoring, whatever the snapshot says, and kept by every call.
-/

namespace Sentential

namespace History

variable {g g' : Grammar} {h next : History}

/-- The entry that belongs to the current form: once the derivation is completed, the one that
has its chain. -/
def stageable (g : Grammar) (h : History) : Option String :=
  match h.progress g with
  | .inProgress => none
  | .completed => (h.saved.find? (·.steps = h.derivation.steps)).map (·.id)

/-- The invariant of histories for a grammar. -/
structure Coherent (g : Grammar) (h : History) : Prop where
  grammarId_eq : h.grammarId = g.id
  follows : h.derivation.Follows g
  chains_nodup : (h.saved.map (·.steps)).Nodup
  stagedId_eq : h.stagedId = h.stageable g

theorem stageable_of_inProgress (hp : h.progress g = .inProgress) : h.stageable g = none := by
  rw [stageable, hp]

theorem stageable_of_completed (hp : h.progress g = .completed) :
    h.stageable g = (h.saved.find? (·.steps = h.derivation.steps)).map (·.id) := by
  rw [stageable, hp]

theorem progress_start (hg : g.WellFormed) : g.progress [Symbol.start] = .inProgress := by
  cases hp : g.progress [Symbol.start] with
  | inProgress => rfl
  | completed =>
    have hmem : Symbol.start ∈ g.nonTerminals := List.mem_of_head? hg.start_first
    exact absurd hmem (Grammar.progress_eq_completed_iff.mp hp _ (by simp))

theorem coherent_new (hg : g.WellFormed) : (new g).Coherent g where
  grammarId_eq := rfl
  follows := .start
  chains_nodup := List.nodup_nil
  stagedId_eq := (stageable_of_inProgress (h := new g) (progress_start hg)).symm

theorem chains_nodup_record (entry : Entry) (hn : (h.saved.map (·.steps)).Nodup) :
    ((h.record entry).2.saved.map (·.steps)).Nodup := by
  rcases record_cases entry h with ⟨e, -, heq⟩ | ⟨hnone, heq⟩
  · rw [heq]
    exact hn
  · rw [heq, List.map_append]
    refine Grammar.nodup_append_singleton hn ?_
    intro hmem
    obtain ⟨e, he, hsteps⟩ := List.mem_map.mp hmem
    have hne := List.find?_eq_none.mp hnone e he
    simp [hsteps] at hne

theorem recordAll_cons (entry : Entry) (rest : List Entry) (h : History) :
    h.recordAll (entry :: rest) = (h.record entry).2.recordAll rest := rfl

theorem recordAll_eq_with_saved (entries : List Entry) (h : History) :
    h.recordAll entries = { h with saved := (h.recordAll entries).saved } := by
  induction entries generalizing h with
  | nil => rfl
  | cons entry rest ih =>
    have hrest := ih (h.record entry).2
    rw [recordAll_cons]
    rw [record_eq_with_saved] at hrest ⊢
    exact hrest

theorem chains_nodup_recordAll (entries : List Entry) (hn : (h.saved.map (·.steps)).Nodup) :
    ((h.recordAll entries).saved.map (·.steps)).Nodup := by
  induction entries generalizing h with
  | nil => exact hn
  | cons entry rest ih => exact ih (chains_nodup_record entry hn)

/-- Entries whose chains are new and distinct are all appended. -/
theorem recordAll_eq_append {entries : List Entry}
    (hn : ((h.saved ++ entries).map (·.steps)).Nodup) :
    h.recordAll entries = { h with saved := h.saved ++ entries } := by
  induction entries generalizing h with
  | nil => simp [recordAll]
  | cons entry rest ih =>
    have hnew : h.saved.find? (·.steps = entry.steps) = none := by
      refine List.find?_eq_none.mpr fun e he => ?_
      rw [List.map_append, List.nodup_append] at hn
      have hne := hn.2.2 e.steps (List.mem_map_of_mem he) entry.steps (by simp)
      simpa using hne
    have hrecord : (h.record entry).2 = { h with saved := h.saved ++ [entry] } := by
      rw [record, hnew]
    have hrest : (h.recordAll (entry :: rest)) = (h.record entry).2.recordAll rest := rfl
    rw [hrest, hrecord, ih (by simpa using hn)]
    simp

/-- The history with the entry of its current form staged. -/
def restaged (g : Grammar) (h : History) : History :=
  { h with stagedId := h.stageable g }

/-- Restaging repairs whatever was staged. -/
theorem coherent_restaged (hid : h.grammarId = g.id) (hfollows : h.derivation.Follows g)
    (hn : (h.saved.map (·.steps)).Nodup) : (h.restaged g).Coherent g where
  grammarId_eq := hid
  follows := hfollows
  chains_nodup := hn
  stagedId_eq := rfl

theorem Coherent.restaged_eq (hc : h.Coherent g) : h.restaged g = h := by
  rw [restaged, ← hc.stagedId_eq]

/-- Restoring a snapshot of the same rules takes over its entries and the derivation that it
replays to. -/
theorem restore_of_replay {s : Snapshot} {d : Derivation} (hid : s.grammarId = g.id)
    (hreplay : Derivation.replay g s.steps = .ok d) :
    restore g (some s) = restaged g { (new g).recordAll s.saved with derivation := d } := by
  have hstaged : ((new g).recordAll s.saved).stagedId = none := by
    rw [recordAll_eq_with_saved]
    rfl
  simp only [restore, hid, ↓reduceIte, hreplay]
  split
  next hp => rw [restaged, stageable_of_inProgress hp, ← hstaged]
  next hp => rw [restaged, stageable_of_completed hp]

/-- Restoring a snapshot whose chain does not replay takes over its entries alone. -/
theorem restore_of_not_replay (hg : g.WellFormed) {s : Snapshot} {cause : DerivationError}
    (hid : s.grammarId = g.id) (hreplay : Derivation.replay g s.steps = .error cause) :
    restore g (some s) = restaged g ((new g).recordAll s.saved) := by
  have hkept := recordAll_eq_with_saved s.saved (new g)
  have hprogress : ((new g).recordAll s.saved).progress g = .inProgress := by
    rw [hkept]
    exact progress_start hg
  have hstaged : ((new g).recordAll s.saved).stagedId = none := by
    rw [hkept]
    rfl
  simp only [restore, hid, ↓reduceIte, hreplay, hprogress]
  rw [restaged, stageable_of_inProgress hprogress, ← hstaged]

/-- Restoring establishes coherence, whatever the snapshot holds. -/
theorem coherent_restore (hg : g.WellFormed) (s : Option Snapshot) : (restore g s).Coherent g := by
  cases s with
  | none => exact coherent_new hg
  | some s =>
    by_cases hid : s.grammarId = g.id
    · have hkept := recordAll_eq_with_saved s.saved (new g)
      have hchains := chains_nodup_recordAll s.saved (h := new g) List.nodup_nil
      cases hreplay : Derivation.replay g s.steps with
      | error cause =>
        -- The derivation starts over, but the entries are kept.
        rw [restore_of_not_replay hg hid hreplay]
        refine coherent_restaged ?_ ?_ hchains
        · rw [hkept]
          rfl
        · rw [hkept]
          exact .start
      | ok d =>
        obtain ⟨hfollows, -⟩ := Derivation.replay_eq_ok_iff.mp hreplay
        rw [restore_of_replay hid hreplay]
        refine coherent_restaged ?_ hfollows hchains
        rw [hkept]
        rfl
    · rw [restore, if_neg hid]
      exact coherent_new hg

/-- Restoring a snapshot of a coherent history gives the history back. -/
theorem Coherent.restore_snapshot (hc : h.Coherent g) : restore g (some (h.snapshot g)) = h := by
  have hreplay : Derivation.replay g (h.snapshot g).steps = .ok h.derivation :=
    hc.follows.replay_steps
  have hsaved : (new g).recordAll h.saved = { new g with saved := h.saved } := by
    rw [recordAll_eq_append (by simpa [new] using hc.chains_nodup)]
    rfl
  have hsame : ({ (new g).recordAll h.saved with derivation := h.derivation } : History) =
      ⟨h.grammarId, h.derivation, h.saved, none⟩ := by
    rw [hsaved, hc.grammarId_eq]
    rfl
  calc restore g (some (h.snapshot g))
      = restaged g { (new g).recordAll h.saved with derivation := h.derivation } :=
        restore_of_replay hc.grammarId_eq hreplay
    _ = restaged g h := by
        rw [hsame]
        rfl
    _ = h := hc.restaged_eq

theorem find?_record (entry : Entry) (h : History) :
    ((h.record entry).2.saved.find? (·.steps = entry.steps)).map (·.id) =
      some (h.record entry).1.id := by
  rcases record_cases entry h with ⟨e, hfind, heq⟩ | ⟨hnone, heq⟩
  · rw [heq, hfind]
    rfl
  · rw [heq, List.find?_append, hnone]
    simp [Completion.id]

theorem Coherent.apply (hg : g.WellFormed) (hc : h.Coherent g) {stamp : Stamp} {index : UInt64}
    {outcome : Outcome} (ha : h.apply g stamp index = .ok (outcome, next)) : next.Coherent g := by
  obtain ⟨s, d, hd, hcases⟩ := apply_cases ha
  have hfollows := hc.follows.apply hd
  rcases hcases with ⟨-, hafter, completion, kept, hrecord, -, rfl⟩ | ⟨hnot, -, rfl⟩
  · -- Whether the chain is new or known, the entry that has it now is the one that is staged.
    have hn := chains_nodup_record (h := { h with derivation := d })
      (Entry.freeze stamp d.steps) hc.chains_nodup
    have hfind := find?_record (Entry.freeze stamp d.steps) { h with derivation := d }
    have hkept := record_eq_with_saved (Entry.freeze stamp d.steps) { h with derivation := d }
    rw [hrecord] at hn hfind hkept
    obtain ⟨saved, rfl⟩ : ∃ saved, kept = { h with derivation := d, saved } := ⟨_, hkept⟩
    have hdone : progress g ⟨h.grammarId, d, saved, some completion.id⟩ = .completed := hafter
    exact ⟨hc.grammarId_eq, hfollows, hn, ((stageable_of_completed hdone).trans hfind).symm⟩
  · -- A rule still applied, so the derivation was in progress before; it still is.
    have hbefore : h.progress g = .inProgress :=
      Derivation.progress_eq_inProgress_of_apply hg hd
    have hafter : History.progress g { h with derivation := d } = .inProgress := by
      cases hp : g.progress d.current with
      | inProgress => exact hp
      | completed => exact absurd ⟨hbefore, hp⟩ hnot
    refine ⟨hc.grammarId_eq, hfollows, hc.chains_nodup, ?_⟩
    rw [stageable_of_inProgress hafter]
    exact hc.stagedId_eq.trans (stageable_of_inProgress hbefore)

theorem Coherent.undo (hg : g.WellFormed) (hc : h.Coherent g) {s : Step}
    (hu : h.undo = .ok (s, next)) : next.Coherent g ∧ next.progress g = .inProgress := by
  obtain ⟨m, earlier, hmoves, -, rfl⟩ := undo_eq_ok_iff.mp hu
  have hpush : h.derivation = Derivation.push ⟨earlier⟩ m := congrArg Derivation.mk hmoves
  obtain ⟨hfollows, r, hrule, happly⟩ := (hpush ▸ hc.follows).of_push
  obtain ⟨-, hget⟩ := Grammar.rule?_eq_some_iff.mp hrule
  have hprogress : g.progress (Derivation.current ⟨earlier⟩) = .inProgress :=
    Grammar.progress_eq_inProgress hg (List.mem_of_getElem? hget) happly
  refine ⟨⟨hc.grammarId_eq, hfollows, hc.chains_nodup, ?_⟩, hprogress⟩
  simp only [stageable, progress, hprogress]

/-- Resetting repairs the derivation and what is staged, so coherence needs no more than the right
rules and distinct chains of the entries. -/
theorem coherent_reset (hg : g.WellFormed) (hid : h.grammarId = g.id)
    (hn : (h.saved.map (·.steps)).Nodup) : h.reset.Coherent g where
  grammarId_eq := hid
  follows := .start
  chains_nodup := hn
  stagedId_eq := (stageable_of_inProgress (h := h.reset) (progress_start hg)).symm

theorem Coherent.reset (hg : g.WellFormed) (hc : h.Coherent g) : h.reset.Coherent g :=
  coherent_reset hg hc.grammarId_eq hc.chains_nodup

/-- Among entries with distinct chains, looking for a chain finds the one entry that has it. -/
theorem find?_chain_eq_some_iff {saved : List Entry} (hn : (saved.map (·.steps)).Nodup)
    {chain : List Step} {e : Entry} :
    saved.find? (·.steps = chain) = some e ↔ e ∈ saved ∧ e.steps = chain := by
  constructor
  · intro hfind
    exact ⟨List.mem_of_find?_eq_some hfind, by simpa using List.find?_some hfind⟩
  · rintro ⟨he, rfl⟩
    induction saved with
    | nil => cases he
    | cons x rest ih =>
      obtain ⟨hnew, hrest⟩ := List.nodup_cons.mp hn
      rcases List.mem_cons.mp he with rfl | he
      · simp
      · have hne : x.steps ≠ e.steps := fun heq => hnew (List.mem_map.mpr ⟨e, he, heq.symm⟩)
        rw [List.find?_cons_of_neg (by simpa using hne)]
        exact ih hrest he

theorem find?_chain_filter {saved : List Entry} (hn : (saved.map (·.steps)).Nodup)
    (id : String) (chain : List Step) :
    (saved.filter (·.id ≠ id)).find? (·.steps = chain) =
      (saved.find? (·.steps = chain)).filter (·.id ≠ id) := by
  have hkept : ((saved.filter (·.id ≠ id)).map (·.steps)).Nodup :=
    hn.sublist (List.filter_sublist.map _)
  ext e
  rw [find?_chain_eq_some_iff hkept, Option.filter_eq_some_iff, find?_chain_eq_some_iff hn,
    List.mem_filter]
  exact and_right_comm

/-- Removing a name takes the staged entry away exactly if it has that name, because no other
entry has its chain. -/
theorem stageable_remove (hn : (h.saved.map (·.steps)).Nodup) (id : String) :
    (h.remove id).2.stageable g =
      if h.stageable g = some id then none else h.stageable g := by
  cases hp : h.progress g with
  | inProgress =>
    rw [stageable_of_inProgress hp, stageable_of_inProgress (h := (h.remove id).2) hp]
    rfl
  | completed =>
    rw [stageable_of_completed hp, stageable_of_completed (h := (h.remove id).2) hp]
    change ((h.saved.filter (·.id ≠ id)).find? (·.steps = h.derivation.steps)).map (·.id) = _
    rw [find?_chain_filter hn]
    cases hfind : h.saved.find? (·.steps = h.derivation.steps) with
    | none => rfl
    | some e =>
      rw [Option.filter_some]
      by_cases hid : e.id = id <;> simp [hid]

theorem Coherent.remove (hc : h.Coherent g) (id : String) : (h.remove id).2.Coherent g where
  grammarId_eq := hc.grammarId_eq
  follows := hc.follows
  chains_nodup := hc.chains_nodup.sublist (List.filter_sublist.map _)
  stagedId_eq := by
    rw [stageable_remove hc.chains_nodup, ← hc.stagedId_eq]
    rfl

/-- Every call keeps a history coherent. -/
theorem Coherent.call (hg : g.WellFormed) (hc : h.Coherent g) (c : Call) :
    (h.call g c).2.Coherent g := by
  cases c with
  | apply stamp index =>
    simp only [History.call]
    split
    next ha => exact hc.apply hg ha
    next => exact hc
  | undo =>
    simp only [History.call]
    split
    next hu => exact (hc.undo hg hu).1
    next => exact hc
  | reset => exact hc.reset hg
  | clear => exact hc.reset hg
  | remove id => exact hc.remove id

/-- A call keeps the rules that a history is for and the chains of its entries distinct, also if the
history is not coherent. -/
theorem call_keeps (h : History) (c : Call) (hn : (h.saved.map (·.steps)).Nodup) :
    (h.call g c).2.grammarId = h.grammarId ∧ ((h.call g c).2.saved.map (·.steps)).Nodup := by
  cases c with
  | apply stamp index =>
    simp only [History.call]
    split
    next outcome next ha =>
      obtain ⟨s, d, -, hcases⟩ := apply_cases ha
      rcases hcases with ⟨-, -, completion, kept, hrecord, -, rfl⟩ | ⟨-, -, rfl⟩
      · have hkept := record_eq_with_saved (Entry.freeze stamp d.steps) { h with derivation := d }
        have hchains := chains_nodup_record (h := { h with derivation := d })
          (Entry.freeze stamp d.steps) hn
        rw [hrecord] at hkept hchains
        have hid := congrArg History.grammarId hkept
        exact ⟨hid, hchains⟩
      · exact ⟨rfl, hn⟩
    next => exact ⟨rfl, hn⟩
  | undo =>
    simp only [History.call]
    split
    next hu =>
      obtain ⟨m, earlier, -, -, rfl⟩ := undo_eq_ok_iff.mp hu
      exact ⟨rfl, hn⟩
    next => exact ⟨rfl, hn⟩
  | reset => exact ⟨rfl, hn⟩
  | clear => exact ⟨rfl, hn⟩
  | remove id => exact ⟨rfl, hn.sublist (List.filter_sublist.map _)⟩

theorem Reachable.coherent (hg : g.WellFormed) (hr : h.Reachable g) : h.Coherent g := by
  induction hr with
  | new => exact coherent_new hg
  | restore s => exact coherent_restore hg s
  | call c _ ih => exact ih.call hg c

end History

end Sentential
