import Sentential.Proofs.History.Recording
import Sentential.Proofs.History.SameRules

/-!
# Genuine entries

An entry is genuine if its chain replays and ends, without a non-terminal, in the word of the entry.
Entries that are genuine and have chains and names of their own stay so under every call that has a
fresh name at hand, under restoring, and under a change to a grammar with the same rules.
-/

namespace Sentential

variable {g g' : Grammar}

/-- A completed derivation of a grammar, kept as it was completed. -/
structure Entry.Genuine (g : Grammar) (e : Entry) : Prop where
  replays : ∃ d, Derivation.replay g e.steps = .ok d
  ends : e.steps.getLast?.map (·.form) = some e.finalWord
  is_word : ∀ c ∈ e.finalWord, c ∉ g.nonTerminals

theorem Entry.genuine_iff {e : Entry} :
    e.Genuine g ↔ ∃ d : Derivation, d.Follows g ∧ d.steps = e.steps ∧ d.current = e.finalWord ∧
      g.progress d.current = .completed := by
  constructor
  · rintro ⟨⟨d, hreplay⟩, hends, hword⟩
    obtain ⟨hfollows, hsteps⟩ := Derivation.replay_eq_ok_iff.mp hreplay
    have hcurrent : d.current = e.finalWord := by
      rw [← hsteps, Derivation.getLast?_steps] at hends
      exact Option.some.inj hends
    exact ⟨d, hfollows, hsteps, hcurrent,
      Grammar.progress_eq_completed_iff.mpr (hcurrent ▸ hword)⟩
  · rintro ⟨d, hfollows, hsteps, hcurrent, hdone⟩
    refine ⟨⟨d, Derivation.replay_eq_ok_iff.mpr ⟨hfollows, hsteps⟩⟩, ?_,
      hcurrent ▸ Grammar.progress_eq_completed_iff.mp hdone⟩
    rw [← hsteps, Derivation.getLast?_steps, ← hcurrent]
    rfl

/-- What is frozen when a derivation is completed is genuine. -/
theorem Entry.genuine_freeze {d : Derivation} (hd : d.Follows g)
    (hdone : g.progress d.current = .completed) (stamp : Stamp) :
    (Entry.freeze stamp d.steps).Genuine g := by
  rw [History.freeze_steps]
  exact Entry.genuine_iff.mpr ⟨d, hd, rfl, rfl, hdone⟩

theorem Entry.Genuine.of_rules_eq (hg : g.WellFormed) (hg' : g'.WellFormed)
    (hrules : g.rules = g'.rules) {e : Entry} (he : e.Genuine g) : e.Genuine g' := by
  obtain ⟨d, hfollows, hsteps, hcurrent, hdone⟩ := Entry.genuine_iff.mp he
  refine Entry.genuine_iff.mpr ⟨d, hfollows.of_rules_eq hrules, hsteps, hcurrent, ?_⟩
  rw [hfollows.progress_eq hg hg' hrules, hdone]

/-- The entries that are restored are those of the snapshot, each chain once, if it belongs to the
rules. -/
theorem History.restore_saved (g : Grammar) (s : Snapshot) :
    (restore g (some s)).saved =
      if s.grammarId = g.id then ((new g).recordAll s.saved).saved else [] := by
  by_cases hid : s.grammarId = g.id
  · simp only [restore, hid, ↓reduceIte]
    cases Derivation.replay g s.steps with
    | ok d => split <;> rfl
    | error cause => split <;> rfl
  · simp only [restore, hid, ↓reduceIte]
    rfl

/-- The invariant of the entries kept for a grammar: they are genuine, and their chains and names
are distinct, the names being among those that have been drawn. -/
structure Grammar.Keeps (g : Grammar) (drawn : List String) (saved : List Entry) : Prop where
  genuine : ∀ e ∈ saved, e.Genuine g
  chains_nodup : (saved.map (·.steps)).Nodup
  ids_nodup : (saved.map (·.id)).Nodup
  ids_drawn : ∀ e ∈ saved, e.id ∈ drawn

namespace Grammar.Keeps

variable {drawn drawn' : List String} {saved kept : List Entry} {h : History}

theorem nil (g : Grammar) (drawn : List String) : g.Keeps drawn [] :=
  ⟨by simp, List.nodup_nil, List.nodup_nil, by simp⟩

theorem mono (hk : g.Keeps drawn saved) (hdrawn : drawn ⊆ drawn') : g.Keeps drawn' saved :=
  { hk with ids_drawn := fun e he => hdrawn (hk.ids_drawn e he) }

theorem sublist (hk : g.Keeps drawn saved) (hsub : kept.Sublist saved) : g.Keeps drawn kept where
  genuine e he := hk.genuine e (hsub.subset he)
  chains_nodup := hk.chains_nodup.sublist (hsub.map _)
  ids_nodup := hk.ids_nodup.sublist (hsub.map _)
  ids_drawn e he := hk.ids_drawn e (hsub.subset he)

theorem of_rules_eq (hg : g.WellFormed) (hg' : g'.WellFormed) (hrules : g.rules = g'.rules)
    (hk : g.Keeps drawn saved) : g'.Keeps drawn saved :=
  { hk with genuine := fun e he => (hk.genuine e he).of_rules_eq hg hg' hrules }

/-- A genuine entry with a new chain and a name that is drawn only now may be appended. -/
theorem concat (hk : g.Keeps drawn saved) {e : Entry} (he : e.Genuine g)
    (hchain : ∀ e' ∈ saved, e'.steps ≠ e.steps) (hid : e.id ∉ drawn) :
    g.Keeps (drawn ++ [e.id]) (saved ++ [e]) where
  genuine := Grammar.forall_mem_append_singleton hk.genuine he
  chains_nodup := by
    rw [List.map_append, List.map_singleton]
    refine Grammar.nodup_append_singleton hk.chains_nodup fun hmem => ?_
    obtain ⟨e', he', hsteps⟩ := List.mem_map.mp hmem
    exact hchain e' he' hsteps
  ids_nodup := by
    rw [List.map_append, List.map_singleton]
    refine Grammar.nodup_append_singleton hk.ids_nodup fun hmem => ?_
    obtain ⟨e', he', hsame⟩ := List.mem_map.mp hmem
    exact hid (hsame ▸ hk.ids_drawn e' he')
  ids_drawn := Grammar.forall_mem_append_singleton
    (fun e' he' => List.mem_append_left _ (hk.ids_drawn e' he')) (by simp)

/-- A call keeps the invariant if the name that it has at hand is fresh. -/
theorem call (hg : g.WellFormed) (hc : h.Coherent g) (hk : g.Keeps drawn h.saved)
    {c : History.Call} (hfresh : ∀ stamp ∈ c.stamp?, stamp.id ∉ drawn) :
    g.Keeps (drawn ++ (c.stamp?.map (·.id)).toList) (h.call g c).2.saved := by
  rcases History.call_saved hg h c with
    hsaved | ⟨stamp, index, outcome, next, rfl, hcall, ha, hadds⟩
  · rw [hsaved]
    exact (hk.sublist List.filter_sublist).mono (List.subset_append_left _ _)
  · rw [hcall, hadds.saved_eq]
    have hfollows := (hc.apply hg ha).follows
    exact hk.concat (Entry.genuine_freeze hfollows hadds.completed stamp) hadds.chain_new
      (hfresh stamp rfl)

/-- What is restored keeps the invariant if what was stored does. -/
theorem restore {s : Option Snapshot} (hk : ∀ snapshot ∈ s, g.Keeps drawn snapshot.saved) :
    g.Keeps drawn (History.restore g s).saved := by
  cases s with
  | none => exact nil g drawn
  | some snapshot =>
    have hstored := hk snapshot rfl
    rw [History.restore_saved]
    split
    next =>
      rw [History.recordAll_eq_append (h := History.new g) (by
        simpa [History.new] using hstored.chains_nodup)]
      exact hstored
    next => exact nil g drawn

end Grammar.Keeps

end Sentential
