import Sentential.Proofs.Derivation.Replay
import Sentential.Proofs.History.Coherence

/-!
# Recording completed derivations once

An application that completes the derivation either finds the entry of its chain or adds one, and
nothing else adds an entry. Entries go only by removal under their own name. So a derivation whose
entry is still there can be completed again, in whatever way, without a trace among the entries.
-/

namespace Sentential

namespace Derivation

variable {g : Grammar} {d d' : Derivation}

theorem getLast?_steps (d : Derivation) : d.steps.getLast? = some d.last := by
  rw [← dropLast_steps_concat d, List.getLast?_concat]

theorem last_of_apply {index : UInt64} {s : Step} (h : d.apply g index = .ok (s, d')) :
    s = d'.last := by
  obtain ⟨r, form, -, -, -, rfl, rfl⟩ := apply_eq_ok_iff.mp h
  rfl

/-- No rule applies to a word, so no applications go on from one. -/
theorem eq_of_applyAll_of_completed (hg : g.WellFormed) {indices : List UInt64}
    (hdone : g.progress d.current = .completed) (h : d.applyAll g indices = .ok d') : d' = d := by
  cases indices with
  | nil => exact (Except.ok.inj h).symm
  | cons index rest =>
    rw [applyAll, List.foldlM_cons] at h
    obtain ⟨e, hfirst, -⟩ := bind_eq_ok_iff.mp h
    obtain ⟨r, form, -, hrule, hform, -⟩ := map_snd_apply_eq_ok_iff.mp hfirst
    rw [Grammar.progress_eq_inProgress hg (List.mem_of_getElem? hrule) hform] at hdone
    cases hdone

end Derivation

namespace History

variable {g : Grammar} {h h' next : History} {stamp : Stamp} {index : UInt64} {outcome : Outcome}

/-- The entry that keeps the chain of a derivation has its current form as its word. -/
theorem freeze_steps (stamp : Stamp) (d : Derivation) :
    Entry.freeze stamp d.steps = ⟨stamp.id, d.steps, stamp.time, d.current⟩ := by
  rw [Entry.freeze, Derivation.getLast?_steps]
  rfl

/-- The entry of a completed derivation is added behind all others, none of which has its chain. -/
structure Adds (g : Grammar) (stamp : Stamp) (h next : History) : Prop where
  completed : next.progress g = .completed
  chain_new : ∀ e ∈ h.saved, e.steps ≠ next.derivation.steps
  saved_eq : next.saved = h.saved ++ [Entry.freeze stamp next.derivation.steps]

/-- What becomes of the chain that a successful application makes, and of the entries: nothing while
a non-terminal is left, and else the entry that has the chain is found, or there is none and it is
added. -/
inductive Applied (g : Grammar) (stamp : Stamp) (h next : History) : Outcome → Prop
  | unfinished : next.progress g = .inProgress → next.saved = h.saved →
      Applied g stamp h next ⟨next.derivation.last, .inProgress, none⟩
  | known {e : Entry} : next.progress g = .completed → e ∈ h.saved →
      e.steps = next.derivation.steps → next.saved = h.saved →
      Applied g stamp h next ⟨next.derivation.last, .completed, some (.duplicate e.id)⟩
  | added : Adds g stamp h next →
      Applied g stamp h next ⟨next.derivation.last, .completed, some (.added stamp.id)⟩

theorem applied_of_apply (hg : g.WellFormed) (ha : h.apply g stamp index = .ok (outcome, next)) :
    Applied g stamp h next outcome := by
  obtain ⟨s, d, hd, ⟨-, hafter, completion, kept, hrecord, rfl, rfl⟩ | ⟨hnot, rfl, rfl⟩⟩ :=
    apply_cases ha
  · obtain rfl := Derivation.last_of_apply hd
    rcases record_cases (Entry.freeze stamp d.steps) { h with derivation := d } with
      ⟨e, hfind, heq⟩ | ⟨hnone, heq⟩
    · rw [heq] at hrecord
      obtain ⟨rfl, rfl⟩ := Prod.mk.inj hrecord
      have hsteps := List.find?_some hfind
      exact .known hafter (List.mem_of_find?_eq_some hfind) (of_decide_eq_true hsteps) rfl
    · rw [heq] at hrecord
      obtain ⟨rfl, rfl⟩ := Prod.mk.inj hrecord
      refine .added ⟨hafter, fun e he hsteps => ?_, rfl⟩
      exact List.find?_eq_none.mp hnone e he (decide_eq_true hsteps)
  · -- A rule applied, so the derivation was in progress before, and it is not completed now.
    obtain rfl := Derivation.last_of_apply hd
    have hbefore := Derivation.progress_eq_inProgress_of_apply hg hd
    have hafter : g.progress d.current = .inProgress := by
      cases hp : g.progress d.current with
      | inProgress => rfl
      | completed => exact absurd ⟨hbefore, hp⟩ hnot
    rw [hafter]
    exact .unfinished hafter rfl

/-- An application of a rule to the derivation is one to the history. -/
theorem exists_apply {s : Step} {d : Derivation} (stamp : Stamp)
    (hd : h.derivation.apply g index = .ok (s, d)) :
    ∃ outcome next, h.apply g stamp index = .ok (outcome, next) ∧ next.derivation = d := by
  cases ha : h.apply g stamp index with
  | error cause =>
    simp only [History.apply, hd] at ha
    split at ha <;> cases ha
  | ok pair =>
    obtain ⟨outcome, next⟩ := pair
    obtain ⟨s', hd'⟩ := apply_derivation ha
    rw [hd] at hd'
    exact ⟨outcome, next, rfl, (Prod.mk.inj (Except.ok.inj hd')).2.symm⟩

/-- Whether an entry stays when a call is made. -/
def Call.keeps : Call → Entry → Bool
  | .remove id, e => e.id ≠ id
  | _, _ => true

theorem Call.keeps_iff {c : Call} {e : Entry} : c.keeps e = true ↔ c ≠ .remove e.id := by
  cases c with
  | remove id =>
    simp only [keeps, decide_eq_true_eq, ne_eq, remove.injEq]
    exact not_congr eq_comm
  | _ => simp [keeps]

theorem Call.filter_keeps {c : Call} (hc : ∀ id, c ≠ .remove id) (saved : List Entry) :
    saved.filter c.keeps = saved :=
  List.filter_eq_self.mpr fun e _ => keeps_iff.mpr (hc e.id)

/-- A call keeps the entries in their order, except those that it removes, and at most adds the
entry of a derivation that an application has completed. -/
theorem call_saved (hg : g.WellFormed) (h : History) (c : Call) :
    (h.call g c).2.saved = h.saved.filter c.keeps ∨
      ∃ stamp index outcome next, c = .apply stamp index ∧ h.call g c = (none, next) ∧
        h.apply g stamp index = .ok (outcome, next) ∧ Adds g stamp h next := by
  cases c with
  | apply stamp index =>
    rw [Call.filter_keeps (by simp)]
    cases ha : h.apply g stamp index with
    | error cause => exact .inl (by rw [call, ha])
    | ok pair =>
      obtain ⟨outcome, next⟩ := pair
      have hcall : h.call g (.apply stamp index) = (none, next) := by rw [call, ha]
      rw [hcall]
      cases applied_of_apply hg ha with
      | unfinished _ hsaved => exact .inl hsaved
      | known _ _ _ hsaved => exact .inl hsaved
      | added hadds => exact .inr ⟨stamp, index, _, next, rfl, rfl, ha, hadds⟩
  | undo =>
    rw [Call.filter_keeps (by simp)]
    cases hu : h.undo with
    | error cause => exact .inl (by rw [call, hu])
    | ok pair =>
      obtain ⟨s, next⟩ := pair
      obtain ⟨m, earlier, -, -, rfl⟩ := undo_eq_ok_iff.mp hu
      exact .inl (by rw [call, hu])
  | reset => exact .inl (Call.filter_keeps (by simp) _).symm
  | clear => exact .inl (Call.filter_keeps (by simp) _).symm
  | remove id => exact .inl rfl

theorem filter_prefix_call (hg : g.WellFormed) (h : History) (c : Call) :
    h.saved.filter c.keeps <+: (h.call g c).2.saved := by
  rcases call_saved hg h c with hsaved | ⟨stamp, index, outcome, next, rfl, hcall, -, hadds⟩
  · exact ⟨[], by rw [hsaved, List.append_nil]⟩
  · rw [hcall, hadds.saved_eq, Call.filter_keeps (by simp)]
    exact List.prefix_append _ _

/-- Over a run the entries that no call removes stay, in their order and before all later ones. -/
theorem filter_prefix_run (hg : g.WellFormed) (h : History) (calls : List Call) :
    h.saved.filter (fun e => calls.all (·.keeps e)) <+: (h.run g calls).saved := by
  induction calls generalizing h with
  | nil => exact ⟨[], by simp [run]⟩
  | cons c rest ih =>
    have hboth : h.saved.filter (fun e => (c :: rest).all (·.keeps e)) =
        (h.saved.filter c.keeps).filter fun e => rest.all (·.keeps e) := by
      simp [List.filter_filter, Bool.and_comm]
    rw [hboth]
    exact ((filter_prefix_call hg h c).filter _).trans (ih (h.call g c).2)

theorem Coherent.eq_of_chain_eq (hc : h.Coherent g) {e e' : Entry} (he : e ∈ h.saved)
    (he' : e' ∈ h.saved) (hsteps : e.steps = e'.steps) : e = e' := by
  have hfind := (find?_chain_eq_some_iff hc.chains_nodup).mpr ⟨he, hsteps⟩
  have hfind' := (find?_chain_eq_some_iff hc.chains_nodup).mpr ⟨he', rfl⟩
  exact Option.some.inj (hfind.symm.trans hfind')

/-- An application that makes the chain of an entry finds the entry and leaves all entries alone. -/
theorem Coherent.apply_known (hg : g.WellFormed) (hc : h.Coherent g) {e : Entry}
    (he : e ∈ h.saved) (ha : h.apply g stamp index = .ok (outcome, next))
    (hsteps : e.steps = next.derivation.steps) :
    next.saved = h.saved ∧ (next.progress g = .completed →
      outcome = ⟨next.derivation.last, .completed, some (.duplicate e.id)⟩) := by
  cases applied_of_apply hg ha with
  | unfinished hprogress hsaved =>
    refine ⟨hsaved, fun hdone => ?_⟩
    rw [hprogress] at hdone
    cases hdone
  | @known e' _ he' hsteps' hsaved =>
    obtain rfl := hc.eq_of_chain_eq he he' (hsteps.trans hsteps'.symm)
    exact ⟨hsaved, fun _ => rfl⟩
  | added hadds => exact absurd hsteps (hadds.chain_new e he)

/-- The staged entry of a coherent history follows from the rest of it. -/
theorem Coherent.eq_of_derivation_eq (hc : h.Coherent g) (hc' : h'.Coherent g)
    (hderivation : h.derivation = h'.derivation) (hsaved : h.saved = h'.saved) : h = h' := by
  obtain ⟨id, d, saved, staged⟩ := h
  obtain ⟨id', d', saved', staged'⟩ := h'
  obtain rfl : d = d' := hderivation
  obtain rfl : saved = saved' := hsaved
  obtain rfl : id = id' := hc.grammarId_eq.trans hc'.grammarId_eq.symm
  obtain rfl : staged = staged' := hc.stagedId_eq.trans hc'.stagedId_eq.symm
  rfl

theorem Coherent.run (hg : g.WellFormed) (hc : h.Coherent g) (calls : List Call) :
    (h.run g calls).Coherent g := by
  induction calls generalizing h with
  | nil => exact hc
  | cons c rest ih => exact ih (hc.call hg c)

/-- A completed derivation whose entry is there can be undone and completed again by the same rule,
which gives the same history. -/
theorem Coherent.exists_redo (hg : g.WellFormed) (hc : h.Coherent g)
    (hdone : h.progress g = .completed) {e : Entry} (he : e ∈ h.saved)
    (hsteps : e.steps = h.derivation.steps) :
    ∃ step back index, h.undo = .ok (step, back) ∧ step.ordinal = some (index + 1) ∧
      ∀ stamp, back.apply g stamp index =
        .ok (⟨step, .completed, some (.duplicate e.id)⟩, h) := by
  cases hmoves : h.derivation.moves with
  | nil =>
    have hstart : h.derivation = Derivation.start := congrArg Derivation.mk hmoves
    rw [progress, hstart, Derivation.current_start, progress_start hg] at hdone
    cases hdone
  | cons m earlier =>
    have hpush : h.derivation = Derivation.push ⟨earlier⟩ m := congrArg Derivation.mk hmoves
    obtain ⟨-, r, hrule, happly⟩ := (hpush ▸ hc.follows).of_push
    obtain ⟨index, hindex, hlt, hget⟩ := Derivation.exists_index_of_rule? hrule
    have hundo := undo_eq_ok_iff.mpr ⟨m, earlier, hmoves, rfl, rfl⟩
    have hback := (hc.undo hg hundo).1
    have hlast : h.derivation.last = m.toStep := by rw [hpush]; rfl
    have hagain : Derivation.apply g index ⟨earlier⟩ = .ok (m.toStep, h.derivation) := by
      rw [hpush]
      refine Derivation.apply_eq_ok_iff.mpr ⟨r, m.form, hlt, hget, happly, ?_, ?_⟩ <;> rw [hindex]
      rfl
    refine ⟨_, _, index, hundo, by rw [Move.toStep, hindex], fun stamp => ?_⟩
    obtain ⟨outcome, next, ha, hderivation⟩ :=
      exists_apply (h := { h with derivation := ⟨earlier⟩, stagedId := none }) stamp hagain
    obtain ⟨hsaved, houtcome⟩ := hback.apply_known hg he ha (by rw [hsteps, hderivation])
    obtain rfl := (hback.apply hg ha).eq_of_derivation_eq hc hderivation hsaved
    rw [ha, houtcome hdone, hlast]

/-- Rules applied one after another leave the entries alone, if they do not complete the derivation
or if the entry of the chain that they complete is there. -/
theorem run_applications (hg : g.WellFormed) {applications : List (Stamp × UInt64)}
    {d : Derivation} (hall : h.derivation.applyAll g (applications.map (·.2)) = .ok d)
    (hkept : g.progress d.current = .completed → ∃ e ∈ h.saved, e.steps = d.steps) :
    (h.run g (applications.map fun (stamp, index) => .apply stamp index)).derivation = d ∧
      (h.run g (applications.map fun (stamp, index) => .apply stamp index)).saved = h.saved := by
  induction applications generalizing h with
  | nil => exact ⟨Except.ok.inj hall, rfl⟩
  | cons first rest ih =>
    obtain ⟨stamp, index⟩ := first
    rw [Derivation.applyAll, List.map_cons, List.foldlM_cons] at hall
    obtain ⟨d', hfirst, hrest⟩ := bind_eq_ok_iff.mp hall
    obtain ⟨r, form, hindex, hrule, hform, rfl⟩ := Derivation.map_snd_apply_eq_ok_iff.mp hfirst
    obtain ⟨outcome, next, ha, hderivation⟩ :=
      exists_apply stamp (Derivation.apply_eq_ok_iff.mpr ⟨r, form, hindex, hrule, hform, rfl, rfl⟩)
    have hnext : (h.call g (.apply stamp index)).2 = next := by rw [call, ha]
    rw [← hderivation] at hrest
    have hsaved : next.saved = h.saved := by
      cases applied_of_apply hg ha with
      | unfinished _ hsaved => exact hsaved
      | known _ _ _ hsaved => exact hsaved
      | added hadds =>
        -- The derivation is completed already, so its chain is the one that has an entry.
        obtain rfl := Derivation.eq_of_applyAll_of_completed hg hadds.completed hrest
        obtain ⟨e, he, hsteps⟩ := hkept hadds.completed
        exact absurd hsteps (hadds.chain_new e he)
    rw [List.map_cons, run, List.foldl_cons, hnext, ← hsaved]
    exact ih hrest (hsaved ▸ hkept)

/-- A completed derivation whose entry is there can be reset and completed again by the same rules,
which gives the same history. -/
theorem Coherent.run_reset (hg : g.WellFormed) (hc : h.Coherent g) {e : Entry} (he : e ∈ h.saved)
    (hsteps : e.steps = h.derivation.steps) {applications : List (Stamp × UInt64)}
    (hall : Derivation.start.applyAll g (applications.map (·.2)) = .ok h.derivation) :
    h.reset.run g (applications.map fun (stamp, index) => .apply stamp index) = h := by
  obtain ⟨hderivation, hsaved⟩ :=
    run_applications (h := h.reset) hg hall fun _ => ⟨e, he, hsteps⟩
  exact ((hc.reset hg).run hg _).eq_of_derivation_eq hc hderivation hsaved

end History

/-- What the outcome of an application tells about the entries before and after it. -/
structure Outcome.Records (outcome : Outcome) (g : Grammar) (h next : History) : Prop where
  progress_eq : outcome.progress = next.progress g
  completion_iff : outcome.completion.isSome = true ↔ outcome.progress = .completed
  added_iff : (∃ id, outcome.completion = some (.added id)) ↔
    outcome.progress = .completed ∧ ∀ e ∈ h.saved, e.steps ≠ next.derivation.steps
  saved_of_added : ∀ id, outcome.completion = some (.added id) →
    ∃ e, next.saved = h.saved ++ [e] ∧ e.id = id ∧ e.steps = next.derivation.steps ∧
      e.finalWord = next.derivation.current
  saved_of_duplicate : ∀ id, outcome.completion = some (.duplicate id) → next.saved = h.saved ∧
    ∃ e, e.id = id ∧ ∀ e', e' ∈ h.saved ∧ e'.steps = next.derivation.steps ↔ e' = e
  saved_of_none : outcome.completion = none → next.saved = h.saved
  kept : outcome.progress = .completed → ∃ e ∈ next.saved, e.steps = next.derivation.steps

namespace History

variable {g : Grammar} {h next : History} {stamp : Stamp} {index : UInt64} {outcome : Outcome}

theorem Coherent.records_of_apply (hg : g.WellFormed) (hc : h.Coherent g)
    (ha : h.apply g stamp index = .ok (outcome, next)) : outcome.Records g h next := by
  cases applied_of_apply hg ha with
  | unfinished hprogress hsaved =>
    exact ⟨hprogress.symm, by simp, by simp, by simp, by simp, fun _ => hsaved, by simp⟩
  | @known e hprogress he hsteps hsaved =>
    refine ⟨hprogress.symm, by simp, by simpa using ⟨e, he, hsteps⟩, by simp, ?_, by simp,
      fun _ => ⟨e, hsaved ▸ he, hsteps⟩⟩
    rintro id ⟨⟩
    refine ⟨hsaved, e, rfl, fun e' => ⟨fun ⟨he', hsteps'⟩ => ?_, ?_⟩⟩
    · exact hc.eq_of_chain_eq he' he (hsteps'.trans hsteps.symm)
    · rintro rfl
      exact ⟨he, hsteps⟩
  | added hadds =>
    have hsaved := hadds.saved_eq
    rw [freeze_steps] at hsaved
    refine ⟨hadds.completed.symm, by simp, by simpa using hadds.chain_new, ?_, by simp, by simp,
      fun _ => ⟨_, hsaved ▸ List.mem_append_right _ (List.mem_singleton_self _), rfl⟩⟩
    rintro id ⟨⟩
    exact ⟨_, hsaved, rfl, rfl, rfl⟩

/-- The entries of a reachable history are kept once each. An application adds the chain that it
completes unless it has an entry, removal takes away what has the name, and no other call touches an
entry. So an entry stays while it is not removed, and as long as it stays its derivation can be
completed again, after undoing or from the start, without a change. -/
theorem reachable_records_once (hg : g.Buildable) (hr : h.Reachable g) :
    (∀ stamp index outcome next, h.apply g stamp index = .ok (outcome, next) →
        outcome.Records g h next) ∧
      (∀ c : Call, match c, h.call g c with
        | _, (some _, next) => next.saved = h.saved
        | .apply _ _, (none, next) => next.saved = h.saved ∨ ∃ e, next.saved = h.saved ++ [e]
        | .remove id, (none, next) => next.saved = h.saved.filter (·.id ≠ id)
        | _, (none, next) => next.saved = h.saved) ∧
      (∀ e ∈ h.saved, ∀ calls : List Call, (∀ c ∈ calls, c ≠ .remove e.id) →
        e ∈ (h.run g calls).saved ∧
          ∀ stamp index outcome next, (h.run g calls).apply g stamp index = .ok (outcome, next) →
            next.derivation.steps = e.steps → next.saved = (h.run g calls).saved ∧
              (outcome.progress = .completed → outcome.completion = some (.duplicate e.id))) ∧
      ∀ e ∈ h.saved, e.steps = h.derivation.steps → h.progress g = .completed →
        (∃ step back index, h.undo = .ok (step, back) ∧ step.ordinal = some (index + 1) ∧
          ∀ stamp, back.apply g stamp index =
            .ok (⟨step, .completed, some (.duplicate e.id)⟩, h)) ∧
        ∀ applications : List (Stamp × UInt64),
          Derivation.start.applyAll g (applications.map (·.2)) = .ok h.derivation →
            h.reset.run g (applications.map fun (stamp, index) => .apply stamp index) = h := by
  have hwf := hg.wellFormed
  have hc := hr.coherent hwf
  refine ⟨fun stamp index outcome next ha => hc.records_of_apply hwf ha, fun c => ?_,
    fun e he calls hcalls => ?_, fun e he hsteps hdone => ⟨hc.exists_redo hwf hdone he hsteps,
      fun applications hall => hc.run_reset hwf he hsteps hall⟩⟩
  · rcases call_saved hwf h c with hsaved | ⟨stamp, index, outcome, next, rfl, hcall, -, hadds⟩
    · cases hcall : h.call g c with
      | mk cause next =>
        rw [hcall] at hsaved
        cases c with
        | apply stamp index =>
          rw [Call.filter_keeps (by simp)] at hsaved
          cases cause with
          | none => exact .inl hsaved
          | some _ => exact hsaved
        | remove id =>
          cases hcall
          rfl
        | _ =>
          rw [Call.filter_keeps (by simp)] at hsaved
          cases cause <;> exact hsaved
    · rw [hcall]
      exact .inr ⟨_, hadds.saved_eq⟩
  · have hstays : e ∈ (h.run g calls).saved := by
      refine (filter_prefix_run hwf h calls).mem (List.mem_filter.mpr ⟨he, ?_⟩)
      exact List.all_eq_true.mpr fun c hmem => Call.keeps_iff.mpr (hcalls c hmem)
    refine ⟨hstays, fun stamp index outcome next ha hsteps => ?_⟩
    have hrun := hc.run hwf calls
    obtain ⟨hsaved, houtcome⟩ := hrun.apply_known hwf hstays ha hsteps.symm
    refine ⟨hsaved, fun hdone => ?_⟩
    rw [(hrun.records_of_apply hwf ha).progress_eq] at hdone
    rw [houtcome hdone]

/-- The entry that the run on the small grammar adds is found again when the last step of the run is
undone and made once more. -/
theorem reachable_records_once_sample :
    Grammar.sample.Buildable ∧ sampleRun.Reachable Grammar.sample ∧
      sampleRun.saved.map (·.id) = ["first"] ∧
      ∃ step back index, sampleRun.undo = .ok (step, back) ∧ step.ordinal = some (index + 1) ∧
        ∀ stamp, back.apply Grammar.sample stamp index =
          .ok (⟨step, .completed, some (.duplicate "first")⟩, sampleRun) := by
  have hsaved : sampleRun.saved =
      [Entry.freeze ⟨"first", Calendar.Timestamp.epoch⟩ sampleRun.derivation.steps] := rfl
  obtain ⟨-, -, -, hagain⟩ :=
    reachable_records_once Grammar.sample_buildable sampleRun_reachable
  obtain ⟨hredo, -⟩ := hagain _ (hsaved ▸ List.mem_singleton_self _) rfl rfl
  exact ⟨Grammar.sample_buildable, sampleRun_reachable, rfl, hredo⟩

end History

end Sentential
