import Mathlib.Data.List.Induction
import Sentential.Proofs.History.Genuine
import Sentential.Proofs.Session.Persistence

/-!
# Runs that go back to earlier documents

A run may at any time open a document again that it has had before, so its journal keeps all
sessions it has passed through. In each of them the entries in use and the entries in the document
are genuine for the grammar in use, as long as no name is drawn twice and fingerprints tell the
rules of the run apart.
-/

namespace Sentential

namespace Session

/-- What a run is made of: commands, and the opening of the document of a session before, whose age
counts the actions since. -/
inductive Action where
  | command (c : Command)
  | reopen (age : Nat)

def Action.grammar? : Action → Option Grammar
  | .command c => c.grammar?
  | .reopen _ => none

/-- The name that an action draws, in case it completes a derivation. -/
def Action.drawn? : Action → Option String
  | .command c => c.stamp?.map (·.id)
  | .reopen _ => none

/-- The sessions of a run: the present one and those before it, the latest first. -/
structure Journal where
  present : Session
  past : List Session

namespace Journal

def new (u : User) : Journal where
  present := Session.new u
  past := []

def sessions (j : Journal) : List Session :=
  j.present :: j.past

/-- The session that an action leads to. A document that is refused, or that there has never been,
leaves the present session in place. -/
def next (j : Journal) : Action → Session
  | .command c => j.present.perform c
  | .reopen age =>
    match j.sessions[age]? with
    | none => j.present
    | some s =>
      match ofDocument s.document with
      | .ok opened => opened
      | .error _ => j.present

def act (j : Journal) (a : Action) : Journal where
  present := j.next a
  past := j.sessions

def run (j : Journal) (actions : List Action) : Journal :=
  actions.foldl act j

/-- The grammars that a run takes into use. -/
def grammars (actions : List Action) : List Grammar :=
  actions.filterMap Action.grammar?

/-- The names that a run draws. -/
def drawn (actions : List Action) : List String :=
  actions.filterMap Action.drawn?

/-- The grammars taken into use are buildable, different rules among them have different
fingerprints, and no name is drawn twice. -/
structure Admissible (actions : List Action) : Prop where
  buildable : ∀ g ∈ grammars actions, g.Buildable
  separated : ∀ g ∈ grammars actions, ∀ g' ∈ grammars actions, g.id = g'.id → g.rules = g'.rules
  drawn_nodup : (drawn actions).Nodup

end Journal

/-- The invariant of the sessions of a run, given the grammars used and the names drawn so far: the
entries in use and the entries in the document are kept for the grammar in use. -/
structure Sound (used : List Grammar) (drawn : List String) (s : Session) : Prop where
  coherent : s.Coherent
  grammar_used : ∀ g ∈ s.grammar, g ∈ used
  kept : ∀ a ∈ s.active, a.grammar.Keeps drawn a.history.saved
  stored : ∀ a ∈ s.active, ∀ snapshot ∈ s.document.history, a.grammar.Keeps drawn snapshot.saved

namespace Sound

variable {used used' : List Grammar} {drawn drawn' : List String} {s next : Session}

theorem new (u : User) : (Session.new u).Sound [] [] where
  coherent := coherent_new u
  grammar_used := by simp [Session.new, Session.grammar]
  kept := by simp [Session.new]
  stored := by simp [Session.new]

theorem mono (hs : s.Sound used drawn) (hused : used ⊆ used') (hdrawn : drawn ⊆ drawn') :
    s.Sound used' drawn' where
  coherent := hs.coherent
  grammar_used g hg := hused (hs.grammar_used g hg)
  kept a ha := (hs.kept a ha).mono hdrawn
  stored a ha snapshot hsnapshot := (hs.stored a ha snapshot hsnapshot).mono hdrawn

/-- The grammar of a session after a command is the one before it. -/
theorem exists_active {stamp : Option Stamp} (he : s.Effect stamp next) {a : Active}
    (ha : next.active = some a) : ∃ b, s.active = some b ∧ b.grammar = a.grammar := by
  have hgrammar := he.calls.grammar_eq
  rw [Session.grammar, ha, Session.grammar] at hgrammar
  obtain ⟨b, hb, heq⟩ := Option.map_eq_some_iff.mp hgrammar.symm
  exact ⟨b, hb, heq⟩

theorem effect (hs : s.Sound used drawn) {stamp : Option Stamp} (he : s.Effect stamp next)
    (hfresh : ∀ name ∈ stamp.map (·.id), name ∉ drawn) :
    next.Sound used (drawn ++ (stamp.map (·.id)).toList) := by
  have hkept : ∀ a ∈ next.active,
      a.grammar.Keeps (drawn ++ (stamp.map (·.id)).toList) a.history.saved := by
    intro a ha
    rcases he.active with hsame | ⟨b, c, hactive, hstamp, hnext⟩
    · exact (hs.kept a (hsame ▸ ha)).mono (List.subset_append_left _ _)
    · obtain rfl := Option.some.inj (hnext.symm.trans ha)
      have hcall := (hs.kept b hactive).call (hs.coherent.buildable b hactive).wellFormed
        (hs.coherent.history_coherent b hactive) (c := c)
        fun st hst => hfresh st.id (Option.mem_map_of_mem _ (hstamp st hst))
      refine hcall.mono (List.append_subset.mpr ⟨List.subset_append_left _ _, ?_⟩)
      intro name hname
      obtain ⟨st, hst, rfl⟩ := Option.map_eq_some_iff.mp (Option.mem_toList.mp hname)
      exact List.mem_append_right _
        (Option.mem_toList.mpr (Option.mem_map_of_mem _ (hstamp st hst)))
  refine ⟨hs.coherent.of_calls he.calls, he.calls.grammar_eq ▸ hs.grammar_used, hkept, ?_⟩
  intro a ha snapshot hsnapshot
  rcases he.document with hsame | hnone | ⟨b, hb, hstored⟩
  · obtain ⟨b, hb, heq⟩ := exists_active he ha
    rw [hsame] at hsnapshot
    rw [← heq]
    exact (hs.stored b hb snapshot hsnapshot).mono (List.subset_append_left _ _)
  · rw [hnone] at hsnapshot
    cases hsnapshot
  · -- The document holds the history in use.
    obtain rfl := Option.some.inj (hb.symm.trans ha)
    rw [hstored, history_withHistory, Snapshot.ofText?_text] at hsnapshot
    obtain rfl := Option.some.inj hsnapshot
    exact hkept b hb

/-- The entries survive the taking into use of a grammar only if it has the same rules, and then
they are genuine for it too. -/
theorem setGrammar (hs : s.Sound used drawn) {g : Grammar} (hg : g.Buildable)
    (hseparated : ∀ old ∈ used, old.id = g.id → old.rules = g.rules) :
    (s.setGrammar g).Sound (used ++ [g]) drawn := by
  have hcoherent := hs.coherent.setGrammar hg fun old hold =>
    hseparated old (hs.grammar_used old hold)
  have hused : ∀ g' ∈ (s.setGrammar g).grammar, g' ∈ used ++ [g] := by
    rw [setGrammar_grammar]
    rintro g' ⟨⟩
    exact List.mem_append_right _ (List.mem_singleton_self g)
  rcases setGrammar_cases g s with ⟨a, hactive, hid, hset⟩ | ⟨-, hset⟩
  · have hrules : a.grammar.rules = g.rules :=
      hseparated a.grammar (hs.grammar_used _ (by simp [Session.grammar, hactive]))
        ((hs.coherent.history_coherent a hactive).grammarId_eq.symm.trans hid)
    have hold := (hs.coherent.buildable a hactive).wellFormed
    rw [hset] at hcoherent hused ⊢
    refine ⟨hcoherent, hused, ?_, ?_⟩
    · rintro b ⟨⟩
      exact (hs.kept a hactive).of_rules_eq hold hg.wellFormed hrules
    · rintro b ⟨⟩ snapshot hsnapshot
      exact (hs.stored a hactive snapshot hsnapshot).of_rules_eq hold hg.wellFormed hrules
  · rw [hset] at hcoherent hused ⊢
    refine ⟨hcoherent, hused, ?_, ?_⟩
    · rintro b ⟨⟩
      exact .nil g drawn
    · rintro b ⟨⟩ snapshot ⟨⟩

/-- A document gives back the grammar that was in use, and of the entries no others than those that
it holds. -/
theorem reopen (hs : s.Sound used drawn) (hopen : ofDocument s.document = .ok next) :
    next.Sound used drawn := by
  have hcoherent := coherent_of_ofDocument hopen
  rw [ofDocument, hs.coherent.loads] at hopen
  cases hactive : s.active with
  | none =>
    rw [Session.grammar, hactive] at hopen
    obtain rfl := Except.ok.inj hopen
    exact ⟨hcoherent, by simp [Session.grammar], by simp, by simp⟩
  | some a =>
    rw [Session.grammar, hactive] at hopen
    obtain rfl := Except.ok.inj hopen
    refine ⟨hcoherent, ?_, ?_, ?_⟩
    · rintro g ⟨⟩
      exact hs.grammar_used a.grammar (by simp [Session.grammar, hactive])
    · rintro b ⟨⟩
      exact .restore (hs.stored a hactive)
    · rintro b ⟨⟩
      exact hs.stored a hactive

end Sound

namespace Journal

variable {j : Journal} {actions : List Action} {used : List Grammar} {names : List String}

theorem grammars_concat (actions : List Action) (a : Action) :
    grammars (actions ++ [a]) = grammars actions ++ a.grammar?.toList := by
  rw [grammars, List.filterMap_append, grammars]
  cases h : a.grammar? <;> simp [h]

theorem drawn_concat (actions : List Action) (a : Action) :
    drawn (actions ++ [a]) = drawn actions ++ a.drawn?.toList := by
  rw [drawn, List.filterMap_append, drawn]
  cases h : a.drawn? <;> simp [h]

/-- An action leads from a journal of sound sessions to a sound session. -/
theorem sound_next (hj : ∀ s ∈ j.sessions, s.Sound used names) {a : Action}
    (hbuildable : ∀ g ∈ a.grammar?, g.Buildable)
    (hseparated : ∀ g ∈ a.grammar?, ∀ old ∈ used, old.id = g.id → old.rules = g.rules)
    (hfresh : ∀ name ∈ a.drawn?, name ∉ names) :
    (j.next a).Sound (used ++ a.grammar?.toList) (names ++ a.drawn?.toList) := by
  have hpresent := hj j.present List.mem_cons_self
  cases a with
  | command c =>
    cases hgrammar : c.grammar? with
    | none =>
      simp only [next, Action.grammar?, hgrammar, Option.toList_none, List.append_nil]
      exact hpresent.effect (j.present.effect_perform hgrammar) hfresh
    | some g =>
      cases c with
      | setGrammar g' =>
        obtain rfl : g' = g := Option.some.inj hgrammar
        have hsound := hpresent.setGrammar (hbuildable g' rfl) (hseparated g' rfl)
        exact hsound.mono (List.Subset.refl _) (List.subset_append_left _ _)
      | _ => cases hgrammar
  | reopen age =>
    simp only [next, Action.grammar?, Action.drawn?, Option.toList_none, List.append_nil]
    split
    next => exact hpresent
    next s hs =>
      split
      next opened hopen => exact (hj s (List.mem_of_getElem? hs)).reopen hopen
      next => exact hpresent

theorem Admissible.of_concat {a : Action} (ha : Admissible (actions ++ [a])) :
    Admissible actions where
  buildable g hg := ha.buildable g (grammars_concat actions a ▸ List.mem_append_left _ hg)
  separated g hg g' hg' := ha.separated g (grammars_concat actions a ▸ List.mem_append_left _ hg)
    g' (grammars_concat actions a ▸ List.mem_append_left _ hg')
  drawn_nodup := (List.nodup_append.mp (drawn_concat actions a ▸ ha.drawn_nodup)).1

/-- All sessions of an admissible run are sound for the grammars and names of the run. -/
theorem sound_run (u : User) (ha : Admissible actions) :
    ∀ s ∈ ((new u).run actions).sessions, s.Sound (grammars actions) (drawn actions) := by
  induction actions using List.reverseRecOn with
  | nil =>
    intro s hs
    obtain rfl := List.mem_singleton.mp hs
    exact .new u
  | append_singleton actions a ih =>
    have hbefore := ih ha.of_concat
    have hrun : (new u).run (actions ++ [a]) = ((new u).run actions).act a := by
      rw [run, List.foldl_append]
      rfl
    have hmem : ∀ g ∈ a.grammar?, g ∈ grammars (actions ++ [a]) := by
      intro g hg
      rw [grammars_concat]
      exact List.mem_append_right _ (Option.mem_toList.mpr hg)
    have hnames := ha.drawn_nodup
    rw [drawn_concat, List.nodup_append] at hnames
    have hnext := sound_next hbefore (a := a) (fun g hg => ha.buildable g (hmem g hg)) ?_ ?_
    · rw [hrun, grammars_concat, drawn_concat]
      intro s hs
      rcases List.mem_cons.mp hs with rfl | hs
      · exact hnext
      · exact (hbefore s hs).mono (List.subset_append_left _ _) (List.subset_append_left _ _)
    · intro g hg old hold
      refine ha.separated old ?_ g (hmem g hg)
      rw [grammars_concat]
      exact List.mem_append_left _ hold
    · intro name hname hold
      exact hnames.2.2 name hold name (Option.mem_toList.mpr hname) rfl

theorem exists_ofDocument_of_loads {s : Session} {g : Option Grammar}
    (hloads : s.document.loadGrammar = .ok g) : ∃ opened, ofDocument s.document = .ok opened :=
  (exists_ofDocument hloads).imp fun _ => And.left

/-- At every moment of a run, whatever documents it has opened again, the document can be opened,
and the entries of the session are genuine for the grammar in use and have chains and names of their
own. Every application has a name at hand, which it leaves unused unless it completes a
derivation. -/
theorem entries_genuine (u : User) (ha : Admissible actions) :
    ∀ s ∈ ((new u).run actions).sessions, (∃ opened, ofDocument s.document = .ok opened) ∧
      ∀ a ∈ s.active, (∀ e ∈ a.history.saved, e.Genuine a.grammar) ∧
        (a.history.saved.map (·.steps)).Nodup ∧ (a.history.saved.map (·.id)).Nodup := by
  intro s hs
  have hsound := sound_run u ha s hs
  refine ⟨exists_ofDocument_of_loads hsound.coherent.loads, fun a hactive => ?_⟩
  have hkept := hsound.kept a hactive
  exact ⟨hkept.genuine, hkept.chains_nodup, hkept.ids_nodup⟩

/-- A run that completes a derivation, changes the alphabets but not the rules, persists, removes
the entry, and goes back to the document that still has it. -/
def sampleActions : List Action :=
  let stamp (name : String) : Stamp := ⟨name, Calendar.Timestamp.epoch⟩
  [.command (.setGrammar Grammar.sample), .command (.apply (stamp "unused") 1),
    .command (.pressKey (stamp "spare") '2'), .command (.apply (stamp "left") 3),
    .command (.pressKey (stamp "first") '3'),
    .command (.setGrammar { Grammar.sample with terminals := 'в' :: Grammar.sample.terminals }),
    .command .persist, .command (.remove "first"), .reopen 1]

theorem sampleActions_admissible : Admissible sampleActions where
  buildable := by decide
  separated := by decide +kernel
  drawn_nodup := by decide

/-- At the end of that run the removed entry is back, and it is genuine. -/
theorem entries_genuine_sample :
    Admissible sampleActions ∧ ∃ a, ((new sampleUser).run sampleActions).present.active = some a ∧
      a.history.saved.map (·.id) = ["first"] ∧ ∀ e ∈ a.history.saved, e.Genuine a.grammar := by
  let journal := (new sampleUser).run sampleActions
  let written := ((new sampleUser).run (sampleActions.take 6)).present
  have hwritten : written ∈ journal.sessions := by
    have hthird : journal.sessions[3]? = some written := rfl
    exact List.mem_of_getElem? hthird
  have hcoherent := (sound_run sampleUser sampleActions_admissible written hwritten).coherent
  have hpresent : journal.present = written.persist := by
    change (match ofDocument written.persist.document with
      | .ok opened => opened
      | .error _ => (written.persist.remove "first").2) = written.persist
    rw [hcoherent.ofDocument_persist]
  have hids : written.active.map (·.history.saved.map (·.id)) = some ["first"] := by decide +kernel
  obtain ⟨a, hactive, ha⟩ := Option.map_eq_some_iff.mp hids
  have hopened : journal.present.active = some a := by rw [hpresent, persist_active, hactive]
  obtain ⟨-, hgenuine⟩ :=
    entries_genuine sampleUser sampleActions_admissible journal.present List.mem_cons_self
  exact ⟨sampleActions_admissible, a, hopened, ha, (hgenuine a hopened).1⟩

end Journal

end Session

end Sentential
