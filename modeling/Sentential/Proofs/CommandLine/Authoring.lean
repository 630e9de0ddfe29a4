import Mathlib.Data.List.Sort
import Mathlib.Data.List.TakeWhile
import Sentential.CommandLine.Author
import Sentential.Proofs.Grammar.Section

/-!
# What authoring on the command line amounts to

Arguments that can be read ask for a plan: the edits in the order they are tried. With no window for
notices every edit of the plan that is rejected is skipped, and what the accepted ones leave is the
grammar to save. With any other window nothing is saved unless all of them are accepted. Two notices
are kept on the way, that of the latest report and the builder's own, which the next accepted edit
clears; since a run takes no time the former outlasts every edit, so no partial grammar gets through.
-/

namespace Sentential

/-- The grammar after an edit; a rejected edit leaves it as it was. -/
def Grammar.tryEdit (g : Grammar) (e : Edit) : Grammar :=
  (g.edit e).toOption.getD g

theorem Grammar.WellFormed.tryEdit {g : Grammar} (h : g.WellFormed) (e : Edit) :
    (g.tryEdit e).WellFormed := by
  rw [Grammar.tryEdit]
  cases he : g.edit e with
  | ok g' => exact Grammar.edit_wellFormed h he
  | error cause => exact h

/-- The grammar after some edits, of which those that are rejected are skipped. -/
def Grammar.tryEdits (g : Grammar) (es : List Edit) : Grammar :=
  es.foldl Grammar.tryEdit g

theorem Grammar.WellFormed.tryEdits {g : Grammar} (h : g.WellFormed) (es : List Edit) :
    (g.tryEdits es).WellFormed := by
  induction es generalizing g with
  | nil => exact h
  | cons e rest ih => exact ih (h.tryEdit e)

namespace CommandLine

/-! ### Plans -/

/-- The two sides of a rule, of which the left one holds no equals sign. -/
structure Equation where
  left : String
  right : String
  left_plain : '=' ∉ left.toList

def Equation.text (q : Equation) : String :=
  q.left ++ "=" ++ q.right

/-- The edits to try, group by group: rules to remove from the highest ordinal down, symbols to
remove, then symbols and rules to add. -/
structure Plan where
  removeRules : List Ordinal
  removeTerminals : List Char
  removeNonTerminals : List Char
  terminals : List String
  nonTerminals : List String
  rules : List Equation
  removeRules_falling : removeRules.Pairwise (· > ·)

/-- The edits of a plan in their order, each with the words that report its rejection. -/
def Plan.attempts (p : Plan) : List Attempt :=
  p.removeRules.map (fun n => ⟨s!"Cannot remove rule {n.toNat}", .removeRule n⟩)
    ++ p.removeTerminals.map (fun c => ⟨s!"Cannot remove terminal '{c}'", .removeTerminal c⟩)
    ++ p.removeNonTerminals.map
      (fun c => ⟨s!"Cannot remove non-terminal '{c}'", .removeNonTerminal c⟩)
    ++ p.terminals.map (fun s => ⟨s!"Cannot add terminal '{s}'", .addTerminal s⟩)
    ++ p.nonTerminals.map (fun s => ⟨s!"Cannot add non-terminal '{s}'", .addNonTerminal s⟩)
    ++ p.rules.map (fun q => ⟨s!"Cannot add rule '{q.text}'", .addRule q.left q.right⟩)

def Plan.edits (p : Plan) : List Edit :=
  p.attempts.map (·.edit)

/-- The grammar that a plan makes of another. While notices stay live every edit has to be accepted;
otherwise those that are rejected are skipped. -/
def Plan.LeadsTo (p : Plan) (window : Nat) (start g : Grammar) : Prop :=
  if window = 0 then start.tryEdits p.edits = g
  else p.edits.foldlM Grammar.edit start = .ok g

namespace GrammarArguments

/-- The arguments ask for a plan if they list what it edits; the rules to remove may be listed in any
order and more than once. -/
structure Asks (a : GrammarArguments) (p : Plan) : Prop where
  removeRules : ∀ n, n ∈ p.removeRules ↔ n ∈ a.removeRules
  removeTerminals : p.removeTerminals.map String.singleton = a.removeTerminals
  removeNonTerminals : p.removeNonTerminals.map String.singleton = a.removeNonTerminals
  terminals : p.terminals = a.terminals
  nonTerminals : p.nonTerminals = a.nonTerminals
  rules : p.rules.map Equation.text = a.rules

/-- Arguments that each are an edit: symbols to remove are single characters, and rules have an equals
sign. -/
structure Readable (a : GrammarArguments) : Prop where
  removeTerminals : ∀ s ∈ a.removeTerminals, s.toList.length = 1
  removeNonTerminals : ∀ s ∈ a.removeNonTerminals, s.toList.length = 1
  rules : ∀ s ∈ a.rules, '=' ∈ s.toList

/-- The grammar that authoring starts from: the stored one, or the bare one if there is none or a
fresh start is asked for. -/
def origin (a : GrammarArguments) (stored : Option Grammar) : Grammar :=
  if a.fresh then Grammar.bare else stored.getD Grammar.bare

end GrammarArguments

/-! ### Reading the arguments -/

theorem mem_insertFalling {n m : Ordinal} {ns : List Ordinal} :
    m ∈ insertFalling n ns ↔ m = n ∨ m ∈ ns := by
  fun_induction insertFalling n ns with
  | case1 => simp
  | case2 k rest hlt => simp
  | case3 => simp
  | case4 k rest _ _ ih => simp [ih, or_left_comm]

theorem insertFalling_pairwise {n : Ordinal} {ns : List Ordinal} (h : ns.Pairwise (· > ·)) :
    (insertFalling n ns).Pairwise (· > ·) := by
  fun_induction insertFalling n ns with
  | case1 => simp
  | case2 k rest hlt =>
    refine List.pairwise_cons.mpr ⟨fun m hm => ?_, h⟩
    rcases List.mem_cons.mp hm with rfl | hm
    · exact hlt
    · exact UInt64.lt_trans ((List.pairwise_cons.mp h).1 m hm) hlt
  | case3 => exact h
  | case4 k rest hlt hne ih =>
    obtain ⟨hk, hrest⟩ := List.pairwise_cons.mp h
    refine List.pairwise_cons.mpr ⟨fun m hm => ?_, ih hrest⟩
    rcases mem_insertFalling.mp hm with rfl | hm
    · exact UInt64.lt_of_le_of_ne (UInt64.not_lt.mp hlt) (Ne.symm hne)
    · exact hk m hm

theorem mem_falling {m : Ordinal} {ns : List Ordinal} : m ∈ falling ns ↔ m ∈ ns := by
  induction ns with
  | nil => exact Iff.rfl
  | cons n rest ih => rw [falling, List.foldr_cons, mem_insertFalling, ← falling, ih, List.mem_cons]

theorem falling_pairwise (ns : List Ordinal) : (falling ns).Pairwise (· > ·) := by
  induction ns with
  | nil => exact List.Pairwise.nil
  | cons n rest ih => exact insertFalling_pairwise ih

theorem readSymbol_singleton (c : Char) : readSymbol (String.singleton c) = .ok c := by
  simp [readSymbol, Symbol.sole?]

theorem length_of_readSymbol {s : String} {c : Char} (h : readSymbol s = .ok c) :
    s.toList.length = 1 := by
  unfold readSymbol at h
  split at h
  next hsole => simp [Symbol.sole?_eq_some_iff.mp hsole]
  next => cases h

theorem Equation.text_toList (q : Equation) :
    q.text.toList = q.left.toList ++ '=' :: q.right.toList := by
  simp [Equation.text]

theorem exists_equation {s : String} (h : '=' ∈ s.toList) : ∃ q : Equation, q.text = s := by
  obtain ⟨left, right, hs, hleft⟩ := List.eq_append_cons_of_mem h
  refine ⟨⟨String.ofList left, String.ofList right, by rwa [String.toList_ofList]⟩, ?_⟩
  rw [← String.toList_inj, Equation.text_toList, hs]
  simp only [String.toList_ofList]

theorem readRule_text (q : Equation) : readRule q.text = .ok (q.left, q.right) := by
  have hleft : q.text.toList.takeWhile (· ≠ '=') = q.left.toList := by
    rw [q.text_toList, List.takeWhile_append_of_pos, List.takeWhile_cons_of_neg (by simp),
      List.append_nil]
    intro c hc
    have hne : c ≠ '=' := by
      rintro rfl
      exact q.left_plain hc
    simpa using hne
  unfold readRule
  dsimp only
  rw [hleft, q.text_toList, List.drop_left]
  simp

theorem mem_of_readRule {s : String} {sides : String × String} (h : readRule s = .ok sides) :
    '=' ∈ s.toList := by
  by_contra hnone
  have hleft : s.toList.takeWhile (· ≠ '=') = s.toList := by
    refine List.takeWhile_eq_self_iff.mpr fun c hc => ?_
    have hne : c ≠ '=' := by
      rintro rfl
      exact hnone hc
    simpa using hne
  unfold readRule at h
  dsimp only at h
  rw [hleft, List.drop_length] at h
  cases h

namespace GrammarArguments

variable {a : GrammarArguments} {p : Plan}

theorem Asks.attempts_eq (h : a.Asks p) : a.attempts = p.attempts.map .ok := by
  have hfalling : falling a.removeRules = p.removeRules :=
    (falling_pairwise a.removeRules).eq_of_mem_iff p.removeRules_falling
      fun n => mem_falling.trans (h.removeRules n).symm
  rw [attempts, hfalling, ← h.removeTerminals, ← h.removeNonTerminals, ← h.terminals,
    ← h.nonTerminals, ← h.rules, Plan.attempts]
  simp only [List.map_append, List.map_map, Function.comp_def, readSymbol_singleton, readRule_text,
    Except.map]
  rfl

theorem exists_of_map_eq_ok {α : Type} {x : Except Failure α} {f : α → Attempt}
    (h : ∃ attempt, x.map f = .ok attempt) : ∃ y, x = .ok y := by
  obtain ⟨attempt, h⟩ := h
  cases x with
  | error failure => cases h
  | ok y => exact ⟨y, rfl⟩

/-- Arguments that are all read without a failure each are an edit. -/
theorem readable_of_attempts (h : ∀ t ∈ a.attempts, ∃ attempt, t = .ok attempt) : a.Readable := by
  simp only [attempts, List.forall_mem_append, List.forall_mem_map] at h
  obtain ⟨⟨⟨⟨⟨-, hterminals⟩, hnonTerminals⟩, -⟩, -⟩, hrules⟩ := h
  refine ⟨fun s hs => ?_, fun s hs => ?_, fun s hs => ?_⟩
  · obtain ⟨c, hread⟩ := exists_of_map_eq_ok (hterminals s hs)
    exact length_of_readSymbol hread
  · obtain ⟨c, hread⟩ := exists_of_map_eq_ok (hnonTerminals s hs)
    exact length_of_readSymbol hread
  · obtain ⟨sides, hread⟩ := exists_of_map_eq_ok (hrules s hs)
    exact mem_of_readRule hread

theorem Readable.exists_asks (h : a.Readable) : ∃ p, a.Asks p := by
  have hsymbols (texts : List String) (hone : ∀ s ∈ texts, s.toList.length = 1) :
      ∃ cs : List Char, cs.map String.singleton = texts := by
    rw [← Set.mem_range, Set.range_list_map]
    intro s hs
    obtain ⟨c, hc⟩ := List.length_eq_one_iff.mp (hone s hs)
    exact ⟨c, (eq_singleton_iff.mpr hc).symm⟩
  have hrules : ∃ qs : List Equation, qs.map Equation.text = a.rules := by
    rw [← Set.mem_range, Set.range_list_map]
    exact fun s hs => exists_equation (h.rules s hs)
  obtain ⟨ts, hts⟩ := hsymbols a.removeTerminals h.removeTerminals
  obtain ⟨ns, hns⟩ := hsymbols a.removeNonTerminals h.removeNonTerminals
  obtain ⟨qs, hqs⟩ := hrules
  exact ⟨⟨falling a.removeRules, ts, ns, a.terminals, a.nonTerminals, qs, falling_pairwise _⟩,
    fun _ => mem_falling, hts, hns, rfl, rfl, hqs⟩

end GrammarArguments

/-! ### Trying edits one after another -/

/-- What is reported of the attempts that are rejected, in their order. -/
def complaints (g : Grammar) : List Attempt → List String
  | [] => []
  | t :: rest =>
    match g.edit t.edit with
    | .ok next => complaints next rest
    | .error cause => s!"{t.label}: {cause.message}" :: complaints g rest

theorem complaints_append (g : Grammar) (ts us : List Attempt) :
    complaints g (ts ++ us) = complaints g ts ++ complaints (g.tryEdits (ts.map (·.edit))) us := by
  induction ts generalizing g with
  | nil => rfl
  | cons t rest ih =>
    rw [List.cons_append, complaints, complaints, List.map_cons, Grammar.tryEdits, List.foldl_cons,
      ← Grammar.tryEdits, Grammar.tryEdit]
    cases g.edit t.edit with
    | ok next => exact ih next
    | error cause => exact congrArg _ (ih g)

/-- Edits are accepted together exactly if nothing is reported of them, and then none is skipped. -/
theorem foldlM_edit_eq_ok_iff {g g' : Grammar} {ts : List Attempt} :
    (ts.map (·.edit)).foldlM Grammar.edit g = .ok g' ↔
      complaints g ts = [] ∧ g.tryEdits (ts.map (·.edit)) = g' := by
  induction ts generalizing g with
  | nil => simp [complaints, Grammar.tryEdits, pure_eq_ok_iff, @eq_comm _ g]
  | cons t rest ih =>
    rw [List.map_cons, List.foldlM_cons, complaints, Grammar.tryEdits, List.foldl_cons,
      ← Grammar.tryEdits, Grammar.tryEdit]
    cases g.edit t.edit with
    | ok next => exact ih
    | error cause => simp [bind, Except.bind]

namespace Authoring

variable {s : Authoring} {start g : Grammar} {window : Nat} {done : List Attempt}

/-- Where authoring stands once some attempts have been made: the draft is what the accepted ones
leave, and everything rejected has been reported. -/
structure After (start : Grammar) (window : Nat) (done : List Attempt) (s : Authoring) : Prop where
  draft : s.builder.draft = start.tryEdits (done.map (·.edit))
  window_eq : s.builder.window = window
  rejections : s.rejections = complaints start done
  quiet : s.rejections = [] → s.builder.rejection = none

theorem After.submit (h : s.After start window done) (t : Attempt) :
    (s.submit t).After start window (done ++ [t]) := by
  have hdraft : start.tryEdits ((done ++ [t]).map (·.edit)) = s.builder.draft.tryEdit t.edit := by
    rw [h.draft, List.map_append, Grammar.tryEdits, List.foldl_append]
    rfl
  have hreports := complaints_append start done [t]
  rw [← h.rejections, ← h.draft, complaints] at hreports
  rw [Authoring.submit, Builder.submit]
  cases he : s.builder.draft.edit t.edit with
  | ok next =>
    rw [Grammar.tryEdit, he] at hdraft
    rw [he] at hreports
    exact ⟨hdraft.symm, h.window_eq, by simpa [complaints] using hreports.symm, fun _ => rfl⟩
  | error cause =>
    rw [Grammar.tryEdit, he] at hdraft
    rw [he] at hreports
    exact ⟨hdraft.symm, h.window_eq, hreports.symm, by simp⟩

theorem After.submits (h : s.After start window done) (ts : List Attempt) :
    (ts.foldl Authoring.submit s).After start window (done ++ ts) := by
  induction ts generalizing s done with
  | nil => rwa [List.append_nil]
  | cons t rest ih =>
    rw [List.append_cons]
    exact ih (h.submit t)

theorem submitAll_map_ok_append (s : Authoring) (ts : List Attempt)
    (later : List (Except Failure Attempt)) :
    s.submitAll (ts.map .ok ++ later) = (ts.foldl Authoring.submit s).submitAll later := by
  induction ts generalizing s with
  | nil => rfl
  | cons t rest ih => exact ih (s.submit t)

theorem submitAll_map_ok (s : Authoring) (ts : List Attempt) :
    s.submitAll (ts.map .ok) = (none, ts.foldl Authoring.submit s) := by
  have happend := s.submitAll_map_ok_append ts []
  rwa [List.append_nil] at happend

theorem forall_ok_of_submitAll {ts : List (Except Failure Attempt)}
    (h : (s.submitAll ts).1 = none) : ∀ t ∈ ts, ∃ attempt, t = .ok attempt := by
  induction ts generalizing s with
  | nil => simp
  | cons t rest ih =>
    cases t with
    | error failure => cases h
    | ok attempt => exact List.forall_mem_cons.mpr ⟨⟨attempt, rfl⟩, ih h⟩

/-- A run takes no time, so within any window at all the latest rejection is still live. -/
theorem blocking?_eq_none_iff : s.blocking? = none ↔ s.builder.window = 0 ∨ s.rejections = [] := by
  rw [← List.getLast?_eq_none_iff, blocking?]
  cases s.rejections.getLast? with
  | none => simp
  | some message => simp [Notice.live?, Notice.hasLapsed, instant]

theorem finish_eq_ok_iff :
    s.finish = .ok g ↔ s.blocking? = none ∧ s.builder.build instant = .ok g := by
  unfold finish
  cases s.blocking? with
  | some message => simp
  | none => cases s.builder.build instant <;> simp

/-- If no report keeps the grammar from being saved, the builder's own notice does not either. -/
theorem After.pending?_eq_none (h : s.After start window done)
    (hopen : window = 0 ∨ complaints start done = []) : s.builder.pending? instant = none := by
  rcases hopen with hzero | hnone
  · rw [Builder.pending?, h.window_eq, hzero, Option.bind_eq_none_iff]
    exact fun notice _ => notice.live?_zero instant
  · rw [Builder.pending?, h.quiet (h.rejections.trans hnone), Option.bind_none]

theorem After.finish_eq_ok_iff (h : s.After start window done) :
    s.finish = .ok g ↔ (window = 0 ∨ complaints start done = []) ∧
      start.tryEdits (done.map (·.edit)) = g ∧ g.missingPart? = none := by
  rw [Authoring.finish_eq_ok_iff, blocking?_eq_none_iff, Builder.build_eq_ok_iff, h.window_eq,
    h.rejections, h.draft]
  constructor
  · rintro ⟨hopen, rfl, hpart, -⟩
    exact ⟨hopen, rfl, hpart⟩
  · rintro ⟨hopen, rfl, hpart⟩
    exact ⟨hopen, rfl, hpart, h.pending?_eq_none hopen⟩

end Authoring

/-! ### The whole of authoring -/

theorem Plan.leadsTo_iff {p : Plan} {window : Nat} {start g : Grammar} :
    p.LeadsTo window start g ↔
      (window = 0 ∨ complaints start p.attempts = []) ∧ start.tryEdits p.edits = g := by
  rw [Plan.LeadsTo]
  split
  next hzero => simp [hzero]
  next hwindow => rw [Plan.edits, foldlM_edit_eq_ok_iff]; simp [hwindow]

theorem Plan.LeadsTo.wellFormed {p : Plan} {window : Nat} {start g : Grammar}
    (h : p.LeadsTo window start g) (hstart : start.WellFormed) : g.WellFormed :=
  (Plan.leadsTo_iff.mp h).2 ▸ hstart.tryEdits p.edits

namespace GrammarArguments

variable {a : GrammarArguments} {p : Plan} {stored : Option Grammar} {window : Nat} {g : Grammar}

theorem builder_eq (a : GrammarArguments) (stored : Option Grammar) (window : Nat) :
    a.builder stored window = .ofGrammar (a.origin stored) window := by
  unfold builder origin
  cases hfresh : a.fresh with
  | false => cases stored <;> rfl
  | true => cases stored <;> rfl

theorem origin_wellFormed (a : GrammarArguments) (h : ∀ g ∈ stored, g.WellFormed) :
    (a.origin stored).WellFormed := by
  rw [origin]
  split
  next => exact Grammar.bare_wellFormed
  next =>
    cases stored with
    | none => exact Grammar.bare_wellFormed
    | some g => exact h g rfl

theorem after_start (a : GrammarArguments) (stored : Option Grammar) (window : Nat) :
    Authoring.After (a.origin stored) window [] ⟨a.builder stored window, []⟩ := by
  rw [builder_eq]
  exact ⟨rfl, rfl, rfl, fun _ => rfl⟩

/-- Arguments that ask for a plan have all its attempts made. -/
theorem Asks.author_eq (h : a.Asks p) (stored : Option Grammar) (window : Nat) :
    ∃ s : Authoring, s.After (a.origin stored) window p.attempts ∧
      a.author stored window = (s.rejections, s.finish) := by
  refine ⟨_, (a.after_start stored window).submits p.attempts, ?_⟩
  rw [author, h.attempts_eq, Authoring.submitAll_map_ok]

/-- Some plan is asked for exactly if every argument is an edit. -/
theorem exists_asks_iff : (∃ p, a.Asks p) ↔ a.Readable :=
  ⟨fun ⟨p, h⟩ => readable_of_attempts (by simp [h.attempts_eq]), Readable.exists_asks⟩

theorem readable_of_author (h : (a.author stored window).2 = .ok g) : a.Readable := by
  unfold author at h
  dsimp only at h
  split at h
  next => cases h
  next hnone => exact readable_of_attempts (Authoring.forall_ok_of_submitAll hnone)

/-- Authoring yields a grammar exactly if the arguments ask for a plan that leads to it from where
authoring starts, and nothing is missing from it. -/
theorem author_eq_ok_iff : (a.author stored window).2 = .ok g ↔
    ∃ p, a.Asks p ∧ p.LeadsTo window (a.origin stored) g ∧ g.missingPart? = none := by
  have hplan {p : Plan} (hp : a.Asks p) : (a.author stored window).2 = .ok g ↔
      p.LeadsTo window (a.origin stored) g ∧ g.missingPart? = none := by
    obtain ⟨s, hafter, hauthor⟩ := hp.author_eq stored window
    rw [hauthor, hafter.finish_eq_ok_iff, Plan.leadsTo_iff, Plan.edits, and_assoc]
  constructor
  · intro h
    obtain ⟨p, hp⟩ := (readable_of_author h).exists_asks
    exact ⟨p, hp, (hplan hp).mp h⟩
  · rintro ⟨p, hp, hleads⟩
    exact (hplan hp).mpr hleads

-- The builder forgets the rejection once the next edit is accepted; the command line does not.
example : (author ⟨["в", "в", "г"], [], [], [], [], [], false⟩ (some Grammar.sample) 1).2 =
    .error (.plain
      "Grammar cannot be saved: Cannot add terminal 'в': symbol 'в' is already defined") := by
  rfl

/-- Whether or not a grammar results, what is rejected on the way is reported. -/
theorem Asks.author_complaints (h : a.Asks p) (stored : Option Grammar) (window : Nat) :
    (a.author stored window).1 = complaints (a.origin stored) p.attempts := by
  obtain ⟨s, hafter, hauthor⟩ := h.author_eq stored window
  rw [hauthor, hafter.rejections]

end GrammarArguments

end CommandLine

end Sentential
