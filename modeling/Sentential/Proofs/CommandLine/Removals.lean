import Sentential.Proofs.CommandLine.Authoring

/-!
# Removing rules by their ordinals

The ordinals that the arguments list are those of the rules as they stand before anything is removed,
but a removal moves the later rules up. The highest ordinal goes first, and so a removal only moves
rules whose turn has passed. What is left are the rules whose first ordinal is not listed, in their
order. An ordinal that no rule had is rejected once, however often it is listed.
-/

namespace Sentential

/-! ### Leaving out listed rules -/

/-- A list of rules, the first of which has the ordinal `k`, without those whose ordinal is listed. -/
def unlisted (ns : List Ordinal) (k : Nat) (rules : List Rule) : List Rule :=
  ((rules.zipIdx k).filter fun p => p.2 ∉ ns.map UInt64.toNat).map Prod.fst

/-- A grammar without the rules whose ordinals are listed. -/
def Grammar.without (g : Grammar) (ns : List Ordinal) : Grammar :=
  { g with rules := unlisted ns 1 g.rules }

section Unlisted

variable {ns ms : List Ordinal} {k : Nat} {rules : List Rule}

theorem unlisted_nil (k : Nat) (rules : List Rule) : unlisted [] k rules = rules := by
  simp [unlisted]

theorem unlisted_append (ns : List Ordinal) (k : Nat) (front back : List Rule) :
    unlisted ns k (front ++ back) = unlisted ns k front ++ unlisted ns (k + front.length) back := by
  simp [unlisted, List.zipIdx_append]

/-- Only ordinals of rules that are there matter. -/
theorem unlisted_congr (h : ∀ n, k ≤ n.toNat → n.toNat < k + rules.length → (n ∈ ns ↔ n ∈ ms)) :
    unlisted ns k rules = unlisted ms k rules := by
  unfold unlisted
  congr 1
  refine List.filter_congr fun p hp => ?_
  have hle := List.le_snd_of_mem_zipIdx hp
  have hlt := List.snd_lt_add_of_mem_zipIdx hp
  have hlisted : p.2 ∈ ns.map UInt64.toNat ↔ p.2 ∈ ms.map UInt64.toNat := by
    rw [List.mem_map, List.mem_map]
    refine exists_congr fun n => and_congr_left fun hn => h n ?_ ?_
    · rwa [hn]
    · rwa [hn]
  rw [decide_not, decide_not, decide_eq_decide.mpr hlisted]

theorem unlisted_eq_self (h : ∀ n ∈ ns, n.toNat < k) : unlisted ns k rules = rules := by
  refine (unlisted_congr fun n hle _ => ?_).trans (unlisted_nil k rules)
  exact iff_of_false (fun hmem => Nat.not_le_of_lt (h n hmem) hle) List.not_mem_nil

/-- What stands behind a rule that is left out does not depend on how it is counted, if nothing of it is
listed. -/
theorem unlisted_split {n : Ordinal} {front back : List Rule} (r : Rule) (hbelow : ∀ m ∈ ms, m < n)
    (hn : 1 + front.length = n.toNat) :
    unlisted (n :: ms) 1 (front ++ r :: back) = unlisted ms 1 (front ++ back) := by
  have hlt {m : Ordinal} (hm : m ∈ ms) : m.toNat < n.toNat := UInt64.lt_iff_toNat_lt.mp (hbelow m hm)
  have hfront : unlisted (n :: ms) 1 front = unlisted ms 1 front := by
    refine unlisted_congr fun m _ hm => ?_
    have hne : m ≠ n := by
      rintro rfl
      omega
    rw [List.mem_cons, or_iff_right hne]
  have hrule : unlisted (n :: ms) n.toNat (r :: back) = unlisted (n :: ms) (n.toNat + 1) back := by
    simp [unlisted, List.zipIdx_cons]
  have hback : unlisted ms n.toNat back = back :=
    unlisted_eq_self fun m hm => hlt hm
  have hback' : unlisted (n :: ms) (n.toNat + 1) back = back :=
    unlisted_eq_self (List.forall_mem_cons.mpr
      ⟨Nat.lt_succ_self _, fun m hm => Nat.lt_succ_of_lt (hlt hm)⟩)
  rw [unlisted_append, unlisted_append, hn, hfront, hrule, hback, hback']

/-- Erasing a rule changes no ordinal below its own. -/
theorem unlisted_eraseIdx {n : Ordinal} (hbelow : ∀ m ∈ ms, m < n) (hpos : 0 < n.toNat)
    (hle : n.toNat ≤ rules.length) :
    unlisted ms 1 (rules.eraseIdx (n.toNat - 1)) = unlisted (n :: ms) 1 rules := by
  have hlt : n.toNat - 1 < rules.length := by omega
  have hn : 1 + (rules.take (n.toNat - 1)).length = n.toNat := by
    rw [List.length_take]
    omega
  have hsplit : rules =
      rules.take (n.toNat - 1) ++ rules[n.toNat - 1] :: rules.drop (n.toNat - 1 + 1) := by
    rw [List.getElem_cons_drop, List.take_append_drop]
  conv_rhs => rw [hsplit]
  rw [unlisted_split _ hbelow hn, List.eraseIdx_eq_take_drop_succ]

end Unlisted

theorem Grammar.without_congr {g : Grammar} {ns ms : List Ordinal} (h : ∀ n, n ∈ ns ↔ n ∈ ms) :
    g.without ns = g.without ms :=
  congrArg (fun rules => { g with rules }) (unlisted_congr fun n _ _ => h n)

/-! ### Removing rules one after another -/

namespace Grammar

/-- An ordinal that no rule of the grammar has: zero, or one past the last rule. -/
def OutOfRange (g : Grammar) (n : Ordinal) : Prop :=
  n = 0 ∨ g.rules.length < n.toNat

instance (g : Grammar) (n : Ordinal) : Decidable (g.OutOfRange n) :=
  inferInstanceAs (Decidable (_ ∨ _))

theorem outOfRange_iff {g : Grammar} {n : Ordinal} :
    g.OutOfRange n ↔ n.toNat = 0 ∨ g.rules.length < n.toNat :=
  or_congr_left UInt64.toNat_inj.symm

theorem edit_of_outOfRange {g : Grammar} {n : Ordinal} (h : g.OutOfRange n) :
    g.edit (.removeRule n) = .error (.ruleNotFound n) := by
  unfold OutOfRange at h
  rw [edit, removeRule, if_pos h]
  rfl

theorem edit_of_not_outOfRange {g : Grammar} {n : Ordinal} (h : ¬ g.OutOfRange n) :
    g.edit (.removeRule n) = .ok { g with rules := g.rules.eraseIdx (n.toNat - 1) } := by
  rw [outOfRange_iff] at h
  exact removeRule_eq_ok_iff.mpr ⟨by omega, by omega, rfl⟩

theorem tryEdit_removeRule (g : Grammar) (n : Ordinal) :
    g.tryEdit (.removeRule n) =
      { g with rules := if g.OutOfRange n then g.rules else g.rules.eraseIdx (n.toNat - 1) } := by
  rw [tryEdit]
  by_cases hout : g.OutOfRange n
  · rw [edit_of_outOfRange hout, if_pos hout]
    rfl
  · rw [edit_of_not_outOfRange hout, if_neg hout]
    rfl

/-- Below a rule that is tried for removal the same ordinals are out of range as before. -/
theorem outOfRange_tryEdit_iff {g : Grammar} {m n : Ordinal} (hm : m < n) :
    (g.tryEdit (.removeRule n)).OutOfRange m ↔ g.OutOfRange m := by
  rw [tryEdit_removeRule]
  split
  next => exact Iff.rfl
  next hin =>
    have hlt := UInt64.lt_iff_toNat_lt.mp hm
    rw [outOfRange_iff] at hin
    have hlength : (g.rules.eraseIdx (n.toNat - 1)).length = g.rules.length - 1 :=
      List.length_eraseIdx_of_lt (by omega)
    rw [outOfRange_iff, outOfRange_iff, hlength]
    omega

theorem without_tryEdit {g : Grammar} {ms : List Ordinal} {n : Ordinal} (hbelow : ∀ m ∈ ms, m < n) :
    (g.tryEdit (.removeRule n)).without ms = g.without (n :: ms) := by
  rw [tryEdit_removeRule]
  refine congrArg (fun rules => { g with rules }) ?_
  dsimp only
  split
  next hout =>
    refine unlisted_congr fun m _ hlt => ?_
    have hne : m ≠ n := by
      rintro rfl
      rw [outOfRange_iff] at hout
      omega
    rw [List.mem_cons, or_iff_right hne]
  next hin =>
    rw [outOfRange_iff] at hin
    exact unlisted_eraseIdx hbelow (by omega) (by omega)

/-- Rules that are removed from the highest ordinal down are removed by the ordinals they had first. -/
theorem tryEdits_removals {ns : List Ordinal} (h : ns.Pairwise (· > ·)) (g : Grammar) :
    g.tryEdits (ns.map .removeRule) = g.without ns := by
  induction ns generalizing g with
  | nil =>
    rw [without, unlisted_nil]
    rfl
  | cons n rest ih =>
    obtain ⟨hbelow, hrest⟩ := List.pairwise_cons.mp h
    rw [List.map_cons, tryEdits, List.foldl_cons, ← tryEdits, ih hrest, without_tryEdit hbelow]

end Grammar

namespace CommandLine

/-- The attempt to remove the rule with a given ordinal. -/
def removal (n : Ordinal) : Attempt :=
  ⟨s!"Cannot remove rule {n.toNat}", .removeRule n⟩

/-- What is reported of an ordinal that no rule has. -/
def missingRule (n : Ordinal) : String :=
  s!"Cannot remove rule {n.toNat}: there is no rule {n.toNat}"

theorem report_removal (n : Ordinal) :
    s!"{(removal n).label}: {(GrammarError.ruleNotFound n).message}" = missingRule n := by
  have hjoin : ": there is no rule " = ": " ++ "there is no rule " := rfl
  change "Cannot remove rule " ++ toString n.toNat ++ ": " ++ ("there is no rule " ++ toString n.toNat) =
    "Cannot remove rule " ++ toString n.toNat ++ ": there is no rule " ++ toString n.toNat
  rw [hjoin]
  simp only [String.append_assoc]

theorem complaints_removals {ns : List Ordinal} (h : ns.Pairwise (· > ·)) (g : Grammar) :
    complaints g (ns.map removal) = (ns.filter (g.OutOfRange ·)).map missingRule := by
  induction ns generalizing g with
  | nil => rfl
  | cons n rest ih =>
    obtain ⟨hbelow, hrest⟩ := List.pairwise_cons.mp h
    have hfilter : rest.filter ((g.tryEdit (.removeRule n)).OutOfRange ·) =
        rest.filter (g.OutOfRange ·) :=
      List.filter_congr fun m hm =>
        decide_eq_decide.mpr (Grammar.outOfRange_tryEdit_iff (hbelow m hm))
    have ih := ih hrest (g.tryEdit (.removeRule n))
    rw [hfilter] at ih
    rw [List.map_cons, complaints, List.filter_cons]
    by_cases hout : g.OutOfRange n
    · have hedit : g.edit (removal n).edit = .error (.ruleNotFound n) := g.edit_of_outOfRange hout
      rw [Grammar.tryEdit_removeRule, if_pos hout] at ih
      rw [hedit, if_pos (decide_eq_true hout), List.map_cons, ← report_removal, ← ih]
    · have hedit : g.edit (removal n).edit = _ := g.edit_of_not_outOfRange hout
      rw [Grammar.tryEdit_removeRule, if_neg hout] at ih
      rw [hedit, if_neg (by simpa using hout)]
      exact ih

namespace GrammarArguments

/-- Where authoring stands once all rules to remove have been tried. -/
def pruned (a : GrammarArguments) (stored : Option Grammar) (window : Nat) : Authoring :=
  ((falling a.removeRules).map removal).foldl Authoring.submit ⟨a.builder stored window, []⟩

theorem attempts_eq (a : GrammarArguments) :
    a.attempts =
      ((falling a.removeRules).map removal).map .ok ++ { a with removeRules := [] }.attempts := by
  have hremovals : (falling a.removeRules).map
      (fun n => (.ok ⟨s!"Cannot remove rule {n.toNat}", .removeRule n⟩ : Except Failure Attempt)) =
        ((falling a.removeRules).map removal).map .ok :=
    List.map_map.symm
  have hnone : falling [] = [] := rfl
  simp only [attempts, hremovals, hnone, List.map_nil, List.nil_append, List.append_assoc]

theorem after_pruned (a : GrammarArguments) (stored : Option Grammar) (window : Nat) :
    (a.pruned stored window).After (a.origin stored) window ((falling a.removeRules).map removal) :=
  (a.after_start stored window).submits _

/-- The rules that are left are those whose ordinal is not listed; the listed ordinals that no rule has
are rejected once each, and nothing else is. How often and in which order they are listed does not
matter. -/
theorem pruned_exact (a : GrammarArguments) (stored : Option Grammar) (window : Nat) :
    Authoring.submitAll ⟨a.builder stored window, []⟩ a.attempts =
        (a.pruned stored window).submitAll { a with removeRules := [] }.attempts ∧
      (a.pruned stored window).builder.draft = (a.origin stored).without a.removeRules ∧
      (∃ refused : List Ordinal, refused.Pairwise (· > ·) ∧
        (∀ n, n ∈ refused ↔ n ∈ a.removeRules ∧ (a.origin stored).OutOfRange n) ∧
        (a.pruned stored window).rejections = refused.map missingRule) ∧
      ∀ ns : List Ordinal, (∀ n, n ∈ ns ↔ n ∈ a.removeRules) →
        { a with removeRules := ns }.pruned stored window = a.pruned stored window ∧
          { a with removeRules := ns }.author stored window = a.author stored window := by
  have hfalling := falling_pairwise a.removeRules
  refine ⟨?_, ?_, ⟨(falling a.removeRules).filter ((a.origin stored).OutOfRange ·), ?_, ?_, ?_⟩, ?_⟩
  · rw [attempts_eq, Authoring.submitAll_map_ok_append]
    rfl
  · rw [(a.after_pruned stored window).draft, List.map_map]
    refine (Grammar.tryEdits_removals hfalling _).trans ?_
    exact Grammar.without_congr fun n => mem_falling
  · exact hfalling.filter _
  · intro n
    rw [List.mem_filter, mem_falling, decide_eq_true_eq]
  · rw [(a.after_pruned stored window).rejections, complaints_removals hfalling]
  · intro ns hns
    have hsame : falling ns = falling a.removeRules :=
      (falling_pairwise ns).eq_of_mem_iff hfalling fun n =>
        mem_falling.trans ((hns n).trans mem_falling.symm)
    have hattempts : { a with removeRules := ns }.attempts = a.attempts := by
      rw [attempts_eq, a.attempts_eq, hsame]
    refine ⟨?_, ?_⟩
    · rw [pruned, pruned, hsame]
      rfl
    · rw [author, author, hattempts]
      rfl

/-- Two rules of the small grammar to remove, one of them listed twice, and two ordinals out of range. -/
def sampleRemovals : GrammarArguments :=
  ⟨[], [], [], [3, 0, 9, 1, 3, 9], [], [], false⟩

theorem pruned_exact_sample :
    (∀ n, n ∈ [9, 0, 1, 3] ↔ n ∈ sampleRemovals.removeRules) ∧
      (sampleRemovals.pruned (some Grammar.sample) 0).builder.draft =
        ⟨['а', 'б', 'ъ'], ['S', 'A'], [⟨'A', ['а', 'A']⟩, ⟨'S', ['б', 'A', 'б']⟩]⟩ ∧
      (sampleRemovals.pruned (some Grammar.sample) 0).rejections =
        ["Cannot remove rule 9: there is no rule 9", "Cannot remove rule 0: there is no rule 0"] ∧
      { sampleRemovals with removeRules := [9, 0, 1, 3] }.author (some Grammar.sample) 0 =
        sampleRemovals.author (some Grammar.sample) 0 := by
  have hlisted (n : Ordinal) : n ∈ [9, 0, 1, 3] ↔ n ∈ sampleRemovals.removeRules := by
    simp only [sampleRemovals, List.mem_cons, List.not_mem_nil, or_false]
    tauto
  have hrange : sampleRemovals.removeRules.filter
      ((sampleRemovals.origin (some Grammar.sample)).OutOfRange ·) = [0, 9, 9] := by decide
  obtain ⟨-, hdraft, ⟨refused, hfalling, hrefused, hreports⟩, hsame⟩ :=
    pruned_exact sampleRemovals (some Grammar.sample) 0
  have htwo : refused = [9, 0] := by
    refine hfalling.eq_of_mem_iff (by decide) fun n => ?_
    have hmem := congrArg (n ∈ ·) hrange
    simp only [List.mem_filter, decide_eq_true_eq] at hmem
    rw [hrefused, hmem]
    simp only [List.mem_cons, List.not_mem_nil, or_false, or_self]
    exact or_comm
  rw [htwo] at hreports
  exact ⟨hlisted, hdraft, hreports, (hsame _ hlisted).2⟩

end GrammarArguments

end CommandLine

end Sentential
