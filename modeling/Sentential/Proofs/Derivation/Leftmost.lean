import Sentential.Derivation

/-!
# Applying a rule

What applying a rule to the leftmost occurrence of its left-hand symbol does to a form, and
what one successful application does to a derivation.
-/

namespace Sentential

/-- A list splits in one way at the first place where it has a given member. -/
theorem append_cons_eq_iff {α : Type} {c : α} {xs ys rest rest' : List α} (hx : c ∉ xs) (hy : c ∉ ys) :
    xs ++ c :: rest = ys ++ c :: rest' ↔ xs = ys ∧ rest = rest' := by
  induction xs generalizing ys with
  | nil =>
    cases ys with
    | nil => simp
    | cons y ys =>
      have hne : c ≠ y := fun h => hy (h ▸ List.mem_cons_self)
      simp [hne]
  | cons x xs ih =>
    cases ys with
    | nil =>
      have hne : x ≠ c := fun h => hx (h ▸ List.mem_cons_self)
      simp [hne]
    | cons y ys =>
      have hxs : c ∉ xs := fun h => hx (List.mem_cons_of_mem x h)
      have hys : c ∉ ys := fun h => hy (List.mem_cons_of_mem y h)
      simp only [List.cons_append, List.cons.injEq, ih hxs hys, and_assoc]

namespace Rule

theorem applyLeftmost?_eq_none_iff {r : Rule} {form : Word} :
    r.applyLeftmost? form = none ↔ r.left ∉ form := by
  rw [← Option.not_isSome_iff_eq_none, isSome_applyLeftmost?]
  simp [applies]

/-- A rule passes over what precedes the first occurrence of its left-hand symbol. -/
theorem applyLeftmost?_append_cons {r : Rule} {before after : Word} (h : r.left ∉ before) :
    r.applyLeftmost? (before ++ r.left :: after) = some (before ++ r.replacement ++ after) := by
  induction before with
  | nil => simp [applyLeftmost?]
  | cons c rest ih =>
    have hc : c ≠ r.left := fun heq => h (heq ▸ List.mem_cons_self)
    have hrest : r.left ∉ rest := fun hmem => h (List.mem_cons_of_mem c hmem)
    simp only [List.cons_append, applyLeftmost?, if_neg hc, ih hrest, Option.map_some]

/-- The form splits at the first occurrence of the left-hand symbol, and only this occurrence
is replaced. -/
theorem applyLeftmost?_eq_some_iff {r : Rule} {form next : Word} :
    r.applyLeftmost? form = some next ↔
      ∃ before after, form = before ++ r.left :: after ∧ r.left ∉ before ∧
        next = before ++ r.replacement ++ after := by
  constructor
  · intro h
    have hmem : r.left ∈ form := by
      refine Decidable.byContradiction fun hnot => ?_
      rw [applyLeftmost?_eq_none_iff.mpr hnot] at h
      cases h
    obtain ⟨before, after, rfl, hfirst⟩ := List.eq_append_cons_of_mem hmem
    rw [applyLeftmost?_append_cons hfirst] at h
    exact ⟨before, after, rfl, hfirst, (Option.some.inj h).symm⟩
  · rintro ⟨before, after, rfl, hfirst, rfl⟩
    exact applyLeftmost?_append_cons hfirst

end Rule

theorem Ordinal.toNat_pos {n : Ordinal} (hn : n ≠ 0) : 0 < n.toNat :=
  Nat.pos_of_ne_zero fun h => hn (UInt64.toNat_inj.mp h)

/-- Short of the largest index the ordinal is one above the index, as numbers too. -/
theorem Ordinal.toNat_succ {index : UInt64} (h : index.toNat + 1 < UInt64.size) :
    (index + 1).toNat = index.toNat + 1 := by
  rw [UInt64.toNat_add]
  exact Nat.mod_eq_of_lt h

theorem Ordinal.ofIndex?_eq_some_iff {index : UInt64} {n : Ordinal} :
    ofIndex? index = some n ↔ index.toNat + 1 < UInt64.size ∧ index + 1 = n := by
  simp [ofIndex?]

theorem Ordinal.ofIndex?_eq_none_iff {index : UInt64} :
    ofIndex? index = none ↔ index.toNat + 1 = UInt64.size := by
  have hlt := index.toNat_lt_size
  simp only [ofIndex?, ite_eq_right_iff, reduceCtorEq, imp_false]
  omega

theorem Ordinal.toNat_pred {n : Ordinal} (hn : n ≠ 0) : (n - 1).toNat = n.toNat - 1 := by
  have hone : (1 : UInt64) ≤ n := UInt64.le_iff_toNat_le.mpr (toNat_pos hn)
  rw [UInt64.toNat_sub_of_le n 1 hone]
  rfl

/-- The index below an ordinal has this ordinal. -/
theorem Ordinal.ofIndex?_pred {n : Ordinal} (hn : n ≠ 0) : ofIndex? (n - 1) = some n := by
  rw [ofIndex?_eq_some_iff, toNat_pred hn, Nat.sub_add_cancel (toNat_pos hn), UInt64.sub_add_cancel]
  exact ⟨n.toNat_lt_size, rfl⟩

/-- In a list without repetitions an item has one position, counted from one. -/
theorem Ordinal.eq_of_getElem? {α : Type} {xs : List α} (hnodup : xs.Nodup) {m n : Ordinal} {x : α}
    (hm : 0 < m.toNat ∧ xs[m.toNat - 1]? = some x) (hn : 0 < n.toNat ∧ xs[n.toNat - 1]? = some x) :
    m = n := by
  have hlt := (List.getElem?_eq_some_iff.mp hm.2).1
  have hindex := (List.getElem?_inj hlt hnodup).mp (hm.2.trans hn.2.symm)
  exact UInt64.toNat_inj.mp (by omega)

namespace Grammar

variable {g : Grammar}

theorem rule?_eq_some_iff {n : Ordinal} {r : Rule} :
    g.rule? n = some r ↔ 0 < n.toNat ∧ g.rules[n.toNat - 1]? = some r := by
  unfold rule?
  split
  next hzero => simp [hzero]
  next hne => simp [Ordinal.toNat_pos hne]

theorem ne_zero_of_rule? {n : Ordinal} {r : Rule} (h : g.rule? n = some r) : n ≠ 0 := by
  rintro rfl
  cases h

/-- An ordinal other than zero names the rule at the index below it. -/
theorem rule?_eq_getElem? {n : Ordinal} (hn : n ≠ 0) : g.rule? n = g.rules[(n - 1).toNat]? := by
  rw [rule?, if_neg hn, Ordinal.toNat_pred hn]

/-- The rule at an index has the ordinal one above it. -/
theorem rule?_succ {index : UInt64} (h : index.toNat + 1 < UInt64.size) :
    g.rule? (index + 1) = g.rules[index.toNat]? := by
  have hsucc := Ordinal.toNat_succ h
  have hne : index + 1 ≠ 0 := by
    rw [ne_eq, ← UInt64.toNat_inj, hsucc]
    exact Nat.succ_ne_zero _
  rw [rule?_eq_getElem? hne, Ordinal.toNat_pred hne, hsucc, Nat.add_sub_cancel]

theorem progress_eq_completed_iff {form : Word} :
    g.progress form = .completed ↔ ∀ c ∈ form, c ∉ g.nonTerminals := by
  have hword : g.isWord form = true ↔ ∀ c ∈ form, c ∉ g.nonTerminals := by
    simp [isWord, isNonTerminal]
  rw [← hword, progress]
  split <;> simp_all

/-- No rule applies to a completed form, for the left-hand side of a rule is a non-terminal. -/
theorem applies_eq_false_of_completed (hg : g.WellFormed) {form : Word}
    (hdone : g.progress form = .completed) {r : Rule} (hr : r ∈ g.rules) :
    r.applies form = false := by
  rw [Bool.eq_false_iff, ne_eq, Rule.applies, List.contains_iff_mem]
  intro hleft
  exact progress_eq_completed_iff.mp hdone r.left hleft (hg.rules_admitted r hr).left_mem

theorem progress_eq_inProgress (hg : g.WellFormed) {r : Rule} (hr : r ∈ g.rules)
    {form next : Word} (happly : r.applyLeftmost? form = some next) :
    g.progress form = .inProgress := by
  cases hp : g.progress form with
  | inProgress => rfl
  | completed =>
    have hnot := applies_eq_false_of_completed hg hp hr
    rw [← Rule.isSome_applyLeftmost?, happly] at hnot
    cases hnot

end Grammar

namespace Derivation

variable {g : Grammar} {d d' : Derivation}

/-- A successful application rewrites the current form by the rule at the index and puts the
ordinal one above the index on record. -/
theorem apply_eq_ok_iff {index : UInt64} {s : Step} :
    d.apply g index = .ok (s, d') ↔ ∃ r form, index.toNat + 1 < UInt64.size ∧
      g.rules[index.toNat]? = some r ∧ r.applyLeftmost? d.current = some form ∧
      s = ⟨form, some (index + 1)⟩ ∧ d' = d.push ⟨index + 1, form⟩ := by
  unfold apply Rule.step Ordinal.ofIndex?
  by_cases hindex : index.toNat + 1 < UInt64.size
  · simp only [if_pos hindex]
    cases hrule : g.rules[index.toNat]? with
    | none => simp
    | some r =>
      cases hform : r.applyLeftmost? d.current with
      | none => simp [hform]
      | some form => simp [hform, hindex, eq_comm]
  · simp [hindex]

/-- An application at the index below an ordinal succeeds exactly if the ordinal names a rule and this
applies to the current form. -/
theorem exists_apply_iff {n : Ordinal} (hn : n ≠ 0) :
    (∃ s next, d.apply g (n - 1) = .ok (s, next)) ↔
      ∃ r, g.rule? n = some r ∧ r.applies d.current = true := by
  simp only [← Rule.isSome_applyLeftmost?, Option.isSome_iff_exists, Grammar.rule?_eq_getElem? hn]
  constructor
  · rintro ⟨s, next, h⟩
    obtain ⟨r, form, -, hrule, hform, -, -⟩ := apply_eq_ok_iff.mp h
    exact ⟨r, hrule, form, hform⟩
  · rintro ⟨r, hrule, form, hform⟩
    have hindex := (Ordinal.ofIndex?_eq_some_iff.mp (Ordinal.ofIndex?_pred hn)).1
    exact ⟨_, _, apply_eq_ok_iff.mpr ⟨r, form, hindex, hrule, hform, rfl, rfl⟩⟩

end Derivation

end Sentential
