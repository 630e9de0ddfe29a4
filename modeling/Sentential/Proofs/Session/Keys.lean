import Sentential.Proofs.History.Recording
import Sentential.Proofs.Session.Run

/-!
# Keys

A key is a short way to apply the rule that it selects. Before it does so a key press asks by itself
whether there is such a rule and whether it applies, and what it asks is just what the application would
find out. So a key does what its ordinal does, and where the ordinal would fail the key is ignored.
-/

namespace Sentential

/-- No key selects the ordinal zero. -/
theorem Ordinal.ne_zero_of_ofKey? {key : Char} {n : Ordinal} (h : ofKey? key = some n) : n ≠ 0 := by
  simp only [ofKey?, Char.le_def, UInt32.le_iff_toNat_le, Char.toNat, Char.reduceVal,
    UInt32.reduceToNat] at h
  -- The digits start at one and the letters at ten, in either case.
  obtain ⟨k, hk, hpos, hle⟩ : ∃ k, some (UInt64.ofNat k) = some n ∧ 0 < k ∧ k ≤ 35 := by
    split at h
    next => exact ⟨_, h, by omega, by omega⟩
    next =>
      split at h
      next => exact ⟨_, h, by omega, by omega⟩
      next =>
        split at h
        next => exact ⟨_, h, by omega, by omega⟩
        next => cases h
  obtain rfl := Option.some.inj hk
  have hlt : k < UInt64.size := Nat.lt_of_le_of_lt hle (by decide)
  intro hzero
  rw [← UInt64.toNat_inj, UInt64.toNat_ofNat_of_lt' hlt] at hzero
  exact Nat.ne_of_gt hpos hzero

theorem Grammar.toNat_le_of_rule? {g : Grammar} {n : Ordinal} {r : Rule} (h : g.rule? n = some r) :
    n.toNat ≤ g.rules.length := by
  obtain ⟨hpos, hget⟩ := rule?_eq_some_iff.mp h
  have hlt := (List.getElem?_eq_some_iff.mp hget).1
  omega

/-- The ordinal of a key that has no rule lies past the rules. -/
theorem Grammar.lt_of_rule?_eq_none {g : Grammar} {key : Char} {n : Ordinal}
    (hkey : Ordinal.ofKey? key = some n) (h : g.rule? n = none) : g.rules.length < n.toNat := by
  have hn := Ordinal.ne_zero_of_ofKey? hkey
  have hpos := Ordinal.toNat_pos hn
  rw [rule?, if_neg hn, List.getElem?_eq_none_iff] at h
  omega

namespace Session

variable {s next : Session} {stamp : Stamp} {n : Ordinal} {key : Char} {outcome : Outcome}

/-- Why a key comes to nothing: there is no grammar, the key selects no ordinal, the ordinal lies past
the rules, or its rule does not apply to the current form. -/
inductive Ignores (s : Session) (key : Char) : Prop
  | noGrammar : s.active = none → Ignores s key
  | noOrdinal : Ordinal.ofKey? key = none → Ignores s key
  | pastRules {a : Active} {n : Ordinal} : s.active = some a → Ordinal.ofKey? key = some n →
      a.grammar.rules.length < n.toNat → Ignores s key
  | unavailable {a : Active} {n : Ordinal} {r : Rule} : s.active = some a →
      Ordinal.ofKey? key = some n → a.grammar.rule? n = some r →
      r.applies a.history.derivation.current = false → Ignores s key

/-- An application succeeds exactly if the ordinal names a rule of the grammar in use and this rule
applies to the current form. -/
theorem exists_apply_iff : (∃ outcome next, s.apply stamp n = .ok (outcome, next)) ↔
    ∃ a r, s.active = some a ∧ a.grammar.rule? n = some r ∧
      r.applies a.history.derivation.current = true := by
  constructor
  · rintro ⟨outcome, next, happly⟩
    obtain ⟨a, h, hactive, hn, hcall, -⟩ := apply_eq_ok_iff.mp happly
    obtain ⟨step, hderivation⟩ := History.apply_derivation hcall
    obtain ⟨r, hrule, happlies⟩ := (Derivation.exists_apply_iff hn).mp ⟨_, _, hderivation⟩
    exact ⟨a, r, hactive, hrule, happlies⟩
  · rintro ⟨a, r, hactive, hrule, happlies⟩
    have hn := Grammar.ne_zero_of_rule? hrule
    obtain ⟨step, d, hderivation⟩ := (Derivation.exists_apply_iff hn).mpr ⟨r, hrule, happlies⟩
    obtain ⟨outcome, h, hcall, -⟩ := History.exists_apply stamp hderivation
    exact ⟨outcome, _, apply_eq_ok_iff.mpr ⟨a, h, hactive, hn, hcall, rfl⟩⟩

theorem pressKey_eq_some_iff : s.pressKey stamp key = some (outcome, next) ↔
    ∃ n, Ordinal.ofKey? key = some n ∧ s.apply stamp n = .ok (outcome, next) := by
  refine ⟨exists_apply_of_pressKey, ?_⟩
  rintro ⟨n, hkey, happly⟩
  obtain ⟨a, r, hactive, hrule, happlies⟩ := exists_apply_iff.mp ⟨_, _, happly⟩
  have hwithin := Ordinal.ofKeyWithin?_eq_some_iff.mpr ⟨hkey, Grammar.toNat_le_of_rule? hrule⟩
  simp only [pressKey, Option.bind_eq_bind, Option.bind_eq_some_iff]
  refine ⟨a, hactive, n, hwithin, r, hrule, ?_⟩
  rw [if_pos happlies, happly]
  rfl

/-- A key press is the application of the selected ordinal with its errors forgotten. -/
theorem pressKey_eq (s : Session) (stamp : Stamp) (key : Char) :
    s.pressKey stamp key = (Ordinal.ofKey? key).bind fun n => (s.apply stamp n).toOption := by
  refine Option.ext fun pair => ?_
  rw [pressKey_eq_some_iff, Option.bind_eq_some_iff]
  simp only [toOption_eq_some_iff]

theorem perform_pressKey (hkey : Ordinal.ofKey? key = some n) :
    s.perform (.pressKey stamp key) = s.perform (.apply stamp n) := by
  simp only [perform, pressKey_eq, hkey, Option.bind_some]
  cases s.apply stamp n with
  | ok pair => rfl
  | error cause => rfl

/-- No application by an ordinal that is selected succeeds for a key that is ignored. -/
theorem Ignores.apply_ne_ok (h : s.Ignores key) (hkey : Ordinal.ofKey? key = some n) :
    s.apply stamp n ≠ .ok (outcome, next) := by
  intro happly
  obtain ⟨a, r, hactive, hrule, happlies⟩ := exists_apply_iff.mp ⟨_, _, happly⟩
  cases h with
  | noGrammar hnone =>
    rw [hnone] at hactive
    cases hactive
  | noOrdinal hnone =>
    rw [hnone] at hkey
    cases hkey
  | pastRules hactive' hkey' hlt =>
    obtain rfl := Option.some.inj (hactive.symm.trans hactive')
    obtain rfl := Option.some.inj (hkey.symm.trans hkey')
    exact Nat.not_lt_of_le (Grammar.toNat_le_of_rule? hrule) hlt
  | unavailable hactive' hkey' hrule' hnot =>
    obtain rfl := Option.some.inj (hactive.symm.trans hactive')
    obtain rfl := Option.some.inj (hkey.symm.trans hkey')
    obtain rfl := Option.some.inj (hrule.symm.trans hrule')
    exact Bool.false_ne_true (hnot.symm.trans happlies)

/-- A key that is not ignored selects an ordinal by which an application succeeds. -/
theorem exists_apply_of_not_ignores (stamp : Stamp) (h : ¬ s.Ignores key) :
    ∃ n outcome next, Ordinal.ofKey? key = some n ∧ s.apply stamp n = .ok (outcome, next) := by
  cases hactive : s.active with
  | none => exact absurd (.noGrammar hactive) h
  | some a =>
    cases hkey : Ordinal.ofKey? key with
    | none => exact absurd (.noOrdinal hkey) h
    | some n =>
      cases hrule : a.grammar.rule? n with
      | none => exact absurd (.pastRules hactive hkey (Grammar.lt_of_rule?_eq_none hkey hrule)) h
      | some r =>
        cases happlies : r.applies a.history.derivation.current with
        | false => exact absurd (.unavailable hactive hkey hrule happlies) h
        | true =>
          have hsucceeds : ∃ outcome next, s.apply stamp n = .ok (outcome, next) :=
            exists_apply_iff.mpr ⟨a, r, hactive, hrule, happlies⟩
          obtain ⟨outcome, next, happly⟩ := hsucceeds
          exact ⟨n, outcome, next, rfl, happly⟩

theorem pressKey_eq_none_iff : s.pressKey stamp key = none ↔ s.Ignores key := by
  constructor
  · intro hnone
    by_contra hnot
    obtain ⟨n, outcome, next, hkey, happly⟩ := exists_apply_of_not_ignores stamp hnot
    rw [pressKey_eq_some_iff.mpr ⟨n, hkey, happly⟩] at hnone
    cases hnone
  · intro hignores
    refine Option.eq_none_iff_forall_ne_some.mpr ?_
    rintro ⟨outcome, next⟩ hsome
    obtain ⟨n, hkey, happly⟩ := pressKey_eq_some_iff.mp hsome
    exact hignores.apply_ne_ok hkey happly

/-- A key has the effect of applying the ordinal that it selects where this succeeds, with the same
outcome and the same session after it, and in every other case it is ignored. The other cases are that
there is no grammar or no ordinal, that the ordinal lies past the rules, and that its rule does not
apply; the session then stays as it is. -/
theorem pressKey_agrees (s : Session) (stamp : Stamp) (key : Char) :
    (∀ outcome next, s.pressKey stamp key = some (outcome, next) ↔
      ∃ n, Ordinal.ofKey? key = some n ∧ s.apply stamp n = .ok (outcome, next)) ∧
    (s.pressKey stamp key = none ↔ s.Ignores key) ∧
    (∀ n, Ordinal.ofKey? key = some n → s.perform (.pressKey stamp key) = s.perform (.apply stamp n)) ∧
    (s.Ignores key → s.perform (.pressKey stamp key) = s) := by
  refine ⟨fun _ _ => pressKey_eq_some_iff, pressKey_eq_none_iff, fun _ => perform_pressKey, ?_⟩
  intro hignores
  simp only [perform, pressKey_eq_none_iff.mpr hignores]

theorem pressKey_agrees_sample :
    let s := (Session.new ⟨"Иванов", "Иван", "Иванович", "ИВТ-21"⟩).setGrammar Grammar.sample
    let stamp : Stamp := ⟨"first", Calendar.Timestamp.epoch⟩
    (∃ outcome next, s.apply stamp 4 = .ok (outcome, next) ∧
      s.pressKey stamp '4' = some (outcome, next)) ∧
    s.perform (.pressKey stamp '4') = s.perform (.apply stamp 4) ∧
    s.Ignores '2' ∧ s.perform (.pressKey stamp '2') = s := by
  intro s stamp
  obtain ⟨hsome, -, hperform, -⟩ := s.pressKey_agrees stamp '4'
  obtain ⟨-, -, -, hignored⟩ := s.pressKey_agrees stamp '2'
  have happly : ∃ outcome next, s.apply stamp 4 = .ok (outcome, next) := ⟨_, _, rfl⟩
  obtain ⟨outcome, next, happly⟩ := happly
  have hignores : s.Ignores '2' := .unavailable rfl rfl rfl rfl
  exact ⟨⟨outcome, next, happly, (hsome outcome next).mpr ⟨4, rfl, happly⟩⟩, hperform 4 rfl,
    hignores, hignored hignores⟩

end Session

end Sentential
