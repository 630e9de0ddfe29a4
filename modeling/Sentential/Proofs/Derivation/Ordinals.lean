import Sentential.Proofs.Grammar.Building
import Sentential.Proofs.History.Run
import Sentential.Session

/-!
# The ordinals in results

Rules are indexed from zero and named by ordinals from one. What comes of applying the rule at an index
names the ordinal one above it, be it a step, a rule that does not apply or a rule that there is not.
Ordinals are machine words, and so there is one index that has no ordinal: at the largest one the
addition overflows before anything is told. A session never gets there, for it is asked by ordinals and
goes down to an index.
-/

namespace Sentential

namespace Rule

/-- What a rule makes of a form bears an ordinal: the step does, or the error that the rule does not
apply. -/
inductive Bears (r : Rule) (form : Word) (n : Ordinal) : Except DerivationError Step → Prop
  | step {next : Word} : r.applyLeftmost? form = some next → Bears r form n (.ok ⟨next, some n⟩)
  | notApplicable : r.applies form = false → Bears r form n (.error (.notApplicable n r.left form))

variable {r : Rule} {form : Word} {index : UInt64} {m n : Ordinal}

theorem bears_step (h : Ordinal.ofIndex? index = some n) : r.Bears form n (r.step index form) := by
  rw [Rule.step, h]
  dsimp only
  split
  next hnext => exact .step hnext
  next hnone =>
    refine .notApplicable ?_
    rw [← isSome_applyLeftmost?, hnone]
    rfl

theorem step_of_largest (h : index.toNat + 1 = UInt64.size) : r.step index form = .error .overflow := by
  rw [step, Ordinal.ofIndex?_eq_none_iff.mpr h]

/-- A result bears one ordinal. -/
theorem Bears.unique {result : Except DerivationError Step} (hm : r.Bears form m result)
    (hn : r.Bears form n result) : m = n := by
  cases hm with
  | step hnext => cases hn with | step => rfl
  | notApplicable hnot => cases hn with | notApplicable => rfl

end Rule

namespace Derivation

variable {g : Grammar} {d : Derivation} {index : UInt64} {n : Ordinal}

/-- The results at an index tell an ordinal, whether there is no rule at the index, or the rule there is
applied to the derivation, or any rule is applied at this index to any form. -/
structure Tells (g : Grammar) (d : Derivation) (index : UInt64) (n : Ordinal) : Prop where
  outOfRange : g.rules.length ≤ index.toNat → d.apply g index = .error (.outOfRange n)
  inRange : ∀ r, g.rules[index.toNat]? = some r → r.Bears d.current n ((d.apply g index).map (·.1))
  step : ∀ (r : Rule) (form : Word), r.Bears form n (r.step index form)

theorem apply_of_length_le (hindex : Ordinal.ofIndex? index = some n)
    (h : g.rules.length ≤ index.toNat) : d.apply g index = .error (.outOfRange n) := by
  rw [apply, hindex, List.getElem?_eq_none h]

/-- A derivation takes the step that the rule makes from its current form. -/
theorem map_apply {r : Rule} (hindex : Ordinal.ofIndex? index = some n)
    (h : g.rules[index.toNat]? = some r) : (d.apply g index).map (·.1) = r.step index d.current := by
  rw [apply, hindex, h]
  dsimp only
  cases r.step index d.current with
  | error cause => rfl
  | ok s => rfl

theorem tells_iff : d.Tells g index n ↔ Ordinal.ofIndex? index = some n := by
  constructor
  · intro h
    -- Any rule on any form would do.
    let r : Rule := ⟨Symbol.start, []⟩
    have hbears := h.step r []
    cases hindex : Ordinal.ofIndex? index with
    | none =>
      rw [Rule.step_of_largest (Ordinal.ofIndex?_eq_none_iff.mp hindex)] at hbears
      cases hbears
    | some m => rw [(Rule.bears_step hindex).unique hbears]
  · intro hindex
    refine ⟨apply_of_length_le hindex, ?_, fun r form => Rule.bears_step hindex⟩
    intro r hr
    rw [map_apply hindex hr]
    exact Rule.bears_step hindex

theorem apply_of_largest (h : index.toNat + 1 = UInt64.size) : d.apply g index = .error .overflow := by
  rw [apply, Ordinal.ofIndex?_eq_none_iff.mpr h]

/-- No other index than the largest one overflows. -/
theorem apply_ne_overflow (hindex : Ordinal.ofIndex? index = some n) :
    d.apply g index ≠ .error .overflow := by
  have htells : d.Tells g index n := tells_iff.mpr hindex
  intro h
  cases hrule : g.rules[index.toNat]? with
  | none =>
    rw [htells.outOfRange (List.getElem?_eq_none_iff.mp hrule)] at h
    cases h
  | some r =>
    have hbears := htells.inRange r hrule
    rw [h] at hbears
    cases hbears

/-- The results at an index tell the number one above it exactly if this is a machine word. One above
the largest index is none, and there every application overflows, whatever the rules are. Where there is
no rule an application fails, and a history stays as it is. -/
theorem tells_successor_iff (g : Grammar) (d : Derivation) (index : UInt64) :
    ((∃ n : Ordinal, n.toNat = index.toNat + 1 ∧ d.Tells g index n) ↔
        index.toNat + 1 < UInt64.size) ∧
      (index.toNat + 1 = UInt64.size → d.apply g index = .error .overflow ∧
        ∀ (r : Rule) (form : Word), r.step index form = .error .overflow) ∧
      (g.rules.length ≤ index.toNat → ∀ n : Ordinal, n.toNat = index.toNat + 1 →
        ∀ (stamp : Stamp) (h : History), h.call g (.apply stamp index) = (some (.outOfRange n), h)) := by
  refine ⟨⟨?_, ?_⟩, ?_, ?_⟩
  · rintro ⟨n, hn, -⟩
    exact hn ▸ n.toNat_lt_size
  · intro hlt
    have hindex : Ordinal.ofIndex? index = some (index + 1) :=
      Ordinal.ofIndex?_eq_some_iff.mpr ⟨hlt, rfl⟩
    exact ⟨index + 1, Ordinal.toNat_succ hlt, tells_iff.mpr hindex⟩
  · exact fun hlast => ⟨apply_of_largest hlast, fun _ _ => Rule.step_of_largest hlast⟩
  · intro hle n hn stamp h
    have hlt : index.toNat + 1 < UInt64.size := hn ▸ n.toNat_lt_size
    have hsucc : index + 1 = n := UInt64.toNat_inj.mp ((Ordinal.toNat_succ hlt).trans hn.symm)
    have hindex : Ordinal.ofIndex? index = some n := Ordinal.ofIndex?_eq_some_iff.mpr ⟨hlt, hsucc⟩
    rw [History.call, History.apply, apply_of_length_le hindex hle]

/-- An index past the four rules of the small grammar, and the largest one. -/
theorem tells_successor_iff_sample :
    (∃ n : Ordinal, n.toNat = 8 ∧ start.Tells Grammar.sample 7 n) ∧
      (∀ (stamp : Stamp) (h : History),
        h.call Grammar.sample (.apply stamp 7) = (some (.outOfRange 8), h)) ∧
      ∀ (r : Rule) (form : Word), r.step 18446744073709551615 form = .error .overflow := by
  obtain ⟨⟨-, htells⟩, -, hcall⟩ := tells_successor_iff Grammar.sample start 7
  obtain ⟨-, hlast, -⟩ := tells_successor_iff Grammar.sample start 18446744073709551615
  exact ⟨htells (by decide), hcall (by decide) 8 rfl, (hlast (by decide)).2⟩

/-- At the largest index an application tells no ordinal. -/
theorem largest_index_overflows :
    start.apply Grammar.sample 18446744073709551615 = .error .overflow ∧
      ¬ ∃ n : Ordinal, n.toNat = (18446744073709551615 : UInt64).toNat + 1 ∧
        start.Tells Grammar.sample 18446744073709551615 n := by
  refine ⟨apply_of_largest (by decide), ?_⟩
  rintro ⟨n, hn, -⟩
  have hlt := n.toNat_lt_size
  rw [hn] at hlt
  exact absurd hlt (by decide)

end Derivation

/-- A session is asked for a rule by its ordinal, and the index below an ordinal is not the largest. -/
theorem Session.apply_ne_overflow (s : Session) (stamp : Stamp) (n : Ordinal) :
    s.apply stamp n ≠ .error (.derivation .overflow) := by
  rw [Session.apply]
  cases s.active with
  | none => simp
  | some a =>
    dsimp only
    split
    next => simp
    next hn =>
      cases happly : a.history.apply a.grammar stamp (n - 1) with
      | ok pair => simp
      | error cause =>
        have hne := Derivation.apply_ne_overflow (d := a.history.derivation) (g := a.grammar)
          (Ordinal.ofIndex?_pred hn)
        intro hoverflow
        obtain rfl : cause = .overflow := by simpa using hoverflow
        exact hne (History.apply_eq_error_iff.mp happly)

end Sentential
