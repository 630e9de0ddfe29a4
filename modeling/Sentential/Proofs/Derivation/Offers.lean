import Mathlib.Data.List.Sort
import Sentential.Proofs.Derivation.Leftmost
import Sentential.Proofs.Grammar.Building

/-!
# What is offered

For every form a grammar offers all of its rules, those that apply before those that do not. An offer
is a promise: it is marked as available exactly if applying the rule would succeed. The order of the
offers leaves no choice, so that there is only one list of offers for a form.
-/

namespace Sentential

/-- Whether an offer stands before another: only it is available, or they are in the same group and its
ordinal is the smaller one. -/
def Offer.Before (o p : Offer) : Prop :=
  o.available = true ∧ p.available = false ∨
    o.available = p.available ∧ o.ordinal.toNat < p.ordinal.toNat

instance : Std.Irrefl Offer.Before where
  irrefl o h := by
    rcases h with ⟨havailable, hnot⟩ | ⟨-, hlt⟩
    · exact Bool.false_ne_true (hnot.symm.trans havailable)
    · exact Nat.lt_irrefl _ hlt

instance : Std.Antisymm Offer.Before where
  antisymm o p hop hpo := by
    simp only [Offer.Before] at hop hpo
    exfalso
    grind

/-- What a list of offers has to be for a form: every rule of the grammar is in it once and under its
own ordinal, the offers come in their order, and available are those whose rule makes a step. -/
structure Grammar.OffersFor (g : Grammar) (form : Word) (offers : List Offer) : Prop where
  rules_perm : (offers.map (·.rule)).Perm g.rules
  rule?_eq : ∀ o ∈ offers, g.rule? o.ordinal = some o.rule
  ordered : offers.Pairwise Offer.Before
  available_iff : ∀ o ∈ offers,
    o.available = true ↔ ∃ s, o.rule.step (o.ordinal - 1) form = .ok s

namespace Rule

/-- A rule makes a step from exactly the forms that it applies to, whatever its ordinal. -/
theorem exists_step_iff {r : Rule} {n : Ordinal} (hn : n ≠ 0) {form : Word} :
    (∃ s, r.step (n - 1) form = .ok s) ↔ r.applies form = true := by
  rw [← isSome_applyLeftmost?, step, Ordinal.ofIndex?_pred hn]
  cases r.applyLeftmost? form with
  | none => simp
  | some next => simp

end Rule

namespace Grammar

variable {g : Grammar} {form : Word} {offers : List Offer}

/-! ### Numbered rules -/

theorem numbered_map_snd (g : Grammar) : g.numbered.map (·.2) = g.rules := by
  rw [numbered, List.map_map]
  exact List.zipIdx_map_fst 0 g.rules

theorem toNat_ofNat_succ (hsize : g.rules.length < UInt64.size) {i : Nat}
    (hi : i < g.rules.length) : (UInt64.ofNat (i + 1)).toNat = i + 1 :=
  UInt64.toNat_ofNat_of_lt (Nat.lt_of_le_of_lt hi hsize)

/-- The numbered rules are those that can be looked up, each under its ordinal. -/
theorem mem_numbered_iff (hsize : g.rules.length < UInt64.size) {n : Ordinal} {r : Rule} :
    (n, r) ∈ g.numbered ↔ g.rule? n = some r := by
  rw [numbered, List.mem_map, rule?_eq_some_iff]
  constructor
  · rintro ⟨⟨r, i⟩, hmem, heq⟩
    obtain ⟨rfl, rfl⟩ := Prod.mk.inj heq
    have hget : g.rules[i]? = some r := List.mem_zipIdx_iff_getElem?.mp hmem
    rw [toNat_ofNat_succ hsize (List.getElem?_eq_some_iff.mp hget).1]
    exact ⟨Nat.succ_pos i, hget⟩
  · rintro ⟨hpos, hget⟩
    refine ⟨(r, n.toNat - 1), List.mem_zipIdx_iff_getElem?.mpr hget, ?_⟩
    simp only [Nat.sub_add_cancel hpos, UInt64.ofNat_toNat]

theorem numbered_pairwise (hsize : g.rules.length < UInt64.size) :
    g.numbered.Pairwise fun p q => p.1.toNat < q.1.toNat := by
  rw [numbered, List.pairwise_map, List.pairwise_iff_getElem]
  intro i j hi hj hij
  rw [List.length_zipIdx] at hi hj
  simp only [List.getElem_zipIdx, Nat.zero_add, toNat_ofNat_succ hsize hi, toNat_ofNat_succ hsize hj]
  omega

/-! ### Offers -/

/-- The offers for a form before they are put in order. -/
def marked (g : Grammar) (form : Word) : List Offer :=
  g.numbered.map fun p => ⟨p.1, p.2, p.2.applies form⟩

theorem offers_eq (g : Grammar) (form : Word) : g.offers form =
    (g.marked form).filter (·.available) ++ (g.marked form).filter (!·.available) := rfl

theorem offers_perm (g : Grammar) (form : Word) : (g.offers form).Perm (g.marked form) :=
  List.filter_append_perm _ _

/-- An offer stands for a rule under its ordinal and tells whether the rule applies. -/
theorem mem_offers_iff (hsize : g.rules.length < UInt64.size) {o : Offer} :
    o ∈ g.offers form ↔ g.rule? o.ordinal = some o.rule ∧ o.available = o.rule.applies form := by
  rw [(g.offers_perm form).mem_iff, marked, List.mem_map]
  constructor
  · rintro ⟨⟨n, r⟩, hmem, rfl⟩
    exact ⟨(mem_numbered_iff hsize).mp hmem, rfl⟩
  · rintro ⟨hrule, havailable⟩
    refine ⟨(o.ordinal, o.rule), (mem_numbered_iff hsize).mpr hrule, ?_⟩
    rw [← havailable]

/-- Both groups keep the order of the ordinals. -/
theorem offers_ordered (hsize : g.rules.length < UInt64.size) (form : Word) :
    (g.offers form).Pairwise Offer.Before := by
  have hmarked : (g.marked form).Pairwise fun o p => o.ordinal.toNat < p.ordinal.toNat :=
    List.pairwise_map.mpr (numbered_pairwise hsize)
  rw [offers_eq, List.pairwise_append]
  refine ⟨?_, ?_, ?_⟩
  · refine (hmarked.filter _).imp_of_mem ?_
    intro o p ho hp hlt
    have hsame := (List.mem_filter.mp ho).2.trans (List.mem_filter.mp hp).2.symm
    exact .inr ⟨hsame, hlt⟩
  · refine (hmarked.filter _).imp_of_mem ?_
    intro o p ho hp hlt
    have hsame := (List.mem_filter.mp ho).2.trans (List.mem_filter.mp hp).2.symm
    exact .inr ⟨Bool.not_inj hsame, hlt⟩
  · intro o ho p hp
    exact .inl ⟨(List.mem_filter.mp ho).2, by simpa using (List.mem_filter.mp hp).2⟩

theorem offersFor_offers (hsize : g.rules.length < UInt64.size) (form : Word) :
    g.OffersFor form (g.offers form) where
  rules_perm := by
    have hrules : (g.marked form).map (·.rule) = g.rules := by
      rw [marked, List.map_map]
      exact g.numbered_map_snd
    exact hrules ▸ (g.offers_perm form).map _
  rule?_eq o ho := ((mem_offers_iff hsize).mp ho).1
  ordered := offers_ordered hsize form
  available_iff o ho := by
    obtain ⟨hrule, havailable⟩ := (mem_offers_iff hsize).mp ho
    rw [Rule.exists_step_iff (ne_zero_of_rule? hrule), havailable]

/-- A list of offers as it has to be holds an offer for every rule, and no others. -/
theorem OffersFor.mem_iff (hnodup : g.rules.Nodup) (h : g.OffersFor form offers) {o : Offer} :
    o ∈ offers ↔ g.rule? o.ordinal = some o.rule ∧ o.available = o.rule.applies form := by
  have havailable (p : Offer) (hp : p ∈ offers) : p.available = p.rule.applies form :=
    Bool.eq_iff_iff.mpr ((h.available_iff p hp).trans
      (Rule.exists_step_iff (ne_zero_of_rule? (h.rule?_eq p hp))))
  constructor
  · intro ho
    exact ⟨h.rule?_eq o ho, havailable o ho⟩
  · rintro ⟨hrule, happlies⟩
    -- The rule has an offer, and this can be no other one.
    have hmem : o.rule ∈ g.rules := List.mem_of_getElem? (rule?_eq_some_iff.mp hrule).2
    obtain ⟨p, hp, hsame⟩ := List.mem_map.mp (h.rules_perm.mem_iff.mpr hmem)
    obtain ⟨n, r, available⟩ := o
    obtain rfl : p.rule = r := hsame
    obtain rfl : p.ordinal = n := Ordinal.eq_of_getElem? hnodup
      (rule?_eq_some_iff.mp (h.rule?_eq p hp)) (rule?_eq_some_iff.mp hrule)
    obtain rfl : p.available = available := (havailable p hp).trans happlies.symm
    exact hp

/-- For every form there is one list of offers as it has to be, and this is the one that is made. What
it marks as available can be applied in every derivation that has arrived at the form, and nothing else
can; for a completed form nothing is available. -/
theorem offers_exact (hg : g.Buildable) (form : Word) :
    (∀ offers, g.OffersFor form offers ↔ offers = g.offers form) ∧
      (∀ o ∈ g.offers form, ∀ d : Derivation, d.current = form →
        (o.available = true ↔ ∃ s next, d.apply g (o.ordinal - 1) = .ok (s, next))) ∧
      (g.progress form = .completed → ∀ o ∈ g.offers form, o.available = false) := by
  have hwf := hg.wellFormed
  have hsize := hwf.rules_length_lt
  refine ⟨?_, ?_, ?_⟩
  · intro offers
    constructor
    · intro h
      refine h.ordered.eq_of_mem_iff (offers_ordered hsize form) ?_
      intro o
      rw [h.mem_iff hwf.rules_nodup, mem_offers_iff hsize]
    · rintro rfl
      exact offersFor_offers hsize form
  · rintro o ho d rfl
    obtain ⟨hrule, havailable⟩ := (mem_offers_iff hsize).mp ho
    rw [Derivation.exists_apply_iff (ne_zero_of_rule? hrule), havailable]
    simp [hrule]
  · intro hdone o ho
    obtain ⟨hrule, havailable⟩ := (mem_offers_iff hsize).mp ho
    have hr := List.mem_of_getElem? (rule?_eq_some_iff.mp hrule).2
    rw [havailable, applies_eq_false_of_completed hwf hdone hr]

theorem offers_exact_sample :
    sample.Buildable ∧
      sample.OffersFor ['A', 'A'] [⟨2, ⟨'A', ['а', 'A']⟩, true⟩, ⟨3, ⟨'A', ['ъ']⟩, true⟩,
        ⟨1, ⟨'S', ['A', 'A']⟩, false⟩, ⟨4, ⟨'S', ['б', 'A', 'б']⟩, false⟩] ∧
      (∃ s next, (Derivation.start.push ⟨1, ['A', 'A']⟩).apply sample 2 = .ok (s, next)) ∧
      sample.progress ['а', 'а'] = .completed ∧
      ∀ o ∈ sample.offers ['а', 'а'], o.available = false := by
  obtain ⟨hexact, happlies, -⟩ := offers_exact sample_buildable ['A', 'A']
  obtain ⟨-, -, hdone⟩ := offers_exact sample_buildable ['а', 'а']
  have hmem : ⟨3, ⟨'A', ['ъ']⟩, true⟩ ∈ sample.offers ['A', 'A'] := by decide
  have happly := (happlies _ hmem (Derivation.start.push ⟨1, ['A', 'A']⟩) rfl).mp rfl
  exact ⟨sample_buildable, (hexact _).mpr rfl, happly, rfl, hdone rfl⟩

end Grammar

end Sentential
