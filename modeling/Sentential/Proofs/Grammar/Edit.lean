import Sentential.Grammar.Edit
import Sentential.Proofs.Except

/-!
# What accepted edits do

For every edit the exact condition under which it is accepted, and the grammar it then
leaves. From these conditions alone every accepted edit keeps a grammar well formed.
-/

namespace Sentential

namespace Grammar

variable {g g' : Grammar}

theorem readOne_eq_ok_iff {p : Char → Prop} [DecidablePred p] {e : GrammarError} {cs : List Char}
    {c : Char} :
    (match Symbol.sole? cs with
      | some d => if p d then .ok d else .error e
      | none => .error e) = Except.ok c ↔ cs = [c] ∧ p c := by
  split
  next d h =>
    have hd := Symbol.sole?_eq_some_iff.mp h
    split
    next hp =>
      rw [Except.ok.injEq, hd, List.cons.injEq]
      constructor
      · rintro rfl
        exact ⟨⟨rfl, rfl⟩, hp⟩
      · exact fun h => h.1.1
    next hp =>
      simp only [reduceCtorEq, hd, List.cons.injEq, and_true, false_iff, not_and]
      rintro rfl
      exact hp
  next h =>
    have hne : cs ≠ [c] := fun heq => by simp [heq, Symbol.sole?] at h
    simp [hne]

theorem readSymbol_eq_ok_iff {kind : Symbol.Kind} {input : String} {c : Char} :
    readSymbol kind input = .ok c ↔ input.toList = [c] ∧ kind.admits c = true :=
  readOne_eq_ok_iff

theorem addTerminal_eq_ok_iff {input : String} :
    g.addTerminal input = .ok g' ↔ ∃ c, input.toList = [c] ∧ Symbol.isTerminal c = true ∧
      c ∉ g.terminals ∧ g' = { g with terminals := g.terminals ++ [c] } := by
  simp only [addTerminal, bind_eq_ok_iff, readSymbol_eq_ok_iff, check_eq_ok_iff, pure_eq_ok_iff,
    Symbol.Kind.admits, and_assoc]

theorem addNonTerminal_eq_ok_iff {input : String} :
    g.addNonTerminal input = .ok g' ↔ ∃ c, input.toList = [c] ∧ Symbol.isNonTerminal c = true ∧
      c ∉ g.nonTerminals ∧ g' = { g with nonTerminals := g.nonTerminals ++ [c] } := by
  simp only [addNonTerminal, bind_eq_ok_iff, readSymbol_eq_ok_iff, check_eq_ok_iff,
    pure_eq_ok_iff, Symbol.Kind.admits, and_assoc]

theorem checkRemoval_eq_ok_iff {alphabet : List Char} {c : Char} {u : Unit} :
    g.checkRemoval alphabet c = .ok u ↔
      c ∈ alphabet ∧ ∀ r ∈ g.rules, r.mentions c = false := by
  by_cases hc : c ∈ alphabet
  · cases hu : g.rules.any (·.mentions c) with
    | true =>
      obtain ⟨r, hr, hm⟩ := List.any_eq_true.mp hu
      have hno : ¬ ∀ r ∈ g.rules, r.mentions c = false := fun h => by simp [h r hr] at hm
      simp [checkRemoval, hc, hu, hno, throw, throwThe, MonadExceptOf.throw]
    | false =>
      have hall : ∀ r ∈ g.rules, r.mentions c = false := by simpa using hu
      simp only [checkRemoval, hc, hu, not_true_eq_false, ↓reduceIte, Bool.false_eq_true,
        true_and]
      exact iff_of_true rfl hall
  · simp [checkRemoval, hc, throw, throwThe, MonadExceptOf.throw, bind, Except.bind]

theorem removeTerminal_eq_ok_iff {c : Char} :
    g.removeTerminal c = .ok g' ↔ c ∈ g.terminals ∧ (∀ r ∈ g.rules, r.mentions c = false) ∧
      g' = { g with terminals := g.terminals.erase c } := by
  simp only [removeTerminal, bind_eq_ok_iff, checkRemoval_eq_ok_iff, pure_eq_ok_iff, and_assoc,
    exists_const]

theorem removeNonTerminal_eq_ok_iff {c : Char} :
    g.removeNonTerminal c = .ok g' ↔ c ≠ Symbol.start ∧ c ∈ g.nonTerminals ∧
      (∀ r ∈ g.rules, r.mentions c = false) ∧
      g' = { g with nonTerminals := g.nonTerminals.erase c } := by
  simp only [removeNonTerminal, check_eq_ok_iff, bind_eq_ok_iff, checkRemoval_eq_ok_iff,
    pure_eq_ok_iff, and_assoc, exists_const, ne_eq]

theorem readLeft_eq_ok_iff {input : String} {c : Char} :
    g.readLeft input = .ok c ↔ input.toList = [c] ∧ c ∈ g.nonTerminals :=
  readOne_eq_ok_iff

theorem all_declared_iff {w : Word} :
    (w.all fun c => c == Symbol.blank || g.declares c) = true ↔
      ∀ c ∈ w, c = Symbol.blank ∨ c ∈ g.terminals ∨ c ∈ g.nonTerminals := by
  simp [declares]

theorem readRight_eq_ok_iff {input : String} {w : Word} :
    g.readRight input = .ok w ↔ input.toList = w ∧ w ≠ [] ∧
      ∀ c ∈ w, c = Symbol.blank ∨ c ∈ g.terminals ∨ c ∈ g.nonTerminals := by
  simp only [readRight, all_declared_iff]
  split
  next h =>
    rw [Except.ok.injEq]
    constructor
    · rintro rfl
      exact ⟨rfl, h⟩
    · exact fun hw => hw.1
  next h =>
    simp only [reduceCtorEq, false_iff, not_and]
    rintro rfl hne hall
    exact h ⟨hne, hall⟩

theorem addRule_eq_ok_iff {left right : String} :
    g.addRule left right = .ok g' ↔ ∃ r : Rule, left.toList = [r.left] ∧ right.toList = r.right ∧
      g.Admits r ∧ r ∉ g.rules ∧ g.rules.length < maxRules ∧
      g' = { g with rules := g.rules ++ [r] } := by
  simp only [addRule, bind_eq_ok_iff, readLeft_eq_ok_iff, readRight_eq_ok_iff, check_eq_ok_iff,
    pure_eq_ok_iff]
  constructor
  · rintro ⟨l, ⟨hl, hmem⟩, w, ⟨hw, hne, hall⟩, htrivial, hnew, hroom, rfl⟩
    exact ⟨⟨l, w⟩, hl, hw, ⟨hmem, hne, hall, by simpa [Rule.isTrivial] using htrivial⟩, hnew,
      Nat.lt_of_not_le hroom, rfl⟩
  · rintro ⟨r, hl, hw, hadmits, hnew, hroom, rfl⟩
    exact ⟨r.left, ⟨hl, hadmits.left_mem⟩, r.right,
      ⟨hw, hadmits.right_ne_nil, hadmits.right_declared⟩,
      by simpa [Rule.isTrivial] using hadmits.right_ne_left, hnew, Nat.not_le_of_lt hroom, rfl⟩

theorem removeRule_eq_ok_iff {n : Ordinal} :
    g.removeRule n = .ok g' ↔ 0 < n.toNat ∧ n.toNat ≤ g.rules.length ∧
      g' = { g with rules := g.rules.eraseIdx (n.toNat - 1) } := by
  simp only [removeRule, check_eq_ok_iff, pure_eq_ok_iff, not_or, and_assoc, Nat.not_lt]
  have hzero : n ≠ 0 ↔ 0 < n.toNat := by
    rw [Nat.pos_iff_ne_zero, ne_eq, ne_eq, ← UInt64.toNat_inj]
    rfl
  rw [← ne_eq, hzero]

/-- Rules still fit after a change of alphabets that keeps the symbols they mention. -/
theorem Admits.of_alphabets {r : Rule} (h : g.Admits r)
    (hterminals : ∀ c ∈ g.terminals, r.mentions c = true → c ∈ g'.terminals)
    (hnonTerminals : ∀ c ∈ g.nonTerminals, r.mentions c = true → c ∈ g'.nonTerminals) :
    g'.Admits r where
  left_mem := hnonTerminals _ h.left_mem (by simp [Rule.mentions])
  right_ne_nil := h.right_ne_nil
  right_declared := by
    intro c hc
    have hm : r.mentions c = true := by simp [Rule.mentions, hc]
    rcases h.right_declared c hc with hblank | ht | hn
    · exact .inl hblank
    · exact .inr (.inl (hterminals c ht hm))
    · exact .inr (.inr (hnonTerminals c hn hm))
  right_ne_left := h.right_ne_left

theorem mem_erase_of_mentions {alphabet : List Char} {c d : Char} {r : Rule}
    (hc : r.mentions c = false) (hd : d ∈ alphabet) (hm : r.mentions d = true) :
    d ∈ alphabet.erase c := by
  have hne : d ≠ c := by
    rintro rfl
    simp [hc] at hm
  exact (List.mem_erase_of_ne hne).mpr hd

theorem nodup_append_singleton {α : Type} {xs : List α} {x : α} (h : xs.Nodup) (hx : x ∉ xs) :
    (xs ++ [x]).Nodup := by
  refine List.nodup_append.mpr ⟨h, by simp, ?_⟩
  intro y hy z hz
  rw [List.mem_singleton.mp hz]
  rintro rfl
  exact hx hy

theorem forall_mem_append_singleton {α : Type} {p : α → Prop} {xs : List α} {x : α}
    (h : ∀ y ∈ xs, p y) (hx : p x) : ∀ y ∈ xs ++ [x], p y := by
  intro y hy
  rcases List.mem_append.mp hy with hy | hy
  · exact h y hy
  · rwa [List.mem_singleton.mp hy]

theorem addTerminal_wellFormed {input : String} (h : g.WellFormed)
    (he : g.addTerminal input = .ok g') : g'.WellFormed := by
  obtain ⟨c, -, hletter, hnew, rfl⟩ := addTerminal_eq_ok_iff.mp he
  exact { h with
    terminals_nodup := nodup_append_singleton h.terminals_nodup hnew
    terminals_letters := forall_mem_append_singleton h.terminals_letters hletter
    rules_admitted := fun r hr => (h.rules_admitted r hr).of_alphabets
      (fun d hd _ => List.mem_append_left _ hd) fun d hd _ => hd }

theorem addNonTerminal_wellFormed {input : String} (h : g.WellFormed)
    (he : g.addNonTerminal input = .ok g') : g'.WellFormed := by
  obtain ⟨c, -, hletter, hnew, rfl⟩ := addNonTerminal_eq_ok_iff.mp he
  exact { h with
    nonTerminals_nodup := nodup_append_singleton h.nonTerminals_nodup hnew
    nonTerminals_letters := forall_mem_append_singleton h.nonTerminals_letters hletter
    start_first := by
      rw [List.head?_append, h.start_first]
      rfl
    rules_admitted := fun r hr => (h.rules_admitted r hr).of_alphabets
      (fun d hd _ => hd) fun d hd _ => List.mem_append_left _ hd }

theorem removeTerminal_wellFormed {c : Char} (h : g.WellFormed)
    (he : g.removeTerminal c = .ok g') : g'.WellFormed := by
  obtain ⟨-, hunused, rfl⟩ := removeTerminal_eq_ok_iff.mp he
  exact { h with
    terminals_nodup := h.terminals_nodup.erase c
    terminals_letters := fun d hd => h.terminals_letters d (List.mem_of_mem_erase hd)
    rules_admitted := fun r hr => (h.rules_admitted r hr).of_alphabets
      (fun _ hd hm => mem_erase_of_mentions (hunused r hr) hd hm) fun _ hd _ => hd }

theorem removeNonTerminal_wellFormed {c : Char} (h : g.WellFormed)
    (he : g.removeNonTerminal c = .ok g') : g'.WellFormed := by
  obtain ⟨hstart, -, hunused, rfl⟩ := removeNonTerminal_eq_ok_iff.mp he
  exact { h with
    nonTerminals_nodup := h.nonTerminals_nodup.erase c
    nonTerminals_letters := fun d hd => h.nonTerminals_letters d (List.mem_of_mem_erase hd)
    start_first := by
      obtain ⟨rest, hrest⟩ := List.head?_eq_some_iff.mp h.start_first
      rw [hrest, List.erase_cons_tail (by simpa using hstart.symm)]
      rfl
    rules_admitted := fun r hr => (h.rules_admitted r hr).of_alphabets
      (fun _ hd _ => hd) fun _ hd hm => mem_erase_of_mentions (hunused r hr) hd hm }

theorem addRule_wellFormed {left right : String} (h : g.WellFormed)
    (he : g.addRule left right = .ok g') : g'.WellFormed := by
  obtain ⟨r, -, -, hadmits, hnew, hroom, rfl⟩ := addRule_eq_ok_iff.mp he
  exact { h with
    rules_admitted := forall_mem_append_singleton
      (fun r hr => (h.rules_admitted r hr).of_alphabets (fun _ hd _ => hd) fun _ hd _ => hd)
      (hadmits.of_alphabets (fun _ hd _ => hd) fun _ hd _ => hd)
    rules_nodup := nodup_append_singleton h.rules_nodup hnew
    rules_length := by
      rw [List.length_append]
      exact hroom }

theorem removeRule_wellFormed {n : Ordinal} (h : g.WellFormed)
    (he : g.removeRule n = .ok g') : g'.WellFormed := by
  obtain ⟨-, -, rfl⟩ := removeRule_eq_ok_iff.mp he
  exact { h with
    rules_admitted := fun r hr =>
      (h.rules_admitted r (List.mem_of_mem_eraseIdx hr)).of_alphabets
        (fun _ hd _ => hd) fun _ hd _ => hd
    rules_nodup := h.rules_nodup.sublist (List.eraseIdx_sublist _ _)
    rules_length := Nat.le_trans (List.eraseIdx_sublist _ _).length_le h.rules_length }

/-- Every accepted edit keeps a grammar well formed. -/
theorem edit_wellFormed {e : Edit} (h : g.WellFormed) (he : g.edit e = .ok g') :
    g'.WellFormed := by
  cases e with
  | addTerminal input => exact addTerminal_wellFormed h he
  | addNonTerminal input => exact addNonTerminal_wellFormed h he
  | removeTerminal c => exact removeTerminal_wellFormed h he
  | removeNonTerminal c => exact removeNonTerminal_wellFormed h he
  | addRule left right => exact addRule_wellFormed h he
  | removeRule n => exact removeRule_wellFormed h he

end Grammar

end Sentential
