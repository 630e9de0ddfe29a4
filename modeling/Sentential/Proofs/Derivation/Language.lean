import Mathlib.Logic.Relation
import Sentential.Proofs.Derivation.Leftmost
import Sentential.Proofs.Grammar.Building

/-!
# Derivations and the language of a grammar

Derivations rewrite the leftmost occurrence of whichever symbol the chosen rule replaces, while
the language of a grammar is defined by rewriting anywhere. The two reach the same words: in a
rewriting sequence that ends in a word, the steps that replace the first symbol of a form can be
taken before all others.
-/

namespace Sentential

open Relation (ReflTransGen)

namespace Grammar

/-- One context-free step: an occurrence of a rule's left-hand symbol, not necessarily the
first, gives way to the right-hand side, or to nothing if that is `ъ` alone. -/
def Rewrites (g : Grammar) (form next : Word) : Prop :=
  ∃ r ∈ g.rules, ∃ before after, form = before ++ r.left :: after ∧
    next = before ++ (if r.right = [Symbol.epsilon] then [] else r.right) ++ after

/-- The start symbol rewrites to a form in finitely many steps. -/
def Generates (g : Grammar) (form : Word) : Prop :=
  ReflTransGen g.Rewrites [Symbol.start] form

/-- Some rule makes one form of another at its leftmost occurrence. -/
def RewritesLeftmost (g : Grammar) (form next : Word) : Prop :=
  ∃ r ∈ g.rules, r.applyLeftmost? form = some next

inductive RewritesIn (g : Grammar) : Nat → Word → Word → Prop
  | refl (form : Word) : RewritesIn g 0 form form
  | head {n : Nat} {form next last : Word} :
      g.Rewrites form next → RewritesIn g n next last → RewritesIn g (n + 1) form last

variable {g : Grammar}

theorem rewrites_iff {form next : Word} :
    g.Rewrites form next ↔ ∃ r ∈ g.rules, ∃ before after,
      form = before ++ r.left :: after ∧ next = before ++ r.replacement ++ after := by
  simp only [Rewrites, Rule.replacement, Rule.isEpsilon, beq_iff_eq]

theorem Rewrites.append_left {form next : Word} (h : g.Rewrites form next) (w : Word) :
    g.Rewrites (w ++ form) (w ++ next) := by
  obtain ⟨r, hr, before, after, rfl, rfl⟩ := h
  exact ⟨r, hr, w ++ before, after, by simp, by simp⟩

theorem RewritesLeftmost.rewrites {form next : Word} (h : g.RewritesLeftmost form next) :
    g.Rewrites form next := by
  obtain ⟨r, hr, happly⟩ := h
  obtain ⟨before, after, hform, -, hnext⟩ := Rule.applyLeftmost?_eq_some_iff.mp happly
  exact rewrites_iff.mpr ⟨r, hr, before, after, hform, hnext⟩

/-- A leftmost step stays one behind a symbol that no rule replaces. -/
theorem RewritesLeftmost.cons {form next : Word} {c : Char}
    (hc : ∀ r ∈ g.rules, c ≠ r.left) (h : g.RewritesLeftmost form next) :
    g.RewritesLeftmost (c :: form) (c :: next) := by
  obtain ⟨r, hr, happly⟩ := h
  refine ⟨r, hr, ?_⟩
  rw [Rule.applyLeftmost?, if_neg (hc r hr), happly]
  rfl

theorem exists_rewritesIn {form last : Word} (h : ReflTransGen g.Rewrites form last) :
    ∃ n, g.RewritesIn n form last := by
  induction h using ReflTransGen.head_induction_on with
  | refl => exact ⟨0, .refl last⟩
  | head hstep _ ih =>
    obtain ⟨n, hn⟩ := ih
    exact ⟨n + 1, .head hstep hn⟩

/-- A sequence of steps either never touches the first symbol or can replace it first. -/
theorem RewritesIn.cons_cases {n : Nat} {c : Char} {form last : Word}
    (h : g.RewritesIn n (c :: form) last) :
    (∃ rest, last = c :: rest ∧ g.RewritesIn n form rest) ∨
      ∃ r ∈ g.rules, r.left = c ∧
        ∃ m, n = m + 1 ∧ g.RewritesIn m (r.replacement ++ form) last := by
  induction n generalizing form with
  | zero =>
    cases h
    exact .inl ⟨form, rfl, .refl form⟩
  | succ n ih =>
    cases h with
    | head hstep hrest =>
      obtain ⟨r, hr, before, after, hform, rfl⟩ := rewrites_iff.mp hstep
      cases before with
      | nil =>
        obtain ⟨rfl, rfl⟩ := List.cons.inj hform
        exact .inr ⟨r, hr, rfl, n, rfl, hrest⟩
      | cons d before =>
        obtain ⟨rfl, rfl⟩ := List.cons.inj hform
        -- The first step happens further right, so it can be made in either case of the rest.
        have hlater : g.Rewrites (before ++ r.left :: after) (before ++ r.replacement ++ after) :=
          rewrites_iff.mpr ⟨r, hr, before, after, rfl, rfl⟩
        rcases ih hrest with ⟨rest, hlast, hin⟩ | ⟨r', hr', hleft, m, rfl, hin⟩
        · exact .inl ⟨rest, hlast, .head hlater hin⟩
        · exact .inr ⟨r', hr', hleft, m + 1, rfl, .head (hlater.append_left r'.replacement) hin⟩

theorem RewritesIn.nil_eq {n : Nat} {last : Word} (h : g.RewritesIn n [] last) : last = [] := by
  cases h with
  | refl => rfl
  | head hstep _ =>
    obtain ⟨r, -, before, after, hform, -⟩ := hstep
    simp at hform

/-- What rewrites to a word of symbols that no rule replaces does so by leftmost steps. -/
theorem RewritesIn.leftmost {n : Nat} {form word : Word}
    (hword : ∀ c ∈ word, ∀ r ∈ g.rules, c ≠ r.left) (h : g.RewritesIn n form word) :
    ReflTransGen g.RewritesLeftmost form word := by
  -- The induction is on the number of steps and, within it, on the form, whose first symbol is
  -- either final or replaced at once.
  induction n generalizing form word with
  | zero =>
    cases h
    exact .refl
  | succ n ihsteps =>
    induction form generalizing word with
    | nil =>
      rw [h.nil_eq]
    | cons c form ihform =>
      rcases h.cons_cases with ⟨rest, rfl, hin⟩ | ⟨r, hr, rfl, m, hm, hin⟩
      · have hrest : ∀ d ∈ rest, ∀ r ∈ g.rules, d ≠ r.left :=
          fun d hd => hword d (List.mem_cons_of_mem c hd)
        exact (ihform hrest hin).lift (c :: ·) fun _ _ hstep =>
          hstep.cons (hword c List.mem_cons_self)
      · obtain rfl := Nat.succ.inj hm
        refine .head ⟨r, hr, ?_⟩ (ihsteps hword hin)
        rw [Rule.applyLeftmost?, if_pos rfl]

/-- Words are generated by leftmost steps exactly if they are generated at all. -/
theorem generates_iff_leftmost {word : Word} (hword : ∀ c ∈ word, ∀ r ∈ g.rules, c ≠ r.left) :
    g.Generates word ↔ ReflTransGen g.RewritesLeftmost [Symbol.start] word := by
  constructor
  · intro h
    obtain ⟨n, hn⟩ := exists_rewritesIn h
    exact hn.leftmost hword
  · exact ReflTransGen.mono (fun _ _ hstep => hstep.rewrites) _ _

end Grammar

namespace Derivation

/-- Applies the rules at some indices one after another, as long as each applies. -/
def applyAll (g : Grammar) (indices : List UInt64) (d : Derivation) :
    Except DerivationError Derivation :=
  indices.foldlM (fun d index => (d.apply g index).map (·.2)) d

variable {g : Grammar} {d d' : Derivation}

theorem map_snd_apply_eq_ok_iff {index : UInt64} :
    (d.apply g index).map (·.2) = .ok d' ↔ ∃ r form, index.toNat + 1 < UInt64.size ∧
      g.rules[index.toNat]? = some r ∧ r.applyLeftmost? d.current = some form ∧
      d' = d.push ⟨index + 1, form⟩ := by
  constructor
  · intro h
    cases happly : d.apply g index with
    | error cause =>
      rw [happly] at h
      cases h
    | ok pair =>
      obtain ⟨s, e⟩ := pair
      rw [happly] at h
      obtain rfl := Except.ok.inj h
      obtain ⟨r, form, hindex, hrule, hform, -, hpush⟩ := apply_eq_ok_iff.mp happly
      exact ⟨r, form, hindex, hrule, hform, hpush⟩
  · rintro ⟨r, form, hindex, hrule, hform, rfl⟩
    rw [apply_eq_ok_iff.mpr ⟨r, form, hindex, hrule, hform, rfl, rfl⟩]
    rfl

/-- Successful applications rewrite the current form by leftmost steps. -/
theorem leftmost_of_applyAll {indices : List UInt64} (h : d.applyAll g indices = .ok d') :
    ReflTransGen g.RewritesLeftmost d.current d'.current := by
  induction indices generalizing d with
  | nil =>
    obtain rfl := Except.ok.inj h
    exact .refl
  | cons index rest ih =>
    rw [applyAll, List.foldlM_cons] at h
    obtain ⟨e, hfirst, hrest⟩ := bind_eq_ok_iff.mp h
    obtain ⟨r, form, -, hrule, hform, rfl⟩ := map_snd_apply_eq_ok_iff.mp hfirst
    exact .head ⟨r, List.mem_of_getElem? hrule, hform⟩ (ih hrest)

/-- Leftmost steps can be made by applications, provided that indices fit a machine word. -/
theorem exists_applyAll_of_leftmost (hsize : g.rules.length < UInt64.size) {form last : Word}
    (h : ReflTransGen g.RewritesLeftmost form last) (hd : d.current = form) :
    ∃ indices d', d.applyAll g indices = .ok d' ∧ d'.current = last := by
  induction h using ReflTransGen.head_induction_on generalizing d with
  | refl => exact ⟨[], d, rfl, hd⟩
  | head hstep _ ih =>
    obtain ⟨r, hr, happly⟩ := hstep
    obtain ⟨i, hi, rfl⟩ := List.getElem_of_mem hr
    have hindex : (UInt64.ofNat i).toNat = i :=
      UInt64.toNat_ofNat_of_lt' (Nat.lt_trans hi hsize)
    have hlt : (UInt64.ofNat i).toNat + 1 < UInt64.size := by
      rw [hindex]
      exact Nat.lt_of_le_of_lt hi hsize
    have hfirst : (d.apply g (UInt64.ofNat i)).map (·.2) = .ok (d.push ⟨UInt64.ofNat i + 1, _⟩) :=
      map_snd_apply_eq_ok_iff.mpr
        ⟨g.rules[i], _, hlt, by rw [hindex, List.getElem?_eq_getElem hi], hd ▸ happly, rfl⟩
    obtain ⟨indices, d', hrest, hlast⟩ := ih (current_push d ⟨UInt64.ofNat i + 1, _⟩)
    refine ⟨UInt64.ofNat i :: indices, d', ?_, hlast⟩
    rw [applyAll, List.foldlM_cons]
    exact bind_eq_ok_iff.mpr ⟨_, hfirst, hrest⟩

end Derivation

namespace Grammar

variable {g : Grammar}

/-- Some derivation from the start symbol ends with a word, completed. -/
def Completes (g : Grammar) (word : Word) : Prop :=
  ∃ indices d, Derivation.start.applyAll g indices = .ok d ∧ d.current = word ∧
    g.progress d.current = .completed

/-- The words that derivations complete are exactly the language of the grammar: the words
without non-terminals that the start symbol rewrites to, wherever the steps are made. -/
theorem completes_iff_generates (hg : g.Buildable) (word : Word) :
    g.Completes word ↔ (∀ c ∈ word, c ∉ g.nonTerminals) ∧ g.Generates word := by
  have hwf := hg.wellFormed
  constructor
  · rintro ⟨indices, d, hall, rfl, hdone⟩
    have hword := progress_eq_completed_iff.mp hdone
    refine ⟨hword, (generates_iff_leftmost fun c hc => hwf.ne_left (hword c hc)).mpr ?_⟩
    exact Derivation.leftmost_of_applyAll hall
  · rintro ⟨hword, hgen⟩
    have hleft := (generates_iff_leftmost fun c hc => hwf.ne_left (hword c hc)).mp hgen
    obtain ⟨indices, d, hall, rfl⟩ :=
      Derivation.exists_applyAll_of_leftmost hwf.rules_length_lt hleft Derivation.current_start
    exact ⟨indices, d, hall, rfl, progress_eq_completed_iff.mpr hword⟩

/-- The word `а` of the small grammar, completed by the rules 1, 2, 3 and 3 in this order. -/
theorem completes_iff_generates_sample :
    sample.Buildable ∧ sample.Completes ['а'] ∧
      (∀ c ∈ ['а'], c ∉ sample.nonTerminals) ∧ sample.Generates ['а'] := by
  have hcompletes : sample.Completes ['а'] := ⟨[0, 1, 2, 2], _, rfl, rfl, rfl⟩
  exact ⟨sample_buildable, hcompletes,
    (completes_iff_generates sample_buildable ['а']).mp hcompletes⟩

end Grammar

end Sentential
