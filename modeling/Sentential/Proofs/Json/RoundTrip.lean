import Sentential.Json.Record
import Sentential.Proofs.Json.Token

/-!
# Reading printed values

Values that are built of texts, natural numbers, truth values, lists and objects are read back
from their own text, in either layout. The gaps between tokens consist of blanks, which the reader
skips, and the length of the text bounds the recursion of the reader.
-/

namespace Sentential.Json

/-- The values that programs build: numbers are natural, and strings and keys are texts. -/
inductive Plain : Json → Prop where
  | null : Plain .null
  | bool (b : Bool) : Plain (.bool b)
  | ofNat (n : Nat) : Plain (ofNat n)
  | ofChars (cs : List Char) : Plain (ofChars cs)
  | array {items : List Json} (hitems : ∀ v ∈ items, Plain v) : Plain (.array items)
  | object {members : List (List StringPart × Json)}
      (hkeys : ∀ m ∈ members, ∃ key, m.1 = partsOf key)
      (hvalues : ∀ m ∈ members, Plain m.2) : Plain (.object members)

/-- A value is read back from its text at every depth, in front of whatever cannot continue a
number. -/
def ReadsBack (layout : Layout) (v : Json) : Prop :=
  ∀ depth fuel rest, (render layout depth v).length ≤ fuel → StopsNumber rest →
    readValue fuel (render layout depth v ++ rest) = some (v, rest)

section Gaps

variable (layout : Layout) (depth : Nat) (cs : List Char)

theorem skipSpace_cons_of_not {c : Char} (h : isSpace c = false) :
    skipSpace (c :: cs) = c :: cs := by
  rw [skipSpace, List.dropWhile_cons_of_neg (by simp [h])]

theorem skipSpace_quoted (parts : List StringPart) :
    skipSpace (quoted parts ++ cs) = quoted parts ++ cs :=
  skipSpace_cons_of_not _ (by decide)

@[simp]
theorem skipSpace_gap : skipSpace (layout.gap depth ++ cs) = skipSpace cs := by
  refine List.dropWhile_append_of_pos ?_
  intro c hc
  cases layout with
  | compact => simp [Layout.gap] at hc
  | indented =>
    rcases List.mem_cons.mp hc with rfl | hc
    · decide
    · rw [List.eq_of_mem_replicate hc]
      decide

theorem readValue_congr {fuel : Nat} {cs ds : List Char} (h : skipSpace cs = skipSpace ds) :
    readValue fuel cs = readValue fuel ds := by
  cases fuel with
  | zero => simp [readValue]
  | succ fuel => simp only [readValue, h]

theorem readItems_congr {fuel : Nat} {cs ds : List Char} (h : skipSpace cs = skipSpace ds) :
    readItems fuel cs = readItems fuel ds := by
  cases fuel with
  | zero => simp [readItems]
  | succ fuel => simp only [readItems, readValue_congr h]

theorem readMembers_congr {fuel : Nat} {cs ds : List Char} (h : skipSpace cs = skipSpace ds) :
    readMembers fuel cs = readMembers fuel ds := by
  cases fuel with
  | zero => simp [readMembers]
  | succ fuel => simp only [readMembers, h]

theorem stopsNumber_gap {cs : List Char} (h : StopsNumber cs) :
    StopsNumber (layout.gap depth ++ cs) := by
  cases layout with
  | compact => exact h
  | indented => exact stopsNumber_cons (by decide) (by decide) (by decide)

theorem stopsNumber_renderItems {vs : List Json} {cs : List Char} (h : StopsNumber cs) :
    StopsNumber (renderItems layout depth vs ++ cs) := by
  cases vs with
  | nil => simpa [renderItems] using h
  | cons v vs =>
    simp only [renderItems, List.cons_append]
    exact stopsNumber_cons (by decide) (by decide) (by decide)

theorem stopsNumber_renderMembers {ms : List (List StringPart × Json)} {cs : List Char}
    (h : StopsNumber cs) : StopsNumber (renderMembers layout depth ms ++ cs) := by
  cases ms with
  | nil => simpa [renderMembers] using h
  | cons m ms =>
    simp only [renderMembers, List.cons_append]
    exact stopsNumber_cons (by decide) (by decide) (by decide)

end Gaps

/-- The text of a value starts with neither a blank nor a closing bracket. -/
theorem Plain.render_eq_cons {v : Json} (h : v.Plain) (layout : Layout) (depth : Nat) :
    ∃ c cs, render layout depth v = c :: cs ∧ isSpace c = false ∧ c ≠ ']' := by
  cases h with
  | null => exact ⟨_, _, by rw [render], by decide, by decide⟩
  | bool b => cases b <;> exact ⟨_, _, by rw [render], by decide, by decide⟩
  | ofNat n =>
    cases hcons : Nat.toDigits 10 n with
    | nil => exact absurd hcons Nat.toDigits_ne_nil
    | cons c ds =>
      have hmem : c ∈ Nat.toDigits 10 n := hcons ▸ List.mem_cons_self
      have hc := Text.isDigit_of_mem_toDigits c hmem
      refine ⟨c, ds, by rw [Json.ofNat, render, hcons], ?_, ?_⟩
      · simp only [isSpace, Bool.or_eq_false_iff, beq_eq_false_iff_ne]
        refine ⟨⟨⟨?_, ?_⟩, ?_⟩, ?_⟩ <;> rintro rfl <;> exact absurd hc (by decide)
      · rintro rfl
        exact absurd hc (by decide)
  | ofChars cs => exact ⟨_, _, by rw [Json.ofChars, render, quoted]; rfl, by decide, by decide⟩
  | array hitems =>
    rename_i items
    cases items <;>
      exact ⟨_, _, by simp only [render, List.cons_append]; rfl, by decide, by decide⟩
  | object hkeys hvalues =>
    rename_i members
    cases members <;>
      exact ⟨_, _, by simp only [render, List.cons_append]; rfl, by decide, by decide⟩

theorem Plain.skipSpace_render {v : Json} (h : v.Plain) (layout : Layout) (depth : Nat)
    (rest : List Char) :
    skipSpace (render layout depth v ++ rest) = render layout depth v ++ rest := by
  obtain ⟨c, cs, hcons, hspace, -⟩ := h.render_eq_cons layout depth
  rw [hcons, List.cons_append, skipSpace_cons_of_not _ hspace]

section Values

variable {layout : Layout}

/-- The text of a value is not empty, so reading it may assume that there is fuel. -/
theorem Plain.readsBack_of_succ {v : Json} (hv : v.Plain)
    (h : ∀ depth fuel rest, (render layout depth v).length ≤ fuel + 1 → StopsNumber rest →
      readValue (fuel + 1) (render layout depth v ++ rest) = some (v, rest)) :
    ReadsBack layout v := by
  intro depth fuel rest hfuel hrest
  cases fuel with
  | zero =>
    obtain ⟨c, cs, hcons, -⟩ := hv.render_eq_cons layout depth
    simp [hcons] at hfuel
  | succ fuel => exact h depth fuel rest hfuel hrest

theorem readsBack_null : ReadsBack layout .null := by
  refine Plain.null.readsBack_of_succ fun depth fuel rest _ _ => ?_
  rw [render]
  rfl

theorem readsBack_bool (b : Bool) : ReadsBack layout (.bool b) := by
  refine (Plain.bool b).readsBack_of_succ fun depth fuel rest _ _ => ?_
  cases b <;> rw [render] <;> rfl

theorem readsBack_ofChars (cs : List Char) : ReadsBack layout (ofChars cs) := by
  refine (Plain.ofChars cs).readsBack_of_succ fun depth fuel rest _ _ => ?_
  rw [readValue, (Plain.ofChars cs).skipSpace_render, ofChars, render]
  simp only [quoted, List.cons_append, List.append_assoc, List.nil_append, readParts_quoted]
  rfl

theorem readValue_of_isDigit {c : Char} (hc : c.isDigit = true) (fuel : Nat) (cs : List Char)
    (hskip : skipSpace (c :: cs) = c :: cs) :
    readValue (fuel + 1) (c :: cs) =
      (readNumber (c :: cs)).map fun (lexeme, after) => (.number lexeme, after) := by
  rw [readValue, hskip]
  split <;> first
    | rfl
    | next heq =>
      cases heq
      exact absurd hc (by decide)

theorem readsBack_ofNat (n : Nat) : ReadsBack layout (ofNat n) := by
  refine (Plain.ofNat n).readsBack_of_succ fun depth fuel rest _ hrest => ?_
  have hskip := (Plain.ofNat n).skipSpace_render layout depth rest
  have hread := readNumber_toDigits n hrest
  rw [ofNat, render] at hskip ⊢
  cases hcons : Nat.toDigits 10 n with
  | nil => exact absurd hcons Nat.toDigits_ne_nil
  | cons c ds =>
    have hc : c.isDigit = true := Text.isDigit_of_mem_toDigits c (hcons ▸ List.mem_cons_self)
    rw [hcons, List.cons_append] at hskip hread
    rw [List.cons_append, readValue_of_isDigit hc fuel _ hskip, hread]
    rfl

/-- The items of a list are read one after the other up to the closing bracket. -/
theorem readItems_render {v : Json} {vs : List Json} (hread : ∀ w ∈ v :: vs, ReadsBack layout w)
    (depth outer fuel : Nat) (rest : List Char)
    (hfuel : (render layout depth v ++ renderItems layout depth vs).length < fuel) :
    readItems fuel (render layout depth v ++ (renderItems layout depth vs
      ++ (layout.gap outer ++ ']' :: rest))) = some (v :: vs, rest) := by
  have hclose : StopsNumber (layout.gap outer ++ ']' :: rest) :=
    stopsNumber_gap _ _ (stopsNumber_cons (by decide) (by decide) (by decide))
  -- Every further item costs one unit of fuel, which the comma in front of it pays for.
  induction vs generalizing v fuel with
  | nil =>
    obtain ⟨fuel, rfl⟩ := Nat.exists_eq_succ_of_ne_zero (Nat.ne_zero_of_lt hfuel)
    simp only [renderItems, List.append_nil, List.nil_append] at hfuel ⊢
    rw [readItems, hread v List.mem_cons_self depth fuel _ (by omega) hclose]
    simp only [skipSpace_gap, skipSpace_cons_of_not rest (c := ']') (by decide)]
  | cons w vs ih =>
    obtain ⟨fuel, rfl⟩ := Nat.exists_eq_succ_of_ne_zero (Nat.ne_zero_of_lt hfuel)
    have hrest := ih (v := w) (fun u hu => hread u (List.mem_cons_of_mem v hu)) fuel
      (by simp [renderItems] at hfuel ⊢; omega)
    have hstop : StopsNumber (renderItems layout depth (w :: vs)
        ++ (layout.gap outer ++ ']' :: rest)) := stopsNumber_renderItems layout depth hclose
    have hv := hread v List.mem_cons_self depth fuel _
      (by simp at hfuel; omega) hstop
    rw [readItems, hv]
    simp only [renderItems, List.cons_append, List.append_assoc,
      skipSpace_cons_of_not _ (c := ',') (by decide)]
    rw [readItems_congr (skipSpace_gap layout depth _), hrest]
    rfl

/-- Behind the key of a member stands its value, after a colon and perhaps a blank. -/
theorem skipSpace_colon (layout : Layout) (fuel : Nat) (cs : List Char) :
    ∃ ds, skipSpace (layout.colon ++ cs) = ':' :: ds ∧ readValue fuel ds = readValue fuel cs := by
  cases layout with
  | compact => exact ⟨cs, rfl, rfl⟩
  | indented =>
    have hblank : skipSpace (' ' :: cs) = skipSpace cs := rfl
    exact ⟨' ' :: cs, rfl, readValue_congr hblank⟩

section Member

variable {key cs after rest : List Char} {v : Json} {fuel : Nat}
  (hread : readValue fuel cs = some (v, after))

include hread

theorem readMembers_last (hafter : skipSpace after = '}' :: rest) :
    readMembers (fuel + 1) (quoted (partsOf key) ++ (layout.colon ++ cs)) =
      some ([(partsOf key, v)], rest) := by
  obtain ⟨ds, hcolon, hvalue⟩ := skipSpace_colon layout fuel cs
  rw [readMembers, skipSpace_quoted]
  simp only [quoted, List.cons_append, List.append_assoc, List.nil_append, readParts_quoted,
    hcolon, hvalue, hread, hafter]

/-- A member in front of a comma comes before the members that are read from there. -/
theorem readMembers_more {ms : List (List StringPart × Json)} {final : List Char}
    (hafter : skipSpace after = ',' :: rest) (hrest : readMembers fuel rest = some (ms, final)) :
    readMembers (fuel + 1) (quoted (partsOf key) ++ (layout.colon ++ cs)) =
      some ((partsOf key, v) :: ms, final) := by
  obtain ⟨ds, hcolon, hvalue⟩ := skipSpace_colon layout fuel cs
  rw [readMembers, skipSpace_quoted]
  simp only [quoted, List.cons_append, List.append_assoc, List.nil_append, readParts_quoted,
    hcolon, hvalue, hread, hafter, hrest, Option.map_some]

end Member

/-- The members of an object are read one after the other up to the closing brace. -/
theorem readMembers_render (key : List Char) {v : Json} {ms : List (List StringPart × Json)}
    (hkeys : ∀ m ∈ ms, ∃ key, m.1 = partsOf key) (hv : ReadsBack layout v)
    (hread : ∀ m ∈ ms, ReadsBack layout m.2) (depth outer fuel : Nat) (rest : List Char)
    (hfuel : (render layout depth v ++ renderMembers layout depth ms).length < fuel) :
    readMembers fuel (quoted (partsOf key) ++ (layout.colon ++ (render layout depth v
      ++ (renderMembers layout depth ms ++ (layout.gap outer ++ '}' :: rest)))))
      = some ((partsOf key, v) :: ms, rest) := by
  have hclose : StopsNumber (layout.gap outer ++ '}' :: rest) :=
    stopsNumber_gap _ _ (stopsNumber_cons (by decide) (by decide) (by decide))
  induction ms generalizing key v fuel with
  | nil =>
    obtain ⟨fuel, rfl⟩ := Nat.exists_eq_succ_of_ne_zero (Nat.ne_zero_of_lt hfuel)
    simp only [renderMembers, List.append_nil, List.nil_append] at hfuel ⊢
    refine readMembers_last (hv depth fuel _ (by omega) hclose) ?_
    rw [skipSpace_gap, skipSpace_cons_of_not rest (by decide)]
  | cons m ms ih =>
    obtain ⟨fuel, rfl⟩ := Nat.exists_eq_succ_of_ne_zero (Nat.ne_zero_of_lt hfuel)
    obtain ⟨parts, w⟩ := m
    obtain ⟨next, rfl⟩ : ∃ key, parts = partsOf key := hkeys _ List.mem_cons_self
    have hrest := ih next (v := w) (fun m hm => hkeys m (List.mem_cons_of_mem _ hm))
      (hread _ List.mem_cons_self) (fun m hm => hread m (List.mem_cons_of_mem _ hm)) fuel
      (by simp [renderMembers] at hfuel ⊢; omega)
    have hstop : StopsNumber (renderMembers layout depth ((partsOf next, w) :: ms)
        ++ (layout.gap outer ++ '}' :: rest)) := stopsNumber_renderMembers layout depth hclose
    have hafter : skipSpace (renderMembers layout depth ((partsOf next, w) :: ms)
        ++ (layout.gap outer ++ '}' :: rest)) =
          ',' :: (layout.gap depth ++ (quoted (partsOf next) ++ (layout.colon
            ++ (render layout depth w ++ (renderMembers layout depth ms
              ++ (layout.gap outer ++ '}' :: rest)))))) := by
      simp only [renderMembers, List.cons_append, List.append_assoc,
        skipSpace_cons_of_not _ (c := ',') (by decide)]
    refine readMembers_more (hv depth fuel _ (by simp at hfuel; omega) hstop) hafter ?_
    rw [readMembers_congr (skipSpace_gap layout depth _), hrest]

theorem readsBack_array {items : List Json} (hplain : ∀ v ∈ items, v.Plain)
    (hread : ∀ v ∈ items, ReadsBack layout v) : ReadsBack layout (.array items) := by
  refine (Plain.array hplain).readsBack_of_succ fun depth fuel rest hfuel _ => ?_
  cases items with
  | nil =>
    rw [render]
    rfl
  | cons v vs =>
    have hv := hplain v List.mem_cons_self
    have hitems := readItems_render hread (depth + 1) depth fuel rest
      (by simp [render] at hfuel ⊢; omega)
    -- The reader looks for a closing bracket first, which no value starts with.
    obtain ⟨c, cs, hcons, -, hbracket⟩ := hv.render_eq_cons layout (depth + 1)
    rw [readValue, (Plain.array hplain).skipSpace_render]
    simp only [render, List.cons_append, List.append_assoc, List.nil_append, skipSpace_gap,
      hv.skipSpace_render]
    rw [hcons, List.cons_append] at hitems ⊢
    split
    next heq => exact absurd (List.cons.inj heq).1 hbracket
    next =>
      rw [hitems]
      rfl

theorem readsBack_object {members : List (List StringPart × Json)}
    (hkeys : ∀ m ∈ members, ∃ key, m.1 = partsOf key) (hvalues : ∀ m ∈ members, m.2.Plain)
    (hread : ∀ m ∈ members, ReadsBack layout m.2) : ReadsBack layout (.object members) := by
  refine (Plain.object hkeys hvalues).readsBack_of_succ fun depth fuel rest hfuel _ => ?_
  cases members with
  | nil =>
    rw [render]
    rfl
  | cons m ms =>
    obtain ⟨parts, v⟩ := m
    obtain ⟨key, rfl⟩ : ∃ key, parts = partsOf key := hkeys _ List.mem_cons_self
    have hmembers := readMembers_render key
      (fun m hm => hkeys m (List.mem_cons_of_mem _ hm)) (hread _ List.mem_cons_self)
      (fun m hm => hread m (List.mem_cons_of_mem _ hm)) (depth + 1) depth fuel rest
      (by simp [render] at hfuel ⊢; omega)
    rw [readValue, (Plain.object hkeys hvalues).skipSpace_render]
    simp only [render, List.cons_append, List.append_assoc, List.nil_append, skipSpace_gap,
      skipSpace_quoted]
    exact Option.map_eq_some_iff.mpr ⟨_, hmembers, rfl⟩

end Values

/-- Every value that programs build is read back from its text. -/
theorem Plain.readsBack {v : Json} (hv : v.Plain) (layout : Layout) : ReadsBack layout v := by
  induction hv with
  | null => exact readsBack_null
  | bool b => exact readsBack_bool b
  | ofNat n => exact readsBack_ofNat n
  | ofChars cs => exact readsBack_ofChars cs
  | array hitems ih => exact readsBack_array hitems ih
  | object hkeys hvalues ih => exact readsBack_object hkeys hvalues ih

/-- A printed text holds exactly the value it was printed for. -/
theorem Plain.ofText?_print {v : Json} (hv : v.Plain) (layout : Layout) :
    ofText? (v.print layout) = some v := by
  have hread := hv.readsBack layout 0 (2 * (render layout 0 v).length + 2) [] (by omega)
    stopsNumber_nil
  rw [List.append_nil] at hread
  rw [ofText?, print, String.toList_ofList, ofChars?, hread]
  rfl

end Sentential.Json
