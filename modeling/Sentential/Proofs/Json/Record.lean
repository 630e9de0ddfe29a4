import Sentential.Proofs.Json.RoundTrip

/-!
# Reading back records

What is written with the constructors for texts, numbers, lists and records is found again by the
corresponding readers. The names of a record have to differ, since a name that occurs twice is
refused.
-/

namespace Sentential.Json

theorem plain_ofString (s : String) : (ofString s).Plain :=
  .ofChars s.toList

theorem plain_array_map {α : Type} {write : α → Json} (h : ∀ a, (write a).Plain) (as : List α) :
    (array (as.map write)).Plain := by
  refine .array fun v hv => ?_
  obtain ⟨a, -, rfl⟩ := List.mem_map.mp hv
  exact h a

theorem plain_ofFields {fields : List (String × Option Json)}
    (h : ∀ field ∈ fields, ∀ v ∈ field.2, Plain v) : (ofFields fields).Plain := by
  refine .object ?_ ?_
  · intro m hm
    obtain ⟨⟨name, v⟩, -, hm⟩ := List.mem_filterMap.mp hm
    obtain ⟨v, -, rfl⟩ := Option.map_eq_some_iff.mp hm
    exact ⟨name.toList, rfl⟩
  · intro m hm
    obtain ⟨⟨name, v⟩, hmem, hm⟩ := List.mem_filterMap.mp hm
    obtain ⟨v, rfl, rfl⟩ := Option.map_eq_some_iff.mp hm
    exact h _ hmem v rfl

theorem word?_ofNat (n : UInt64) : (ofNat n.toNat).word? = some n := by
  have hdigits : (Nat.toDigits 10 n.toNat).all Char.isDigit = true :=
    List.all_eq_true.mpr Text.isDigit_of_mem_toDigits
  have hvalue := Text.foldl_toDigits n.toNat
  simp only [ofNat, word?, hdigits, hvalue, ↓reduceIte, if_pos n.toNat_lt, UInt64.ofNat_toNat]

section Reading

variable {α : Type} {read? : Json → Option α} {write : α → Json}
  (hread : ∀ a, read? (write a) = some a)

include hread

theorem list?_array_map (as : List α) : list? read? (.array (as.map write)) = some as := by
  rw [list?]
  induction as with
  | nil => rfl
  | cons a as ih =>
    rw [List.map_cons, List.mapM_cons, hread, ih]
    rfl

/-- A field that is left out when there is no value is read back, since no value is written as
null. -/
theorem optional_map (hnull : ∀ a, write a ≠ .null) (o : Option α) :
    optional read? (o.map write) = some o := by
  cases o with
  | none => rfl
  | some a =>
    have hread := hread a
    have hnull := hnull a
    rw [Option.map_some]
    generalize write a = v at hread hnull
    cases v with
    | null => exact absurd rfl hnull
    | _ => simp only [optional, hread, Option.map_some]

end Reading

/-- The members that are present, under their names as texts. -/
def present (fields : List (String × Option Json)) : List (List Char × Json) :=
  fields.filterMap fun (name, v) => v.map fun v => (name.toList, v)

theorem present_cons (name : String) (v : Option Json) (fields : List (String × Option Json)) :
    present ((name, v) :: fields) = (v.map (name.toList, ·)).toList ++ present fields := by
  cases v <;> rfl

theorem mapM_textOf?_ofFields (fields : List (String × Option Json)) :
    (fields.filterMap fun (name, v) => v.map fun v => (partsOf name.toList, v)).mapM
      (fun (key, v) => (textOf? key).map fun key => (key, v)) = some (present fields) := by
  induction fields with
  | nil => rfl
  | cons field fields ih =>
    obtain ⟨name, v⟩ := field
    cases v with
    | none => exact ih
    | some v =>
      simp only [List.filterMap_cons, Option.map_some, List.mapM_cons, ih, textOf?_partsOf]
      rfl

theorem filter_present_of_not_mem {fields : List (String × Option Json)} {name : String}
    (h : name ∉ fields.map Prod.fst) : (present fields).filter (·.1 = name.toList) = [] := by
  rw [List.filter_eq_nil_iff]
  intro m hm hname
  obtain ⟨⟨other, v⟩, hmem, hm⟩ := List.mem_filterMap.mp hm
  obtain ⟨v, -, rfl⟩ := Option.map_eq_some_iff.mp hm
  have heq : other = name := String.toList_inj.mp (of_decide_eq_true hname)
  exact h (heq ▸ List.mem_map_of_mem hmem)

theorem unique?_present {fields : List (String × Option Json)}
    (hnames : (fields.map Prod.fst).Nodup) {name : String} {v : Option Json}
    (hmem : (name, v) ∈ fields) : unique? (present fields) name = some v := by
  have hfilter : (present fields).filter (·.1 = name.toList) =
      (v.map (name.toList, ·)).toList := by
    induction fields with
    | nil => cases hmem
    | cons field fields ih =>
      obtain ⟨other, w⟩ := field
      obtain ⟨hnot, hnames⟩ := List.nodup_cons.mp hnames
      rw [present_cons, List.filter_append]
      rcases List.mem_cons.mp hmem with heq | hmem
      · obtain ⟨rfl, rfl⟩ := Prod.mk.inj heq
        rw [filter_present_of_not_mem hnot]
        cases v <;> simp
      · have hne : other ≠ name := by
          rintro rfl
          exact hnot (List.mem_map.mpr ⟨_, hmem, rfl⟩)
        rw [ih hnames hmem]
        cases w <;> simp [String.toList_inj, hne]
  rw [unique?, hfilter]
  cases v <;> rfl

/-- A record whose names differ is read back with its fields in order. -/
theorem record?_ofFields {fields : List (String × Option Json)} {names : List String}
    (hfields : fields.map Prod.fst = names) (hnames : names.Nodup) (least : Nat) :
    (ofFields fields).record? names least = some (fields.map Prod.snd) := by
  subst hfields
  have hread (rest : List (String × Option Json)) (hrest : ∀ field ∈ rest, field ∈ fields) :
      (rest.map Prod.fst).mapM (unique? (present fields)) = some (rest.map Prod.snd) := by
    induction rest with
    | nil => rfl
    | cons field rest ih =>
      rw [List.map_cons, List.mapM_cons,
        unique?_present hnames (hrest field List.mem_cons_self),
        ih fun other hother => hrest other (List.mem_cons_of_mem field hother)]
      rfl
  rw [ofFields, record?, mapM_textOf?_ofFields]
  exact hread fields fun _ h => h

end Sentential.Json
