import Sentential.Proofs.Disk.Files
import Sentential.Storage

/-!
# The places that paths lead to

Two paths may be written differently and still lead to the same place. Writing through one of them
changes the file at that place and nothing else on the disk, so it is read back through every path
that leads there, and every other file is read as before.
-/

namespace Sentential

namespace Disk

variable {d d' : Disk} {path other : String} {spot : Location}

/-- The place that a path leads to, unless it ends at a directory by its form or cannot be followed.
Nothing has to be there yet. -/
def target? (d : Disk) (path : String) : Option Location :=
  match d.walk path with
  | .ok (.name place name false) => (d.child place name).toOption.map (·.1)
  | _ => none

theorem target?_eq_some_iff :
    d.target? path = some spot ↔ ∃ place name, d.walk path = .ok (.name place name false) ∧
      (String.ofList name).utf8ByteSize ≤ maxName ∧ spot = place ++ [String.ofList name] := by
  unfold target?
  cases d.walk path with
  | error cause => simp
  | ok way =>
    match way with
    | .directory _ => simp
    | .name _ _ true => simp
    | .name place name false =>
      rcases d.child_cases place name with ⟨hsize, hchild⟩ | ⟨hsize, hchild⟩
      · simp [hchild, Nat.not_le_of_lt hsize, Except.toOption]
      · simp [hchild, hsize, and_assoc, Except.toOption, @eq_comm _ spot]

theorem ne_nil_of_target? (h : d.target? path = some spot) : spot ≠ [] := by
  obtain ⟨place, name, -, -, rfl⟩ := target?_eq_some_iff.mp h
  simp

/-- A text can be written to a place that is not a directory. -/
theorem writeText_eq_ok_iff_target {text : String} :
    d.writeText path text = .ok d' ↔ ∃ spot, d.target? path = some spot ∧
      d.node? spot ≠ some .directory ∧ d' = d.put spot (.file text.toUTF8) := by
  simp only [writeText_eq_ok_iff, target?_eq_some_iff]
  constructor
  · rintro ⟨place, name, hwalk, hsize, hnode, rfl⟩
    exact ⟨_, ⟨place, name, hwalk, hsize, rfl⟩, hnode, rfl⟩
  · rintro ⟨_, ⟨place, name, hwalk, hsize, rfl⟩, hnode, rfl⟩
    exact ⟨place, name, hwalk, hsize, hnode, rfl⟩

theorem readBytes_eq_ok_iff_target {content : ByteArray} :
    d.readBytes path = .ok content ↔
      ∃ spot, d.target? path = some spot ∧ d.node? spot = some (.file content) := by
  simp only [readBytes_eq_ok_iff, find_eq_file_iff, target?_eq_some_iff]
  constructor
  · rintro ⟨place, name, hwalk, hsize, hnode⟩
    exact ⟨_, ⟨place, name, hwalk, hsize, rfl⟩, hnode⟩
  · rintro ⟨_, ⟨place, name, hwalk, hsize, rfl⟩, hnode⟩
    exact ⟨place, name, hwalk, hsize, hnode⟩

theorem readText_eq_ok_iff_readBytes {text : String} :
    d.readText path = .ok text ↔ d.readBytes path = .ok text.toUTF8 := by
  rw [readText_eq_ok_iff, readBytes_eq_ok_iff, find_eq_file_iff]

/-- What is put where no directory is leaves every path leading where it led. -/
theorem target?_put {place : Location} (node : Node) (hplace : d.node? place ≠ some .directory)
    (h : d.target? path = some spot) : (d.put place node).target? path = some spot := by
  obtain ⟨front, name, hwalk, hsize, rfl⟩ := target?_eq_some_iff.mp h
  exact target?_eq_some_iff.mpr ⟨front, name, walk_put node hplace hwalk, hsize, rfl⟩

/-- Writing changes nothing but the file that the path leads to. -/
theorem node?_writeText {text : String} (h : d.writeText path text = .ok d') {place : Location}
    (hplace : d.target? path ≠ some place) : d'.node? place = d.node? place := by
  obtain ⟨spot, htarget, -, rfl⟩ := writeText_eq_ok_iff_target.mp h
  refine node?_put_of_ne d _ ?_
  rintro rfl
  exact hplace htarget

/-- What has been written is read through every path that leads to the same place, and any other
file is read as before. -/
theorem readBytes_writeText {text : String} (h : d.writeText path text = .ok d')
    {content : ByteArray} (hread : d.readBytes other = .ok content) :
    d'.readBytes other =
      .ok (if d.target? other = d.target? path then text.toUTF8 else content) := by
  obtain ⟨spot, htarget, hspot, rfl⟩ := writeText_eq_ok_iff_target.mp h
  obtain ⟨place, hother, hnode⟩ := readBytes_eq_ok_iff_target.mp hread
  refine readBytes_eq_ok_iff_target.mpr ⟨place, target?_put _ hspot hother, ?_⟩
  rw [hother, htarget]
  by_cases hsame : place = spot
  · subst hsame
    rw [if_pos rfl]
    exact node?_put_self d _ (ne_nil_of_target? htarget)
  · rw [if_neg (by simpa using hsame), node?_put_of_ne d _ hsame, hnode]

theorem readText_writeText {text old : String} (h : d.writeText path text = .ok d')
    (hread : d.readText other = .ok old) :
    d'.readText other = .ok (if d.target? other = d.target? path then text else old) := by
  rw [readText_eq_ok_iff_readBytes] at hread ⊢
  rw [readBytes_writeText h hread]
  split <;> rfl

end Disk

end Sentential
