import Mathlib.Data.List.TakeWhile
import Sentential.Config
import Sentential.Proofs.Except

/-!
# Reading and writing files

A path leads through directories to a name in the last of them. Writing a file changes what stands
under that name and nothing on the way, so what has been written is read back. The directory that
the text of a path names is the one that the path leads through, so a run may keep its document
wherever it can find one.
-/

namespace Sentential

namespace Path

/-- The segments of a path that lead somewhere else. -/
def effective (path : List Char) : List (List Char) :=
  (path.splitOn '/').filter fun s => !isIdle s

theorem filter_nonempty (path : List Char) :
    ((path.splitOn '/').filter (· ≠ [])).filter (fun s => !isIdle s) = effective path := by
  rw [effective, List.filter_filter]
  refine List.filter_congr fun s _ => ?_
  by_cases hs : s = [] <;> simp [isIdle, hs]

theorem effective_append_slash (front back : List Char) :
    effective (front ++ '/' :: back) = effective front ++ effective back := by
  rw [effective, List.splitOn, List.splitOnP_append_cons front back (by simp), List.filter_append]
  rfl

theorem slash_not_mem_of_mem_splitOn {path segment : List Char} (h : segment ∈ path.splitOn '/') :
    '/' ∉ segment := by
  rw [List.splitOn] at h
  induction path generalizing segment with
  | nil =>
    rw [List.splitOnP_nil, List.mem_singleton] at h
    simp [h]
  | cons c rest ih =>
    rw [List.splitOnP_cons_eq_if_modifyHead] at h
    split at h
    next =>
      rcases List.mem_cons.mp h with rfl | h
      · simp
      · exact ih h
    next hc =>
      obtain ⟨first, others, hsplit⟩ :=
        List.exists_cons_of_ne_nil (List.splitOnP_ne_nil (· == '/') rest)
      rw [hsplit] at h ih
      rcases List.mem_cons.mp h with rfl | h
      · have hfirst := ih List.mem_cons_self
        simp only [beq_iff_eq] at hc
        simp [hfirst, Ne.symm hc]
      · exact ih (List.mem_cons_of_mem _ h)

theorem effective_intercalate {segments : List (List Char)} (h : ∀ s ∈ segments, '/' ∉ s) :
    effective (['/'].intercalate segments) = segments.filter fun s => !isIdle s := by
  by_cases hnil : segments = []
  · subst hnil
    rfl
  · rw [effective, List.splitOn_intercalate '/' h hnil]

/-- In front of segments that begin with an empty one a dot leads nowhere. -/
theorem effective_dot_intercalate {segments : List (List Char)} (h : ∀ s ∈ segments, '/' ∉ s)
    (hhead : ∀ s ∈ segments.head?, s = []) :
    effective ('.' :: ['/'].intercalate segments) = segments.filter fun s => !isIdle s := by
  match segments with
  | [] => rfl
  | [s] =>
    obtain rfl := hhead s rfl
    rfl
  | s :: t :: rest =>
    obtain rfl := hhead s rfl
    have hrest : ∀ s ∈ t :: rest, '/' ∉ s := fun s hs => h s (List.mem_cons_of_mem _ hs)
    have hsplit : '.' :: ['/'].intercalate ([] :: t :: rest) =
        ['.'] ++ '/' :: ['/'].intercalate (t :: rest) := by
      rw [List.intercalate_cons_cons]
      rfl
    rw [hsplit, effective_append_slash, effective_intercalate hrest]
    rfl

/-! ### The directory that a path names -/

/-- All segments of a path behind its anchor. -/
def pieces (path : List Char) : List (List Char) :=
  (path.drop (anchor path).length).splitOn '/'

theorem anchor_append_drop (path : List Char) :
    anchor path ++ path.drop (anchor path).length = path := by
  fun_cases anchor path <;> rfl

theorem anchor_append_pieces (path : List Char) :
    anchor path ++ ['/'].intercalate (pieces path) = path := by
  rw [pieces, List.intercalate_splitOn, anchor_append_drop]

/-- Behind the anchor no more and no fewer segments lead somewhere than in the whole path. -/
theorem effective_anchor_append {path : List Char} {front : List (List Char)}
    (h : front <+: pieces path) :
    effective (anchor path ++ ['/'].intercalate front) = front.filter fun s => !isIdle s := by
  have hslash : ∀ s ∈ front, '/' ∉ s := fun s hs => slash_not_mem_of_mem_splitOn (h.mem hs)
  unfold pieces at h
  fun_cases anchor path with
  | case1 rest =>
    change effective ([] ++ '/' :: ['/'].intercalate front) = _
    rw [effective_append_slash, effective_intercalate hslash]
    rfl
  | case2 =>
    refine effective_dot_intercalate hslash fun s hs => ?_
    exact List.mem_singleton.mp (h.mem (List.mem_of_mem_head? hs) : s ∈ [[]])
  | case3 rest =>
    -- The slash behind the dot leaves an empty piece in front.
    refine effective_dot_intercalate hslash fun s hs => ?_
    have hsplit : ('/' :: rest).splitOn '/' = [] :: rest.splitOn '/' :=
      List.splitOnP_append_cons [] rest (by simp)
    obtain ⟨back, hback⟩ := hsplit ▸ h
    cases front with
    | nil => cases hs
    | cons first others =>
      obtain rfl := Option.some.inj hs
      exact (List.cons.inj hback).1
  | case4 => exact effective_intercalate hslash

theorem effective_eq_filter_pieces (path : List Char) :
    effective path = (pieces path).filter fun s => !isIdle s := by
  calc effective path
    _ = effective (anchor path ++ ['/'].intercalate (pieces path)) := by rw [anchor_append_pieces]
    _ = (pieces path).filter fun s => !isIdle s := effective_anchor_append List.prefix_rfl

theorem exists_dropIdle_append (segments : List (List Char)) :
    ∃ idles, (∀ s ∈ idles, isIdle s = true) ∧ segments = dropIdle segments ++ idles := by
  refine ⟨(segments.reverse.takeWhile isIdle).reverse, fun s hs => ?_, ?_⟩
  · exact List.mem_takeWhile_imp (List.mem_reverse.mp hs)
  · rw [dropIdle, ← List.reverse_append, List.takeWhile_append_dropWhile, List.reverse_reverse]

theorem dropIdle_isPrefix (segments : List (List Char)) : dropIdle segments <+: segments := by
  obtain ⟨idles, -, h⟩ := exists_dropIdle_append segments
  exact ⟨idles, h.symm⟩

theorem filter_dropIdle (segments : List (List Char)) :
    (dropIdle segments).filter (fun s => !isIdle s) = segments.filter fun s => !isIdle s := by
  obtain ⟨idles, hidle, h⟩ := exists_dropIdle_append segments
  have hnone : idles.filter (fun s => !isIdle s) = [] :=
    List.filter_eq_nil_iff.mpr fun s hs => by simp [hidle s hs]
  conv =>
    rhs
    rw [h, List.filter_append, hnone, List.append_nil]

theorem isIdle_getLast_dropIdle {segments before : List (List Char)} {last : List Char}
    (h : dropIdle segments = before ++ [last]) : isIdle last = false := by
  have hhead := List.head?_dropWhile_not isIdle segments.reverse
  rw [← List.getLast?_reverse, ← dropIdle, h, List.getLast?_concat] at hhead
  exact hhead

theorem intercalate_isPrefix {front whole : List (List Char)} (h : front <+: whole) :
    ['/'].intercalate front <+: ['/'].intercalate whole := by
  obtain ⟨back, rfl⟩ := h
  induction front with
  | nil => exact List.nil_prefix
  | cons s front ih =>
    match front, back with
    | [], [] => exact List.prefix_rfl
    | [], t :: rest =>
      rw [List.singleton_append, List.intercalate_cons_cons, List.append_assoc,
        List.intercalate_singleton]
      exact List.prefix_append s _
    | t :: front, back =>
      rw [List.cons_append, List.cons_append, List.intercalate_cons_cons,
        List.intercalate_cons_cons]
      exact (List.prefix_append_right_inj _).mpr ih

/-- The directory that a path names is a beginning of the path, and it leads along every segment
that leads somewhere but the last. -/
theorem parent?_eq_some {path : String} {before : List (List Char)} {last : List Char}
    (h : effective path.toList = before ++ [last]) :
    ∃ front, front <+: path.toList ∧ effective front = before ∧
      parent? path = some (String.ofList front) := by
  have hsegments : (segments path.toList).filter (fun s => !isIdle s) = before ++ [last] := by
    rw [← h, effective_eq_filter_pieces, segments, ← pieces, filter_dropIdle]
  rcases List.eq_nil_or_concat (segments path.toList) with hnil | ⟨init, s, hconcat⟩
  · simp [hnil] at hsegments
  rw [List.concat_eq_append] at hconcat
  have hs : isIdle s = false := isIdle_getLast_dropIdle hconcat
  have hinit : init.filter (fun s => !isIdle s) = before := by
    rw [hconcat, List.filter_append, List.filter_cons_of_pos (by simp [hs]), List.filter_nil]
      at hsegments
    exact (List.append_inj' hsegments rfl).1
  have hprefix : dropIdle init <+: pieces path.toList := by
    refine (dropIdle_isPrefix init).trans ((List.prefix_append init [s]).trans ?_)
    rw [← hconcat]
    exact dropIdle_isPrefix _
  refine ⟨anchor path.toList ++ ['/'].intercalate (dropIdle init), ?_, ?_, ?_⟩
  · have hwhole := (List.prefix_append_right_inj (anchor path.toList)).mpr
      (intercalate_isPrefix hprefix)
    rwa [anchor_append_pieces] at hwhole
  · rw [effective_anchor_append hprefix, filter_dropIdle, hinit]
  · simp [parent?, hconcat]

end Path

namespace Disk

variable {d : Disk} {path : String} {place next : Location} {segment name : List Char}

/-! ### Following a path -/

/-- Where the way along a path begins. -/
def origin (d : Disk) (path : List Char) : Location :=
  if path.head? = some '/' then [] else d.home

/-- A name that is not too long stands for what its location holds. -/
theorem child_cases (d : Disk) (place : Location) (name : List Char) :
    maxName < (String.ofList name).utf8ByteSize ∧ d.child place name = .error .nameTooLong ∨
      (String.ofList name).utf8ByteSize ≤ maxName ∧ d.child place name =
        .ok (place ++ [String.ofList name], d.node? (place ++ [String.ofList name])) := by
  unfold child
  by_cases hsize : maxName < (String.ofList name).utf8ByteSize
  · exact .inl ⟨hsize, if_pos hsize⟩
  · exact .inr ⟨Nat.le_of_not_lt hsize, if_neg hsize⟩

/-- What entering a segment can do: stay, go up, or go down into a directory. -/
theorem enter_eq_ok_iff :
    d.enter place segment = .ok next ↔
      Path.isIdle segment = true ∧ next = place ∨
      segment = Path.above ∧ next = place.dropLast ∨
      Path.isIdle segment = false ∧ segment ≠ Path.above ∧
        (String.ofList segment).utf8ByteSize ≤ maxName ∧
        next = place ++ [String.ofList segment] ∧ d.node? next = some .directory := by
  have habove : Path.isIdle Path.above = false := rfl
  unfold enter
  split
  next hidle =>
    have hne : segment ≠ Path.above := by
      rintro rfl
      simp [habove] at hidle
    simp [hidle, hne, @eq_comm _ place next]
  next hidle =>
    rw [Bool.not_eq_true] at hidle
    split
    next heq => simp [heq, habove, @eq_comm _ place.dropLast next]
    next hne =>
      rcases d.child_cases place segment with ⟨hsize, hchild⟩ | ⟨hsize, hchild⟩
      · simp [hidle, hne, hchild, Nat.not_le_of_lt hsize]
      · rw [hchild]
        match hnode : d.node? (place ++ [String.ofList segment]) with
        | some .directory =>
          simp +contextual [hidle, hne, hnode, hsize, iff_def, eq_comm]
        | some (.file _) => simp +contextual [hidle, hne, hnode]
        | none => simp +contextual [hidle, hne, hnode]

theorem enter_of_isIdle (h : Path.isIdle segment = true) : d.enter place segment = .ok place :=
  enter_eq_ok_iff.mpr (.inl ⟨h, rfl⟩)

/-- Only the segments that lead somewhere else matter on a way. -/
theorem foldlM_enter_filter (segments : List (List Char)) (place : Location) :
    (segments.filter fun s => !Path.isIdle s).foldlM d.enter place =
      segments.foldlM d.enter place := by
  induction segments generalizing place with
  | nil => rfl
  | cons s rest ih =>
    by_cases hs : Path.isIdle s = true
    · rw [List.filter_cons_of_neg (by simp [hs]), ih, List.foldlM_cons, enter_of_isIdle hs]
      rfl
    · rw [List.filter_cons_of_pos (by simp [hs]), List.foldlM_cons, List.foldlM_cons]
      exact congrArg _ (funext ih)

/-- A path that ends at a name: how far it leads, and the name. -/
theorem walk_eq_name_iff {slash : Bool} :
    d.walk path = .ok (.name place name slash) ↔
      '\x00' ∉ path.toList ∧ path.utf8ByteSize ≤ maxPath ∧
      (∃ before, (path.toList.splitOn '/').filter (· ≠ []) = before ++ [name] ∧
        before.foldlM d.enter (d.origin path.toList) = .ok place) ∧
      Path.isIdle name = false ∧ name ≠ Path.above ∧
      slash = (path.toList.getLast? == some '/') := by
  unfold walk
  dsimp only
  split
  next hnul => simp [hnul]
  next hnul =>
  split
  next hsize => simp [Nat.not_le_of_lt hsize]
  next hsize =>
  split
  next hnil => simp [hnil]
  next hnil =>
  rw [← origin]
  generalize (path.toList.splitOn '/').filter (· ≠ []) = segments
  rcases List.eq_nil_or_concat segments with rfl | ⟨before, last, rfl⟩
  · simp
  rw [List.concat_eq_append, List.getLast?_concat, List.dropLast_concat]
  dsimp only
  have hends : (∃ front, before ++ [last] = front ++ [name] ∧
      front.foldlM d.enter (d.origin path.toList) = .ok place) ↔
      last = name ∧ before.foldlM d.enter (d.origin path.toList) = .ok place := by
    constructor
    · rintro ⟨front, heq, hway⟩
      obtain ⟨rfl, hlast⟩ := List.append_inj' heq rfl
      exact ⟨(List.cons.inj hlast).1, hway⟩
    · rintro ⟨rfl, hway⟩
      exact ⟨before, rfl, hway⟩
  rw [hends]
  cases before.foldlM d.enter (d.origin path.toList) with
  | error cause => simp
  | ok reached =>
    dsimp only
    split
    next hdots => cases d.enter reached last <;> grind [Except.map]
    next hdots => grind

/-- A path along which every segment can be entered names a directory. -/
theorem find_eq_directory (hnul : '\x00' ∉ path.toList) (hsize : path.utf8ByteSize ≤ maxPath)
    (hne : path.toList ≠ [])
    (hway : (Path.effective path.toList).foldlM d.enter (d.origin path.toList) = .ok place) :
    d.find path = .ok .directory := by
  rw [← Path.filter_nonempty, foldlM_enter_filter] at hway
  rw [find, walk, if_neg hnul, if_neg (Nat.not_lt_of_le hsize), if_neg hne, ← origin]
  generalize (path.toList.splitOn '/').filter (· ≠ []) = segments at hway ⊢
  rcases List.eq_nil_or_concat segments with rfl | ⟨before, last, rfl⟩
  · rfl
  rw [List.concat_eq_append, List.foldlM_append] at hway
  obtain ⟨reached, hbefore, hlast⟩ := bind_eq_ok_iff.mp hway
  rw [List.foldlM_cons] at hlast
  obtain ⟨_, hlast, heq⟩ := bind_eq_ok_iff.mp hlast
  obtain rfl := pure_eq_ok_iff.mp heq
  rw [List.concat_eq_append, List.getLast?_concat, List.dropLast_concat, hbefore]
  dsimp only
  -- Only dots at the end are entered by the walk itself; any other name is looked up behind it.
  by_cases hdots : (Path.isIdle last || last == Path.above) = true
  · rw [if_pos hdots, hlast]
    rfl
  · rw [if_neg hdots]
    rw [Bool.or_eq_true, not_or, beq_iff_eq] at hdots
    rcases enter_eq_ok_iff.mp hlast with ⟨hidle, -⟩ | ⟨habove, -⟩ | ⟨-, -, hsize, rfl, hnode⟩
    · exact absurd hidle hdots.1
    · exact absurd habove hdots.2
    · rcases d.child_cases reached last with ⟨hlong, -⟩ | ⟨-, hchild⟩
      · exact absurd hlong (Nat.not_lt_of_le hsize)
      · simp [hchild, hnode]

/-! ### Reading and writing -/

theorem lookup_filter_of_ne (nodes : List (Location × Node)) (h : next ≠ place) :
    (nodes.filter (·.1 ≠ place)).lookup next = nodes.lookup next := by
  induction nodes with
  | nil => rfl
  | cons entry rest ih =>
    by_cases hplace : entry.1 = place
    · have hentry : (next == entry.1) = false := by simp [hplace, h]
      rw [List.filter_cons_of_neg (by simp [hplace]), ih, List.lookup_cons, hentry]
    · rw [List.filter_cons_of_pos (by simp [hplace]), List.lookup_cons, List.lookup_cons, ih]

theorem node?_put_of_ne (d : Disk) (node : Node) (h : next ≠ place) :
    (d.put place node).node? next = d.node? next := by
  have hplace : (next == place) = false := by simp [h]
  rw [node?, node?, put, List.lookup_cons, hplace, lookup_filter_of_ne d.nodes h]

/-- No way leads through what is not a directory, so putting something else there leaves every way
open. -/
theorem enter_put {spot : Location} (node : Node) (hspot : d.node? spot ≠ some .directory)
    (h : d.enter place segment = .ok next) : (d.put spot node).enter place segment = .ok next := by
  rcases enter_eq_ok_iff.mp h with hidle | habove | ⟨hidle, habove, hsize, rfl, hnode⟩
  · exact enter_eq_ok_iff.mpr (.inl hidle)
  · exact enter_eq_ok_iff.mpr (.inr (.inl habove))
  · refine enter_eq_ok_iff.mpr (.inr (.inr ⟨hidle, habove, hsize, rfl, ?_⟩))
    rw [node?_put_of_ne d node ?_, hnode]
    rintro rfl
    exact hspot hnode

theorem foldlM_enter_put {spot : Location} (node : Node) (hspot : d.node? spot ≠ some .directory)
    {segments : List (List Char)} (h : segments.foldlM d.enter place = .ok next) :
    segments.foldlM (d.put spot node).enter place = .ok next := by
  induction segments generalizing place with
  | nil => exact h
  | cons s rest ih =>
    rw [List.foldlM_cons] at h ⊢
    obtain ⟨reached, hs, hrest⟩ := bind_eq_ok_iff.mp h
    exact bind_eq_ok_iff.mpr ⟨reached, enter_put node hspot hs, ih hrest⟩

theorem walk_put {spot : Location} (node : Node) (hspot : d.node? spot ≠ some .directory)
    {slash : Bool} (h : d.walk path = .ok (.name place name slash)) :
    (d.put spot node).walk path = .ok (.name place name slash) := by
  obtain ⟨hnul, hsize, ⟨before, hsegments, hway⟩, hname⟩ := walk_eq_name_iff.mp h
  exact walk_eq_name_iff.mpr
    ⟨hnul, hsize, ⟨before, hsegments, foldlM_enter_put node hspot hway⟩, hname⟩

/-- A text is written under a name that stands for no directory. -/
theorem writeText_eq_ok_iff {text : String} {d' : Disk} :
    d.writeText path text = .ok d' ↔ ∃ place name, d.walk path = .ok (.name place name false) ∧
      (String.ofList name).utf8ByteSize ≤ maxName ∧
      d.node? (place ++ [String.ofList name]) ≠ some .directory ∧
      d' = d.put (place ++ [String.ofList name]) (.file text.toUTF8) := by
  unfold writeText
  cases d.walk path with
  | error cause => simp
  | ok way =>
    match way with
    | .directory _ => simp
    | .name _ _ true => simp
    | .name place name false =>
      rcases d.child_cases place name with ⟨hsize, hchild⟩ | ⟨hsize, hchild⟩
      · simp [hchild, Nat.not_le_of_lt hsize]
      · match hnode : d.node? (place ++ [String.ofList name]) with
        | some .directory => simp [hchild, hnode]
        | some (.file _) => simp [hchild, hnode, hsize, and_assoc, @eq_comm _ d']
        | none => simp [hchild, hnode, hsize, and_assoc, @eq_comm _ d']

theorem fromUTF8?_eq_some_iff {content : ByteArray} {text : String} :
    String.fromUTF8? content = some text ↔ content = text.toUTF8 := by
  unfold String.fromUTF8?
  split
  next hvalid =>
    rw [Option.some.injEq]
    constructor
    · rintro rfl
      rfl
    · rintro rfl
      rfl
  next hvalid =>
    simp only [reduceCtorEq, false_iff]
    rintro rfl
    exact hvalid text.isValidUTF8

theorem find_eq_file_iff {content : ByteArray} :
    d.find path = .ok (.file content) ↔ ∃ place name,
      d.walk path = .ok (.name place name false) ∧
      (String.ofList name).utf8ByteSize ≤ maxName ∧
      d.node? (place ++ [String.ofList name]) = some (.file content) := by
  unfold find
  cases d.walk path with
  | error cause => simp
  | ok way =>
    match way with
    | .directory _ => simp
    | .name place name slash =>
      rcases d.child_cases place name with ⟨hsize, hchild⟩ | ⟨hsize, hchild⟩
      · simp [hchild, Nat.not_le_of_lt hsize]
      · match hnode : d.node? (place ++ [String.ofList name]) with
        | none => simp [hchild, hnode]
        | some .directory => simp [hchild, hnode]
        | some (.file _) =>
          cases slash with
          | true => simp [hchild, hnode]
          | false => simp [hchild, hnode, hsize, and_assoc]

theorem readBytes_eq_ok_iff {content : ByteArray} :
    d.readBytes path = .ok content ↔ d.find path = .ok (.file content) := by
  unfold readBytes
  match d.find path with
  | .error _ => simp
  | .ok .directory => simp
  | .ok (.file _) => simp

/-- A text is read from a name that stands for a file. -/
theorem readText_eq_ok_iff {text : String} :
    d.readText path = .ok text ↔ ∃ place name, d.walk path = .ok (.name place name false) ∧
      (String.ofList name).utf8ByteSize ≤ maxName ∧
      d.node? (place ++ [String.ofList name]) = some (.file text.toUTF8) := by
  rw [← find_eq_file_iff, ← readBytes_eq_ok_iff, readText]
  cases d.readBytes path with
  | error cause => simp
  | ok content =>
    rw [Except.ok.injEq, ← fromUTF8?_eq_some_iff]
    dsimp only
    cases String.fromUTF8? content <;> simp

/-- Where a text can be read, any text can be written. -/
theorem exists_writeText_of_readText {text : String} (h : d.readText path = .ok text)
    (text' : String) : ∃ d', d.writeText path text' = .ok d' := by
  obtain ⟨place, name, hwalk, hsize, hnode⟩ := readText_eq_ok_iff.mp h
  exact ⟨_, writeText_eq_ok_iff.mpr ⟨place, name, hwalk, hsize, by simp [hnode], rfl⟩⟩

/-- What has been written is read back. -/
theorem readText_of_writeText {text : String} {d' : Disk} (h : d.writeText path text = .ok d') :
    d'.readText path = .ok text := by
  obtain ⟨place, name, hwalk, hsize, hnode, rfl⟩ := writeText_eq_ok_iff.mp h
  exact readText_eq_ok_iff.mpr
    ⟨place, name, walk_put _ hnode hwalk, hsize, node?_put_self d _ (by simp)⟩

end Disk

/-- A path that ends at a name passes the check in front of every run: the directory it names is
the one that the way to the name leads through. -/
theorem Config.check_eq_ok_of_walk {d : Disk} {path : String} {place : Location} {name : List Char}
    {slash : Bool} (h : d.walk path = .ok (.name place name slash)) :
    Config.check d path = .ok () := by
  obtain ⟨hnul, hsize, ⟨before, hsegments, hway⟩, hidle, -, -⟩ := Disk.walk_eq_name_iff.mp h
  have heffective : Path.effective path.toList =
      before.filter (fun s => !Path.isIdle s) ++ [name] := by
    rw [← Path.filter_nonempty, hsegments, List.filter_append,
      List.filter_cons_of_pos (by simp [hidle]), List.filter_nil]
  have hne : path ≠ "" := by
    rintro rfl
    exact List.append_ne_nil_of_right_ne_nil _ (List.cons_ne_nil name []) heffective.symm
  obtain ⟨front, ⟨back, hfront⟩, hbefore, hparent⟩ := Path.parent?_eq_some heffective
  rw [check, if_neg hne, hparent]
  by_cases hnil : front = []
  · rw [hnil]
    rfl
  have hdirectory : d.find (String.ofList front) = .ok .directory := by
    have horigin : d.origin front = d.origin path.toList := by
      obtain ⟨c, rest, rfl⟩ := List.exists_cons_of_ne_nil hnil
      rw [Disk.origin, Disk.origin, ← hfront]
      rfl
    have hlength : (String.ofList front).utf8ByteSize ≤ path.utf8ByteSize := by
      rw [← String.ofList_toList (s := path), ← hfront, String.ofList_append,
        String.utf8ByteSize_append]
      exact Nat.le_add_right _ _
    have hentered : (Path.effective front).foldlM d.enter (d.origin front) = .ok place := by
      rwa [hbefore, horigin, Disk.foldlM_enter_filter]
    refine Disk.find_eq_directory ?_ (Nat.le_trans hlength hsize) ?_
      (by rwa [String.toList_ofList])
    · rw [String.toList_ofList]
      exact fun hc => hnul (hfront ▸ List.mem_append_left back hc)
    · rwa [String.toList_ofList]
  split
  next hempty => cases hempty
  next hempty => rfl
  next parent hparent =>
    rw [Option.some.injEq] at hparent
    rw [← hparent, Disk.isDirectory, hdirectory]
    rfl

end Sentential
