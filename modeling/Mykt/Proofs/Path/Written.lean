import Mathlib.Data.List.Basic
import Mykt.Import.Target

/-!
Paths as they are written. Main statements: the paths that can be written are the well-formed ones;
a directory with its slash and something written behind it is a path below the directory; a written
path is its directory and its last name.
-/

namespace Mykt

namespace Text

variable {separator : Char} {xs : List Char}

theorem splitOn_of_notMem (h : separator ∉ xs) : splitOn separator xs = [xs] := by
  induction xs with
  | nil => rfl
  | cons x xs ih =>
    simp only [List.mem_cons, not_or] at h
    rw [splitOn, if_neg (Ne.symm h.1), ih h.2]

theorem splitOn_ne_nil (separator : Char) (xs : List Char) : splitOn separator xs ≠ [] := by
  cases xs with
  | nil => simp [splitOn]
  | cons x xs =>
    rw [splitOn]
    split
    · simp
    · split <;> simp

theorem splitOn_append (separator : Char) (xs ys : List Char) :
    splitOn separator (xs ++ separator :: ys) = splitOn separator xs ++ splitOn separator ys := by
  induction xs with
  | nil => simp [splitOn]
  | cons x xs ih =>
    rw [List.cons_append, splitOn, splitOn]
    split
    · rw [ih, List.cons_append]
    · rw [ih]
      obtain ⟨part, parts, he⟩ := List.exists_cons_of_ne_nil (splitOn_ne_nil separator xs)
      simp [he]

theorem notMem_of_mem_splitOn {part : List Char} (h : part ∈ splitOn separator xs) :
    separator ∉ part := by
  induction xs generalizing part with
  | nil =>
    obtain rfl : part = [] := by simpa [splitOn] using h
    simp
  | cons x xs ih =>
    rw [splitOn] at h
    split at h
    · rcases List.mem_cons.1 h with rfl | h
      · simp
      · exact ih h
    · next hx =>
      obtain ⟨first, parts, he⟩ := List.exists_cons_of_ne_nil (splitOn_ne_nil separator xs)
      rw [he] at h ih
      rcases List.mem_cons.1 h with rfl | h
      · have := ih List.mem_cons_self
        simp [Ne.symm hx, this]
      · exact ih (List.mem_cons_of_mem _ h)

/-- Texts with a separator between them: all but the last have it behind them. -/
theorem toList_intercalate (separator : String) (texts : List String) (last : String) :
    (separator.intercalate (texts ++ [last])).toList =
      (texts.flatMap fun s => s.toList ++ separator.toList) ++ last.toList := by
  rw [String.toList_intercalate]
  induction texts with
  | nil => simp
  | cons s texts ih =>
    have hne : (texts ++ [last]).map String.toList ≠ [] := by simp
    rw [List.cons_append, List.map_cons, List.intercalate_cons_of_ne_nil hne, ih]
    simp

end Text

namespace Path

/-- The names of a written path. -/
def parts (cs : List Char) : List String := ((Text.splitOn '/' cs).map String.ofList).filter isName

/-- A name that stands between slashes. -/
def IsComponent (n : String) : Prop := isName n = true ∧ '/' ∉ n.toList

instance : DecidablePred IsComponent := fun _ => inferInstanceAs (Decidable (_ ∧ _))

/-- A path that can be written. -/
structure IsWellFormed (p : Path) : Prop where
  slashes : p.slashes = 0 ∨ p.slashes = 1 ∨ p.slashes = 2
  names : ∀ n ∈ p.names, IsComponent n

/-- Names with a slash behind each. -/
def slashed (names : List String) : List Char := names.flatMap fun n => n.toList ++ ['/']

/-- A directory as it is written before the names in it. -/
def folder (p : Path) : List Char := List.replicate p.slashes '/' ++ slashed p.names

theorem parts_append (xs ys : List Char) : parts (xs ++ '/' :: ys) = parts xs ++ parts ys := by
  simp [parts, Text.splitOn_append]

theorem parts_toList {n : String} (h : IsComponent n) : parts n.toList = [n] := by
  simp [parts, Text.splitOn_of_notMem h.2, h.1]

@[simp] theorem slashed_nil : slashed [] = [] := rfl

theorem slashed_append (xs ys : List String) : slashed (xs ++ ys) = slashed xs ++ slashed ys := by
  simp [slashed]

theorem slashed_singleton (n : String) : slashed [n] = n.toList ++ ['/'] := by
  simp [slashed]

theorem parts_slashed {names : List String} (h : ∀ n ∈ names, IsComponent n) (cs : List Char) :
    parts (slashed names ++ cs) = names ++ parts cs := by
  induction names with
  | nil => rfl
  | cons n names ih =>
    simp only [List.mem_cons, forall_eq_or_imp] at h
    have he : slashed (n :: names) ++ cs = n.toList ++ '/' :: (slashed names ++ cs) := by
      simp [slashed]
    rw [he, parts_append, parts_toList h.1, ih h.2, List.singleton_append, List.cons_append]

theorem parts_replicate (k : Nat) (cs : List Char) :
    parts (List.replicate k '/' ++ cs) = parts cs := by
  induction k with
  | zero => rfl
  | succ k ih =>
    have he : List.replicate (k + 1) '/' ++ cs = [] ++ '/' :: (List.replicate k '/' ++ cs) := rfl
    rw [he, parts_append, ih]
    rfl

theorem isWellFormed_ofString (s : String) : (ofString s).IsWellFormed where
  slashes := by
    unfold ofString
    dsimp only
    split <;> simp
  names n hn := by
    obtain ⟨hm, hname⟩ := List.mem_filter.1 hn
    obtain ⟨part, hp, rfl⟩ := List.mem_map.1 hm
    exact ⟨hname, by simpa using Text.notMem_of_mem_splitOn hp⟩

/-- Slashes at the beginning, if something else than a slash follows them. -/
theorem takeWhile_replicate (k : Nat) {cs : List Char} (h : cs.head? ≠ some '/') :
    (List.replicate k '/' ++ cs).takeWhile (· = '/') = List.replicate k '/' := by
  induction k with
  | zero =>
    cases cs with
    | nil => rfl
    | cons c cs =>
      have hc : c ≠ '/' := by
        intro hc
        exact h (by simp [hc])
      simp [hc]
  | succ k ih => simp [List.replicate_succ, ih]

theorem head?_slashed {names : List String} (h : ∀ n ∈ names, IsComponent n) {cs : List Char}
    (hc : cs.head? ≠ some '/') : (slashed names ++ cs).head? ≠ some '/' := by
  cases names with
  | nil => exact hc
  | cons n names =>
    have hn := h n List.mem_cons_self
    have hne : n.toList ≠ [] := by
      intro he
      have : n = "" := String.toList_eq_nil_iff.1 he
      simp [this, IsComponent, isName] at hn
    obtain ⟨c, rest, he⟩ := List.exists_cons_of_ne_nil hne
    have hslash : c ≠ '/' := by
      intro hc
      exact hn.2 (by simp [he, hc])
    simpa [slashed, he] using hslash

/-- A path that is written behind a directory is below it. -/
theorem ofString_folder {p : Path} (hp : p.IsWellFormed) (ha : p.isAbsolute = true)
    {cs : List Char} (hc : cs.head? ≠ some '/') :
    ofString (String.ofList (p.folder ++ cs)) = ⟨p.slashes, p.names ++ parts cs⟩ := by
  have hnames : (ofString (String.ofList (p.folder ++ cs))).names = p.names ++ parts cs := by
    change parts (String.ofList (p.folder ++ cs)).toList = _
    rw [String.toList_ofList, folder, List.append_assoc, parts_replicate, parts_slashed hp.names]
  have hslashes : (ofString (String.ofList (p.folder ++ cs))).slashes = p.slashes := by
    unfold ofString
    dsimp only
    rw [String.toList_ofList, folder, List.append_assoc,
      takeWhile_replicate _ (head?_slashed hp.names hc), List.length_replicate]
    rcases hp.slashes with h | h | h
    · simp [isAbsolute, h] at ha
    · simp only [h]
    · simp only [h]
  rw [← hnames, ← hslashes]

theorem isWellFormed_below {p : Path} (hp : p.IsWellFormed) {names : List String}
    (hn : ∀ n ∈ names, IsComponent n) : IsWellFormed ⟨p.slashes, p.names ++ names⟩ where
  slashes := hp.slashes
  names n hm := by
    rcases List.mem_append.1 hm with hm | hm
    · exact hp.names n hm
    · exact hn n hm

theorem isWellFormed_parent {p : Path} (hp : p.IsWellFormed) : p.parent.IsWellFormed where
  slashes := hp.slashes
  names n hm := hp.names n (List.dropLast_subset _ hm)

theorem toList_intercalate (names : List String) (n : String) :
    ("/".intercalate (names ++ [n])).toList = slashed names ++ n.toList :=
  Text.toList_intercalate "/" names n

theorem intercalate_concat (names : List String) (n : String) :
    "/".intercalate (names ++ [n]) = String.ofList (slashed names) ++ n := by
  rw [← String.toList_inj, toList_intercalate, String.toList_append, String.toList_ofList]

/-- The last name of a path, or nothing at a root. -/
def last (p : Path) : List Char := (p.names.getLast?.getD "").toList

/-- A written path is its directory and its last name. -/
theorem toList_toString {p : Path} (ha : p.isAbsolute = true) :
    (toString p).toList = p.parent.folder ++ p.last := by
  have hz : p.slashes ≠ 0 := by simpa [isAbsolute] using ha
  have hw : toString p = String.ofList (List.replicate p.slashes '/') ++ "/".intercalate p.names := by
    simp [toString, hz]
  rw [hw, String.toList_append, String.toList_ofList, folder, parent, last]
  rcases List.eq_nil_or_concat p.names with h | ⟨names, n, h⟩
  · simp [h]
  · rw [h, List.concat_eq_append, toList_intercalate]
    simp

theorem parent_append_parts_last {p : Path} (hp : p.IsWellFormed) :
    p.parent.names ++ parts p.last = p.names := by
  rcases List.eq_nil_or_concat p.names with h | ⟨names, n, h⟩
  · simp [parent, last, h, parts, Text.splitOn, isName]
  · rw [List.concat_eq_append] at h
    have hn : IsComponent n := hp.names n (by simp [h])
    simp [parent, last, h, parts_toList hn]

theorem notMem_last {p : Path} (hp : p.IsWellFormed) : '/' ∉ p.last := by
  rcases List.eq_nil_or_concat p.names with h | ⟨names, n, h⟩
  · simp [last, h]
  · rw [List.concat_eq_append] at h
    have hn : IsComponent n := hp.names n (by simp [h])
    simpa [last, h] using hn.2

theorem head?_last {p : Path} (hp : p.IsWellFormed) : p.last.head? ≠ some '/' := by
  intro h
  exact notMem_last hp (List.mem_of_mem_head? h)

/-- A well-formed absolute path is read back as it is written. -/
theorem ofString_toString {p : Path} (hp : p.IsWellFormed) (ha : p.isAbsolute = true) :
    ofString (toString p) = p := by
  have hw : toString p = String.ofList (p.parent.folder ++ p.last) := by
    rw [← toList_toString ha, String.ofList_toList]
  rw [hw, ofString_folder (isWellFormed_parent hp) ha (head?_last hp), parent_append_parts_last hp]
  rfl

end Path

end Mykt
