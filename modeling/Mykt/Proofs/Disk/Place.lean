import Mykt.Disk

/-!
Where a path leads on a disk. Main statements: a path that leads somewhere leads to where it stands
once it is normalized; a file that can be read is there and is an entry of the disk; its text is no
longer than its bytes.
-/

namespace Mykt

/-- One more name of a path; `..` goes up. -/
def Path.settleStep (done : List String) (n : String) : List String :=
  if n = ".." then done.dropLast else done ++ [n]

theorem Path.settle_eq (names : List String) : settle names = names.foldl settleStep [] := rfl

namespace Disk

variable {d : Disk} {p : Path}

theorem follow_eq_ok {place place' names : List String} (h : d.follow place names = .ok place') :
    place' = names.foldl Path.settleStep place := by
  induction names generalizing place with
  | nil =>
    rw [follow] at h
    split at h <;> simp_all
  | cons n ns ih =>
    rw [List.foldl_cons, Path.settleStep]
    rw [follow] at h
    split at h
    · cases h
    · cases h
    · split at h
      · next hn =>
        rw [if_pos hn]
        exact ih h
      · next hn =>
        rw [if_neg hn]
        split at h
        · cases h
        · exact ih h

theorem place_eq_ok {place : List String} (h : d.place p = .ok place) :
    place = (Path.normalize d.cwd p).names := by
  rw [Disk.place] at h
  split at h
  · cases h
  · exact follow_eq_ok h

theorem lookup_eq_ok {e : Entry} (h : d.lookup p = .ok e) :
    d.entry? (Path.normalize d.cwd p).names = some e := by
  rw [lookup] at h
  obtain ⟨place, hp, he⟩ : ∃ place, d.place p = .ok place ∧ d.entry? place = some e := by
    cases hp : d.place p with
    | error f => simp [hp, bind, Except.bind] at h
    | ok place =>
      refine ⟨place, rfl, ?_⟩
      cases he : d.entry? place <;> simp_all [bind, Except.bind, pure, Except.pure]
  rw [← place_eq_ok hp, he]

/-- The root is no file. -/
theorem mem_entries_of_entry? {place : List String} {bytes : List UInt8}
    (h : d.entry? place = some (.file bytes)) : (place, .file bytes) ∈ d.entries := by
  unfold entry? at h
  split at h
  · cases h
  · obtain ⟨xs, ys, he, -⟩ := List.lookup_eq_some_iff.1 h
    simp [he]

theorem readBytes_eq_ok {bytes : List UInt8} (h : d.readBytes p = .ok bytes) :
    d.exists? p = .ok true ∧ ((Path.normalize d.cwd p).names, .file bytes) ∈ d.entries := by
  rw [readBytes] at h
  split at h
  · cases h
  · next hn =>
    split at h
    · next hl =>
      cases h
      exact ⟨by simp [exists?, hn, hl], mem_entries_of_entry? (lookup_eq_ok hl)⟩
    · cases h
    · cases h

theorem readText_eq_ok {text : String} (h : d.readText p = .ok text) :
    d.exists? p = .ok true ∧ ∃ bytes, textOf bytes = .ok text.toList ∧
      ((Path.normalize d.cwd p).names, .file bytes) ∈ d.entries := by
  cases hb : d.readBytes p with
  | error e => simp [readText, hb, bind, Except.bind] at h
  | ok bytes =>
    cases ht : textOf bytes with
    | error e => simp [readText, hb, ht, bind, Except.bind] at h
    | ok cs =>
      obtain rfl : String.ofList cs = text := by
        simpa [readText, hb, ht, bind, Except.bind, pure, Except.pure] using h
      obtain ⟨he, hm⟩ := readBytes_eq_ok hb
      exact ⟨he, bytes, by rw [ht, String.toList_ofList], hm⟩

theorem length_decodeFrom_le {n position : Nat} {bytes : List UInt8} {cs : List Char}
    (h : Text.Utf8.decodeFrom n position bytes = .ok cs) : cs.length ≤ n := by
  induction n generalizing position bytes cs with
  | zero =>
    cases bytes <;> cases h <;> simp
  | succ n ih =>
    cases bytes with
    | nil =>
      cases h
      simp
    | cons first rest =>
      rw [Text.Utf8.decodeFrom] at h
      split at h
      · cases h
      · next c width _ =>
        cases hc : Text.Utf8.decodeFrom n (position + width) (rest.drop (width - 1)) with
        | error e => simp [hc, bind, Except.bind] at h
        | ok cs' =>
          obtain rfl : c :: cs' = cs := by
            simpa [hc, bind, Except.bind, pure, Except.pure] using h
          exact Nat.succ_le_succ (ih hc)

theorem length_unifyNewlines_le (cs : List Char) :
    (Text.unifyNewlines cs).length ≤ cs.length := by
  fun_induction Text.unifyNewlines cs with
  | case1 cs ih =>
    simp only [List.length_cons]
    omega
  | case2 cs _ ih => exact Nat.succ_le_succ ih
  | case3 c cs _ _ ih => exact Nat.succ_le_succ ih
  | case4 => exact Nat.le_refl _

/-- A text is no longer than its bytes. -/
theorem length_textOf_le {bytes : List UInt8} {cs : List Char} (h : textOf bytes = .ok cs) :
    cs.length ≤ bytes.length := by
  unfold textOf at h
  split at h
  · next hd =>
    cases h
    exact Nat.le_trans (length_unifyNewlines_le _) (length_decodeFrom_le hd)
  · cases h

end Disk

end Mykt
