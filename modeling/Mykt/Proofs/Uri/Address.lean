import Mykt.Proofs.Path.Written
import Mykt.Proofs.Uri.Percent

/-!
Addresses of files and of the files that they import. Main statements: the address of a path leads
back to the path; its base is the address of the directory; a text written behind the address of a
directory leads to a path below the directory, named by what the text is read as; a text is read as
itself exactly if it holds no escape, no mark of a query or fragment, and no tab or line end.
-/

namespace Mykt

/-- The first name begins with a letter and a colon. -/
def Path.hasDrive (p : Path) : Bool :=
  match p.names.head?.map String.toList with
  | some (c :: ':' :: _) => Uri.isLetter c
  | _ => false

namespace Uri

/-- The scheme of a file and an empty host. -/
def fileStart : List Char := ['f', 'i', 'l', 'e', ':', '/', '/']

/-- Characters of an address that do not end its path, and that count. -/
def isShown (c : Char) : Bool := c ∉ ['\t', '\r', '\n', '#', '?']

/-- The part of a text in an address that belongs to the path: tabs and line ends do not count, and
a fragment or a query ends it. -/
def shown (cs : List Char) : List Char :=
  ((cs.filter fun c => c ≠ '\t' && c ≠ '\r' && c ≠ '\n').takeWhile (· ≠ '#')).takeWhile (· ≠ '?')

/-- What a text in an address is read as. -/
def reading (cs : List Char) : List Char := decode (shown cs)

/-- A text without escapes and with shown characters only. -/
def isVerbatim (cs : List Char) : Bool := cs.all isShown && !hasEscape cs

/-- The address of a directory, with the slash behind it. -/
def ofFolder (p : Path) : String := String.ofList (fileStart ++ encode p.folder)

section

variable {c : Char} {cs : List Char}

theorem ne_of_isEscaped {d : Char} (h : isEscaped c = true) (hd : isEscaped d = false) : c ≠ d := by
  intro hsame
  subst hsame
  rw [h] at hd
  cases hd

theorem isEscaped_of_isPlain (h : isPlain c = true) : isEscaped c = true := by
  simp [isEscaped, h]

theorem isShown_iff : isShown c = true ↔
    c ≠ '\t' ∧ c ≠ '\r' ∧ c ≠ '\n' ∧ c ≠ '#' ∧ c ≠ '?' := by
  simp [isShown]

theorem isShown_of_isEscaped (h : isEscaped c = true) : isShown c = true := by
  rw [isShown_iff]
  exact ⟨ne_of_isEscaped h rfl, ne_of_isEscaped h rfl, ne_of_isEscaped h rfl,
    ne_of_isEscaped h rfl, ne_of_isEscaped h rfl⟩

theorem shown_append {xs : List Char} (h : ∀ c ∈ xs, isShown c = true) (ys : List Char) :
    shown (xs ++ ys) = xs ++ shown ys := by
  simp only [isShown_iff] at h
  have hfilter : xs.filter (fun c => c ≠ '\t' && c ≠ '\r' && c ≠ '\n') = xs := by
    rw [List.filter_eq_self]
    intro c hc
    simp [h c hc]
  have stays {d : Char} (hd : ∀ c ∈ xs, c ≠ d) (ys : List Char) :
      (xs ++ ys).takeWhile (· ≠ d) = xs ++ ys.takeWhile (· ≠ d) := by
    apply List.takeWhile_append_of_pos
    intro c hc
    simpa using hd c hc
  rw [shown, List.filter_append, hfilter, stays (fun c hc => (h c hc).2.2.2.1),
    stays (fun c hc => (h c hc).2.2.2.2)]
  rfl

theorem shown_eq_self (h : ∀ c ∈ cs, isShown c = true) : shown cs = cs := by
  have happend := shown_append h []
  simpa [shown] using happend

theorem shown_sublist (cs : List Char) : (shown cs).Sublist cs :=
  ((List.takeWhile_sublist _).trans (List.takeWhile_sublist _)).trans List.filter_sublist

/-- What is shown of a text is shown. -/
theorem isShown_of_mem_shown (h : c ∈ shown cs) : isShown c = true := by
  have hmark := (List.takeWhile_sublist _).subset h
  have hquery := List.mem_takeWhile_imp h
  have hfragment := List.mem_takeWhile_imp hmark
  have hfilter := (List.mem_filter.1 ((List.takeWhile_sublist _).subset hmark)).2
  rw [isShown_iff]
  simp only [ne_eq, Bool.and_eq_true, decide_eq_true_eq] at hquery hfragment hfilter
  exact ⟨hfilter.1.1, hfilter.1.2, hfilter.2, hfragment, hquery⟩

/-- A text is read as itself exactly if it is verbatim, and as a shorter one otherwise. -/
theorem reading_eq_self_iff : reading cs = cs ↔ isVerbatim cs = true := by
  rw [isVerbatim, Bool.and_eq_true, List.all_eq_true, Bool.not_eq_true']
  constructor
  · intro h
    have hlength := (length_decode (shown cs)).1
    have hshown : shown cs = cs := by
      apply (shown_sublist cs).eq_of_length_le
      rw [← congrArg List.length h]
      exact hlength
    refine ⟨fun c hc => isShown_of_mem_shown (hshown.symm ▸ hc), ?_⟩
    rwa [reading, hshown, decode_eq_self_iff] at h
  · intro h
    rw [reading, shown_eq_self h.1, decode_eq_self_iff]
    exact h.2

theorem length_reading_le (cs : List Char) : (reading cs).length ≤ cs.length :=
  Nat.le_trans (length_decode (shown cs)).1 (shown_sublist cs).length_le

theorem isVerbatim_of_isPlain (h : ∀ c ∈ cs, isPlain c = true) : isVerbatim cs = true := by
  have hshown : cs.all isShown = true := by
    rw [List.all_eq_true]
    intro c hc
    exact isShown_of_isEscaped (isEscaped_of_isPlain (h c hc))
  rw [isVerbatim, hshown, hasEscape_of_isPlain h]
  rfl

/-- An escaped text is read back, whatever is written after it. -/
theorem reading_encode (cs tail : List Char) : reading (encode cs ++ tail) = cs ++ reading tail := by
  have hshown : ∀ c ∈ encode cs, isShown c = true := by
    intro c hc
    exact isShown_of_isEscaped (isEscaped_of_mem_encode hc)
  rw [reading, shown_append hshown, decode_encode]
  rfl

theorem clean_file (cs : List Char) : clean (fileStart ++ cs) =
    fileStart ++ cs.filter fun c => c ≠ '\t' && c ≠ '\r' && c ≠ '\n' := by
  have hd : (fileStart ++ cs).dropWhile (·.toNat ≤ 0x20) = fileStart ++ cs := rfl
  rw [clean, hd, List.filter_append]
  rfl

/-- The address of a file has no host. -/
theorem ofString_file (cs : List Char) :
    Address.ofString (String.ofList (fileStart ++ '/' :: cs)) =
      .ok ⟨fileScheme, [], '/' :: shown cs⟩ := by
  let counted := cs.filter fun c => c ≠ '\t' && c ≠ '\r' && c ≠ '\n'
  have hclean : clean (fileStart ++ '/' :: cs) = fileStart ++ '/' :: counted :=
    clean_file ('/' :: cs)
  have hscheme : splitScheme (fileStart ++ '/' :: counted) =
      (fileScheme, '/' :: '/' :: '/' :: counted) := rfl
  have hhost : splitHost ('/' :: '/' :: '/' :: counted) = ([], '/' :: counted) := rfl
  have hcheck : checkHost [] = .ok () := rfl
  have hparam : parameterSchemes.contains fileScheme = false := by decide
  simp only [Address.ofString, String.toList_ofList, hclean, hscheme, hhost, hcheck, hparam,
    bind, Except.bind, pure, Except.pure]
  rfl

theorem folder_eq_cons {p : Path} (ha : p.isAbsolute = true) :
    p.folder = '/' :: (List.replicate (p.slashes - 1) '/' ++ Path.slashed p.names) := by
  have hz : p.slashes ≠ 0 := by simpa [Path.isAbsolute] using ha
  obtain ⟨k, hk⟩ := Nat.exists_eq_succ_of_ne_zero hz
  simp [Path.folder, hk, List.replicate_succ]

theorem toPath_file (cwd : Path) (cs : List Char) :
    toPath cwd (String.ofList (fileStart ++ '/' :: cs)) =
      .ok (.ofString (String.ofList (Address.filePath ⟨fileScheme, [], '/' :: shown cs⟩))) := by
  have ho := ofString_file cs
  unfold toPath
  rw [String.toList_ofList]
  simp only [fileStart, List.cons_append, List.nil_append] at ho ⊢
  rw [ho]
  rfl

theorem dropBeforeDrive_eq_self (h : ∀ slash drive rest, cs = slash :: drive :: ':' :: rest →
    isLetter drive = false) : dropBeforeDrive cs = cs := by
  unfold dropBeforeDrive
  split
  · rw [h _ _ _ rfl]
    simp
  · rfl

/-- Without a drive, no letter with a colon follows the first slash. -/
theorem isLetter_eq_false {p : Path} (hp : p.IsWellFormed) (hd : p.hasDrive = false)
    {tail rest : List Char} (ht : p.names = [] → tail = c :: ':' :: rest → isLetter c = false)
    (h : Path.slashed p.names ++ tail = c :: ':' :: rest) : isLetter c = false := by
  cases hn : p.names with
  | nil =>
    rw [hn] at h
    exact ht hn h
  | cons n names =>
    have hwrite : n.toList ++ '/' :: (Path.slashed names ++ tail) = c :: ':' :: rest := by
      rw [← h, hn]
      simp [Path.slashed]
    rw [Path.hasDrive, hn] at hd
    cases hl : n.toList with
    | nil =>
      have := (hp.names n (by simp [hn])).1
      rw [String.toList_eq_nil_iff.1 hl] at this
      cases this
    | cons d ds =>
      rw [hl] at hwrite
      cases ds with
      | nil => simp at hwrite
      | cons e es =>
        obtain ⟨rfl, rfl, -⟩ : d = c ∧ e = ':' ∧ _ := by simpa using hwrite
        simpa [hl] using hd

/-- Without a drive, the written path is taken as it is. -/
theorem filePath_folder {p : Path} (hp : p.IsWellFormed) (ha : p.isAbsolute = true)
    (hd : p.hasDrive = false) {tail : List Char} (hcs : decode cs = p.folder ++ tail)
    (ht : ∀ c rest, p.names = [] → tail = c :: ':' :: rest → isLetter c = false) :
    Address.filePath ⟨fileScheme, [], cs⟩ = p.folder ++ tail := by
  simp only [Address.filePath, hcs, ne_eq, not_true_eq_false, decide_false, Bool.false_and,
    Bool.false_eq_true, if_false]
  split
  · rfl
  · rfl
  · next hs =>
    apply dropBeforeDrive_eq_self
    intro slash drive rest he
    rcases hp.slashes with h | h | h
    · simp [Path.isAbsolute, h] at ha
    · simp only [Path.folder, h, List.replicate_one, List.cons_append, List.nil_append,
        List.cons.injEq] at he
      exact isLetter_eq_false hp hd (ht drive rest) he.2
    · exact absurd (by simp [Path.folder, h, List.replicate_succ]; rfl) (hs _)

/-- A text behind the address of a directory, without a drive. -/
theorem toPath_ofFolder {p : Path} (hp : p.IsWellFormed) (ha : p.isAbsolute = true)
    (hd : p.hasDrive = false) {cs : List Char} (hh : (reading cs).head? ≠ some '/')
    (ht : ∀ c rest, p.names = [] → reading cs = c :: ':' :: rest → isLetter c = false)
    (cwd : Path) :
    toPath cwd (ofFolder p ++ String.ofList cs) =
      .ok ⟨p.slashes, p.names ++ Path.parts (reading cs)⟩ := by
  have hw : ofFolder p ++ String.ofList cs =
      String.ofList (fileStart ++ (encode p.folder ++ cs)) := by
    simp only [ofFolder, String.ofList_append, String.append_assoc]
  obtain ⟨rest, hrest⟩ : ∃ rest, encode p.folder ++ cs = '/' :: rest := by
    rw [folder_eq_cons ha]
    exact ⟨_, rfl⟩
  have hread : decode ('/' :: shown rest) = p.folder ++ reading cs := by
    have hslash : shown (['/'] ++ rest) = ['/'] ++ shown rest :=
      shown_append (by simp [isShown]) rest
    rw [List.singleton_append, ← hrest] at hslash
    rw [← List.singleton_append, ← hslash]
    exact reading_encode p.folder cs
  have hpath := filePath_folder hp ha hd hread ht
  rw [hw, hrest, toPath_file cwd rest, hpath, Path.ofString_folder hp ha hh]

/-- A plain path behind the address of a directory leads below the directory. -/
theorem toPath_ofFolder_append {p : Path} (hp : p.IsWellFormed) (ha : p.isAbsolute = true)
    (hd : p.hasDrive = false) {s : String} (hs : ∀ c ∈ s.toList, isPlain c = true)
    (hh : s.toList.head? ≠ some '/') (cwd : Path) :
    toPath cwd (ofFolder p ++ s) = .ok ⟨p.slashes, p.names ++ Path.parts s.toList⟩ := by
  have hcolon : ':' ∉ s.toList := by
    intro hc
    have := hs _ hc
    revert this
    decide
  have hread : reading s.toList = s.toList := reading_eq_self_iff.2 (isVerbatim_of_isPlain hs)
  have hdrive (c : Char) (rest : List Char) (_ : p.names = [])
      (he : reading s.toList = c :: ':' :: rest) : isLetter c = false :=
    absurd (by rw [← hread, he]; simp) hcolon
  have h := toPath_ofFolder hp ha hd (by rwa [hread]) hdrive cwd
  rwa [hread, String.ofList_toList] at h

theorem encode_append (xs ys : List Char) : encode (xs ++ ys) = encode xs ++ encode ys := by
  simp [encode]

theorem ofPath_eq {p : Path} (ha : p.isAbsolute = true) :
    ofPath p = ofFolder p.parent ++ String.ofList (encode p.last) := by
  have hw : ofPath p = String.ofList (fileStart ++ encode (Path.toString p).toList) := rfl
  rw [hw, Path.toList_toString ha, encode_append, ofFolder, ← List.append_assoc,
    String.ofList_append]

theorem hasDrive_parent {p : Path} (hd : p.hasDrive = false) : p.parent.hasDrive = false := by
  unfold Path.hasDrive at hd ⊢
  match hn : p.names with
  | [] => simp [Path.parent, hn]
  | [n] => simp [Path.parent, hn]
  | n :: m :: names =>
    rw [hn] at hd
    simpa [Path.parent, hn] using hd

/-- The address of a path leads back to the path. -/
theorem toPath_ofPath {p : Path} (hp : p.IsWellFormed) (ha : p.isAbsolute = true)
    (hd : p.hasDrive = false) (cwd : Path) : toPath cwd (ofPath p) = .ok p := by
  have hread : reading (encode p.last) = p.last := by
    have happend := reading_encode p.last []
    rwa [List.append_nil, show reading [] = [] from rfl, List.append_nil] at happend
  have hdrive (c : Char) (rest : List Char) (hn : p.parent.names = [])
      (he : reading (encode p.last) = c :: ':' :: rest) : isLetter c = false := by
    rw [hread] at he
    rw [Path.hasDrive] at hd
    match hns : p.names with
    | [] => simp [Path.last, hns] at he
    | [n] =>
      have hl : n.toList = c :: ':' :: rest := by simpa [Path.last, hns] using he
      simpa [hns, hl] using hd
    | n :: m :: names => simp [Path.parent, hns] at hn
  rw [ofPath_eq ha, toPath_ofFolder (Path.isWellFormed_parent hp) ha (hasDrive_parent hd)
    (hread.symm ▸ Path.head?_last hp) hdrive, hread, Path.parent_append_parts_last hp]
  rfl

/-- An address that ends in a slash is the base of what is written behind it. -/
theorem base_append {s t : String} {xs : List Char} (hs : s.toList = xs ++ ['/'])
    (ht : '/' ∉ t.toList) : base (s ++ t) = s := by
  have hd : t.toList.reverse.dropWhile (· ≠ '/') = [] := by
    apply List.dropWhile_eq_nil_iff.2
    intro c hc
    apply decide_eq_true
    intro he
    apply ht
    rw [← he]
    exact List.mem_reverse.1 hc
  have hb : (s ++ t).toList.reverse.dropWhile (· ≠ '/') = '/' :: xs.reverse := by
    rw [String.toList_append, hs, List.reverse_append, List.reverse_append,
      List.dropWhile_append, hd]
    simp
  rw [base, hb]
  simp [← hs]

theorem encode_of_isPlain (h : ∀ c ∈ cs, isPlain c = true) : encode cs = cs := by
  induction cs with
  | nil => rfl
  | cons c cs ih =>
    simp only [List.mem_cons, forall_eq_or_imp] at h
    have hc : (isUnreserved c || c = '/') = true := h.1
    rw [encode, List.flatMap_cons, if_pos hc]
    exact congrArg (c :: ·) (ih h.2)

theorem slash_notMem_encode (h : '/' ∉ cs) : '/' ∉ encode cs := by
  have digit : ∀ n < 16, hexUpper n ≠ '/' := by decide
  intro hm
  obtain ⟨x, hx, hc⟩ := List.mem_flatMap.1 hm
  split at hc
  · obtain rfl := List.mem_singleton.1 hc
    exact h hx
  · obtain ⟨b, -, hb⟩ := List.mem_flatMap.1 hc
    have := UInt8.toNat_lt b
    simp only [escapeByte, List.mem_cons, List.not_mem_nil, or_false] at hb
    rcases hb with hb | hb | hb
    · revert hb
      decide
    · exact digit _ (by omega) hb.symm
    · exact digit _ (by omega) hb.symm

theorem exists_toList_ofFolder {p : Path} (ha : p.isAbsolute = true) :
    ∃ xs, (ofFolder p).toList = xs ++ ['/'] := by
  have hf : ∃ ys, p.folder = ys ++ ['/'] := by
    rcases List.eq_nil_or_concat p.names with h | ⟨names, n, h⟩
    · have hz : p.slashes ≠ 0 := by simpa [Path.isAbsolute] using ha
      obtain ⟨k, hk⟩ := Nat.exists_eq_succ_of_ne_zero hz
      exact ⟨List.replicate k '/', by simp [Path.folder, h, hk, List.replicate_succ']⟩
    · exact ⟨_, by rw [Path.folder, h, List.concat_eq_append, Path.slashed_append,
        Path.slashed_singleton, ← List.append_assoc, ← List.append_assoc]⟩
  obtain ⟨ys, hy⟩ := hf
  refine ⟨fileStart ++ encode ys, ?_⟩
  rw [ofFolder, String.toList_ofList, hy, encode_append, List.append_assoc]
  rfl

/-- The base of the address of a path is the address of its directory. -/
theorem base_ofPath {p : Path} (hp : p.IsWellFormed) (ha : p.isAbsolute = true) :
    base (ofPath p) = ofFolder p.parent := by
  obtain ⟨xs, hx⟩ := exists_toList_ofFolder (p := p.parent) ha
  rw [ofPath_eq ha]
  apply base_append hx
  rw [String.toList_ofList]
  exact slash_notMem_encode (Path.notMem_last hp)

/-- Plain names behind the address of a directory make the address of a directory below it. -/
theorem ofFolder_append_slashed (p : Path) {names : List String}
    (hn : ∀ n ∈ names, ∀ c ∈ n.toList, isPlain c = true) :
    ofFolder p ++ String.ofList (Path.slashed names) = ofFolder ⟨p.slashes, p.names ++ names⟩ := by
  have hplain : ∀ c ∈ Path.slashed names, isPlain c = true := by
    intro c hc
    obtain ⟨n, hm, hc⟩ := List.mem_flatMap.1 hc
    rcases List.mem_append.1 hc with hc | hc
    · exact hn n hm c hc
    · obtain rfl := List.mem_singleton.1 hc
      rfl
  have hf : Path.folder ⟨p.slashes, p.names ++ names⟩ = p.folder ++ Path.slashed names := by
    rw [Path.folder, Path.folder, Path.slashed_append, List.append_assoc]
  simp only [ofFolder, hf, encode_append, encode_of_isPlain hplain, String.ofList_append,
    String.append_assoc]

end

end Uri

end Mykt
