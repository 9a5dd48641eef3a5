import Mathlib.Data.List.Induction
import Mathlib.Data.List.TakeDrop
import Mykt.Proofs.Token.Munch
import Mykt.Proofs.Uri.Address

/-!
Bases of addresses, of whatever form. Main statements: a base is empty or ends in a slash; it is the
base of what is written behind it without a slash; if it leads to a path, so does what stands behind
it as identifiers with slashes, since at most an identifier becomes its host.
-/

namespace Mykt.Uri

/-- Empty, or with a slash at the end. -/
def IsBase (s : String) : Prop := s = "" ∨ ∃ xs, s.toList = xs ++ ['/']

theorem isBase_base (s : String) : IsBase (base s) := by
  cases h : s.toList.reverse.dropWhile (· ≠ '/') with
  | nil => exact .inl (by rw [base, h]; rfl)
  | cons c cs =>
    have hc : c = '/' := by
      have hhead := Lexer.head?_dropWhile_eq_false (· ≠ '/') s.toList.reverse c (by rw [h]; rfl)
      simpa using hhead
    exact .inr ⟨cs.reverse, by rw [base, h, hc]; simp⟩

theorem IsBase.base_append {s t : String} (hs : IsBase s) (ht : '/' ∉ t.toList) :
    base (s ++ t) = s := by
  rcases hs with rfl | ⟨xs, hs⟩
  · have hd : t.toList.reverse.dropWhile (· ≠ '/') = [] := by
      apply List.dropWhile_eq_nil_iff.2
      intro c hc
      apply decide_eq_true
      intro he
      exact ht (he ▸ List.mem_reverse.1 hc)
    rw [String.empty_append, base, hd]
    rfl
  · exact Uri.base_append hs ht

/-- Directories written behind a base make a base. -/
theorem IsBase.append_slashed {s : String} (hs : IsBase s) (names : List String) :
    IsBase (s ++ String.ofList (Path.slashed names)) := by
  induction names using List.reverseRecOn with
  | nil => simpa using hs
  | append_singleton names n =>
    refine .inr ⟨s.toList ++ Path.slashed names ++ n.toList, ?_⟩
    simp [Path.slashed_append, Path.slashed_singleton]

section

variable {names : List String} {c : Char}

theorem mem_slashed (hn : ∀ m ∈ names, Lexer.IsIdentifier m.toList)
    (hc : c ∈ Path.slashed names) : Lexer.isNamePart c = true ∨ c = '/' := by
  obtain ⟨m, hm, hc⟩ := List.mem_flatMap.1 hc
  rcases List.mem_append.1 hc with hc | hc
  · exact .inl (Lexer.isNamePart_of_isIdentifier (hn m hm) hc)
  · exact .inr (List.mem_singleton.1 hc)

theorem notMem_slashed (hn : ∀ m ∈ names, Lexer.IsIdentifier m.toList)
    (hc : Lexer.isNamePart c = false) (hslash : c ≠ '/') : c ∉ Path.slashed names := by
  intro hm
  rcases mem_slashed hn hm with hpart | he
  · rw [hc] at hpart
    cases hpart
  · exact hslash he

theorem head?_slashed_ne (hn : ∀ m ∈ names, Lexer.IsIdentifier m.toList) :
    (Path.slashed names).head? ≠ some '/' := by
  cases names with
  | nil => simp
  | cons m names =>
    obtain ⟨c, rest, hm, hc, -⟩ := hn m List.mem_cons_self
    have hslash : c ≠ '/' := by
      intro he
      rw [he] at hc
      cases hc
    simpa [Path.slashed, hm] using hslash

end

/-- A host of letters, digits and underscores is one. -/
theorem checkHost_of_isNamePart {host : List Char} (h : ∀ c ∈ host, Lexer.isNamePart c = true) :
    checkHost host = .ok () := by
  have absent {c : Char} (hc : Lexer.isNamePart c = false) : host.contains c = false := by
    rw [List.contains_eq_mem, decide_eq_false_iff_not]
    intro hm
    rw [h c hm] at hc
    cases hc
  have plain : host.any (fun c => disguisedSeparators.contains c.toNat) = false := by
    rw [List.any_eq_false]
    intro c hc
    have beyond : ∀ n ∈ disguisedSeparators, 128 ≤ n := by decide
    have hsmall := Lexer.toNat_lt_of_isNamePart (h c hc)
    rw [List.contains_eq_mem, decide_eq_true_eq]
    intro hm
    have := beyond _ hm
    omega
  simp only [checkHost, absent (show Lexer.isNamePart '[' = false from rfl),
    absent (show Lexer.isNamePart ']' = false from rfl), plain]
  rfl

/-- What tells a file address from a written path. -/
def fileMark : List Char := fileScheme ++ [':']

/-- The host of an address. -/
def hostOf (s : String) : List Char := (splitHost (splitScheme (clean s.toList)).2).1

/-- A written path leads somewhere, and a file address does if its host is one. -/
theorem exists_toPath_iff {cwd : Path} {s : String} :
    (∃ p, toPath cwd s = .ok p) ↔ (fileMark <+: s.toList → checkHost (hostOf s) = .ok ()) := by
  unfold toPath
  split
  · next cs hs =>
    have hmark : fileMark <+: s.toList := by
      rw [hs]
      exact ⟨cs, rfl⟩
    simp only [Address.ofString, hmark, true_imp_iff]
    cases hc : checkHost (hostOf s) with
    | error e =>
      rw [hostOf] at hc
      simp [hc, bind, Except.bind]
    | ok u =>
      rw [hostOf] at hc
      simp [hc, bind, Except.bind, pure, Except.pure]
  · next hs =>
    refine iff_of_true ⟨_, rfl⟩ ?_
    intro hmark
    obtain ⟨cs, hcs⟩ := hmark
    exact absurd hcs.symm (hs cs)

/-- A base with the mark of a file ends in a slash, and its host is read from what stands between
the mark and the slash. -/
theorem IsBase.exists_hostOf_eq {s : String} (hs : IsBase s) (hmark : fileMark <+: s.toList) :
    ∃ ds, ∀ names : List String, (∀ m ∈ names, Lexer.IsIdentifier m.toList) →
      hostOf (s ++ String.ofList (Path.slashed names)) =
        (splitHost (ds ++ '/' :: Path.slashed names)).1 := by
  obtain ⟨cs, hcs⟩ := hmark
  obtain ⟨ys, rfl⟩ : ∃ ys, cs = ys ++ ['/'] := by
    rcases hs with rfl | ⟨xs, hs⟩
    · cases hcs
    · have hlast := congrArg List.getLast? (hcs.trans hs)
      rcases List.eq_nil_or_concat cs with rfl | ⟨ys, c, rfl⟩
      · simp [fileMark] at hlast
      · exact ⟨ys, by simpa [← List.append_assoc] using hlast⟩
  refine ⟨ys.filter fun c => c ≠ '\t' && c ≠ '\r' && c ≠ '\n', ?_⟩
  intro names hn
  have hkept : (Path.slashed names).filter (fun c => c ≠ '\t' && c ≠ '\r' && c ≠ '\n') =
      Path.slashed names := by
    rw [List.filter_eq_self]
    intro c hc
    rcases mem_slashed hn hc with hpart | rfl
    · simp only [Bool.and_eq_true, decide_eq_true_eq]
      refine ⟨⟨?_, ?_⟩, ?_⟩ <;>
      · rintro rfl
        cases hpart
    · decide
  have hclean (zs : List Char) : clean (fileMark ++ zs) =
      fileMark ++ zs.filter fun c => c ≠ '\t' && c ≠ '\r' && c ≠ '\n' := rfl
  have hscheme (zs : List Char) : splitScheme (fileMark ++ zs) = (fileScheme, zs) := rfl
  rw [hostOf, String.toList_append, String.toList_ofList, ← hcs, List.append_assoc, hclean, hscheme,
    List.append_assoc, List.filter_append, List.singleton_append,
    List.filter_cons_of_pos (by decide), hkept]

theorem splitHost_of_ne {cs : List Char} (h : ∀ rest, cs ≠ '/' :: '/' :: rest) :
    splitHost cs = ([], cs) := by
  unfold splitHost
  split
  · exact absurd rfl (h _)
  · rfl

/-- What stands behind a slash is no part of a host, or is where the host begins. -/
theorem splitHost_slash (ds : List Char) {cs : List Char} (hcs : cs.head? ≠ some '/') :
    (splitHost (ds ++ '/' :: cs)).1 = (splitHost (ds ++ ['/'])).1 ∨
      ∀ c ∈ (splitHost (ds ++ '/' :: cs)).1, c ∈ cs ∧ c ≠ '/' := by
  match ds with
  | [] =>
    have hne (rest : List Char) : '/' :: cs ≠ '/' :: '/' :: rest := by
      intro he
      rw [(List.cons.inj he).2] at hcs
      exact hcs rfl
    rw [List.nil_append, splitHost_of_ne hne]
    exact .inl rfl
  | [c] =>
    by_cases hc : c = '/'
    · subst hc
      refine .inr ?_
      intro c hc
      change c ∈ (List.span _ cs).1 at hc
      rw [List.span_eq_takeWhile_dropWhile] at hc
      have hkept := List.mem_takeWhile_imp hc
      simp only [Bool.and_eq_true, decide_eq_true_eq] at hkept
      exact ⟨(List.takeWhile_prefix _).subset hc, hkept.1.1⟩
    · have hne (rest more : List Char) : [c] ++ '/' :: more ≠ '/' :: '/' :: rest := by
        intro he
        exact hc (List.cons.inj he).1
      rw [splitHost_of_ne fun rest => hne rest cs, splitHost_of_ne fun rest => hne rest []]
      exact .inl rfl
  | c :: d :: es =>
    by_cases hc : c = '/' ∧ d = '/'
    · obtain ⟨rfl, rfl⟩ := hc
      refine .inl ?_
      change (List.span _ (es ++ '/' :: cs)).1 = (List.span _ (es ++ ['/'])).1
      rw [List.span_eq_takeWhile_dropWhile, List.span_eq_takeWhile_dropWhile]
      simp [List.takeWhile_append]
    · have hne (rest more : List Char) : c :: d :: es ++ '/' :: more ≠ '/' :: '/' :: rest := by
        intro he
        obtain ⟨hfirst, htail⟩ := List.cons.inj he
        exact hc ⟨hfirst, (List.cons.inj htail).1⟩
      rw [splitHost_of_ne fun rest => hne rest cs, splitHost_of_ne fun rest => hne rest []]
      exact .inl rfl

/-- Directories behind a base that leads to a path lead to one. -/
theorem IsBase.exists_toPath {cwd p : Path} {s : String} (hs : IsBase s)
    (hp : toPath cwd s = .ok p) {names : List String}
    (hn : ∀ m ∈ names, Lexer.IsIdentifier m.toList) :
    ∃ q, toPath cwd (s ++ String.ofList (Path.slashed names)) = .ok q := by
  rw [exists_toPath_iff]
  intro hmark
  rw [String.toList_append, String.toList_ofList] at hmark
  -- the mark holds no slash, so a base is not a part of it
  have hbase : fileMark <+: s.toList := by
    rcases List.prefix_or_prefix_of_prefix hmark (List.prefix_append _ _) with hlong | hshort
    · exact hlong
    · rcases hs with rfl | ⟨xs, hxs⟩
      · have hcolon : ':' ∈ Path.slashed names := hmark.subset (by decide)
        exact absurd hcolon (notMem_slashed hn rfl (by decide))
      · have hslash : '/' ∈ fileMark := hshort.subset (by simp [hxs])
        exact absurd hslash (by decide)
  obtain ⟨ds, hhost⟩ := hs.exists_hostOf_eq hbase
  rw [hhost names hn]
  rcases splitHost_slash ds (head?_slashed_ne hn) with hsame | hfirst
  · have hold := exists_toPath_iff.1 ⟨p, hp⟩ hbase
    have hbare := hhost [] (by simp)
    rw [Path.slashed_nil, String.ofList_nil, String.append_empty] at hbare
    rw [hsame, ← hbare]
    exact hold
  · apply checkHost_of_isNamePart
    intro c hc
    obtain ⟨hmem, hslash⟩ := hfirst c hc
    exact (mem_slashed hn hmem).resolve_right hslash

end Mykt.Uri
