import Mykt.Import.Resolver
import Mykt.Proofs.Declaration.Portion
import Mykt.Proofs.Uri.Address

/-!
What the headers of a parsed file name. Main statements: a header of a parsed file always has a
name, and in a short text a range; the file that it names lies below the directory, with one
directory for each simple name but the last and the extension behind the last; the address of that
file is the written names behind the address of the directory.
-/

namespace Mykt

/-- The path of names below a directory. -/
def Path.below (p : Path) (names : List String) : Path := ⟨p.slashes, p.names ++ names⟩

namespace Path

theorem below_below (p : Path) (xs ys : List String) : (p.below xs).below ys = p.below (xs ++ ys) := by
  simp [below]

theorem parent_below (p : Path) (names : List String) (n : String) :
    (p.below (names ++ [n])).parent = p.below names := by
  simp [below, parent]

end Path

namespace Import

/-- Simple names as the names of a path: the extension stands behind the last. -/
def withExtension (parts : List String) (extension : String) : List String :=
  parts.dropLast ++ [parts.getLast?.getD "" ++ extension]

/-- The simple names of a header stand for a file. -/
structure IsHeader (header : Tree) : Prop where
  parts_ne_nil : header.importParts ≠ []
  isIdentifier : ∀ s ∈ header.importParts, Lexer.IsIdentifier s.toList
  importName : header.importName = .ok (".".intercalate header.importParts)

section

variable {source : String} {t header : Tree}

theorem isHeader_of_parse (h : parse source = .ok t) (hh : header ∈ t.importHeaders) :
    IsHeader header := by
  obtain ⟨hc, hk, -⟩ := conforms_of_parse h
  obtain ⟨cs, rfl, hd, hsub⟩ := derives_of_mem_importHeaders hc hk hh
  have hspelled : ∀ x ∈ Tree.tokensOf cs, x.IsSpelled := by
    intro x hx
    exact (standsIn_of_parse h (hsub hx)).spelled
  obtain ⟨hne, hid, hname⟩ := importName_of_derives hd hspelled
  exact ⟨hne, hid, hname⟩

theorem exists_range_of_mem_importHeaders (h : parse source = .ok t)
    (hs : source.length ≤ Position.limit) (hh : header ∈ t.importHeaders) :
    ∃ r, header.range = .ok r := by
  obtain ⟨hc, hk, -⟩ := conforms_of_parse h
  obtain ⟨cs, rfl, hd, hsub⟩ := derives_of_mem_importHeaders hc hk hh
  obtain ⟨word, k, rest, -, -, rfl⟩ := Pattern.leaf_cons_of_derives hd
  have hspans : (Tree.node (.rule .importHeader) (.leaf word :: rest)).HasSpans :=
    (Tree.hasSpans_of_parse h hs).mono hsub
  exact hspans.exists_range (x := word) (by simp [Tree.tokens, Tree.tokensOf])

end

section

variable {parts : List String} {extension : String}

/-- Characters of identifiers stand for themselves in addresses. -/
theorem isPlain_of_isNamePart {c : Char} (h : Lexer.isNamePart c = true) :
    Uri.isPlain c = true := by
  simp only [Lexer.isNamePart, Lexer.isNameStart, Lexer.isDigit, Bool.or_eq_true, Bool.and_eq_true,
    decide_eq_true_eq] at h
  simp only [Uri.isPlain, Uri.isUnreserved, Bool.or_eq_true, Bool.and_eq_true, decide_eq_true_eq]
  tauto

theorem notMem_of_isIdentifier {s : String} (h : Lexer.IsIdentifier s.toList) {c : Char}
    (hc : Lexer.isNamePart c = false) : c ∉ s.toList := by
  intro hm
  rw [Lexer.isNamePart_of_isIdentifier h hm] at hc
  cases hc

theorem exists_init_last (hne : parts ≠ []) : ∃ init last, parts = init ++ [last] :=
  ⟨_, _, (List.dropLast_append_getLast hne).symm⟩

/-- The written path of an imported name. -/
theorem relativePath_eq (hp : ∀ s ∈ parts, Lexer.IsIdentifier s.toList) (hne : parts ≠ []) :
    relativePath (".".intercalate parts) extension =
      "/".intercalate (withExtension parts extension) := by
  obtain ⟨init, last, rfl⟩ := exists_init_last hne
  have keep {s : String} (hs : s ∈ init ++ [last]) :
      s.toList.map (fun c => if c = '.' then '/' else c) = s.toList := by
    have hdot := notMem_of_isIdentifier (hp s hs) (c := '.') rfl
    conv_rhs => rw [← List.map_id s.toList]
    apply List.map_congr_left
    intro c hc
    apply if_neg
    intro hsame
    subst hsame
    exact hdot hc
  have keepAll : (init.flatMap fun s => s.toList ++ ".".toList).map
      (fun c => if c = '.' then '/' else c) = Path.slashed init := by
    rw [List.map_flatMap, Path.slashed]
    apply List.flatMap_congr
    intro s hs
    rw [List.map_append, keep (by simp [hs])]
    rfl
  rw [← String.toList_inj, relativePath, String.toList_append, String.toList_ofList,
    Text.toList_intercalate, List.map_append, keepAll, keep (by simp), withExtension,
    Path.toList_intercalate]
  simp

/-- An identifier with anything but a slash behind it is a name of a path. -/
theorem isComponent_append {s t : String} (hs : Lexer.IsIdentifier s.toList)
    (ht : '/' ∉ t.toList) : Path.IsComponent (s ++ t) ∧ s ++ t ≠ ".." := by
  have hslash : '/' ∉ (s ++ t).toList := by
    simp only [String.toList_append, List.mem_append, not_or]
    exact ⟨notMem_of_isIdentifier hs rfl, ht⟩
  obtain ⟨c, rest, he, hc, -⟩ := hs
  have hne (u : String) (hu : u.toList.head? ≠ some c) : s ++ t ≠ u := by
    intro h
    exact hu (by simp [← h, he])
  have hdot : c ≠ '.' := by
    intro hsame
    subst hsame
    cases hc
  refine ⟨⟨?_, hslash⟩, hne ".." (by simpa using hdot.symm)⟩
  simp only [Path.isName, Bool.and_eq_true, decide_eq_true_eq]
  exact ⟨hne "" (by simp), hne "." (by simpa using hdot.symm)⟩

theorem isComponent_withExtension (hp : ∀ s ∈ parts, Lexer.IsIdentifier s.toList)
    (hne : parts ≠ []) (he : '/' ∉ extension.toList) :
    ∀ n ∈ withExtension parts extension, Path.IsComponent n ∧ n ≠ ".." := by
  obtain ⟨init, last, rfl⟩ := exists_init_last hne
  intro n hn
  simp only [withExtension, List.dropLast_concat, List.getLast?_append, List.getLast?_singleton,
    Option.some_or, Option.getD_some, List.mem_append, List.mem_singleton] at hn
  rcases hn with hn | rfl
  · have := isComponent_append (t := "") (hp n (by simp [hn])) (by simp)
    simpa using this
  · exact isComponent_append (hp last (by simp)) he

/-- An imported file lies below the directory. -/
theorem target_eq (hp : ∀ s ∈ parts, Lexer.IsIdentifier s.toList) (hne : parts ≠ [])
    (he : '/' ∉ extension.toList) (directory : Path) :
    target directory (relativePath (".".intercalate parts) extension) =
      directory.below (withExtension parts extension) := by
  have hn := isComponent_withExtension hp hne he
  have hparts : Path.parts ("/".intercalate (withExtension parts extension)).toList =
      withExtension parts extension := by
    rw [withExtension] at hn ⊢
    rw [Path.toList_intercalate, Path.parts_slashed fun n hm => (hn n (by simp [hm])).1,
      Path.parts_toList (hn _ (by simp)).1]
  change directory.below (Path.parts (relativePath (".".intercalate parts) extension).toList) = _
  rw [relativePath_eq hp hne, hparts]

end

end Import

end Mykt
