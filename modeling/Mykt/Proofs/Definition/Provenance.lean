import Mykt.Proofs.Import.Confinement
import Mykt.Proofs.Scope.Extent

/-!
Where imported symbols say that they come from. The path of an imported file is made of names, and
its address is written out and read back as addresses are. Main statements: each symbol that imports
bring into the table of a document goes by the address of the file that declares it; that address
leads back to the file exactly if the extension of files is verbatim.
-/

namespace Mykt

namespace Import

variable {o : Options} {home p : Path} {uri : String} {names : List String} {stem : String}

/-- What an extension is read as behind an identifier is one name exactly if it is that extension. -/
theorem parts_reading_eq_iff (hs : Lexer.IsIdentifier stem.toList) {extension : String}
    (he : '/' ∉ extension.toList) :
    Path.parts (stem.toList ++ Uri.reading extension.toList) = [stem ++ extension] ↔
      Uri.isVerbatim extension.toList = true := by
  have component {cs : List Char} (hcs : '/' ∉ cs) :
      Path.parts (stem.toList ++ cs) = [stem ++ String.ofList cs] := by
    have hname := (isComponent_append hs (t := String.ofList cs) (by simpa using hcs)).1
    simpa using Path.parts_toList hname
  rw [← Uri.reading_eq_self_iff]
  constructor
  · intro h
    by_cases hslash : '/' ∈ Uri.reading extension.toList
    -- the first name would have to be longer than what is read
    · obtain ⟨first, rest, hsplit, hfirst⟩ := List.eq_append_cons_of_mem hslash
      rw [hsplit, ← List.append_assoc, Path.parts_append, component hfirst,
        List.singleton_append, List.cons.injEq] at h
      have hsame : first = extension.toList := by
        have := congrArg String.toList h.1
        simpa using this
      have hlength := Uri.length_reading_le extension.toList
      rw [hsplit, hsame, List.length_append, List.length_cons] at hlength
      omega
    · rw [component hslash, List.cons.injEq] at h
      have := congrArg String.toList h.1
      simpa using this
  · intro h
    rw [h, component he, String.ofList_toList]

/-- What an extension that begins with a dot is read as begins with a dot. -/
theorem exists_reading_of_dot {extension : List Char} (h : extension.head? = some '.') :
    ∃ rest, Uri.reading extension = '.' :: rest := by
  obtain ⟨rest, rfl⟩ := List.head?_eq_some_iff.1 h
  exact ⟨_, Uri.reading_encode ['.'] rest⟩

/-- The address of a file below a directory leads back to the file exactly if the extension of the
file is verbatim. -/
theorem Lies.toPath_eq_iff (h : Lies o home p uri names (stem ++ o.extension)) (ho : Tame o home)
    (hs : Lexer.IsIdentifier stem.toList) (hdot : o.extension.toList.head? = some '.')
    (cwd : Path) : Uri.toPath cwd uri = .ok p ↔ Uri.isVerbatim o.extension.toList = true := by
  have hnames : ∀ m ∈ names, Path.IsComponent m := by
    intro m hm
    exact isComponent_of_isIdentifier (h.directories m hm)
  have hplain : ∀ c ∈ Path.slashed names ++ stem.toList, Uri.isPlain c = true :=
    List.forall_mem_append.2 ⟨isPlain_of_mem_slashed h.directories, isPlain_of_isIdentifier hs⟩
  obtain ⟨c, chars, hstem, hc, -⟩ := id hs
  have hread : Uri.reading ("/".intercalate (names ++ [stem ++ o.extension])).toList =
      Path.slashed names ++ stem.toList ++ Uri.reading o.extension.toList := by
    rw [Path.toList_intercalate, String.toList_append, ← List.append_assoc,
      ← Uri.encode_of_isPlain hplain, Uri.reading_encode, Uri.encode_of_isPlain hplain]
  have hhead : (Uri.reading ("/".intercalate (names ++ [stem ++ o.extension])).toList).head? ≠
      some '/' := by
    rw [hread, List.append_assoc]
    apply Path.head?_slashed hnames
    rw [hstem, List.cons_append, List.head?_cons]
    intro he
    cases he
    cases hc
  -- the second character is one of an identifier, a slash or a dot
  have hdrive (d : Char) (rest : List Char) (_ : home.names = [])
      (hd : Uri.reading ("/".intercalate (names ++ [stem ++ o.extension])).toList =
        d :: ':' :: rest) : Uri.isLetter d = false := by
    obtain ⟨tail, htail⟩ := exists_reading_of_dot hdot
    rw [hread, htail] at hd
    generalize hpre : Path.slashed names ++ stem.toList = pre at hd hplain
    match pre with
    | [] => simp [hstem] at hpre
    | [x] => simp at hd
    | x :: y :: ys =>
      have hy := hplain y (by simp)
      obtain rfl : y = ':' := by simpa using (List.cons.inj (List.cons.inj hd).2).1
      cases hy
  have hpath := Uri.toPath_ofFolder ho.isWellFormed ho.isAbsolute ho.hasDrive hhead hdrive cwd
  rw [String.ofList_toList, ← h.uri, hread, List.append_assoc, Path.parts_slashed hnames] at hpath
  rw [hpath, h.path, ← parts_reading_eq_iff hs ho.extension]
  simp [Path.below]

/-- A run visits no tree whose file it has not loaded, but for the one that it is given. -/
theorem Runs.load_mem_of_visits {j : Job} {s : Session} {acts : List Act} {r : Outcome}
    (h : Runs o j s acts r) :
    ∀ x ∈ visits acts, .load x.1 ∈ acts ∨ ∃ uri t, j = .loaded x.1 uri t := by
  have other {j : Job} {q : Path} {acts : List Act}
      (hj : ∀ q uri t, j ≠ .loaded q uri t)
      (h : .load q ∈ acts ∨ ∃ uri t, j = .loaded q uri t) : .load q ∈ acts := by
    rcases h with h | ⟨uri, t, h⟩
    · exact h
    · exact absurd h (hj q uri t)
  induction h with
  | homeless | done | unnamed =>
    intro x hx
    cases hx
  | document _ _ ih => exact fun x hx => .inl (other (by simp) (ih x hx))
  | stop _ ih => exact fun x hx => .inl (other (by simp) (ih x hx))
  | next _ _ ih ihs =>
    intro x hx
    rw [visits_append, List.mem_append] at hx
    rcases hx with hx | hx
    · exact .inl (List.mem_append_left _ (other (by simp) (ih x hx)))
    · exact .inl (List.mem_append_right _ (other (by simp) (ihs x hx)))
  | failed _ hl | skipped _ hl =>
    intro x hx
    rw [hl.table_eq.2] at hx
    cases hx
  | loaded _ hl _ ih =>
    intro x hx
    rw [visits_append, hl.table_eq.2, List.nil_append] at hx
    rcases ih x hx with hload | ⟨uri, t, he⟩
    · exact .inl (List.mem_append_right _ hload)
    · rw [← (Job.loaded.inj he).1]
      cases hl
      exact .inl List.mem_cons_self
  | alone =>
    intro x hx
    obtain rfl := List.mem_singleton.1 hx
    exact .inr ⟨_, _, rfl⟩
  | broken _ _ ih => exact fun x hx => .inl (other (by simp) (ih x hx))
  | after _ _ ih =>
    intro x hx
    rw [visits_append, List.mem_append] at hx
    rcases hx with hx | hx
    · exact .inl (List.mem_append_left _ (other (by simp) (ih x hx)))
    · obtain rfl := List.mem_singleton.1 hx
      exact .inr ⟨_, _, rfl⟩

/-- What a run visits is named by identifiers, with the extension behind the last. -/
theorem Runs.exists_stem {hs : List Tree} {s : Session} {acts : List Act} {r : Outcome}
    (h : Runs o (.document hs uri) s acts r) {todo : List Path}
    (hj : Placed o home (.document hs uri) todo) (ho : Tame o home)
    (hd : ∀ m ∈ home.names, m ≠ "..") {x : Path × String × Tree} (hx : x ∈ visits acts) :
    ∃ names stem, Lexer.IsIdentifier stem.toList ∧
      Lies o home x.1 x.2.1 names (stem ++ o.extension) := by
  obtain ⟨names, n, hlies⟩ := h.lies hj ho x hx
  have hload : .load x.1 ∈ acts := by
    rcases h.load_mem_of_visits x hx with hload | ⟨_, _, he⟩
    · exact hload
    · cases he
  obtain ⟨u, hconsults⟩ := h.consults_of_load_mem hload
  obtain ⟨parts, hne, hid, hpath⟩ := (hconsults.confined hj ho hd).named
  obtain ⟨init, last, rfl⟩ := exists_init_last hne
  have hsame : names ++ [n] = init ++ [last ++ o.extension] := by
    have hbelow := hlies.path.symm.trans hpath
    simpa [Path.below, withExtension] using hbelow
  obtain ⟨rfl, hn⟩ := List.append_inj' hsame rfl
  obtain rfl : n = last ++ o.extension := by simpa using hn
  exact ⟨names, last, hid last (by simp), hlies⟩

variable {xs : List (Path × String × Tree)}

theorem records_foldVisits (hx : ∀ x ∈ xs, x.2.2.IsRanged ∧ x.2.2.kind = .rule .file) :
    (foldVisits .empty xs).Records (xs.map (·.2)) ∧ (foldVisits .empty xs).Numbered := by
  induction xs using List.reverseRecOn with
  | nil => exact ⟨SymbolTable.records_empty, SymbolTable.numbered_empty⟩
  | append_singleton xs x ih =>
    simp only [List.forall_mem_append, List.forall_mem_singleton] at hx
    obtain ⟨hrecords, hnumbered⟩ := ih hx.1
    rw [foldVisits_append, List.map_append]
    exact ⟨hrecords.visited hnumbered hx.2.1 hx.2.2 x.2.1, hnumbered.visited hx.2.1 x.2.1⟩

/-- Each symbol of a table that trees were folded into stands for a declaration of one of them. -/
theorem exists_isAt_of_mem_symbols (hx : ∀ x ∈ xs, x.2.2.IsRanged ∧ x.2.2.kind = .rule .file)
    {symbol : Symbol} (h : symbol ∈ (foldVisits .empty xs).symbols) :
    ∃ x ∈ xs, ∃ place declaration, symbol.IsAt x.2.1 x.2.2 place declaration := by
  induction xs using List.reverseRecOn with
  | nil => cases h
  | append_singleton xs x ih =>
    have hglobals := (records_foldVisits hx).1.globals
    simp only [List.forall_mem_append, List.forall_mem_singleton] at hx
    obtain ⟨hrecords, hnumbered⟩ := records_foldVisits hx.1
    obtain ⟨⟨trail, scope⟩, hscope, hsymbol⟩ := List.mem_flatMap.1 h
    rw [foldVisits_append] at hscope hglobals
    change (trail, scope) ∈ ((foldVisits .empty xs).visited x.2.1 x.2.2).scopes at hscope
    rw [SymbolTable.scopes_visited, List.mem_cons, List.mem_append] at hscope
    rcases hscope with hroot | hold | hopened
    · obtain ⟨-, rfl⟩ := Prod.mk.inj hroot
      obtain ⟨declared, hdeclared, hnotes⟩ := hglobals.exists_notes hsymbol
      obtain ⟨⟨file, i⟩, hfile, hdeclared⟩ := List.mem_flatMap.1 hdeclared
      obtain ⟨d, hd, rfl⟩ := List.mem_map.1 hdeclared
      obtain ⟨y, hy, rfl⟩ := List.mem_map.1
        (List.mem_of_getElem? (List.mem_zipIdx_iff_getElem?.1 hfile))
      exact ⟨y, hy, d.1, d.2, List.mem_of_mem_filter hd, hnotes.standsFor⟩
    · have hsymbols : symbol ∈ (foldVisits .empty xs).symbols := by
        refine List.mem_flatMap.2 ⟨(trail, scope), ?_, hsymbol⟩
        rw [SymbolTable.scopes_eq]
        exact List.mem_cons_of_mem _ hold
      obtain ⟨y, hy, hat⟩ := ih hx.1 hsymbols
      exact ⟨y, List.mem_append_left _ hy, hat⟩
    · obtain ⟨place, -, -, howned⟩ :=
        hrecords.exists_owned_of_mem_opened hnumbered hx.2.1 hx.2.2 hopened
      obtain ⟨d, hd, hstands⟩ := howned symbol hsymbol
      exact ⟨x, List.mem_append_right _ (List.mem_singleton_self x), d.1, d.2,
        List.mem_of_mem_filter hd, hstands⟩

end Import

namespace Analysis

open Import

/-- The files that are folded for a document have addresses that lead back to them exactly if the
extension is verbatim, and each symbol that they bring into the table goes by the address of the
file that declares it. -/
theorem run_imported_addresses_iff {d : Disk} {settings : Settings} {p : Path} {source : String}
    {t : Tree} {a : Analysis} (hw : p.IsWellFormed) (ha : p.isAbsolute = true)
    (hd : p.hasDrive = false) (hn : ∀ m ∈ p.names, m ≠ "..")
    (hdot : settings.fileExtension.toList.head? = some '.')
    (hslash : '/' ∉ settings.fileExtension.toList) (ht : parse source = .ok t)
    (hrun : (run d settings (Uri.ofPath p) source).2 = .ok a) :
    ∃ files : List (Path × String × Tree),
      a.table = (foldVisits .empty files).visited (Uri.ofPath p) t ∧
      (∀ x ∈ files, load d x.1 = .ok x.2.2 ∧
        (Uri.toPath d.cwd x.2.1 = .ok x.1 ↔
          Uri.isVerbatim settings.fileExtension.toList = true)) ∧
      ∀ symbol ∈ (foldVisits .empty files).symbols, ∃ x ∈ files, ∃ place declaration location,
        symbol.IsAt x.2.1 x.2.2 place declaration ∧ symbol.location = some location ∧
        location.uri = x.2.1 := by
  obtain ⟨acts, s, h, rfl⟩ := exists_analyzes_of_run ht hrun
  have tame : Tame (optionsOf d settings) p := ⟨hw, ha, hd, hslash⟩
  cases h with
  | @intro q _ _ acts hq hr hv =>
    have hfolds := hr.folds (tame.placed ht) tame.parent rfl
    have hparent : ∀ m ∈ p.parent.names, m ≠ ".." := by
      intro m hm
      exact hn m (List.dropLast_subset _ hm)
    have hfile : ∀ x ∈ visits acts, x.2.2.IsRanged ∧ x.2.2.kind = .rule .file := by
      intro x hx
      obtain ⟨text, -, hparse⟩ := exists_text_of_load (hfolds.located x hx).load_eq
      exact ⟨(hfolds.located x hx).isRanged, (conforms_of_parse hparse).2.1⟩
    refine ⟨visits acts, ?_, ?_, ?_⟩
    · rw [(visited_of_visit (conforms_of_parse ht).1 hv).2, hfolds.table]
      rfl
    · intro x hx
      obtain ⟨names, stem, hstem, hlies⟩ := hr.exists_stem (tame.placed ht) tame.parent hparent hx
      exact ⟨(hfolds.located x hx).load_eq, hlies.toPath_eq_iff tame.parent hstem hdot d.cwd⟩
    · intro symbol hsymbol
      obtain ⟨x, hx, place, declaration, hat⟩ := exists_isAt_of_mem_symbols hfile hsymbol
      obtain ⟨location, hlocation⟩ := Option.isSome_iff_exists.1 hat.standsFor.isSome_location
      exact ⟨x, hx, place, declaration, location, hat, hlocation, (hat.exists_name hlocation).1⟩

/-- A percent sign that begins no escape and a letter that is not ASCII do no harm. -/
theorem run_imported_addresses_iff_accented :
    let d : Disk := ⟨⟨1, ["m"]⟩, [(["m"], .directory),
      (["m", "b.%4ö"], .file (Text.Utf8.encode "val x = 1".toList))]⟩
    let settings : Settings := { fileExtension := ".%4ö" }
    ∃ (a : Analysis) (x : Path × String × Tree),
      (run d settings (Uri.ofPath ⟨1, ["m", "c.%4ö"]⟩) "import b val y = x").2 = .ok a ∧
      a.table.globals = ["x", "y"] ∧ load d x.1 = .ok x.2.2 ∧ Uri.toPath d.cwd x.2.1 = .ok x.1 := by
  intro d settings
  obtain ⟨t, ht⟩ : ∃ t, parse "import b val y = x" = .ok t := ⟨_, rfl⟩
  obtain ⟨a, hrun, hvisits, hglobals⟩ : ∃ a,
      (run d settings (Uri.ofPath ⟨1, ["m", "c.%4ö"]⟩) "import b val y = x").2 = .ok a ∧
      a.table.visits = 2 ∧ a.table.globals = ["x", "y"] := by
    have hfound : ((run d settings (Uri.ofPath ⟨1, ["m", "c.%4ö"]⟩)
        "import b val y = x").2.toOption.map fun a => (a.table.visits, a.table.globals)) =
          some (2, ["x", "y"]) := by
      decide +kernel
    obtain ⟨a, hrun, hfacts⟩ := Option.map_eq_some_iff.1 hfound
    obtain ⟨hvisits, hglobals⟩ := Prod.mk.inj hfacts
    exact ⟨a, toOption_eq_some_iff.1 hrun, hvisits, hglobals⟩
  obtain ⟨files, htable, hfiles, -⟩ := run_imported_addresses_iff (p := ⟨1, ["m", "c.%4ö"]⟩)
    ⟨by decide, by decide⟩ rfl rfl (by decide) (by decide) (by decide) ht hrun
  cases files with
  | nil =>
    rw [htable] at hvisits
    cases hvisits
  | cons x files =>
    obtain ⟨hload, hiff⟩ := hfiles x List.mem_cons_self
    exact ⟨a, x, hrun, hglobals, hload, hiff.2 (by decide)⟩

/-- An escape in the extension is read, so the address of a symbol leads away from the file that
declares it, to one that is not there. -/
theorem run_imported_address_escaped :
    let d : Disk := ⟨⟨1, ["m"]⟩, [(["m"], .directory),
      (["m", "b.%41"], .file (Text.Utf8.encode "val x = 1".toList))]⟩
    let settings : Settings := { fileExtension := ".%41" }
    ((run d settings (Uri.ofPath ⟨1, ["m", "c.%41"]⟩) "import b val y = x").2.toOption.bind
      fun a => (a.definitionAt ⟨0, 17⟩).toOption.join.map (·.location.uri)) =
        some "file:///m/b.%41" ∧
    d.readText ⟨1, ["m", "b.%41"]⟩ = .ok "val x = 1" ∧
    Uri.toPath d.cwd "file:///m/b.%41" = .ok ⟨1, ["m", "b.A"]⟩ ∧
    d.exists? ⟨1, ["m", "b.A"]⟩ = .ok false := by
  decide +kernel

end Analysis

end Mykt
