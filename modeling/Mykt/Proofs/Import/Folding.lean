import Mykt.Proofs.Import.Run
import Mykt.Proofs.Import.Target

/-!
What a run folds. Main statements: a run that succeeds folds the trees that it loads; below a
directory whose address is known, each tree that a run visits was loaded from a path below the
directory and is visited under the address of that path; if all texts are short, every run succeeds.
-/

namespace Mykt

namespace Import

/-- The files that a file imports, in the order of its headers. -/
def imports (extension : String) (file : Path) (t : Tree) : List Path :=
  t.importHeaders.map fun h => file.parent.below (withExtension h.importParts extension)

/-- The trees that are visited, with their paths and addresses. -/
def visits (acts : List Act) : List (Path × String × Tree) :=
  acts.filterMap fun
    | .visit p uri t => some (p, uri, t)
    | _ => none

@[simp] theorem visits_append (xs ys : List Act) : visits (xs ++ ys) = visits xs ++ visits ys := by
  simp [visits]

@[simp] theorem visits_visit (p : Path) (uri : String) (t : Tree) :
    visits [.visit p uri t] = [(p, uri, t)] := rfl

/-- The table after visits. -/
def foldVisits (table : SymbolTable) (xs : List (Path × String × Tree)) : SymbolTable :=
  xs.foldl (fun table x => table.visited x.2.1 x.2.2) table

theorem foldVisits_append (table : SymbolTable) (xs ys : List (Path × String × Tree)) :
    foldVisits table (xs ++ ys) = foldVisits (foldVisits table xs) ys := by
  simp [foldVisits]

/-- What makes the address of a path and the addresses below it lead back to the paths. -/
structure Tame (o : Options) (p : Path) : Prop where
  isWellFormed : p.IsWellFormed
  isAbsolute : p.isAbsolute = true
  hasDrive : p.hasDrive = false
  extension : '/' ∉ o.extension.toList

/-- A file below a directory and its address. All names but the last are identifiers. -/
structure Lies (o : Options) (home p : Path) (uri : String) (names : List String) (n : String) :
    Prop where
  path : p = home.below (names ++ [n])
  uri : uri = Uri.ofFolder home ++ "/".intercalate (names ++ [n])
  directories : ∀ m ∈ names, Lexer.IsIdentifier m.toList
  isComponent : Path.IsComponent n ∧ n ≠ ".."
  plain : ∀ c ∈ n.toList, Uri.isPlain c = true ∨ c ∈ o.extension.toList

/-- A job that stands below a directory, with the files that its headers name. -/
inductive Placed (o : Options) (home : Path) : Job → List Path → Prop where
  | document {hs : List Tree} {uri : String} {names : List String}
      (hn : ∀ m ∈ names, Lexer.IsIdentifier m.toList)
      (hb : Uri.base uri = Uri.ofFolder (home.below names)) (hh : ∀ h ∈ hs, IsHeader h) :
      Placed o home (.document hs uri)
        (hs.map fun h => (home.below names).below (withExtension h.importParts o.extension))
  | headers {hs : List Tree} {uri : String} {names : List String}
      (hn : ∀ m ∈ names, Lexer.IsIdentifier m.toList)
      (hb : Uri.base uri = Uri.ofFolder (home.below names)) (hh : ∀ h ∈ hs, IsHeader h) :
      Placed o home (.headers uri (home.below names) hs)
        (hs.map fun h => (home.below names).below (withExtension h.importParts o.extension))
  | header {h : Tree} {uri : String} {names : List String}
      (hn : ∀ m ∈ names, Lexer.IsIdentifier m.toList)
      (hb : Uri.base uri = Uri.ofFolder (home.below names)) (hh : IsHeader h) :
      Placed o home (.header uri (home.below names) h)
        [(home.below names).below (withExtension h.importParts o.extension)]
  | loaded {p : Path} {uri n : String} {t : Tree} {names : List String}
      (hl : Lies o home p uri names n) (ht : load o.disk p = .ok t) :
      Placed o home (.loaded p uri t) (if o.transitive then imports o.extension p t else [])

section

variable {o : Options} {home p : Path} {uri n : String} {t : Tree} {names : List String}

theorem exists_text_of_load {d : Disk} (h : load d p = .ok t) :
    ∃ text, d.readText p = .ok text ∧ parse text = .ok t := by
  unfold load at h
  split at h
  · cases h
  · next text hr =>
    cases hp : parse text with
    | error e => simp [hp, Except.mapError] at h
    | ok t' =>
      obtain rfl : t' = t := by simpa [hp, Except.mapError] using h
      exact ⟨text, hr, hp⟩

theorem isHeader_of_load {d : Disk} (h : load d p = .ok t) : ∀ h ∈ t.importHeaders, IsHeader h := by
  obtain ⟨text, -, hp⟩ := exists_text_of_load h
  intro header hm
  exact isHeader_of_parse hp hm

theorem hasDrive_below (hd : home.hasDrive = false)
    (hn : ∀ m ∈ names, Lexer.IsIdentifier m.toList) : (home.below names).hasDrive = false := by
  unfold Path.hasDrive at hd ⊢
  cases hh : home.names with
  | cons x xs =>
    rw [hh] at hd
    simpa [Path.below, hh] using hd
  | nil =>
    cases names with
    | nil => simp [Path.below, hh]
    | cons m ms =>
      have hcolon := notMem_of_isIdentifier (hn m (by simp)) (c := ':') rfl
      simp only [Path.below, hh, List.nil_append, List.head?_cons, Option.map_some]
      split
      · next he =>
        rw [Option.some.inj he] at hcolon
        simp at hcolon
      · rfl

theorem isPlain_of_isIdentifier {m : String} (h : Lexer.IsIdentifier m.toList) :
    ∀ c ∈ m.toList, Uri.isPlain c = true := by
  intro c hc
  exact isPlain_of_isNamePart (Lexer.isNamePart_of_isIdentifier h hc)

theorem isPlain_of_mem_slashed (h : ∀ m ∈ names, Lexer.IsIdentifier m.toList) :
    ∀ c ∈ Path.slashed names, Uri.isPlain c = true := by
  intro c hc
  obtain ⟨m, hm, hc⟩ := List.mem_flatMap.1 hc
  rcases List.mem_append.1 hc with hc | hc
  · exact isPlain_of_isIdentifier (h m hm) c hc
  · obtain rfl := List.mem_singleton.1 hc
    rfl

theorem isComponent_of_isIdentifier {m : String} (h : Lexer.IsIdentifier m.toList) :
    Path.IsComponent m := by
  have := isComponent_append (t := "") h (by simp)
  simpa using this.1

/-- The address of a directory leads back to it. -/
theorem Tame.toPath_base (ho : Tame o home) (hn : ∀ m ∈ names, Lexer.IsIdentifier m.toList)
    (hb : Uri.base uri = Uri.ofFolder (home.below names)) (cwd : Path) :
    Uri.toPath cwd (Uri.base uri) = .ok (home.below names) := by
  have hw : (home.below names).IsWellFormed :=
    Path.isWellFormed_below ho.isWellFormed fun m hm => isComponent_of_isIdentifier (hn m hm)
  have h := Uri.toPath_ofFolder_append (s := "") hw ho.isAbsolute (hasDrive_below ho.hasDrive hn)
    (by simp) (by simp) cwd
  have hparts : Path.parts "".toList = [] := by decide
  rw [String.append_empty, hparts, List.append_nil] at h
  rw [hb]
  exact h

theorem ofFolder_below (home : Path) (hn : ∀ m ∈ names, Lexer.IsIdentifier m.toList) :
    Uri.ofFolder (home.below names) = Uri.ofFolder home ++ String.ofList (Path.slashed names) :=
  (Uri.ofFolder_append_slashed home fun m hm => isPlain_of_isIdentifier (hn m hm)).symm

theorem Lies.base_eq (h : Lies o home p uri names n) (ho : Tame o home) :
    Uri.base uri = Uri.ofFolder (home.below names) := by
  obtain ⟨xs, hx⟩ := Uri.exists_toList_ofFolder (p := home.below names) ho.isAbsolute
  rw [h.uri, Path.intercalate_concat, ← String.append_assoc, ← ofFolder_below home h.directories]
  exact Uri.base_append hx h.isComponent.1.2

/-- The file that a header names and its address. -/
theorem Tame.exists_lies (ho : Tame o home) (hn : ∀ m ∈ names, Lexer.IsIdentifier m.toList)
    (hb : Uri.base uri = Uri.ofFolder (home.below names)) {h : Tree} (hh : IsHeader h) :
    ∃ names' n', Lies o home ((home.below names).below (withExtension h.importParts o.extension))
      (Uri.base uri ++ relativePath (".".intercalate h.importParts) o.extension) names' n' := by
  obtain ⟨init, last, hp⟩ := exists_init_last hh.parts_ne_nil
  have hid := hh.isIdentifier
  rw [hp] at hid
  have hinit : ∀ m ∈ init, Lexer.IsIdentifier m.toList := by
    intro m hm
    exact hid m (by simp [hm])
  have hw : withExtension (init ++ [last]) o.extension = init ++ [last ++ o.extension] := by
    simp [withExtension]
  refine ⟨names ++ init, last ++ o.extension, ?_⟩
  rw [hp, relativePath_eq hid (by simp), hw]
  exact {
    path := by rw [Path.below_below, List.append_assoc]
    uri := by
      rw [hb, ofFolder_below home hn, Path.intercalate_concat, Path.intercalate_concat,
        Path.slashed_append, String.ofList_append]
      simp only [String.append_assoc]
    directories := fun m hm => (List.mem_append.1 hm).elim (hn m) (hinit m)
    isComponent := isComponent_append (hid last (by simp)) ho.extension
    plain := fun c hc => by
      rw [String.toList_append] at hc
      exact (List.mem_append.1 hc).imp (isPlain_of_isIdentifier (hid last (by simp)) c) id }

theorem table_of_report {f : Failure} {h : Tree} {s s' : Session}
    (hr : report f uri h s = .ok () s') : s'.fold.table = s.fold.table := by
  cases hh : h.range with
  | error e => cases (report_of_error hh uri s).symm.trans hr
  | ok r =>
    cases (report_of_ok hh uri s).symm.trans hr
    rfl

theorem exists_report {f : Failure} {h : Tree} (hh : ∃ r, h.range = .ok r) (uri : String)
    (s : Session) : ∃ s', report f uri h s = .ok () s' := by
  obtain ⟨r, hr⟩ := hh
  exact ⟨_, report_of_ok hr uri s⟩

theorem Looks.table_eq {d : Disk} {s s' : Session} {acts : List Act} {found : Found}
    (h : Looks d p s acts found s') : s'.fold.table = s.fold.table ∧ visits acts = [] := by
  cases h <;> exact ⟨rfl, rfl⟩

theorem Looks.load_eq {d : Disk} {s s' : Session} {acts : List Act}
    (h : Looks d p s acts (.loaded t) s') : load d p = .ok t := by
  cases h with
  | loaded _ _ hl => exact hl

theorem visited_of_visit {s s' : Session} (ht : t.Conforms)
    (h : Session.visit uri t s = .ok () s') :
    t.IsRanged ∧ s'.fold.table = s.fold.table.visited uri t := by
  unfold Session.visit at h
  split at h
  · next f hv =>
    cases h
    exact SymbolTable.visited_of_visit_eq_ok ht hv
  · cases h

theorem exists_visit (ht : t.IsRanged) (uri : String) (s : Session) :
    ∃ s', Session.visit uri t s = .ok () s' := by
  obtain ⟨f, hv, -⟩ := SymbolTable.visit_eq_visited ht uri s.fold
  exact ⟨{ s with fold := f }, by simp [Session.visit, hv]⟩

/-- A tree that was loaded from a file and has the ranges that its declarations need. -/
structure Loaded (o : Options) (x : Path × String × Tree) : Prop where
  load_eq : load o.disk x.1 = .ok x.2.2
  isRanged : x.2.2.IsRanged

/-- A tree that was loaded from a file below a directory and goes by the address of the file. -/
structure Located (o : Options) (home : Path) (x : Path × String × Tree) : Prop where
  load_eq : load o.disk x.1 = .ok x.2.2
  isRanged : x.2.2.IsRanged
  lies : ∃ names n, Lies o home x.1 x.2.1 names n

theorem Located.loaded {x : Path × String × Tree} (h : Located o home x) : Loaded o x :=
  ⟨h.load_eq, h.isRanged⟩

/-- A run whose visited trees were loaded and are folded in their order. -/
structure Loads (o : Options) (s : Session) (acts : List Act) (s' : Session) : Prop where
  table : s'.fold.table = foldVisits s.fold.table (visits acts)
  loaded : ∀ x ∈ visits acts, Loaded o x

/-- A run whose visited trees are located and folded in their order. -/
structure Folds (o : Options) (home : Path) (s : Session) (acts : List Act) (s' : Session) :
    Prop where
  table : s'.fold.table = foldVisits s.fold.table (visits acts)
  located : ∀ x ∈ visits acts, Located o home x

namespace Loads

variable {s s' s'' : Session} {acts rest : List Act}

theorem of_silent (ht : s'.fold.table = s.fold.table) (hv : visits acts = []) :
    Loads o s acts s' where
  table := by rw [hv, ht]; rfl
  loaded := by simp [hv]

theorem append (h : Loads o s acts s') (h' : Loads o s' rest s'') :
    Loads o s (acts ++ rest) s'' where
  table := by rw [h'.table, h.table, visits_append, foldVisits_append]
  loaded x hx := by
    rw [visits_append] at hx
    exact (List.mem_append.1 hx).elim (h.loaded x) (h'.loaded x)

theorem of_visit (ht : load o.disk p = .ok t) (h : Session.visit uri t s = .ok () s') :
    Loads o s [.visit p uri t] s' := by
  obtain ⟨text, -, hp⟩ := exists_text_of_load ht
  obtain ⟨hranged, htable⟩ := visited_of_visit (conforms_of_parse hp).1 h
  refine ⟨htable, ?_⟩
  intro x hx
  obtain rfl := List.mem_singleton.1 hx
  exact ⟨ht, hranged⟩

end Loads

/-- A job whose tree, if it has one, was loaded from its path. -/
def Job.IsLoaded (d : Disk) : Job → Prop
  | .loaded p _ t => load d p = .ok t
  | _ => True

section

variable {j : Job} {s s' : Session} {acts : List Act} {r : Outcome} {todo : List Path}

theorem Placed.isLoaded (h : Placed o home j todo) : j.IsLoaded o.disk := by
  cases h with
  | document | headers | header => trivial
  | loaded _ ht => exact ht

/-- A run that succeeds folds loaded trees, wherever its document stands. -/
theorem Runs.loads (h : Runs o j s acts r) (hj : j.IsLoaded o.disk) (hr : r = .ok () s') :
    Loads o s acts s' := by
  induction h generalizing s' with
  | homeless | stop | unnamed | broken => cases hr
  | document _ _ ih => exact ih trivial hr
  | done =>
    cases hr
    exact .of_silent rfl rfl
  | next _ _ ih ihs =>
    have first := ih trivial rfl
    have rest := ihs trivial hr
    exact first.append rest
  | failed _ hl => exact .of_silent ((table_of_report hr).trans hl.table_eq.1) hl.table_eq.2
  | skipped _ hl =>
    cases hr
    exact .of_silent hl.table_eq.1 hl.table_eq.2
  | loaded _ hl _ ih =>
    have silent : Loads o _ _ _ := .of_silent hl.table_eq.1 hl.table_eq.2
    have inner := ih hl.load_eq hr
    exact silent.append inner
  | alone => exact .of_visit hj hr
  | after _ _ ih =>
    have before := ih trivial rfl
    exact before.append (.of_visit hj hr)

/-- Below a tame directory a run visits trees under the addresses of their paths. -/
theorem Runs.lies (h : Runs o j s acts r) (hj : Placed o home j todo) (ho : Tame o home) :
    ∀ x ∈ visits acts, ∃ names n, Lies o home x.1 x.2.1 names n := by
  induction h generalizing todo with
  | homeless | done | unnamed =>
    intro x hx
    cases hx
  | document h _ ih =>
    cases hj with
    | document hn hb hh =>
      cases h.symm.trans (ho.toPath_base hn hb _)
      exact ih (.headers hn hb hh)
  | stop _ ih =>
    cases hj with
    | headers hn hb hh => exact ih (.header hn hb (hh _ List.mem_cons_self))
  | next _ _ ih ihs =>
    cases hj with
    | headers hn hb hh =>
      simp only [List.mem_cons, forall_eq_or_imp] at hh
      rw [visits_append]
      exact List.forall_mem_append.2 ⟨ih (.header hn hb hh.1), ihs (.headers hn hb hh.2)⟩
  | failed _ hl | skipped _ hl =>
    rw [hl.table_eq.2]
    intro x hx
    cases hx
  | loaded hn hl _ ih =>
    cases hj with
    | header hd hb hh =>
      cases hn.symm.trans hh.importName
      obtain ⟨names', n', hlies⟩ := ho.exists_lies hd hb hh
      rw [target_eq hh.isIdentifier hh.parts_ne_nil ho.extension] at hl ih
      rw [visits_append, hl.table_eq.2, List.nil_append]
      exact ih (.loaded hlies hl.load_eq)
  | alone =>
    cases hj with
    | loaded hl _ =>
      intro x hx
      obtain rfl := List.mem_singleton.1 hx
      exact ⟨_, _, hl⟩
  | broken _ _ ih =>
    cases hj with
    | loaded hl ht =>
      exact ih (.document hl.directories (hl.base_eq ho) (isHeader_of_load ht))
  | after _ _ ih =>
    cases hj with
    | loaded hl ht =>
      rw [visits_append]
      refine List.forall_mem_append.2
        ⟨ih (.document hl.directories (hl.base_eq ho) (isHeader_of_load ht)), ?_⟩
      intro x hx
      obtain rfl := List.mem_singleton.1 hx
      exact ⟨_, _, hl⟩

/-- A run that succeeds below a tame directory folds located trees. -/
theorem Runs.folds (h : Runs o j s acts r) (hj : Placed o home j todo) (ho : Tame o home)
    (hr : r = .ok () s') : Folds o home s acts s' := by
  have hloads := h.loads hj.isLoaded hr
  refine ⟨hloads.table, ?_⟩
  intro x hx
  have hx' := hloads.loaded x hx
  exact ⟨hx'.load_eq, hx'.isRanged, h.lies hj ho x hx⟩

/-- The headers that a job is given. -/
def Job.given : Job → List Tree
  | .document hs _ => hs
  | .headers _ _ hs => hs
  | .header _ _ h => [h]
  | .loaded _ _ _ => []

/-- All texts have positions. -/
def IsShort (d : Disk) : Prop := ∀ p text, d.readText p = .ok text → text.length ≤ Position.limit

/-- The bytes of every file of a disk are few enough. -/
def hasShortFiles (d : Disk) : Bool :=
  d.entries.all fun
    | (_, .file bytes) => bytes.length ≤ Position.limit
    | (_, .directory) => true

theorem isShort_of_hasShortFiles {d : Disk} (h : hasShortFiles d = true) : IsShort d := by
  intro p text hr
  obtain ⟨-, bytes, ht, hm⟩ := Disk.readText_eq_ok hr
  have hb : bytes.length ≤ Position.limit := by simpa using List.all_eq_true.1 h _ hm
  have hl := Disk.length_textOf_le ht
  rw [String.length_toList] at hl
  omega

theorem IsShort.isRanged {d : Disk} (hd : IsShort d) (h : load d p = .ok t) : t.IsRanged := by
  obtain ⟨text, hr, hp⟩ := exists_text_of_load h
  exact Tree.isRanged_of_parse hp (hd p text hr)

theorem IsShort.exists_range {d : Disk} (hd : IsShort d) (h : load d p = .ok t) :
    ∀ h ∈ t.importHeaders, ∃ r, h.range = .ok r := by
  obtain ⟨text, hr, hp⟩ := exists_text_of_load h
  intro header hm
  exact exists_range_of_mem_importHeaders hp (hd p text hr) hm

/-- Where all texts are short, every run below a tame directory succeeds. -/
theorem Runs.succeeds (h : Runs o j s acts r) (hj : Placed o home j todo) (ho : Tame o home)
    (hd : IsShort o.disk) (hg : ∀ h ∈ j.given, ∃ r, h.range = .ok r) : ∃ s', r = .ok () s' := by
  induction h generalizing todo with
  | homeless h =>
    cases hj with
    | document hn hb _ => cases h.symm.trans (ho.toPath_base hn hb _)
  | document h _ ih =>
    cases hj with
    | document hn hb hh =>
      cases h.symm.trans (ho.toPath_base hn hb _)
      exact ih (.headers hn hb hh) hg
  | done | skipped => exact ⟨_, rfl⟩
  | stop _ ih =>
    cases hj with
    | headers hn hb hh =>
      simp only [Job.given, List.mem_cons, forall_eq_or_imp] at hg hh
      obtain ⟨s', he⟩ := ih (.header hn hb hh.1) (by simpa [Job.given] using hg.1)
      cases he
  | next _ _ _ ihs =>
    cases hj with
    | headers hn hb hh =>
      simp only [Job.given, List.mem_cons, forall_eq_or_imp] at hg hh
      exact ihs (.headers hn hb hh.2) hg.2
  | unnamed hn =>
    cases hj with
    | header _ _ hh => cases hn.symm.trans hh.importName
  | failed => exact exists_report (hg _ (by simp [Job.given])) _ _
  | loaded hn hl _ ih =>
    cases hj with
    | header hd hb hh =>
      cases hn.symm.trans hh.importName
      obtain ⟨names', n', hlies⟩ := ho.exists_lies hd hb hh
      rw [target_eq hh.isIdentifier hh.parts_ne_nil ho.extension] at hl ih
      exact ih (.loaded hlies hl.load_eq) (by simp [Job.given])
  | alone | after =>
    cases hj with
    | loaded _ ht => exact exists_visit (hd.isRanged ht) _ _
  | broken _ _ ih =>
    cases hj with
    | loaded hl ht =>
      obtain ⟨s', he⟩ := ih (.document hl.directories (hl.base_eq ho) (isHeader_of_load ht))
        (hd.exists_range ht)
      cases he

end

end

end Import

end Mykt
