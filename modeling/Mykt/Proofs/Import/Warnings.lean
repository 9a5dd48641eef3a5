import Mykt.Proofs.Import.Document
import Mykt.Proofs.Uri.Base

/-!
What is wrong with the imports of a document. Main statements: the headers of a document and of the
files folded for it are processed in one order, depth first; a run ends and warns of those headers
that name no file, a file that cannot be looked for, or for the first time a file that cannot be
loaded; so an analysis ends and its diagnostics are these warnings.
-/

namespace Mykt.Import

/-- A header that is processed: the address of the file that holds it, where it stands there, and
the path that it names. -/
structure Mention where
  uri : String
  header : Tree
  range : Range
  path : Path

/-- The files that have been reached once a header has named a path. -/
def reach (d : Disk) (seen : List Path) (p : Path) : List Path :=
  match d.exists? p with
  | .ok true => Path.normalize d.cwd p :: seen
  | _ => seen

/-- The tree of a file that is reached for the first time. -/
def opened? (d : Disk) (seen : List Path) (p : Path) : Option Tree :=
  match d.exists? p with
  | .ok true => if Path.normalize d.cwd p ∈ seen then none else (load d p).toOption
  | _ => none

/-- A file may be missing, or not to be looked for, or not to be loaded when it is first reached. -/
def failure? (d : Disk) (seen : List Path) (p : Path) : Option Failure :=
  match d.exists? p with
  | .error e => some (.unreadable p (.disk e))
  | .ok false => some (.notFound p)
  | .ok true =>
    if Path.normalize d.cwd p ∈ seen then none
    else
      match load d p with
      | .error c => some (.unreadable p c)
      | .ok _ => none

def reached (d : Disk) (seen : List Path) (ms : List Mention) : List Path :=
  ms.foldl (fun seen m => reach d seen m.path) seen

/-- A warning at the header. -/
def Mention.warning (m : Mention) (f : Failure) : Diagnostic where
  message := f.message
  code := some <| match f with
    | .notFound _ => "import-not-found"
    | .unreadable _ _ => "import-read-failure"
  phase := some "imports"
  severity := "warning"
  span := {
    file := some m.uri
    line := some m.range.start.line
    column := some m.range.start.character
    endLine := some m.range.stop.line
    endColumn := some m.range.stop.character }

/-- The warnings of headers in the order in which they are processed. -/
def warnings (d : Disk) : List Path → List Mention → List Diagnostic
  | _, [] => []
  | seen, m :: ms =>
    ((failure? d seen m.path).map m.warning).toList ++ warnings d (reach d seen m.path) ms

/-- Headers are processed in order, and those of a file that one of them opens before the next. -/
inductive Processes (o : Options) :
    List Path → String → Path → List Tree → List Mention → Prop where
  | nil {seen : List Path} {uri : String} {directory : Path} : Processes o seen uri directory [] []
  | pass {seen : List Path} {uri name : String} {directory p : Path} {range : Range} {h : Tree}
      {hs : List Tree} {ms : List Mention} (hn : h.importName = .ok name)
      (hr : h.range = .ok range) (hp : p = target directory (relativePath name o.extension))
      (ho : opened? o.disk seen p = none)
      (hrest : Processes o (reach o.disk seen p) uri directory hs ms) :
      Processes o seen uri directory (h :: hs) (⟨uri, h, range, p⟩ :: ms)
  | enter {seen : List Path} {uri name inner : String} {directory folder p : Path} {range : Range}
      {h t : Tree} {hs : List Tree} {ms rest : List Mention} (hn : h.importName = .ok name)
      (hr : h.range = .ok range) (hp : p = target directory (relativePath name o.extension))
      (ho : opened? o.disk seen p = some t)
      (hu : inner = Uri.base uri ++ relativePath name o.extension)
      (hd : Uri.toPath o.disk.cwd (Uri.base inner) = .ok folder)
      (hi : Processes o (reach o.disk seen p) inner folder
        (if o.transitive then t.importHeaders else []) ms)
      (hrest : Processes o (reached o.disk (reach o.disk seen p) ms) uri directory hs rest) :
      Processes o seen uri directory (h :: hs) (⟨uri, h, range, p⟩ :: (ms ++ rest))

section

variable {d : Disk} {o : Options} {seen : List Path} {uri : String} {directory p : Path}

theorem reached_append (d : Disk) (seen : List Path) (ms rest : List Mention) :
    reached d seen (ms ++ rest) = reached d (reached d seen ms) rest := by
  simp [reached]

theorem warnings_append (d : Disk) (seen : List Path) (ms rest : List Mention) :
    warnings d seen (ms ++ rest) = warnings d seen ms ++ warnings d (reached d seen ms) rest := by
  induction ms generalizing seen with
  | nil => rfl
  | cons m ms ih => simp [warnings, ih, reached]

theorem Mention.warning_eq (m : Mention) (f : Failure) :
    m.warning f = f.diagnostic m.uri m.range := by
  cases f <;> rfl

/-- Headers are processed in one way. -/
theorem Processes.unique {hs : List Tree} {ms ms' : List Mention}
    (h : Processes o seen uri directory hs ms) (h' : Processes o seen uri directory hs ms') :
    ms' = ms := by
  induction h generalizing ms' with
  | nil =>
    cases h'
    rfl
  | pass hn hr hp ho _ ih =>
    subst hp
    cases h' with
    | pass hn' hr' hp' ho' hrest =>
      cases hn.symm.trans hn'
      cases hr.symm.trans hr'
      subst hp'
      rw [ih hrest]
    | enter hn' hr' hp' ho' =>
      cases hn.symm.trans hn'
      subst hp'
      cases ho.symm.trans ho'
  | enter hn hr hp ho hu hd _ _ ihi ih =>
    subst hp hu
    cases h' with
    | pass hn' hr' hp' ho' =>
      cases hn.symm.trans hn'
      subst hp'
      cases ho.symm.trans ho'
    | enter hn' hr' hp' ho' hu' hd' hi hrest =>
      cases hn.symm.trans hn'
      cases hr.symm.trans hr'
      subst hp' hu'
      cases ho.symm.trans ho'
      cases hd.symm.trans hd'
      cases ihi hi
      rw [ih hrest]

theorem Processes.cons {h : Tree} {hs : List Tree} {ms rest : List Mention}
    (hfirst : Processes o seen uri directory [h] ms)
    (hrest : Processes o (reached o.disk seen ms) uri directory hs rest) :
    Processes o seen uri directory (h :: hs) (ms ++ rest) := by
  cases hfirst with
  | pass hn hr hp ho hnil =>
    cases hnil
    exact .pass hn hr hp ho hrest
  | enter hn hr hp ho hu hd hi hnil =>
    cases hnil
    rw [List.append_nil] at hrest ⊢
    exact .enter hn hr hp ho hu hd hi hrest

end

def Found.failure? : Found → Option Failure
  | .failed f => some f
  | _ => none

def Found.tree? : Found → Option Tree
  | .loaded t => some t
  | _ => none

/-- What a look-up finds is told by the files that have been reached. -/
theorem Looks.tells {d : Disk} {p : Path} {s s' : Session} {acts : List Act} {found : Found}
    {seen : List Path} (h : Looks d p s acts found s') (hv : ∀ k, k ∈ seen ↔ k ∈ s.visited) :
    Import.failure? d seen p = found.failure? ∧ opened? d seen p = found.tree? ∧
      (∀ k, k ∈ reach d seen p ↔ k ∈ s'.visited) ∧ s'.diagnostics = s.diagnostics := by
  cases h with
  | unknown h | missing h =>
    simp [Import.failure?, opened?, reach, h, Found.failure?, Found.tree?, hv]
  | skipped h hk =>
    have hseen := (hv _).2 hk
    refine ⟨by simp [Import.failure?, h, hseen, Found.failure?],
      by simp [opened?, h, hseen, Found.tree?], ?_, rfl⟩
    intro k
    simp only [reach, h, List.mem_cons, hv]
    refine or_iff_right_of_imp ?_
    rintro rfl
    exact hk
  | broken h hk hl | loaded h hk hl =>
    have hseen := mt (hv _).1 hk
    refine ⟨by simp [Import.failure?, h, hseen, hl, Found.failure?],
      by simp [opened?, h, hseen, hl, Found.tree?, Except.toOption], ?_, rfl⟩
    intro k
    simp [reach, h, Session.note, hv]

namespace Job

def uri : Job → String
  | .document _ uri => uri
  | .headers uri _ _ => uri
  | .header uri _ _ => uri
  | .loaded _ uri _ => uri

/-- The headers that a job processes. -/
def Mentions (o : Options) (seen : List Path) (ms : List Mention) : Job → Prop
  | .document hs uri => ∃ directory, Uri.toPath o.disk.cwd (Uri.base uri) = .ok directory ∧
      Processes o seen uri directory hs ms
  | .headers uri directory hs => Processes o seen uri directory hs ms
  | .header uri directory h => Processes o seen uri directory [h] ms
  | .loaded _ uri t => ∃ directory, Uri.toPath o.disk.cwd (Uri.base uri) = .ok directory ∧
      Processes o seen uri directory (if o.transitive then t.importHeaders else []) ms

/-- A job at an address below a base, whose headers have names and ranges. -/
structure IsBased (o : Options) (home : String) (j : Job) : Prop where
  base : ∃ names : List String, (∀ m ∈ names, Lexer.IsIdentifier m.toList) ∧
    Uri.base j.uri = home ++ String.ofList (Path.slashed names)
  headers : ∀ h ∈ j.given, IsHeader h ∧ ∃ r, h.range = .ok r
  loaded : j.IsLoaded o.disk

end Job

/-- A base that leads to a directory, and what the files and the addresses below it need. -/
structure IsHome (o : Options) (home : String) : Prop where
  isBase : Uri.IsBase home
  leads : ∃ p, Uri.toPath o.disk.cwd home = .ok p
  isShort : IsShort o.disk
  extension : '/' ∉ o.extension.toList

section

variable {o : Options} {home : String}

theorem IsHome.exists_directory {j : Job} (ho : IsHome o home) (hj : j.IsBased o home) :
    ∃ directory, Uri.toPath o.disk.cwd (Uri.base j.uri) = .ok directory := by
  obtain ⟨p, hp⟩ := ho.leads
  obtain ⟨names, hn, hb⟩ := hj.base
  rw [hb]
  exact ho.isBase.exists_toPath hp hn

/-- The address of an imported file is below the base as well. -/
theorem IsHome.isBased_loaded {uri : String} {directory p : Path} {h t : Tree}
    (ho : IsHome o home) (hj : (Job.header uri directory h).IsBased o home)
    (hl : load o.disk p = .ok t) :
    (Job.loaded p (Uri.base uri ++ relativePath (".".intercalate h.importParts) o.extension)
      t).IsBased o home := by
  obtain ⟨names, hn, hb⟩ := hj.base
  have hh := (hj.headers h (List.mem_singleton_self h)).1
  obtain ⟨init, last, hparts⟩ := exists_init_last hh.parts_ne_nil
  have hid := hh.isIdentifier
  rw [hparts] at hid
  refine ⟨⟨names ++ init, ?_, ?_⟩, by simp [Job.given], hl⟩
  · intro m hm
    rcases List.mem_append.1 hm with hm | hm
    · exact hn m hm
    · exact hid m (by simp [hm])
  · have hlast := (isComponent_append (hid last (by simp)) ho.extension).1.2
    have hdirectories := ho.isBase.append_slashed (names ++ init)
    have hwritten : Uri.base uri ++ relativePath (".".intercalate h.importParts) o.extension =
        home ++ String.ofList (Path.slashed (names ++ init)) ++ (last ++ o.extension) := by
      change Uri.base uri = _ at hb
      rw [hb, hparts, relativePath_eq hid (by simp), withExtension, List.dropLast_concat,
        List.getLast?_concat, Option.getD_some, Path.intercalate_concat, Path.slashed_append,
        String.ofList_append]
      simp only [String.append_assoc]
    change Uri.base (Uri.base uri ++ _) = _
    rw [hwritten]
    exact hdirectories.base_append hlast

/-- The headers of a loaded file are below the base. -/
theorem IsHome.isBased_document {uri : String} {p : Path} {t : Tree} (ho : IsHome o home)
    (hj : (Job.loaded p uri t).IsBased o home) :
    (Job.document t.importHeaders uri).IsBased o home := by
  refine ⟨hj.base, ?_, trivial⟩
  intro h hm
  exact ⟨isHeader_of_load hj.loaded h hm, ho.isShort.exists_range hj.loaded h hm⟩

theorem session_of_visit {uri : String} {t : Tree} {s s' : Session}
    (h : Session.visit uri t s = .ok () s') :
    s'.diagnostics = s.diagnostics ∧ s'.visited = s.visited := by
  unfold Session.visit at h
  split at h
  · cases h
    exact ⟨rfl, rfl⟩
  · cases h

/-- A run that ends and warns of the headers that a job processes. -/
structure Warns (o : Options) (j : Job) (seen : List Path) (s : Session) (r : Outcome)
    (ms : List Mention) : Prop where
  mentions : j.Mentions o seen ms
  ends : ∃ s', r = .ok () s'
  diagnostics : r.session.diagnostics = s.diagnostics ++ warnings o.disk seen ms
  visited : ∀ k, k ∈ reached o.disk seen ms ↔ k ∈ r.session.visited

/-- A header that opens no file, with the warning that it leads to. -/
theorem exists_warns_of_looks {uri name : String} {directory : Path} {h : Tree} {range : Range}
    {seen : List Path} {s s' s'' : Session} {acts : List Act} {found : Found}
    (hn : h.importName = .ok name) (hr : h.range = .ok range)
    (hl : Looks o.disk (target directory (relativePath name o.extension)) s acts found s')
    (hv : ∀ k, k ∈ seen ↔ k ∈ s.visited) (ht : found.tree? = none)
    (hvisited : s''.visited = s'.visited)
    (hdiagnostics : s''.diagnostics = s'.diagnostics ++
      (found.failure?.map fun f => f.diagnostic uri range).toList) :
    ∃ ms, Warns o (.header uri directory h) seen s (.ok () s'') ms := by
  obtain ⟨hfailure, hopened, hreach, hkept⟩ := hl.tells hv
  refine ⟨[⟨uri, h, range, _⟩], .pass hn hr rfl (hopened.trans ht) .nil, ⟨s'', rfl⟩, ?_, ?_⟩
  · change s''.diagnostics = _
    rw [hdiagnostics, hkept, warnings, hfailure, warnings, List.append_nil]
    cases found.failure? with
    | none => rfl
    | some f => simp [Mention.warning_eq]
  · intro k
    rw [← hvisited] at hreach
    exact hreach k

/-- A file is visited behind its imports. -/
theorem Warns.of_visit {uri : String} {p : Path} {t : Tree} {seen : List Path} {s s' s'' : Session}
    {ms : List Mention} (hm : (Job.loaded p uri t).Mentions o seen ms)
    (hd : s'.diagnostics = s.diagnostics ++ warnings o.disk seen ms)
    (hv : ∀ k, k ∈ reached o.disk seen ms ↔ k ∈ s'.visited)
    (h : Session.visit uri t s' = .ok () s'') :
    Warns o (.loaded p uri t) seen s (Session.visit uri t s') ms := by
  obtain ⟨hdiagnostics, hvisited⟩ := session_of_visit h
  rw [h]
  refine ⟨hm, ⟨s'', rfl⟩, hdiagnostics.trans hd, ?_⟩
  intro k
  rw [hv]
  change _ ↔ k ∈ s''.visited
  rw [hvisited]

/-- Below a base that leads to a directory every run ends, and warns of the headers processed. -/
theorem Runs.warns {j : Job} {s : Session} {acts : List Act} {r : Outcome} {seen : List Path}
    (h : Runs o j s acts r) (ho : IsHome o home) (hj : j.IsBased o home)
    (hv : ∀ k, k ∈ seen ↔ k ∈ s.visited) : ∃ ms, Warns o j seen s r ms := by
  induction h generalizing seen with
  | homeless h =>
    obtain ⟨directory, hd⟩ := ho.exists_directory hj
    cases h.symm.trans hd
  | document h _ ih =>
    obtain ⟨ms, hw⟩ := ih ⟨hj.base, hj.headers, trivial⟩ hv
    exact ⟨ms, ⟨_, h, hw.mentions⟩, hw.ends, hw.diagnostics, hw.visited⟩
  | done => exact ⟨[], .nil, ⟨_, rfl⟩, by simp [warnings, Outcome.session], hv⟩
  | stop _ ih =>
    have hheader := hj.headers _ List.mem_cons_self
    obtain ⟨ms, hw⟩ := ih ⟨hj.base, by simpa [Job.given] using hheader, trivial⟩ hv
    obtain ⟨s', he⟩ := hw.ends
    cases he
  | next _ _ ih ihs =>
    have hheaders := hj.headers
    simp only [Job.given, List.mem_cons, forall_eq_or_imp] at hheaders
    obtain ⟨ms, hw⟩ := ih ⟨hj.base, by simpa [Job.given] using hheaders.1, trivial⟩ hv
    obtain ⟨rest, hws⟩ := ihs ⟨hj.base, hheaders.2, trivial⟩ hw.visited
    refine ⟨ms ++ rest, hw.mentions.cons hws.mentions, hws.ends, ?_, ?_⟩
    · rw [hws.diagnostics, warnings_append, ← List.append_assoc]
      exact congrArg (· ++ _) hw.diagnostics
    · rw [reached_append]
      exact hws.visited
  | unnamed hn =>
    have hheader := (hj.headers _ (List.mem_singleton_self _)).1
    cases hn.symm.trans hheader.importName
  | failed hn hl =>
    obtain ⟨range, hr⟩ := (hj.headers _ (List.mem_singleton_self _)).2
    rw [report_of_ok hr]
    exact exists_warns_of_looks hn hr hl hv rfl rfl rfl
  | skipped hn hl =>
    obtain ⟨range, hr⟩ := (hj.headers _ (List.mem_singleton_self _)).2
    exact exists_warns_of_looks hn hr hl hv rfl rfl (List.append_nil _).symm
  | @loaded uri directory _ _ _ _ _ _ _ _ hn hl _ ih =>
    obtain ⟨hheader, range, hr⟩ := hj.headers _ (List.mem_singleton_self _)
    cases hn.symm.trans hheader.importName
    obtain ⟨hfailure, hopened, hreach, hkept⟩ := hl.tells hv
    obtain ⟨ms, hw⟩ := ih (ho.isBased_loaded hj hl.load_eq) hreach
    obtain ⟨folder, hfolder, hinner⟩ := hw.mentions
    have hmentions : Processes o seen uri directory [_] _ :=
      .enter hn hr rfl hopened rfl hfolder hinner .nil
    refine ⟨_, hmentions, hw.ends, ?_, ?_⟩
    · rw [List.append_nil, hw.diagnostics, hkept, warnings, hfailure]
      rfl
    · rw [List.append_nil]
      exact hw.visited
  | alone ht =>
    obtain ⟨directory, hd⟩ := ho.exists_directory hj
    obtain ⟨s', hvisit⟩ := exists_visit (ho.isShort.isRanged hj.loaded) _ _
    refine ⟨[], .of_visit ⟨directory, hd, ?_⟩ (List.append_nil _).symm hv hvisit⟩
    rw [if_neg (by simp [ht])]
    exact .nil
  | broken _ _ ih =>
    obtain ⟨ms, hw⟩ := ih (ho.isBased_document hj) hv
    obtain ⟨s', he⟩ := hw.ends
    cases he
  | after ht _ ih =>
    obtain ⟨ms, hw⟩ := ih (ho.isBased_document hj) hv
    obtain ⟨directory, hd, hms⟩ := hw.mentions
    obtain ⟨s', hvisit⟩ := exists_visit (ho.isShort.isRanged hj.loaded) _ _
    refine ⟨ms, .of_visit ⟨directory, hd, ?_⟩ hw.diagnostics hw.visited hvisit⟩
    rw [if_pos ht]
    exact hms

end

end Mykt.Import

namespace Mykt

open Import in
/-- The analysis of a text that is read ends, and its diagnostics are the warnings of the headers
processed. -/
theorem Analysis.run_warns {d : Disk} {settings : Settings} {uri source : String} {t : Tree}
    {p directory : Path} (ht : parse source = .ok t) (hs : source.length ≤ Position.limit)
    (hd : IsShort d) (hp : Uri.toPath d.cwd uri = .ok p)
    (hb : Uri.toPath d.cwd (Uri.base uri) = .ok directory)
    (he : '/' ∉ settings.fileExtension.toList) :
    let seen := [Path.normalize d.cwd p]
    ∃ a ms, (run d settings uri source).2 = .ok a ∧
      Processes (optionsOf d settings) seen uri directory t.importHeaders ms ∧
      (∀ ms', Processes (optionsOf d settings) seen uri directory t.importHeaders ms' → ms' = ms) ∧
      a.diagnostics = warnings d seen ms := by
  intro seen
  let o := optionsOf d settings
  have ho : IsHome o (Uri.base uri) := ⟨Uri.isBase_base uri, ⟨directory, hb⟩, hd, he⟩
  have hj : (Job.document t.importHeaders uri).IsBased o (Uri.base uri) := by
    refine ⟨⟨[], by simp, by simp [Job.uri]⟩, ?_, trivial⟩
    intro h hm
    exact ⟨isHeader_of_parse ht hm, exists_range_of_mem_importHeaders ht hs hm⟩
  obtain ⟨acts, hr⟩ := exists_runs o t.importHeaders uri
    (Session.start.note (Path.normalize d.cwd p))
  have hv : ∀ k, k ∈ seen ↔ k ∈ (Session.start.note (Path.normalize d.cwd p)).visited :=
    fun _ => Iff.rfl
  obtain ⟨ms, hw⟩ := hr.warns ho hj hv
  obtain ⟨s, hends⟩ := hw.ends
  obtain ⟨s', hvisit⟩ := exists_visit (Tree.isRanged_of_parse ht hs) uri s
  obtain ⟨directory', hb', hms⟩ := hw.mentions
  cases hb.symm.trans hb'
  have hdiagnostics := hw.diagnostics
  rw [hends] at hr hdiagnostics
  refine ⟨_, ms, run_of_analyzes ht (.intro hp hr hvisit), hms, fun ms' h' => hms.unique h', ?_⟩
  exact (session_of_visit hvisit).1.trans hdiagnostics

open Import in
/-- A file that cannot be read is warned of where it is first named, here in an imported file; a
directory is no file; a missing file is warned of wherever it is named. -/
theorem Analysis.run_warns_nested :
    let d : Disk := ⟨⟨1, ["m"]⟩, [(["m"], .directory), (["m", "c.mykt"], .directory),
      (["m", "a.mykt"], .file (Text.Utf8.encode "import b import x".toList)),
      (["m", "b.mykt"], .file (Text.Utf8.encode "val".toList))]⟩
    ∃ t a ms, parse "import a import b import c import x" = .ok t ∧
      (run d {} "file:///m/d.mykt" "import a import b import c import x").2 = .ok a ∧
      Processes (optionsOf d {}) [⟨1, ["m", "d.mykt"]⟩] "file:///m/d.mykt" ⟨1, ["m"]⟩
        t.importHeaders ms ∧
      a.diagnostics = warnings d [⟨1, ["m", "d.mykt"]⟩] ms ∧
      a.diagnostics.map (fun x => (x.code, x.span.file)) =
        [(some "import-read-failure", some "file:///m/a.mykt"),
          (some "import-not-found", some "file:///m/a.mykt"),
          (some "import-read-failure", some "file:///m/d.mykt"),
          (some "import-not-found", some "file:///m/d.mykt")] := by
  intro d
  obtain ⟨t, ht⟩ : ∃ t, parse "import a import b import c import x" = .ok t := ⟨_, rfl⟩
  have hpath : Uri.toPath d.cwd "file:///m/d.mykt" = .ok ⟨1, ["m", "d.mykt"]⟩ := by decide +kernel
  have hbase : Uri.toPath d.cwd (Uri.base "file:///m/d.mykt") = .ok ⟨1, ["m"]⟩ := by decide +kernel
  obtain ⟨a, ms, hrun, hms, -, hdiagnostics⟩ := @run_warns d {} "file:///m/d.mykt" _ t _ _ ht
    (by decide) (isShort_of_hasShortFiles (by decide)) hpath hbase (by decide)
  have hcomputed :
      ((run d {} "file:///m/d.mykt" "import a import b import c import x").2.toOption.map
        fun a => a.diagnostics.map fun x => (x.code, x.span.file)) =
        some [(some "import-read-failure", some "file:///m/a.mykt"),
          (some "import-not-found", some "file:///m/a.mykt"),
          (some "import-read-failure", some "file:///m/d.mykt"),
          (some "import-not-found", some "file:///m/d.mykt")] := by
    decide +kernel
  rw [hrun] at hcomputed
  exact ⟨t, a, ms, ht, hrun, hms, hdiagnostics, Option.some.inj hcomputed⟩

end Mykt
