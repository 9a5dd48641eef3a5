import Mykt.Proofs.Import.Document

/-!
Where imports lead. A job consults a path when it looks an import up there; what it consults next
depends on what was found. Main statements: a job reads only paths that it consults, and on another
disk that answers alike at these paths it ends in the same way; the paths consulted for a document
at a known address lie below the directory of the document, named by identifiers; the base of the
address of an import leads to the directory of its path.
-/

namespace Mykt

/-- One path is strictly below another. -/
def Path.IsBelow (q p : Path) : Prop := ∃ names, names ≠ [] ∧ q = p.below names

namespace Import

/-- A path that a job looks an import up at, with the address of the import. -/
inductive Consults (o : Options) : Job → Session → Path → String → Prop where
  | document {hs : List Tree} {uri u : String} {s : Session} {directory q : Path}
      (h : Uri.toPath o.disk.cwd (Uri.base uri) = .ok directory)
      (hc : Consults o (.headers uri directory hs) s q u) : Consults o (.document hs uri) s q u
  | first {uri u : String} {directory q : Path} {h : Tree} {hs : List Tree} {s : Session}
      (hc : Consults o (.header uri directory h) s q u) :
      Consults o (.headers uri directory (h :: hs)) s q u
  | next {uri u : String} {directory q : Path} {h : Tree} {hs : List Tree} {s s' : Session}
      {acts : List Act} (hr : Runs o (.header uri directory h) s acts (.ok () s'))
      (hc : Consults o (.headers uri directory hs) s' q u) :
      Consults o (.headers uri directory (h :: hs)) s q u
  | header {uri name : String} {directory : Path} {h : Tree} {s : Session}
      (hn : h.importName = .ok name) :
      Consults o (.header uri directory h) s (target directory (relativePath name o.extension))
        (Uri.base uri ++ relativePath name o.extension)
  | inner {uri u name : String} {directory q : Path} {h t : Tree} {s s' : Session}
      {acts : List Act} (hn : h.importName = .ok name)
      (hl : Looks o.disk (target directory (relativePath name o.extension)) s acts (.loaded t) s')
      (hc : Consults o (.loaded (target directory (relativePath name o.extension))
        (Uri.base uri ++ relativePath name o.extension) t) s' q u) :
      Consults o (.header uri directory h) s q u
  | loaded {p q : Path} {uri u : String} {t : Tree} {s : Session} (ht : o.transitive = true)
      (hc : Consults o (.document t.importHeaders uri) s q u) : Consults o (.loaded p uri t) s q u

/-- Two disks that cannot be told apart by testing some paths and reading some others. -/
structure Alike (d d' : Disk) (tested read : Path → Prop) : Prop where
  cwd : d'.cwd = d.cwd
  exists? : ∀ q, tested q → d'.exists? q = d.exists? q
  readText : ∀ q, read q → d'.readText q = d.readText q

/-- What is consulted below a directory: names of imports, the extension behind the last. The base
of the address leads to the directory of the path. -/
structure Confined (o : Options) (home q : Path) (uri : String) : Prop where
  named : ∃ parts, parts ≠ [] ∧ (∀ s ∈ parts, Lexer.IsIdentifier s.toList) ∧
    q = home.below (withExtension parts o.extension)
  isBelow : q.IsBelow home
  isComponent : ∀ n ∈ q.names, Path.IsComponent n ∧ n ≠ ".."
  base : ∀ cwd, Uri.toPath cwd (Uri.base uri) = .ok q.parent

section

variable {o : Options} {d d' : Disk} {p q home : Path} {uri u : String} {s s' : Session} {j : Job}
  {acts : List Act} {r : Outcome}

theorem Alike.mono {tested read tested' read' : Path → Prop} (h : Alike d d' tested read)
    (ht : ∀ q, tested' q → tested q) (hr : ∀ q, read' q → read q) : Alike d d' tested' read' where
  cwd := h.cwd
  exists? q hq := h.exists? q (ht q hq)
  readText q hq := h.readText q (hr q hq)

theorem load_congr (h : d'.readText p = d.readText p) : load d' p = load d p := by
  rw [load, load, h]

/-- An import is looked up by testing its path and, where it is loaded, reading it. -/
theorem Looks.of_alike {found : Found} (h : Looks d p s acts found s')
    (ha : Alike d d' (· = p) fun q => .load q ∈ acts) : Looks d' p s acts found s' := by
  have he := ha.exists? p rfl
  have hkey : Path.normalize d.cwd p = Path.normalize d'.cwd p := by rw [ha.cwd]
  cases h with
  | unknown h => exact .unknown (he.trans h)
  | missing h => exact .missing (he.trans h)
  | skipped h hv =>
    rw [hkey] at hv
    exact .skipped (he.trans h) hv
  | broken h hv hl =>
    have hload := load_congr (ha.readText p (List.mem_singleton_self _))
    rw [hkey] at hv ⊢
    exact .broken (he.trans h) hv (hload.trans hl)
  | loaded h hv hl =>
    have hload := load_congr (ha.readText p (List.mem_singleton_self _))
    rw [hkey] at hv ⊢
    exact .loaded (he.trans h) hv (hload.trans hl)

theorem Looks.eq_of_load_mem {found : Found} (h : Looks d p s acts found s')
    (hq : .load q ∈ acts) : q = p := by
  cases h with
  | unknown | missing | skipped => cases hq
  | broken | loaded => cases List.mem_singleton.1 hq; rfl

/-- A run reads only what it consults. -/
theorem Runs.consults_of_load_mem (h : Runs o j s acts r) (hq : .load q ∈ acts) :
    ∃ u, Consults o j s q u := by
  induction h with
  | homeless | done | unnamed => cases hq
  | document h _ ih =>
    obtain ⟨u, hc⟩ := ih hq
    exact ⟨u, .document h hc⟩
  | stop _ ih =>
    obtain ⟨u, hc⟩ := ih hq
    exact ⟨u, .first hc⟩
  | next hr _ ih ihs =>
    rcases List.mem_append.1 hq with hq | hq
    · obtain ⟨u, hc⟩ := ih hq
      exact ⟨u, .first hc⟩
    · obtain ⟨u, hc⟩ := ihs hq
      exact ⟨u, .next hr hc⟩
  | failed hn hl | skipped hn hl =>
    obtain rfl := hl.eq_of_load_mem hq
    exact ⟨_, .header hn⟩
  | loaded hn hl _ ih =>
    rcases List.mem_append.1 hq with hq | hq
    · obtain rfl := hl.eq_of_load_mem hq
      exact ⟨_, .header hn⟩
    · obtain ⟨u, hc⟩ := ih hq
      exact ⟨u, .inner hn hl hc⟩
  | alone => cases List.mem_singleton.1 hq
  | broken ht _ ih =>
    obtain ⟨u, hc⟩ := ih hq
    exact ⟨u, .loaded ht hc⟩
  | after ht _ ih =>
    rcases List.mem_append.1 hq with hq | hq
    · obtain ⟨u, hc⟩ := ih hq
      exact ⟨u, .loaded ht hc⟩
    · cases List.mem_singleton.1 hq

/-- A run takes nothing from the disk but the answers at the paths that it consults. -/
theorem Runs.of_alike (h : Runs o j s acts r)
    (ha : Alike o.disk d (fun q => ∃ u, Consults o j s q u) fun q => .load q ∈ acts) :
    Runs { o with disk := d } j s acts r := by
  induction h with
  | homeless h => exact .homeless (by rw [ha.cwd]; exact h)
  | document h _ ih =>
    refine .document (by rw [ha.cwd]; exact h) (ih (ha.mono ?_ fun _ => id))
    rintro q ⟨u, hc⟩
    exact ⟨u, .document h hc⟩
  | done => exact .done
  | stop _ ih =>
    refine .stop (ih (ha.mono ?_ fun _ => id))
    rintro q ⟨u, hc⟩
    exact ⟨u, .first hc⟩
  | next hr _ ih ihs =>
    refine .next (ih (ha.mono ?_ fun _ => List.mem_append_left _))
      (ihs (ha.mono ?_ fun _ => List.mem_append_right _))
    · rintro q ⟨u, hc⟩
      exact ⟨u, .first hc⟩
    · rintro q ⟨u, hc⟩
      exact ⟨u, .next hr hc⟩
  | unnamed hn => exact .unnamed hn
  | failed hn hl =>
    refine .failed hn (hl.of_alike (ha.mono ?_ fun _ => id))
    rintro q rfl
    exact ⟨_, .header hn⟩
  | skipped hn hl =>
    refine .skipped hn (hl.of_alike (ha.mono ?_ fun _ => id))
    rintro q rfl
    exact ⟨_, .header hn⟩
  | loaded hn hl _ ih =>
    refine .loaded hn (hl.of_alike (ha.mono ?_ fun _ => List.mem_append_left _))
      (ih (ha.mono ?_ fun _ => List.mem_append_right _))
    · rintro q rfl
      exact ⟨_, .header hn⟩
    · rintro q ⟨u, hc⟩
      exact ⟨u, .inner hn hl hc⟩
  | alone ht => exact .alone ht
  | broken ht _ ih =>
    refine .broken ht (ih (ha.mono ?_ fun _ => id))
    rintro q ⟨u, hc⟩
    exact ⟨u, .loaded ht hc⟩
  | after ht _ ih =>
    refine .after ht (ih (ha.mono ?_ fun _ => List.mem_append_left _))
    rintro q ⟨u, hc⟩
    exact ⟨u, .loaded ht hc⟩

end

section

variable {o : Options} {home q : Path} {uri u : String} {names : List String} {s : Session}
  {j : Job} {todo : List Path}

theorem append_withExtension {parts : List String} (hne : parts ≠ []) (names : List String)
    (extension : String) :
    names ++ withExtension parts extension = withExtension (names ++ parts) extension := by
  obtain ⟨init, last, rfl⟩ := exists_init_last hne
  simp [withExtension, ← List.append_assoc]

/-- The file that a header names and its address, in a directory below a tame one. -/
theorem Tame.confined (ho : Tame o home) (hd : ∀ m ∈ home.names, m ≠ "..")
    (hn : ∀ m ∈ names, Lexer.IsIdentifier m.toList)
    (hb : Uri.base uri = Uri.ofFolder (home.below names)) {h : Tree} (hh : IsHeader h) :
    Confined o home ((home.below names).below (withExtension h.importParts o.extension))
      (Uri.base uri ++ relativePath (".".intercalate h.importParts) o.extension) := by
  obtain ⟨names', n', hl⟩ := ho.exists_lies hn hb hh
  have hparts : ∀ m ∈ names ++ h.importParts, Lexer.IsIdentifier m.toList :=
    List.forall_mem_append.2 ⟨hn, hh.isIdentifier⟩
  have hne : names ++ h.importParts ≠ [] := List.append_ne_nil_of_right_ne_nil _ hh.parts_ne_nil
  have hpath : (home.below names).below (withExtension h.importParts o.extension) =
      home.below (withExtension (names ++ h.importParts) o.extension) := by
    rw [Path.below_below, append_withExtension hh.parts_ne_nil]
  refine ⟨⟨_, hne, hparts, hpath⟩, ⟨_, by simp [withExtension], hpath⟩, ?_, ?_⟩
  · rw [hpath]
    refine List.forall_mem_append.2 ⟨?_, isComponent_withExtension hparts hne ho.extension⟩
    intro m hm
    exact ⟨ho.isWellFormed.names m hm, hd m hm⟩
  · intro cwd
    rw [hl.path, Path.parent_below]
    exact ho.toPath_base hl.directories (hl.base_eq ho) cwd

/-- A job that stands below a tame directory consults nothing outside of it. -/
theorem Consults.confined (h : Consults o j s q u) (hj : Placed o home j todo) (ho : Tame o home)
    (hd : ∀ m ∈ home.names, m ≠ "..") : Confined o home q u := by
  induction h generalizing todo with
  | document h _ ih =>
    cases hj with
    | document hn hb hh =>
      cases h.symm.trans (ho.toPath_base hn hb _)
      exact ih (.headers hn hb hh)
  | first _ ih =>
    cases hj with
    | headers hn hb hh => exact ih (.header hn hb (hh _ List.mem_cons_self))
  | next _ _ ih =>
    cases hj with
    | headers hn hb hh =>
      simp only [List.mem_cons, forall_eq_or_imp] at hh
      exact ih (.headers hn hb hh.2)
  | header hn =>
    cases hj with
    | header hdirs hb hh =>
      cases hn.symm.trans hh.importName
      rw [target_eq hh.isIdentifier hh.parts_ne_nil ho.extension]
      exact ho.confined hd hdirs hb hh
  | inner hn hl _ ih =>
    cases hj with
    | header hdirs hb hh =>
      cases hn.symm.trans hh.importName
      obtain ⟨names', n', hlies⟩ := ho.exists_lies hdirs hb hh
      rw [target_eq hh.isIdentifier hh.parts_ne_nil ho.extension] at hl ih
      exact ih (.loaded hlies hl.load_eq)
  | loaded _ _ ih =>
    cases hj with
    | loaded hl ht => exact ih (.document hl.directories (hl.base_eq ho) (isHeader_of_load ht))

end

/-- A tree whose only header is known by its name. -/
theorem exists_header_of_names {ε : Type} {x : Except ε Tree} {name : String}
    (h : x.toOption.map (fun t => t.importHeaders.map (·.importName.toOption)) =
      some [some name]) :
    ∃ t header, x = .ok t ∧ t.importHeaders = [header] ∧ header.importName = .ok name := by
  cases x with
  | error e => cases h
  | ok t =>
    obtain ⟨header, hheader, hname⟩ := List.map_eq_singleton_iff.1 (Option.some.inj h)
    refine ⟨t, header, rfl, hheader, ?_⟩
    cases hn : header.importName with
    | error e => simp [hn, Except.toOption] at hname
    | ok name' => simpa [hn, Except.toOption] using hname

/-- To resolve the imports of a document, only paths below its directory are consulted: nothing else
is read, and a disk that answers alike there gives the same outcome. -/
theorem resolve_stays_below {o : Options} {p : Path} {source : String} {t : Tree} (hp : Tame o p)
    (hn : ∀ m ∈ p.names, m ≠ "..") (ht : parse source = .ok t) (s : Session) :
    let job := Job.document t.importHeaders (Uri.ofPath p)
    ∃ acts, Runs o job s acts (resolve o t.importHeaders (Uri.ofPath p) s) ∧
      (∀ q uri, Consults o job s q uri → Confined o p.parent q uri) ∧
      (∀ q, .load q ∈ acts → ∃ uri, Consults o job s q uri) ∧
      ∀ d, Alike o.disk d (fun q => ∃ uri, Consults o job s q uri) (fun q => .load q ∈ acts) →
        resolve { o with disk := d } t.importHeaders (Uri.ofPath p) s =
          resolve o t.importHeaders (Uri.ofPath p) s := by
  intro job
  obtain ⟨acts, hr⟩ := exists_runs o t.importHeaders (Uri.ofPath p) s
  have hparent : ∀ m ∈ p.parent.names, m ≠ ".." := by
    intro m hm
    exact hn m (List.dropLast_subset _ hm)
  refine ⟨acts, hr, ?_, fun q hq => hr.consults_of_load_mem hq, ?_⟩
  · intro q uri hc
    exact hc.confined (hp.placed ht) hp.parent hparent
  · intro d ha
    exact (hr.of_alike ha).eq_resolve.symm

/-- A directory whose name looks like an escaped way up is not left, also not by the import of an
import. -/
theorem resolve_stays_below_nested :
    let o : Options := ⟨⟨⟨1, ["w"]⟩, [(["%2F.."], .directory), (["%2F..", "lib"], .directory),
      (["%2F..", "lib", "a.mykt"], .file (Text.Utf8.encode "import b".toList))]⟩, ".mykt", true⟩
    let p : Path := ⟨1, ["%2F..", "d.mykt"]⟩
    let q : Path := ⟨1, ["%2F..", "lib", "b.mykt"]⟩
    ∃ t, parse "import lib.a" = .ok t ∧
      Consults o (.document t.importHeaders (Uri.ofPath p)) .start q
        "file:///%252F../lib/b.mykt" ∧
      Confined o p.parent q "file:///%252F../lib/b.mykt" := by
  intro o p q
  let a : Path := ⟨1, ["%2F..", "lib", "a.mykt"]⟩
  have tame : Tame o p := ⟨⟨by decide, by decide⟩, by decide, by decide, by decide⟩
  obtain ⟨t, h, ht, hh, hname⟩ : ∃ t h, parse "import lib.a" = .ok t ∧ t.importHeaders = [h] ∧
      h.importName = .ok "lib.a" := exists_header_of_names (by decide +kernel)
  obtain ⟨t', h', ht', hh', hname'⟩ : ∃ t' h', load o.disk a = .ok t' ∧ t'.importHeaders = [h'] ∧
      h'.importName = .ok "b" := exists_header_of_names (by decide +kernel)
  have named {s : Session} : Consults o (.loaded a "file:///%252F../lib/a.mykt" t') s q
      "file:///%252F../lib/b.mykt" := by
    have hbase : Uri.toPath o.disk.cwd (Uri.base "file:///%252F../lib/a.mykt") =
        .ok ⟨1, ["%2F..", "lib"]⟩ := by decide +kernel
    have hpath : target ⟨1, ["%2F..", "lib"]⟩ (relativePath "b" o.extension) = q := by
      decide +kernel
    have huri : Uri.base "file:///%252F../lib/a.mykt" ++ relativePath "b" o.extension =
        "file:///%252F../lib/b.mykt" := by decide +kernel
    refine .loaded rfl (.document hbase ?_)
    rw [hh', ← hpath, ← huri]
    exact .first (.header hname')
  have consulted : Consults o (.document t.importHeaders (Uri.ofPath p)) .start q
      "file:///%252F../lib/b.mykt" := by
    have hbase : Uri.toPath o.disk.cwd (Uri.base (Uri.ofPath p)) = .ok ⟨1, ["%2F.."]⟩ := by
      decide +kernel
    have hpath : target ⟨1, ["%2F.."]⟩ (relativePath "lib.a" o.extension) = a := by decide +kernel
    have huri : Uri.base (Uri.ofPath p) ++ relativePath "lib.a" o.extension =
        "file:///%252F../lib/a.mykt" := by decide +kernel
    have hlooks : Looks o.disk a .start _ (.loaded t') _ :=
      .loaded (by decide +kernel) (by decide +kernel) ht'
    rw [← hpath] at hlooks named
    rw [← huri] at named
    rw [hh]
    exact .document hbase (.first (.inner hname hlooks named))
  obtain ⟨acts, -, hconfined, -⟩ := resolve_stays_below tame (by decide) ht .start
  exact ⟨t, ht, consulted, hconfined q _ consulted⟩

end Import

end Mykt
