import Mathlib.Data.Finset.Card
import Mykt.Import.Resolver
import Mykt.Proofs.Disk.Place

/-!
What a session does with files, step by step. A run has no bound on how deep files nest, and lists
each file that is loaded and each tree that is visited. Main statements: every call has a run, the
run is the only one, and it ends as the resolver says.
-/

namespace Mykt.Import

inductive Act where
  /-- A document is kept from being folded. -/
  | mark (p : Path)
  /-- Loading begins; it may fail. -/
  | load (p : Path)
  | visit (p : Path) (uri : String) (t : Tree)

abbrev Outcome := EStateM.Result Error Session Unit

def Outcome.session : Outcome → Session
  | .ok _ s => s
  | .error _ s => s

/-- The session with one more visited file. -/
def Session.note (s : Session) (key : Path) : Session := { s with visited := key :: s.visited }

section

variable {ε α : Type} {f : ε → Error}

@[simp] theorem liftExcept_ok (a : α) (s : Session) : liftExcept f (.ok a) s = .ok a s := rfl

@[simp] theorem liftExcept_error (e : ε) (s : Session) :
    liftExcept f (.error e : Except ε α) s = .error (f e) s := rfl

end

section

variable {cwd p : Path} {uri : String}

theorem markVisited_of_ok (h : Uri.toPath cwd uri = .ok p) (s : Session) :
    markVisited cwd uri s = .ok () (s.note (Path.normalize cwd p)) := by
  simp only [markVisited, h, bind, EStateM.bind, liftExcept_ok]
  rfl

theorem markVisited_of_error {e : Uri.HostError} (h : Uri.toPath cwd uri = .error e)
    (s : Session) : markVisited cwd uri s = .error (.host e) s := by
  simp only [markVisited, h, bind, EStateM.bind, liftExcept_error]

end

section

variable {f : Failure} {h : Tree}

theorem report_of_ok {r : Range} (hr : h.range = .ok r) (uri : String) (s : Session) :
    report f uri h s =
      .ok () { s.tell f.event with diagnostics := s.diagnostics ++ [f.diagnostic uri r] } := by
  simp only [report, hr]
  rfl

theorem report_of_error {e : RangeError} (hr : h.range = .error e) (uri : String) (s : Session) :
    report f uri h s = .error (.range e) (s.tell f.event) := by
  simp only [report, hr]
  rfl

end

/-- How an import is looked up. -/
inductive Looks (d : Disk) (p : Path) (s : Session) : List Act → Found → Session → Prop where
  | unknown {e : Disk.Error} (h : d.exists? p = .error e) :
      Looks d p s [] (.failed (.unreadable p (.disk e))) s
  | missing (h : d.exists? p = .ok false) : Looks d p s [] (.failed (.notFound p)) s
  | skipped (h : d.exists? p = .ok true) (hv : Path.normalize d.cwd p ∈ s.visited) :
      Looks d p s [] .skipped (s.tell (skipEvent p))
  | broken {c : Cause} (h : d.exists? p = .ok true) (hv : Path.normalize d.cwd p ∉ s.visited)
      (hl : load d p = .error c) :
      Looks d p s [.load p] (.failed (.unreadable p c)) (s.note (Path.normalize d.cwd p))
  | loaded {t : Tree} (h : d.exists? p = .ok true) (hv : Path.normalize d.cwd p ∉ s.visited)
      (hl : load d p = .ok t) :
      Looks d p s [.load p] (.loaded t) (s.note (Path.normalize d.cwd p))

/-- What a session has to do. -/
inductive Job where
  | document (headers : List Tree) (uri : String)
  | headers (uri : String) (directory : Path) (hs : List Tree)
  | header (uri : String) (directory : Path) (h : Tree)
  | loaded (p : Path) (uri : String) (t : Tree)

inductive Runs (o : Options) : Job → Session → List Act → Outcome → Prop where
  | homeless {hs : List Tree} {uri : String} {s : Session} {e : Uri.HostError}
      (h : Uri.toPath o.disk.cwd (Uri.base uri) = .error e) :
      Runs o (.document hs uri) s [] (.error (.host e) s)
  | document {hs : List Tree} {uri : String} {s : Session} {directory : Path} {acts : List Act}
      {r : Outcome} (h : Uri.toPath o.disk.cwd (Uri.base uri) = .ok directory)
      (hr : Runs o (.headers uri directory hs) s acts r) : Runs o (.document hs uri) s acts r
  | done {uri : String} {directory : Path} {s : Session} :
      Runs o (.headers uri directory []) s [] (.ok () s)
  | stop {uri : String} {directory : Path} {h : Tree} {hs : List Tree} {s s' : Session}
      {acts : List Act} {e : Error} (hr : Runs o (.header uri directory h) s acts (.error e s')) :
      Runs o (.headers uri directory (h :: hs)) s acts (.error e s')
  | next {uri : String} {directory : Path} {h : Tree} {hs : List Tree} {s s' : Session}
      {acts rest : List Act} {r : Outcome}
      (hr : Runs o (.header uri directory h) s acts (.ok () s'))
      (hrs : Runs o (.headers uri directory hs) s' rest r) :
      Runs o (.headers uri directory (h :: hs)) s (acts ++ rest) r
  | unnamed {uri : String} {directory : Path} {h : Tree} {s : Session} {e : HeaderError}
      (hn : h.importName = .error e) :
      Runs o (.header uri directory h) s [] (.error (.header e) s)
  | failed {uri : String} {directory : Path} {h : Tree} {s s' : Session} {name : String}
      {acts : List Act} {f : Failure} (hn : h.importName = .ok name)
      (hl : Looks o.disk (target directory (relativePath name o.extension)) s acts (.failed f) s') :
      Runs o (.header uri directory h) s acts (report f uri h s')
  | skipped {uri : String} {directory : Path} {h : Tree} {s s' : Session} {name : String}
      {acts : List Act} (hn : h.importName = .ok name)
      (hl : Looks o.disk (target directory (relativePath name o.extension)) s acts .skipped s') :
      Runs o (.header uri directory h) s acts (.ok () s')
  | loaded {uri : String} {directory : Path} {h t : Tree} {s s' : Session} {name : String}
      {acts rest : List Act} {r : Outcome} (hn : h.importName = .ok name)
      (hl : Looks o.disk (target directory (relativePath name o.extension)) s acts (.loaded t) s')
      (hr : Runs o (.loaded (target directory (relativePath name o.extension))
        (Uri.base uri ++ relativePath name o.extension) t) s' rest r) :
      Runs o (.header uri directory h) s (acts ++ rest) r
  | alone {p : Path} {uri : String} {t : Tree} {s : Session} (ht : o.transitive = false) :
      Runs o (.loaded p uri t) s [.visit p uri t] (Session.visit uri t s)
  | broken {p : Path} {uri : String} {t : Tree} {s s' : Session} {acts : List Act} {e : Error}
      (ht : o.transitive = true) (hr : Runs o (.document t.importHeaders uri) s acts (.error e s')) :
      Runs o (.loaded p uri t) s acts (.error e s')
  | after {p : Path} {uri : String} {t : Tree} {s s' : Session} {acts : List Act}
      (ht : o.transitive = true) (hr : Runs o (.document t.importHeaders uri) s acts (.ok () s')) :
      Runs o (.loaded p uri t) s (acts ++ [.visit p uri t]) (Session.visit uri t s')

theorem exists_looks (d : Disk) (p : Path) (s : Session) :
    ∃ acts found s', Looks d p s acts found s' := by
  cases he : d.exists? p with
  | error e => exact ⟨_, _, _, .unknown he⟩
  | ok there =>
    cases there with
    | false => exact ⟨_, _, _, .missing he⟩
    | true =>
      by_cases hv : Path.normalize d.cwd p ∈ s.visited
      · exact ⟨_, _, _, .skipped he hv⟩
      · cases hl : load d p with
        | error c => exact ⟨_, _, _, .broken he hv hl⟩
        | ok t => exact ⟨_, _, _, .loaded he hv hl⟩

theorem Looks.look_eq {d : Disk} {p : Path} {s s' : Session} {acts : List Act} {found : Found}
    (h : Looks d p s acts found s') : look d p s = .ok found s' := by
  cases h with
  | unknown h | missing h => simp [look, h]
  | skipped h hv => simp [look, h, hv]
  | broken h hv hl | loaded h hv hl => simp [look, h, hv, hl, Session.note]

theorem Looks.unique {d : Disk} {p : Path} {s s₁ s₂ : Session} {acts₁ acts₂ : List Act}
    {found₁ found₂ : Found} (h₁ : Looks d p s acts₁ found₁ s₁) (h₂ : Looks d p s acts₂ found₂ s₂) :
    acts₁ = acts₂ ∧ found₁ = found₂ ∧ s₁ = s₂ := by
  cases h₁ <;> cases h₂ <;> simp_all

/-- A job has one run. -/
theorem Runs.unique {o : Options} {j : Job} {s : Session} {acts₁ acts₂ : List Act}
    {r₁ r₂ : Outcome} (h₁ : Runs o j s acts₁ r₁) (h₂ : Runs o j s acts₂ r₂) :
    acts₁ = acts₂ ∧ r₁ = r₂ := by
  induction h₁ generalizing acts₂ r₂ with
  | homeless h =>
    cases h₂ with
    | homeless h' => simp_all
    | document h' => simp_all
  | document h _ ih =>
    cases h₂ with
    | homeless h' => simp_all
    | document h' hr =>
      cases h.symm.trans h'
      exact ih hr
  | done =>
    cases h₂
    exact ⟨rfl, rfl⟩
  | stop _ ih =>
    cases h₂ with
    | stop hr =>
      obtain ⟨rfl, he⟩ := ih hr
      exact ⟨rfl, by simpa using he⟩
    | next hr _ => cases (ih hr).2
  | next _ _ ih ihs =>
    cases h₂ with
    | stop hr => cases (ih hr).2
    | next hr hrs =>
      obtain ⟨rfl, he⟩ := ih hr
      cases he
      obtain ⟨rfl, rfl⟩ := ihs hrs
      exact ⟨rfl, rfl⟩
  | unnamed hn => cases h₂ <;> simp_all
  | failed hn hl =>
    cases h₂ with
    | unnamed hn' => simp_all
    | failed hn' hl' | skipped hn' hl' | loaded hn' hl' _ =>
      cases hn.symm.trans hn'
      obtain ⟨rfl, he, rfl⟩ := hl.unique hl'
      cases he <;> exact ⟨rfl, rfl⟩
  | skipped hn hl =>
    cases h₂ with
    | unnamed hn' => simp_all
    | failed hn' hl' | skipped hn' hl' | loaded hn' hl' _ =>
      cases hn.symm.trans hn'
      obtain ⟨rfl, he, rfl⟩ := hl.unique hl'
      cases he <;> exact ⟨rfl, rfl⟩
  | loaded hn hl _ ih =>
    cases h₂ with
    | unnamed hn' => simp_all
    | failed hn' hl' | skipped hn' hl' =>
      cases hn.symm.trans hn'
      cases (hl.unique hl').2.1
    | loaded hn' hl' hr =>
      cases hn.symm.trans hn'
      obtain ⟨rfl, he, rfl⟩ := hl.unique hl'
      cases he
      obtain ⟨rfl, rfl⟩ := ih hr
      exact ⟨rfl, rfl⟩
  | alone ht =>
    cases h₂ with
    | alone => exact ⟨rfl, rfl⟩
    | broken ht' | after ht' => simp_all
  | broken ht _ ih =>
    cases h₂ with
    | alone ht' => simp_all
    | broken _ hr => exact ih hr
    | after _ hr => cases (ih hr).2
  | after ht _ ih =>
    cases h₂ with
    | alone ht' => simp_all
    | broken _ hr => cases (ih hr).2
    | after _ hr =>
      obtain ⟨rfl, he⟩ := ih hr
      cases he
      exact ⟨rfl, rfl⟩

section

variable {d : Disk} {p : Path} {s s' : Session} {acts : List Act}

theorem visited_report (f : Failure) (uri : String) (h : Tree) (s : Session) :
    (Outcome.session (report f uri h s)).visited = s.visited := by
  cases hr : h.range with
  | error e =>
    rw [report_of_error hr]
    rfl
  | ok r =>
    rw [report_of_ok hr]
    rfl

theorem visited_visit (uri : String) (t : Tree) (s : Session) :
    (Outcome.session (Session.visit uri t s)).visited = s.visited := by
  unfold Session.visit
  split <;> rfl

theorem Looks.visited_subset {found : Found} (h : Looks d p s acts found s') :
    s.visited ⊆ s'.visited := by
  cases h with
  | unknown | missing | skipped => exact List.Subset.refl _
  | broken | loaded => exact List.subset_cons_self _ _

/-- What has been visited stays visited. -/
theorem Runs.visited_subset {o : Options} {j : Job} {r : Outcome} (h : Runs o j s acts r) :
    s.visited ⊆ r.session.visited := by
  induction h with
  | homeless | done | unnamed => exact List.Subset.refl _
  | document _ _ ih | stop _ ih | broken _ _ ih => exact ih
  | next _ _ ih ihs => exact List.Subset.trans ih ihs
  | failed _ hl =>
    rw [visited_report]
    exact hl.visited_subset
  | skipped _ hl => exact hl.visited_subset
  | loaded _ hl _ ih => exact List.Subset.trans hl.visited_subset ih
  | alone => rw [visited_visit]; exact List.Subset.refl _
  | after _ _ ih => rw [visited_visit]; exact ih

end

/-- The paths that a file of the disk may be visited as. -/
def fileKeys (d : Disk) : List Path :=
  [1, 2, d.cwd.slashes].flatMap fun n => d.entries.map fun e => ⟨n, e.1⟩

theorem length_fileKeys (d : Disk) : (fileKeys d).length = 3 * d.entries.length := by
  simp [fileKeys]
  omega

theorem slashes_ofString (s : String) : (Path.ofString s).slashes ∈ [0, 1, 2] := by
  unfold Path.ofString
  dsimp only
  split <;> simp

theorem slashes_normalize (cwd p : Path) :
    (Path.normalize cwd p).slashes = if p.slashes = 0 then cwd.slashes else p.slashes := by
  by_cases h : p.slashes = 0 <;> simp [Path.normalize, Path.append, Path.isAbsolute, h]

theorem slashes_toPath {cwd p : Path} {s : String} (h : Uri.toPath cwd s = .ok p) :
    (Path.normalize cwd p).slashes ∈ [1, 2, cwd.slashes] := by
  have written (s : String) : (Path.normalize cwd (.ofString s)).slashes ∈ [1, 2, cwd.slashes] := by
    have hs := slashes_ofString s
    rw [slashes_normalize]
    simp only [List.mem_cons, List.not_mem_nil, or_false] at hs ⊢
    split <;> omega
  unfold Uri.toPath at h
  split at h
  · cases ha : Uri.Address.ofString s with
    | error e => simp [ha, bind, Except.bind] at h
    | ok a =>
      obtain rfl : Path.ofString (String.ofList a.filePath) = p := by
        simpa [ha, bind, Except.bind, pure, Except.pure] using h
      exact written _
  · simp only [pure, Except.pure, Except.ok.injEq] at h
    split at h
    · rw [← h]
      exact written s
    · next hr =>
      have hz : (Path.ofString s).slashes = 0 := by simpa [Path.isAbsolute] using hr
      rw [← h, slashes_normalize, slashes_normalize, hz]
      simp

theorem mem_fileKeys {d : Disk} {p : Path} {t : Tree} (h : load d p = .ok t)
    (hp : (Path.normalize d.cwd p).slashes ∈ [1, 2, d.cwd.slashes]) :
    Path.normalize d.cwd p ∈ fileKeys d := by
  obtain ⟨text, hr⟩ : ∃ text, d.readText p = .ok text := by
    cases hr : d.readText p with
    | error e => simp [load, hr] at h
    | ok text => exact ⟨text, rfl⟩
  obtain ⟨-, bytes, -, hm⟩ := Disk.readText_eq_ok hr
  exact List.mem_flatMap.2 ⟨_, hp, List.mem_map.2 ⟨_, hm, rfl⟩⟩

/-- How many files could still be loaded. -/
def pending (d : Disk) (s : Session) : Nat :=
  ((fileKeys d).toFinset.filter (· ∉ s.visited)).card

theorem pending_lt_depth (d : Disk) (s : Session) : pending d s < depth d := by
  have h₁ := Finset.card_filter_le (fileKeys d).toFinset (· ∉ s.visited)
  have h₂ := (fileKeys d).toFinset_card_le
  rw [length_fileKeys] at h₂
  unfold pending depth
  omega

theorem pending_le {d : Disk} {s s' : Session} (h : s.visited ⊆ s'.visited) :
    pending d s' ≤ pending d s := by
  apply Finset.card_le_card
  intro k hk
  rw [Finset.mem_filter] at hk ⊢
  refine ⟨hk.1, ?_⟩
  intro hv
  exact hk.2 (h hv)

theorem pending_note_lt {d : Disk} {s : Session} {key : Path} (hk : key ∈ fileKeys d)
    (hv : key ∉ s.visited) : pending d (s.note key) < pending d s := by
  apply Finset.card_lt_card
  refine Finset.ssubset_iff_subset_ne.2 ⟨?_, ?_⟩
  · intro k hk
    rw [Finset.mem_filter] at hk ⊢
    refine ⟨hk.1, ?_⟩
    intro hv
    exact hk.2 (List.mem_cons_of_mem _ hv)
  · intro he
    have : key ∈ (fileKeys d).toFinset.filter (· ∉ s.visited) := by simp [hk, hv]
    rw [← he] at this
    simp [Session.note] at this

section

variable {o : Options} {recurse : List Tree → String → Step Unit} {uri name : String}
  {directory : Path} {h t : Tree} {s s' : Session} {acts : List Act}

theorem resolveHeader_unnamed {e : HeaderError} (hn : h.importName = .error e) :
    resolveHeader o recurse uri directory h s = .error (.header e) s := by
  simp [resolveHeader, hn, bind, EStateM.bind]

theorem resolveHeader_failed {f : Failure} (hn : h.importName = .ok name)
    (hl : Looks o.disk (target directory (relativePath name o.extension)) s acts (.failed f) s') :
    resolveHeader o recurse uri directory h s = report f uri h s' := by
  simp [resolveHeader, hn, bind, EStateM.bind, hl.look_eq]

theorem resolveHeader_skipped (hn : h.importName = .ok name)
    (hl : Looks o.disk (target directory (relativePath name o.extension)) s acts .skipped s') :
    resolveHeader o recurse uri directory h s = .ok () s' := by
  simp [resolveHeader, hn, bind, EStateM.bind, pure, EStateM.pure, hl.look_eq]

theorem resolveHeader_alone (hn : h.importName = .ok name)
    (hl : Looks o.disk (target directory (relativePath name o.extension)) s acts (.loaded t) s')
    (ht : o.transitive = false) :
    resolveHeader o recurse uri directory h s =
      Session.visit (Uri.base uri ++ relativePath name o.extension) t s' := by
  simp [resolveHeader, hn, bind, EStateM.bind, hl.look_eq, ht]

theorem resolveHeader_loaded (hn : h.importName = .ok name)
    (hl : Looks o.disk (target directory (relativePath name o.extension)) s acts (.loaded t) s')
    (ht : o.transitive = true) :
    resolveHeader o recurse uri directory h s =
      match recurse t.importHeaders (Uri.base uri ++ relativePath name o.extension) s' with
      | .ok _ s' => Session.visit (Uri.base uri ++ relativePath name o.extension) t s'
      | .error e s' => .error e s' := by
  simp only [resolveHeader, hn, liftExcept_ok, bind, EStateM.bind, hl.look_eq, ht, if_true]
  split <;> simp_all

/-- A header has a run if the documents that are loaded for it have one. -/
theorem exists_runs_header {n : Nat} (hd : Uri.toPath o.disk.cwd (Uri.base uri) = .ok directory)
    (ih : ∀ hs uri s, pending o.disk s < n →
      ∃ acts, Runs o (.document hs uri) s acts (recurse hs uri s))
    (hn : pending o.disk s < n + 1) :
    ∃ acts, Runs o (.header uri directory h) s acts (resolveHeader o recurse uri directory h s) := by
  cases hname : h.importName with
  | error e =>
    rw [resolveHeader_unnamed hname]
    exact ⟨[], .unnamed hname⟩
  | ok name =>
    obtain ⟨acts, found, s', hl⟩ :=
      exists_looks o.disk (target directory (relativePath name o.extension)) s
    cases found with
    | failed f =>
      rw [resolveHeader_failed hname hl]
      exact ⟨acts, .failed hname hl⟩
    | skipped =>
      rw [resolveHeader_skipped hname hl]
      exact ⟨acts, .skipped hname hl⟩
    | loaded t =>
      cases ht : o.transitive with
      | false =>
        rw [resolveHeader_alone hname hl ht]
        exact ⟨_, .loaded hname hl (.alone ht)⟩
      | true =>
        have hlt : pending o.disk s' < n := by
          cases hl with
          | loaded he hv hload =>
            have hslashes := slashes_toPath hd
            rw [slashes_normalize] at hslashes
            have hkey := mem_fileKeys hload (by rw [slashes_normalize]; exact hslashes)
            have := pending_note_lt hkey hv
            omega
        obtain ⟨inner, hr⟩ := ih t.importHeaders (Uri.base uri ++ relativePath name o.extension) s' hlt
        rw [resolveHeader_loaded hname hl ht]
        cases he : recurse t.importHeaders (Uri.base uri ++ relativePath name o.extension) s' with
        | ok _ s'' =>
          rw [he] at hr
          exact ⟨_, .loaded hname hl (.after ht hr)⟩
        | error e s'' =>
          rw [he] at hr
          exact ⟨_, .loaded hname hl (.broken ht hr)⟩

theorem exists_runs_headers {n : Nat} (hd : Uri.toPath o.disk.cwd (Uri.base uri) = .ok directory)
    (ih : ∀ hs uri s, pending o.disk s < n →
      ∃ acts, Runs o (.document hs uri) s acts (recurse hs uri s))
    (hs : List Tree) (hn : pending o.disk s < n + 1) :
    ∃ acts, Runs o (.headers uri directory hs) s acts
      (hs.forM (resolveHeader o recurse uri directory) s) := by
  induction hs generalizing s with
  | nil => exact ⟨[], .done⟩
  | cons h hs ihs =>
    obtain ⟨acts, hr⟩ := exists_runs_header (h := h) hd ih hn
    simp only [List.forM_eq_forM, List.forM_cons, bind, EStateM.bind]
    cases he : resolveHeader o recurse uri directory h s with
    | ok _ s' =>
      rw [he] at hr
      obtain ⟨rest, hrs⟩ := ihs (Nat.lt_of_le_of_lt (pending_le hr.visited_subset) hn)
      exact ⟨_, .next hr hrs⟩
    | error e s' =>
      rw [he] at hr
      exact ⟨_, .stop hr⟩

/-- A document has a run that ends as the resolver says, if files may nest as deep as there are files
to load. -/
theorem exists_runs_within {n : Nat} (o : Options) (hs : List Tree) (uri : String) {s : Session}
    (hn : pending o.disk s < n) :
    ∃ acts, Runs o (.document hs uri) s acts (resolveWithin o n hs uri s) := by
  induction n generalizing hs uri s with
  | zero => exact absurd hn (Nat.not_lt_zero _)
  | succ n ih =>
    cases hd : Uri.toPath o.disk.cwd (Uri.base uri) with
    | error e =>
      refine ⟨[], ?_⟩
      simp only [resolveWithin, hd, liftExcept_error, bind, EStateM.bind]
      exact .homeless hd
    | ok directory =>
      obtain ⟨acts, hr⟩ := exists_runs_headers hd (fun hs uri s hlt => ih hs uri hlt) hs hn
      refine ⟨acts, ?_⟩
      simp only [resolveWithin, hd, liftExcept_ok, bind, EStateM.bind]
      exact .document hd hr

theorem exists_runs (o : Options) (hs : List Tree) (uri : String) (s : Session) :
    ∃ acts, Runs o (.document hs uri) s acts (resolve o hs uri s) :=
  exists_runs_within o hs uri (pending_lt_depth o.disk s)

/-- Any run ends as the resolver says. -/
theorem Runs.eq_resolve {hs : List Tree} {r : Outcome} (h : Runs o (.document hs uri) s acts r) :
    r = resolve o hs uri s := by
  obtain ⟨acts', h'⟩ := exists_runs o hs uri s
  exact (h.unique h').2

end

end Mykt.Import
