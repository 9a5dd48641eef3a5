import Mykt.Proofs.Import.Warnings

/-!
What the headers of a run tell without their order. The sites of a run are the headers that its job
is given and those of the trees that it visits, each with the address of its document. Main
statement: a run that ends has reached the files that its sites name, and warns of missing files as
its sites say, each as often as it has sites for it.
-/

namespace Mykt.Import

/-- A header and the address of the document that holds it. -/
structure Site where
  uri : String
  header : Tree

namespace Site

/-- The path that the header names. -/
def path? (o : Options) (x : Site) : Option Path :=
  match Uri.toPath o.disk.cwd (Uri.base x.uri), x.header.importName with
  | .ok directory, .ok name => some (target directory (relativePath name o.extension))
  | _, _ => none

/-- The file that the header has reached once it is processed. -/
def reached? (o : Options) (x : Site) : Option Path :=
  (x.path? o).bind fun p =>
    match o.disk.exists? p with
    | .ok true => some (Path.normalize o.disk.cwd p)
    | _ => none

/-- The warning if the header names no file. -/
def missing? (o : Options) (x : Site) : Option Diagnostic :=
  (x.path? o).bind fun p =>
    match o.disk.exists? p, x.header.range with
    | .ok false, .ok r => some ((Failure.notFound p).diagnostic x.uri r)
    | _, _ => none

end Site

/-- The warnings of missing files. -/
def notFound (ds : List Diagnostic) : List Diagnostic :=
  ds.filter fun d => d.code = some "import-not-found"

@[simp] theorem notFound_append (xs ys : List Diagnostic) :
    notFound (xs ++ ys) = notFound xs ++ notFound ys := List.filter_append xs ys

def Job.sites (j : Job) : List Site := j.given.map (Site.mk j.uri)

/-- The sites of visited trees, if their headers are followed. -/
def innerSites (o : Options) (xs : List (Path × String × Tree)) : List Site :=
  xs.flatMap fun x => if o.transitive then x.2.2.importHeaders.map (Site.mk x.2.1) else []

@[simp] theorem innerSites_append (o : Options) (xs ys : List (Path × String × Tree)) :
    innerSites o (xs ++ ys) = innerSites o xs ++ innerSites o ys := List.flatMap_append

/-- The headers of a job are looked for in the directory of its document. -/
def Job.IsHomed (o : Options) : Job → Prop
  | .headers uri directory _ | .header uri directory _ =>
      Uri.toPath o.disk.cwd (Uri.base uri) = .ok directory
  | _ => True

/-- What sites tell about a session that comes after another one. -/
structure Accounts (o : Options) (xs : List Site) (s s' : Session) : Prop where
  visited : ∀ k, k ∈ s'.visited ↔ k ∈ s.visited ∨ ∃ x ∈ xs, x.reached? o = some k
  missing : (notFound s'.diagnostics).Perm
    (notFound s.diagnostics ++ xs.filterMap (Site.missing? o))

section

variable {o : Options} {xs ys : List Site} {s s' s'' : Session}

namespace Accounts

theorem of_eq (hv : s'.visited = s.visited) (hd : s'.diagnostics = s.diagnostics) :
    Accounts o [] s s' where
  visited := by simp [hv]
  missing := by simp [hd]

theorem append (h : Accounts o xs s s') (h' : Accounts o ys s' s'') :
    Accounts o (xs ++ ys) s s'' where
  visited k := by
    rw [h'.visited, h.visited, or_assoc]
    simp only [List.mem_append, or_and_right, exists_or]
  missing := by
    rw [List.filterMap_append, ← List.append_assoc]
    exact h'.missing.trans (h.missing.append_right _)

/-- The order of the sites does not matter. -/
theorem perm (h : Accounts o xs s s') (hp : xs.Perm ys) : Accounts o ys s s' where
  visited k := by
    rw [h.visited]
    simp only [hp.mem_iff]
  missing := h.missing.trans ((hp.filterMap _).append_left _)

end Accounts

section

variable {x : Site} {p : Path} {acts : List Act} {found : Found}

theorem Looks.diagnostics_eq (h : Looks o.disk p s acts found s') :
    s'.diagnostics = s.diagnostics := by
  cases h <;> rfl

/-- A look-up reaches what its site names. -/
theorem Looks.visited_iff (h : Looks o.disk p s acts found s') (hp : x.path? o = some p)
    (k : Path) : k ∈ s'.visited ↔ k ∈ s.visited ∨ x.reached? o = some k := by
  cases h with
  | unknown h | missing h => simp [Site.reached?, hp, h]
  | skipped h hv =>
    have hreached : x.reached? o = some (Path.normalize o.disk.cwd p) := by
      simp [Site.reached?, hp, h]
    change k ∈ s.visited ↔ _
    refine (or_iff_left_of_imp ?_).symm
    intro hk
    rw [hreached] at hk
    exact Option.some.inj hk ▸ hv
  | broken h | loaded h =>
    have hreached : x.reached? o = some (Path.normalize o.disk.cwd p) := by
      simp [Site.reached?, hp, h]
    rw [hreached, Option.some.injEq, or_comm, eq_comm]
    exact List.mem_cons

/-- A header that is not warned of is not warned of as missing. -/
theorem Looks.missing?_eq_none (h : Looks o.disk p s acts found s') (hp : x.path? o = some p)
    (hf : found.failure? = none) : x.missing? o = none := by
  cases h with
  | unknown | missing | broken => cases hf
  | skipped h | loaded h => simp [Site.missing?, hp, h]

/-- A file that cannot be read is not a missing file. -/
theorem Looks.missing?_toList {f : Failure} {r : Range}
    (h : Looks o.disk p s acts (.failed f) s') (hp : x.path? o = some p)
    (hr : x.header.range = .ok r) : (x.missing? o).toList = notFound [f.diagnostic x.uri r] := by
  have unreadable (c : Cause) : notFound [(Failure.unreadable p c).diagnostic x.uri r] = [] := by
    simp [notFound, Failure.diagnostic, Failure.code]
  cases h with
  | unknown h =>
    rw [unreadable]
    simp [Site.missing?, hp, h]
  | missing h =>
    simp [Site.missing?, hp, h, hr, notFound, Failure.diagnostic, Failure.code]
  | broken h =>
    rw [unreadable]
    simp [Site.missing?, hp, h]

/-- A header that leads to no warning. -/
theorem Looks.accounts (h : Looks o.disk p s acts found s') (hp : x.path? o = some p)
    (hf : found.failure? = none) : Accounts o [x] s s' where
  visited k := by simpa using h.visited_iff hp k
  missing := by simp [h.missing?_eq_none hp hf, h.diagnostics_eq]

/-- A header that leads to a warning. -/
theorem Looks.accounts_of_report {f : Failure} (h : Looks o.disk p s acts (.failed f) s')
    (hp : x.path? o = some p) (hr : report f x.uri x.header s' = .ok () s'') :
    Accounts o [x] s s'' := by
  cases hrange : x.header.range with
  | error e => cases (report_of_error hrange x.uri s').symm.trans hr
  | ok r =>
    cases (report_of_ok hrange x.uri s').symm.trans hr
    refine ⟨?_, ?_⟩
    · intro k
      simp only [List.mem_singleton, exists_eq_left]
      exact h.visited_iff hp k
    · have hmissing : [x].filterMap (Site.missing? o) = notFound [f.diagnostic x.uri r] := by
        rw [← h.missing?_toList hp hrange]
        cases hx : x.missing? o <;> simp [hx]
      rw [hmissing, ← h.diagnostics_eq, ← notFound_append]

end

theorem Site.path?_eq {uri name : String} {directory : Path} {h : Tree}
    (hd : Uri.toPath o.disk.cwd (Uri.base uri) = .ok directory) (hn : h.importName = .ok name) :
    (Site.mk uri h).path? o = some (target directory (relativePath name o.extension)) := by
  simp [Site.path?, hd, hn]

/-- A run that ends is accounted for by its sites. A visited tree has its sites behind those of the
trees visited for it, and before them as a document: hence up to order. -/
theorem Runs.accounts {j : Job} {acts : List Act} {r : Outcome} (h : Runs o j s acts r)
    (hj : j.IsHomed o) (hr : r = .ok () s') :
    Accounts o (j.sites ++ innerSites o (visits acts)) s s' := by
  induction h generalizing s' with
  | homeless | stop | unnamed | broken => cases hr
  | document h _ ih => exact ih h hr
  | done =>
    cases hr
    exact .of_eq rfl rfl
  | @next uri directory h hs _ _ acts rest _ _ _ ih ihs =>
    have first := ih hj rfl
    have second := ihs hj hr
    refine (first.append second).perm ?_
    rw [visits_append, innerSites_append]
    show ([Site.mk uri h] ++ _ ++ (hs.map (Site.mk uri) ++ _)).Perm
      ([Site.mk uri h] ++ hs.map (Site.mk uri) ++ _)
    simp only [List.append_assoc]
    refine List.Perm.append_left _ ?_
    simp only [← List.append_assoc]
    exact List.perm_append_comm.append_right _
  | failed hn hl =>
    rw [hl.table_eq.2]
    exact hl.accounts_of_report (Site.path?_eq hj hn) hr
  | skipped hn hl =>
    cases hr
    rw [hl.table_eq.2]
    exact hl.accounts (Site.path?_eq hj hn) rfl
  | loaded hn hl _ ih =>
    have first := hl.accounts (Site.path?_eq hj hn) rfl
    have inner := ih trivial hr
    rw [visits_append, hl.table_eq.2]
    exact first.append inner
  | @alone p uri t _ ht =>
    obtain ⟨hdiagnostics, hvisited⟩ := session_of_visit hr
    have hnone : innerSites o (visits [.visit p uri t]) = [] := by simp [innerSites, ht]
    rw [hnone]
    exact .of_eq hvisited hdiagnostics
  | @after p uri t _ _ acts ht _ ih =>
    obtain ⟨hdiagnostics, hvisited⟩ := session_of_visit hr
    have before := ih trivial rfl
    have hown : innerSites o (visits [.visit p uri t]) = t.importHeaders.map (Site.mk uri) := by
      simp [innerSites, ht]
    have hvisit := before.append (.of_eq hvisited hdiagnostics)
    rw [List.append_nil] at hvisit
    refine hvisit.perm ?_
    rw [visits_append, innerSites_append, hown]
    exact List.perm_append_comm

end

end Mykt.Import
