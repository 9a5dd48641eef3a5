import Mykt.Proofs.Graph.DepthFirst
import Mykt.Proofs.Import.Document

/-!
Which files are folded for a document, and in which order. Main statements: a run is a depth-first
walk along the imports of files, so the analysis folds each file that can be reached once, after the
files that it imports and that do not lead back to it; without imports of imports it folds the files
that the document names.
-/

namespace Mykt

namespace Import

open Mykt.Graph

/-- A file other than the main one that can be loaded. -/
def Good (o : Options) (main p : Path) : Prop := p ≠ main ∧ (load o.disk p).isOk = true

instance (o : Options) (main : Path) : DecidablePred (Good o main) :=
  fun _ => inferInstanceAs (Decidable (_ ∧ _))

/-- The files that the file at a path imports. -/
def importsAt (o : Options) (p : Path) : List Path :=
  match load o.disk p with
  | .ok t => imports o.extension p t
  | .error _ => []

/-- The files that are folded before a file. -/
def dependencies (o : Options) (p : Path) : List Path := if o.transitive then importsAt o p else []

/-- One file leads to another through files that can be loaded and are not the main one. -/
def Reaches (o : Options) (main : Path) : Path → Path → Prop :=
  Relation.ReflTransGen (Leads (Good o main) (importsAt o))

/-- What the files folded for a document have to be. -/
structure Covers (o : Options) (p : Path) (t : Tree) (files : List Path) : Prop where
  nodup : files.Nodup
  reachable : o.transitive = true → ∀ f, f ∈ files ↔
    Good o p f ∧ ∃ g ∈ imports o.extension p t, Reaches o p g f
  ordered : o.transitive = true → ∀ f ∈ files, ∀ g ∈ files, f ∈ importsAt o g →
    ¬ Reaches o p f g → Before f g files
  direct : o.transitive = false →
    files = ((imports o.extension p t).filter fun f => Good o p f).eraseDups

section

variable {o : Options} {home p main : Path} {uri n : String} {t : Tree} {names : List String}

theorem dependencies_of_load (h : load o.disk p = .ok t) :
    dependencies o p = if o.transitive then imports o.extension p t else [] := by
  rw [dependencies, importsAt, h]

theorem not_good_of_error {c : Cause} (h : load o.disk p = .error c) : ¬ Good o main p := by
  intro hx
  obtain ⟨-, hl⟩ := hx
  rw [h] at hl
  cases hl

/-- What can be loaded is there. -/
theorem Good.exists? (h : Good o main p) : o.disk.exists? p = .ok true := by
  cases hl : load o.disk p with
  | error c => exact absurd h (not_good_of_error hl)
  | ok t =>
    obtain ⟨text, hr, -⟩ := exists_text_of_load hl
    exact (Disk.readText_eq_ok hr).1

theorem normalize_eq_self {cwd : Path} (ha : p.isAbsolute = true)
    (hn : ∀ m ∈ p.names, m ≠ "..") : Path.normalize cwd p = p := by
  have settled (names done : List String) (h : ∀ m ∈ names, m ≠ "..") :
      names.foldl Path.settleStep done = done ++ names := by
    induction names generalizing done with
    | nil => simp
    | cons m names ih =>
      simp only [List.mem_cons, forall_eq_or_imp] at h
      rw [List.foldl_cons, ih _ h.2, Path.settleStep, if_neg h.1, List.append_assoc]
      rfl
  have he := settled p.names [] hn
  rw [List.nil_append] at he
  simp [Path.normalize, Path.append, ha, Path.settle_eq, he]

theorem Lies.normalize_eq (h : Lies o home p uri names n) (ho : Tame o home)
    (hd : ∀ m ∈ home.names, m ≠ "..") (cwd : Path) : Path.normalize cwd p = p := by
  refine normalize_eq_self (by rw [h.path]; exact ho.isAbsolute) ?_
  rw [h.path]
  intro m hm
  simp only [Path.below, List.mem_append, List.mem_singleton] at hm
  rcases hm with hm | hm | rfl
  · exact hd m hm
  · intro hsame
    subst hsame
    exact notMem_of_isIdentifier (h.directories _ hm) (c := '.') rfl (by simp)
  · exact h.isComponent.2

theorem visited_of_report {f : Failure} {h : Tree} {s s' : Session}
    (hr : report f uri h s = .ok () s') : s'.visited = s.visited := by
  have := visited_report f uri h s
  rwa [hr] at this

theorem visited_of_visit_ok {s s' : Session} (hr : Session.visit uri t s = .ok () s') :
    s'.visited = s.visited := by
  have := visited_visit uri t s
  rwa [hr] at this

/-- The file that a job is about. -/
def Job.file : Job → List Path
  | .loaded p _ _ => [p]
  | _ => []

/-- A run is a walk along the imports of files: the files are visited as they are finished. -/
theorem Runs.explores {j : Job} {s s' : Session} {acts : List Act} {r : Outcome} {todo : List Path}
    (h : Runs o j s acts r) (hj : Placed o home j todo) (ho : Tame o home)
    (hd : ∀ m ∈ home.names, m ≠ "..") (hm : main ∈ s.visited) (hr : r = .ok () s') :
    ∃ done, (visits acts).map (·.1) = done ++ j.file ∧
      Explores (Good o main) (dependencies o) s.visited todo done s'.visited := by
  induction h generalizing todo s' with
  | homeless | stop | unnamed | broken => cases hr
  | document h _ ih =>
    cases hj with
    | document hn hb hh =>
      cases h.symm.trans (ho.toPath_base hn hb _)
      exact ih (.headers hn hb hh) hm hr
  | done =>
    cases hj
    cases hr
    exact ⟨[], rfl, .nil⟩
  | next hf _ ih ihs =>
    cases hj with
    | headers hn hb hh =>
      simp only [List.mem_cons, forall_eq_or_imp] at hh
      obtain ⟨done, hv, he⟩ := ih (.header hn hb hh.1) hm rfl
      obtain ⟨done', hv', he'⟩ := ihs (.headers hn hb hh.2) (hf.visited_subset hm) hr
      refine ⟨done ++ done', ?_, he.append he'⟩
      rw [visits_append, List.map_append, hv, hv']
      simp [Job.file]
  | failed hn hl =>
    cases hj with
    | header hd' hb hh =>
      cases hn.symm.trans hh.importName
      obtain ⟨names', n', hlies⟩ := ho.exists_lies hd' hb hh
      rw [target_eq hh.isIdentifier hh.parts_ne_nil ho.extension] at hl
      refine ⟨[], by simp [hl.table_eq.2, Job.file], ?_⟩
      rw [visited_of_report hr]
      cases hl with
      | unknown hx | missing hx =>
        refine .skip (.inr ?_) .nil
        intro hg
        cases hx.symm.trans hg.exists?
      | broken _ _ hx =>
        rw [hlies.normalize_eq ho hd]
        exact .reject (not_good_of_error hx) .nil
  | skipped hn hl =>
    cases hr
    cases hj with
    | header hd' hb hh =>
      cases hn.symm.trans hh.importName
      obtain ⟨names', n', hlies⟩ := ho.exists_lies hd' hb hh
      rw [target_eq hh.isIdentifier hh.parts_ne_nil ho.extension] at hl
      refine ⟨[], by simp [hl.table_eq.2, Job.file], ?_⟩
      cases hl with
      | skipped _ hv =>
        rw [hlies.normalize_eq ho hd] at hv
        exact .skip (.inl hv) .nil
  | loaded hn hl _ ih =>
    cases hj with
    | header hd' hb hh =>
      cases hn.symm.trans hh.importName
      obtain ⟨names', n', hlies⟩ := ho.exists_lies hd' hb hh
      rw [target_eq hh.isIdentifier hh.parts_ne_nil ho.extension] at hl ih
      obtain ⟨inner, hv, he⟩ := ih (.loaded hlies hl.load_eq) (hl.visited_subset hm) hr
      refine ⟨inner ++ [_], by simpa [hl.table_eq.2, Job.file] using hv, ?_⟩
      cases hl with
      | loaded _ hx ht =>
        rw [hlies.normalize_eq ho hd] at hx he
        rw [← dependencies_of_load ht] at he
        refine .enter hx ⟨?_, by rw [ht]; rfl⟩ he .nil
        intro hsame
        subst hsame
        exact hx hm
  | alone htr =>
    cases hj
    refine ⟨[], rfl, ?_⟩
    rw [if_neg (by simp [htr]), visited_of_visit_ok hr]
    exact .nil
  | after htr _ ih =>
    cases hj with
    | loaded hl ht =>
      obtain ⟨done, hv, he⟩ := ih (.document hl.directories (hl.base_eq ho) (isHeader_of_load ht))
        hm rfl
      refine ⟨done, ?_, ?_⟩
      · rw [visits_append, List.map_append, hv]
        simp [Job.file]
      · rw [if_pos htr, imports, hl.path, Path.parent_below, visited_of_visit_ok hr]
        exact he

/-- A walk from the imports of a document finishes the right files in the right order. -/
theorem covers_of_explores {files seen : List Path}
    (h : Explores (Good o p) (dependencies o) [p] (imports o.extension p t) files seen) :
    Covers o p t files := by
  have hseen : ∀ z ∈ [p], ¬ Good o p z := by simp [Good]
  have follow (ht : o.transitive = true) : dependencies o = importsAt o := by
    funext f
    rw [dependencies, if_pos ht]
  refine ⟨h.nodup_done, ?_, ?_, ?_⟩
  · intro ht f
    rw [h.mem_done_iff hseen, follow ht]
    rfl
  · intro ht f hf g hg hi hr
    rw [follow ht] at h
    have hgood := h.good_of_mem hf
    rcases h.before_or_reaches hg hi hgood with hs | hb | hr'
    · exact absurd hgood (hseen f hs)
    · exact hb
    · exact absurd hr' hr
  · intro ht
    have hn (f : Path) : dependencies o f = [] := by simp [dependencies, ht]
    rw [h.done_eq_eraseDups hn]
    congr 1
    apply List.filter_congr
    intro f _
    apply decide_eq_decide.2
    apply and_iff_left_of_imp
    intro hf
    simpa using hf.1

/-- Where all texts are short, the analysis of a document at a known address ends. -/
theorem Tame.exists_analyzes (h : Tame o p) (hd : IsShort o.disk) {source : String}
    (hp : parse source = .ok t) (hs : source.length ≤ Position.limit) :
    ∃ acts s, Analyzes o (Uri.ofPath p) t acts s := by
  obtain ⟨acts, hr⟩ := exists_runs o t.importHeaders (Uri.ofPath p)
    (Session.start.note (Path.normalize o.disk.cwd p))
  have hranges : ∀ header ∈ t.importHeaders, ∃ r, header.range = .ok r := by
    intro header hm
    exact exists_range_of_mem_importHeaders hp hs hm
  obtain ⟨s, he⟩ := hr.succeeds (h.placed hp) h.parent hd hranges
  rw [he] at hr
  obtain ⟨s', hv⟩ := exists_visit (Tree.isRanged_of_parse hp hs) (Uri.ofPath p) s
  exact ⟨_, s', .intro (h.toPath_eq o.disk.cwd) hr hv⟩

/-- The files that an analysis visits before the document cover its imports. -/
theorem Analyzes.covers {acts : List Act} {s : Session} {source : String}
    {xs : List (Path × String × Tree)} (h : Analyzes o (Uri.ofPath p) t acts s) (hm : Tame o p)
    (hn : ∀ m ∈ p.names, m ≠ "..") (hp : parse source = .ok t)
    (hx : visits acts = xs ++ [(p, Uri.ofPath p, t)]) : Covers o p t (xs.map (·.1)) := by
  cases h with
  | @intro _ _ _ acts hq hr hv =>
    cases hq.symm.trans (hm.toPath_eq o.disk.cwd)
    rw [normalize_eq_self hm.isAbsolute hn] at hr
    have hparent : ∀ m ∈ p.parent.names, m ≠ ".." := by
      intro m hm
      exact hn m (List.dropLast_subset _ hm)
    obtain ⟨done, hdone, he⟩ := hr.explores (hm.placed hp) hm.parent hparent List.mem_cons_self rfl
    have hxs : xs = visits acts := by
      rw [visits_append, visits_visit] at hx
      exact (List.append_cancel_right hx).symm
    change _ = done ++ [] at hdone
    rw [hxs, hdone, List.append_nil]
    exact covers_of_explores he

end

end Import

open Import in
/-- The analysis of a document visits its imports and then the document. The imports are loaded from
paths below the directory of the document and go by the addresses of these paths. -/
theorem Analysis.run_folds_imports {d : Disk} {settings : Settings} {p : Path} {source : String}
    {t : Tree} (hp : Tame (optionsOf d settings) p) (hn : ∀ m ∈ p.names, m ≠ "..")
    (ht : parse source = .ok t) (hs : source.length ≤ Position.limit) (hd : IsShort d) :
    ∃ acts s xs, Analyzes (optionsOf d settings) (Uri.ofPath p) t acts s ∧
      (∀ acts' s', Analyzes (optionsOf d settings) (Uri.ofPath p) t acts' s' →
        acts' = acts ∧ s' = s) ∧
      (run d settings (Uri.ofPath p) source).2 =
        .ok ⟨Uri.ofPath p, source, some t, s.fold.table, s.diagnostics⟩ ∧
      visits acts = xs ++ [(p, Uri.ofPath p, t)] ∧
      s.fold.table = foldVisits .empty (visits acts) ∧
      (∀ x ∈ xs, load d x.1 = .ok x.2.2 ∧ ∃ names, x.1 = p.parent.below names ∧
        x.2.1 = Uri.base (Uri.ofPath p) ++ "/".intercalate names) ∧
      Covers (optionsOf d settings) p t (xs.map (·.1)) := by
  obtain ⟨acts, s, h⟩ := hp.exists_analyzes hd ht hs
  obtain ⟨xs, hx, -, hl, htable⟩ := h.folds hp ht
  have hunique : ∀ acts' s', Analyzes (optionsOf d settings) (Uri.ofPath p) t acts' s' →
      acts' = acts ∧ s' = s := by
    intro acts' s' h'
    exact h.unique h'
  have hrun := run_of_analyzes ht h
  have hcovers := h.covers hp hn ht hx
  refine ⟨acts, s, xs, h, hunique, hrun, hx, ?_, ?_, hcovers⟩
  · rw [htable, hx, foldVisits_append]
    rfl
  · intro x hm
    obtain ⟨names, n, hlies⟩ := (hl x hm).lies
    refine ⟨(hl x hm).load_eq, names ++ [n], hlies.path, ?_⟩
    rw [Uri.base_ofPath hp.isWellFormed hp.isAbsolute]
    exact hlies.uri

open Import in
/-- Of two files that import each other and of which the document names one, both are folded. -/
theorem Analysis.run_folds_imports_cycle :
    let d : Disk := ⟨⟨1, ["m"]⟩, [(["m"], .directory),
      (["m", "a.mykt"], .file (Text.Utf8.encode "import b".toList)),
      (["m", "b.mykt"], .file (Text.Utf8.encode "import a".toList))]⟩
    let p : Path := ⟨1, ["m", "c.mykt"]⟩
    ∃ t acts s xs, parse "import a" = .ok t ∧
      Analyzes (optionsOf d {}) (Uri.ofPath p) t acts s ∧
      visits acts = xs ++ [(p, Uri.ofPath p, t)] ∧
      ⟨1, ["m", "a.mykt"]⟩ ∈ xs.map (·.1) ∧ ⟨1, ["m", "b.mykt"]⟩ ∈ xs.map (·.1) := by
  intro d p
  let o : Options := optionsOf d {}
  obtain ⟨t, ht, hi⟩ : ∃ t, parse "import a" = .ok t ∧
      imports o.extension p t = [⟨1, ["m", "a.mykt"]⟩] := by
    refine ⟨_, rfl, ?_⟩
    decide +kernel
  have tame : Tame o p := ⟨⟨by decide, by decide⟩, by decide, by decide, by decide⟩
  obtain ⟨acts, s, xs, h, -, -, hx, -, -, hc⟩ := @run_folds_imports d {} p _ t tame (by decide)
    ht (by decide) (isShort_of_hasShortFiles (by decide))
  have goodA : Good o p ⟨1, ["m", "a.mykt"]⟩ := by decide +kernel
  have goodB : Good o p ⟨1, ["m", "b.mykt"]⟩ := by decide +kernel
  have leads : (⟨1, ["m", "b.mykt"]⟩ : Path) ∈ importsAt o ⟨1, ["m", "a.mykt"]⟩ := by
    decide +kernel
  have named : (⟨1, ["m", "a.mykt"]⟩ : Path) ∈ imports o.extension p t := by
    rw [hi]
    exact List.mem_singleton_self _
  have foldedA := (hc.reachable rfl _).2 ⟨goodA, _, named, .refl⟩
  have foldedB := (hc.reachable rfl _).2 ⟨goodB, _, named, .single ⟨goodA, leads⟩⟩
  exact ⟨t, acts, s, xs, ht, h, hx, foldedA, foldedB⟩

end Mykt
