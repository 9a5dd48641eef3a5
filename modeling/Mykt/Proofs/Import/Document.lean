import Mykt.Analysis
import Mykt.Proofs.Import.Folding

/-!
What the analysis of a document does. Main statements: an analysis that ends has one list of acts;
the document is visited last, after loaded trees, and after located ones if its address is known.
-/

namespace Mykt

namespace Import

/-- An analysis that ends: the document is marked, its imports are resolved, and it is visited. -/
inductive Analyzes (o : Options) (uri : String) (t : Tree) : List Act → Session → Prop where
  | intro {p : Path} {s s' : Session} {acts : List Act} (hm : Uri.toPath o.disk.cwd uri = .ok p)
      (hr : Runs o (.document t.importHeaders uri)
        (Session.start.note (Path.normalize o.disk.cwd p)) acts (.ok () s))
      (hv : Session.visit uri t s = .ok () s') :
      Analyzes o uri t (.mark p :: acts ++ [.visit p uri t]) s'

section

variable {o : Options} {uri : String} {t : Tree} {acts : List Act} {s s' : Session}

theorem foldDocument_eq {p : Path} (h : Uri.toPath o.disk.cwd uri = .ok p) :
    Analysis.foldDocument o uri t .start =
      match resolve o t.importHeaders uri (Session.start.note (Path.normalize o.disk.cwd p)) with
      | .ok _ s => Session.visit uri t s
      | .error e s => .error e s := by
  simp only [Analysis.foldDocument, bind, EStateM.bind, markVisited_of_ok h]
  cases resolve o t.importHeaders uri _ <;> rfl

theorem foldDocument_homeless {e : Uri.HostError} (h : Uri.toPath o.disk.cwd uri = .error e) :
    Analysis.foldDocument o uri t .start = .error (.host e) .start := by
  simp only [Analysis.foldDocument, bind, EStateM.bind, markVisited_of_error h]

/-- Folding a document ends as its acts say. -/
theorem foldDocument_eq_ok_iff :
    Analysis.foldDocument o uri t .start = .ok () s ↔ ∃ acts, Analyzes o uri t acts s := by
  constructor
  · intro h
    cases hm : Uri.toPath o.disk.cwd uri with
    | error e => cases (foldDocument_homeless hm).symm.trans h
    | ok p =>
      rw [foldDocument_eq hm] at h
      obtain ⟨acts, hr⟩ := exists_runs o t.importHeaders uri
        (Session.start.note (Path.normalize o.disk.cwd p))
      split at h
      · next he =>
        rw [he] at hr
        exact ⟨_, .intro hm hr h⟩
      · cases h
  · intro hx
    obtain ⟨acts, hm, hr, hv⟩ := hx
    rw [foldDocument_eq hm, ← hr.eq_resolve]
    exact hv

theorem Analyzes.unique {acts' : List Act} (h : Analyzes o uri t acts s)
    (h' : Analyzes o uri t acts' s') : acts' = acts ∧ s' = s := by
  cases h with
  | intro hm hr hv =>
    cases h' with
    | intro hm' hr' hv' =>
      cases hm.symm.trans hm'
      obtain ⟨rfl, he⟩ := hr.unique hr'
      cases he
      cases hv.symm.trans hv'
      exact ⟨rfl, rfl⟩

end

/-- How the imports of a document are resolved. -/
def optionsOf (d : Disk) (settings : Settings) : Options :=
  ⟨d, settings.fileExtension, settings.followTransitiveImports⟩

section

variable {d : Disk} {settings : Settings} {uri source : String} {t : Tree}

theorem run_of_analyzes {acts : List Act} {s : Session} (hp : parse source = .ok t)
    (h : Analyzes (optionsOf d settings) uri t acts s) :
    (Analysis.run d settings uri source).2 =
      .ok ⟨uri, source, some t, s.fold.table, s.diagnostics⟩ := by
  have hf := foldDocument_eq_ok_iff.2 ⟨acts, h⟩
  unfold Analysis.run
  rw [hp]
  dsimp only
  rw [optionsOf] at hf
  rw [hf]

theorem exists_analyzes_of_run {a : Analysis} (hp : parse source = .ok t)
    (h : (Analysis.run d settings uri source).2 = .ok a) :
    ∃ acts s, Analyzes (optionsOf d settings) uri t acts s ∧
      a = ⟨uri, source, some t, s.fold.table, s.diagnostics⟩ := by
  unfold Analysis.run at h
  rw [hp] at h
  dsimp only at h
  split at h
  · cases h
  · next s hf =>
    cases h
    obtain ⟨acts, ha⟩ := foldDocument_eq_ok_iff.1 hf
    exact ⟨acts, s, ha, rfl⟩

end

section

variable {o : Options} {p : Path} {source : String} {t : Tree} {acts : List Act} {s : Session}

theorem Tame.toPath_eq (h : Tame o p) (cwd : Path) : Uri.toPath cwd (Uri.ofPath p) = .ok p :=
  Uri.toPath_ofPath h.isWellFormed h.isAbsolute h.hasDrive cwd

theorem Tame.parent (h : Tame o p) : Tame o p.parent where
  isWellFormed := Path.isWellFormed_parent h.isWellFormed
  isAbsolute := h.isAbsolute
  hasDrive := Uri.hasDrive_parent h.hasDrive
  extension := h.extension

theorem Tame.placed_document {hs : List Tree} (h : Tame o p) (hh : ∀ header ∈ hs, IsHeader header) :
    Placed o p.parent (.document hs (Uri.ofPath p))
      (hs.map fun header => p.parent.below (withExtension header.importParts o.extension)) := by
  have hb : Uri.base (Uri.ofPath p) = Uri.ofFolder (p.parent.below []) := by
    rw [Uri.base_ofPath h.isWellFormed h.isAbsolute]
    simp [Path.below]
  have hplaced := Placed.document (o := o) (by simp) hb hh
  simpa [Path.below] using hplaced

theorem Tame.placed (h : Tame o p) (hp : parse source = .ok t) :
    Placed o p.parent (.document t.importHeaders (Uri.ofPath p)) (imports o.extension p t) := by
  apply h.placed_document
  intro header hm
  exact isHeader_of_parse hp hm

/-- A document is visited last, after loaded trees, wherever it stands. -/
theorem Analyzes.loads {uri : String} (h : Analyzes o uri t acts s) (hp : parse source = .ok t) :
    ∃ p xs, visits acts = xs ++ [(p, uri, t)] ∧ t.IsRanged ∧ (∀ x ∈ xs, Loaded o x) ∧
      s.fold.table = (foldVisits .empty xs).visited uri t := by
  cases h with
  | @intro p _ _ acts _ hr hv =>
    have hl := hr.loads trivial rfl
    obtain ⟨hranged, htable⟩ := visited_of_visit (conforms_of_parse hp).1 hv
    refine ⟨p, visits acts, ?_, hranged, hl.loaded, ?_⟩
    · rw [visits_append, visits_visit]
      rfl
    · rw [htable, hl.table]
      rfl

/-- The main document is visited last, after located trees. -/
theorem Analyzes.folds (h : Analyzes o (Uri.ofPath p) t acts s) (hm : Tame o p)
    (hp : parse source = .ok t) :
    ∃ xs, visits acts = xs ++ [(p, Uri.ofPath p, t)] ∧ t.IsRanged ∧
      (∀ x ∈ xs, Located o p.parent x) ∧
      s.fold.table = (foldVisits .empty xs).visited (Uri.ofPath p) t := by
  cases h with
  | @intro _ _ _ acts hq hr hv =>
    cases hq.symm.trans (hm.toPath_eq o.disk.cwd)
    have hf := hr.folds (hm.placed hp) hm.parent rfl
    obtain ⟨hranged, htable⟩ := visited_of_visit (conforms_of_parse hp).1 hv
    refine ⟨visits acts, ?_, hranged, hf.located, ?_⟩
    · rw [visits_append, visits_visit]
      rfl
    · rw [htable, hf.table]
      rfl

end

end Import

end Mykt
