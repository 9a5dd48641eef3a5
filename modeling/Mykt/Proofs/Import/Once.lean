import Mathlib.Data.List.Basic
import Mykt.Proofs.Import.Run

/-!
One session folds a file at most once. Main statements: a run loads no file that was visited before
it and none twice; over any calls of one session every call ends, no file is loaded after it was
loaded or marked, and no file is visited twice.
-/

namespace Mykt.Import

/-- The path that is not to be loaded from now on. -/
def Act.claimed? : Act → Option Path
  | mark p => some p
  | load p => some p
  | visit _ _ _ => none

/-- No file is loaded that was loaded or marked before, however its path is written. -/
def LoadsOnce (cwd : Path) (acts : List Act) : Prop :=
  acts.Pairwise fun a b => ∀ p q, a.claimed? = some p → b = .load q →
    Path.normalize cwd p ≠ Path.normalize cwd q

/-- No file is visited twice, however its path is written. -/
def VisitsOnce (cwd : Path) (acts : List Act) : Prop :=
  acts.Pairwise fun a b => ∀ p uri t q uri' t', a = .visit p uri t → b = .visit q uri' t' →
    Path.normalize cwd p ≠ Path.normalize cwd q

/-- What a part of a session does between two sets of visited files. The files of `own` were loaded
before it and may still be visited. -/
structure Fresh (cwd : Path) (own : List Path) (acts : List Act) (before after : List Path) :
    Prop where
  grows : before ⊆ after
  claimed : ∀ a ∈ acts, ∀ p, a.claimed? = some p → Path.normalize cwd p ∈ after
  unseen : ∀ p, .load p ∈ acts → Path.normalize cwd p ∉ before
  backed : ∀ p uri t, .visit p uri t ∈ acts → Path.normalize cwd p ∈ own ∨
    ∃ q, .load q ∈ acts ∧ Path.normalize cwd q = Path.normalize cwd p
  loadsOnce : LoadsOnce cwd acts
  visitsOnce : VisitsOnce cwd acts

namespace Fresh

variable {cwd p : Path} {own before middle after : List Path} {acts rest : List Act}

theorem nil (cwd : Path) (own before : List Path) : Fresh cwd own [] before before where
  grows := List.Subset.refl _
  claimed := by simp
  unseen := by simp
  backed := by simp
  loadsOnce := .nil
  visitsOnce := .nil

theorem append (h₁ : Fresh cwd [] acts before middle) (h₂ : Fresh cwd [] rest middle after) :
    Fresh cwd [] (acts ++ rest) before after where
  grows := List.Subset.trans h₁.grows h₂.grows
  claimed a ha p hp := by
    rcases List.mem_append.1 ha with ha | ha
    · exact h₂.grows (h₁.claimed a ha p hp)
    · exact h₂.claimed a ha p hp
  unseen p hp := by
    rcases List.mem_append.1 hp with hp | hp
    · exact h₁.unseen p hp
    · intro hb
      exact h₂.unseen p hp (h₁.grows hb)
  backed p uri t hv := by
    rcases List.mem_append.1 hv with hv | hv
    · obtain hn | ⟨q, hq, he⟩ := h₁.backed p uri t hv
      · cases hn
      · exact .inr ⟨q, List.mem_append_left _ hq, he⟩
    · obtain hn | ⟨q, hq, he⟩ := h₂.backed p uri t hv
      · cases hn
      · exact .inr ⟨q, List.mem_append_right _ hq, he⟩
  loadsOnce := by
    refine List.pairwise_append.2 ⟨h₁.loadsOnce, h₂.loadsOnce, ?_⟩
    intro a ha b hb p q hp hsame he
    subst hsame
    apply h₂.unseen q hb
    rw [← he]
    exact h₁.claimed a ha p hp
  visitsOnce := by
    refine List.pairwise_append.2 ⟨h₁.visitsOnce, h₂.visitsOnce, ?_⟩
    intro a ha b hb p uri t q uri' t' hsame hsame' he
    subst hsame
    subst hsame'
    obtain hn | ⟨p', hp', hep⟩ := h₁.backed p uri t ha
    · cases hn
    obtain hn | ⟨q', hq', heq⟩ := h₂.backed q uri' t' hb
    · cases hn
    apply h₂.unseen q' hq'
    rw [heq, ← he, ← hep]
    exact h₁.claimed _ hp' _ rfl

/-- A file that is loaded may be visited later. -/
theorem cons_load (hp : Path.normalize cwd p ∉ before)
    (h : Fresh cwd [Path.normalize cwd p] acts (Path.normalize cwd p :: before) after) :
    Fresh cwd [] (.load p :: acts) before after where
  grows := List.Subset.trans (List.subset_cons_self _ _) h.grows
  claimed a ha q hq := by
    rcases List.mem_cons.1 ha with rfl | ha
    · obtain rfl : p = q := by simpa [Act.claimed?] using hq
      exact h.grows List.mem_cons_self
    · exact h.claimed a ha q hq
  unseen q hq := by
    rcases List.mem_cons.1 hq with he | hq
    · cases he
      exact hp
    · intro hb
      exact h.unseen q hq (List.mem_cons_of_mem _ hb)
  backed q uri t hv := by
    rcases List.mem_cons.1 hv with he | hv
    · cases he
    · obtain hn | ⟨r, hr, he⟩ := h.backed q uri t hv
      · exact .inr ⟨p, List.mem_cons_self, (List.mem_singleton.1 hn).symm⟩
      · exact .inr ⟨r, List.mem_cons_of_mem _ hr, he⟩
  loadsOnce := by
    refine List.pairwise_cons.2 ⟨?_, h.loadsOnce⟩
    intro b hb q r hq hsame he
    subst hsame
    obtain rfl : p = q := by simpa [Act.claimed?] using hq
    apply h.unseen r hb
    rw [← he]
    exact List.mem_cons_self
  visitsOnce := by
    refine List.pairwise_cons.2 ⟨?_, h.visitsOnce⟩
    intro b hb q uri t r uri' t' he
    cases he

/-- A file that was loaded before is visited after the files that it imports. -/
theorem snoc_visit (hp : Path.normalize cwd p ∈ before) (h : Fresh cwd [] acts before after)
    (uri : String) (t : Tree) :
    Fresh cwd [Path.normalize cwd p] (acts ++ [.visit p uri t]) before after where
  grows := h.grows
  claimed a ha q hq := by
    rcases List.mem_append.1 ha with ha | ha
    · exact h.claimed a ha q hq
    · obtain rfl := List.mem_singleton.1 ha
      cases hq
  unseen q hq := by
    rcases List.mem_append.1 hq with hq | hq
    · exact h.unseen q hq
    · cases List.mem_singleton.1 hq
  backed q uri' t' hv := by
    rcases List.mem_append.1 hv with hv | hv
    · obtain hn | ⟨r, hr, he⟩ := h.backed q uri' t' hv
      · cases hn
      · exact .inr ⟨r, List.mem_append_left _ hr, he⟩
    · cases List.mem_singleton.1 hv
      exact .inl (List.mem_singleton.2 rfl)
  loadsOnce := by
    refine List.pairwise_append.2 ⟨h.loadsOnce, List.pairwise_singleton _ _, ?_⟩
    intro a _ b hb q r _ hsame
    subst hsame
    cases List.mem_singleton.1 hb
  visitsOnce := by
    refine List.pairwise_append.2 ⟨h.visitsOnce, List.pairwise_singleton _ _, ?_⟩
    intro a ha b hb q uri' t' r uri'' t'' hsame hsame' he
    subst hsame
    subst hsame'
    cases List.mem_singleton.1 hb
    obtain hn | ⟨q', hq', heq⟩ := h.backed q uri' t' ha
    · cases hn
    · apply h.unseen q' hq'
      rw [heq, he]
      exact hp

theorem mark (cwd p : Path) (before : List Path) :
    Fresh cwd [] [.mark p] before (Path.normalize cwd p :: before) where
  grows := List.subset_cons_self _ _
  claimed a ha q hq := by
    obtain rfl := List.mem_singleton.1 ha
    obtain rfl : p = q := by simpa [Act.claimed?] using hq
    exact List.mem_cons_self
  unseen q hq := by cases List.mem_singleton.1 hq
  backed q uri t hv := by cases List.mem_singleton.1 hv
  loadsOnce := List.pairwise_singleton _ _
  visitsOnce := List.pairwise_singleton _ _

end Fresh

/-- The file that a job may visit though it was loaded before the job. -/
def Job.own (cwd : Path) : Job → List Path
  | loaded p _ _ => [Path.normalize cwd p]
  | _ => []

theorem Looks.fresh {d : Disk} {p : Path} {s s' : Session} {acts : List Act} {found : Found}
    (h : Looks d p s acts found s') : Fresh d.cwd [] acts s.visited s'.visited := by
  cases h with
  | unknown | missing | skipped => exact .nil _ _ _
  | broken _ hv | loaded _ hv => exact .cons_load hv (.nil _ _ _)

/-- A run loads no file that was visited before it, and visits only what it loads. -/
theorem Runs.fresh {o : Options} {j : Job} {s : Session} {acts : List Act} {r : Outcome}
    (h : Runs o j s acts r) (hj : j.own o.disk.cwd ⊆ s.visited) :
    Fresh o.disk.cwd (j.own o.disk.cwd) acts s.visited r.session.visited := by
  induction h with
  | homeless | done | unnamed => exact .nil _ _ _
  | document _ _ ih | stop _ ih => exact ih hj
  | next _ _ ih ihs => exact (ih hj).append (ihs (List.nil_subset _))
  | failed _ hl =>
    rw [visited_report]
    exact hl.fresh
  | skipped _ hl => exact hl.fresh
  | loaded _ hl _ ih =>
    cases hl with
    | loaded _ hv _ => exact .cons_load hv (ih (by simp [Job.own, Session.note]))
  | @alone p uri t s _ =>
    rw [visited_visit]
    exact Fresh.snoc_visit (hj (by simp [Job.own])) (.nil _ _ _) uri t
  | broken _ _ ih =>
    have inner := ih (List.nil_subset _)
    refine { inner with backed := ?_ }
    intro p uri t hv
    obtain hn | hq := inner.backed p uri t hv
    · cases hn
    · exact .inr hq
  | @after p uri t s s' acts _ _ ih =>
    rw [visited_visit]
    exact Fresh.snoc_visit (hj (by simp [Job.own])) (ih (List.nil_subset _)) uri t

/-- A call of one session. Each call to resolve imports folds into a table of its own choice. -/
inductive Call where
  | mark (uri : String)
  | resolve (fold : Fold) (headers : List Tree) (uri : String)

def Call.run (o : Options) : Call → Step Unit
  | mark uri => markVisited o.disk.cwd uri
  | resolve fold headers uri => fun s => Import.resolve o headers uri { s with fold := fold }

/-- What a call does. -/
inductive Call.Does (o : Options) : Call → Session → List Act → Outcome → Prop where
  | marked {uri : String} {s : Session} {p : Path} (h : Uri.toPath o.disk.cwd uri = .ok p) :
      Does o (mark uri) s [.mark p] (.ok () (s.note (Path.normalize o.disk.cwd p)))
  | unmarked {uri : String} {s : Session} {e : Uri.HostError}
      (h : Uri.toPath o.disk.cwd uri = .error e) : Does o (mark uri) s [] (.error (.host e) s)
  | resolved {fold : Fold} {headers : List Tree} {uri : String} {s : Session} {acts : List Act}
      {r : Outcome} (h : Runs o (.document headers uri) { s with fold := fold } acts r) :
      Does o (resolve fold headers uri) s acts r

/-- What calls do one after the other. A call that fails leaves the session as it was then. -/
inductive Happens (o : Options) : List Call → Session → List Act → Session → Prop where
  | nil {s : Session} : Happens o [] s [] s
  | cons {c : Call} {cs : List Call} {s s' : Session} {acts rest : List Act} {r : Outcome}
      (h : c.Does o s acts r) (hs : Happens o cs r.session rest s') :
      Happens o (c :: cs) s (acts ++ rest) s'

section

variable {o : Options} {c : Call} {cs : List Call} {s s' : Session} {acts : List Act} {r : Outcome}

theorem Call.exists_does (o : Options) (c : Call) (s : Session) :
    ∃ acts, c.Does o s acts (c.run o s) := by
  cases c with
  | mark uri =>
    cases h : Uri.toPath o.disk.cwd uri with
    | ok p =>
      refine ⟨[.mark p], ?_⟩
      rw [run, markVisited_of_ok h]
      exact .marked h
    | error e =>
      refine ⟨[], ?_⟩
      rw [run, markVisited_of_error h]
      exact .unmarked h
  | resolve fold headers uri =>
    obtain ⟨acts, h⟩ := exists_runs o headers uri { s with fold := fold }
    exact ⟨acts, .resolved h⟩

theorem Call.Does.unique {acts' : List Act} {r' : Outcome} (h : c.Does o s acts r)
    (h' : c.Does o s acts' r') : acts = acts' ∧ r = r' := by
  cases h with
  | marked h | unmarked h => cases h' <;> simp_all
  | resolved h =>
    cases h' with
    | resolved h' => exact h.unique h'

theorem Call.Does.fresh (h : c.Does o s acts r) :
    Fresh o.disk.cwd [] acts s.visited r.session.visited := by
  cases h with
  | marked => exact .mark _ _ _
  | unmarked => exact .nil _ _ _
  | resolved h => exact h.fresh (List.nil_subset _)

theorem Happens.unique {acts' : List Act} {s'' : Session} (h : Happens o cs s acts s')
    (h' : Happens o cs s acts' s'') : acts = acts' ∧ s' = s'' := by
  induction h generalizing acts' s'' with
  | nil =>
    cases h'
    exact ⟨rfl, rfl⟩
  | cons h _ ih =>
    cases h' with
    | cons h' hs' =>
      obtain ⟨rfl, rfl⟩ := h.unique h'
      obtain ⟨rfl, rfl⟩ := ih hs'
      exact ⟨rfl, rfl⟩

theorem Happens.fresh (h : Happens o cs s acts s') :
    Fresh o.disk.cwd [] acts s.visited s'.visited := by
  induction h with
  | nil => exact .nil _ _ _
  | cons h _ ih => exact h.fresh.append ih

theorem exists_happens (o : Options) (cs : List Call) (s : Session) :
    ∃ acts, Happens o cs s acts (cs.foldl (fun s c => Outcome.session (c.run o s)) s) := by
  induction cs generalizing s with
  | nil => exact ⟨[], .nil⟩
  | cons c cs ih =>
    obtain ⟨acts, h⟩ := c.exists_does o s
    obtain ⟨rest, hs⟩ := ih (Outcome.session (c.run o s))
    exact ⟨acts ++ rest, .cons h hs⟩

/-- Any calls of one session end, each as the resolver says, and over all of them no file is loaded
that was loaded or marked before, and none is visited twice. -/
theorem calls_load_once (o : Options) (cs : List Call) :
    ∃ acts s, Happens o cs .start acts s ∧
      s = cs.foldl (fun s c => Outcome.session (c.run o s)) .start ∧
      (∀ acts' s', Happens o cs .start acts' s' → acts' = acts ∧ s' = s) ∧
      LoadsOnce o.disk.cwd acts ∧ VisitsOnce o.disk.cwd acts := by
  obtain ⟨acts, h⟩ := exists_happens o cs .start
  have hfresh := h.fresh
  refine ⟨acts, _, h, rfl, ?_, hfresh.loadsOnce, hfresh.visitsOnce⟩
  intro acts' s' h'
  exact h'.unique h

end

end Mykt.Import
