import Mykt.Proofs.Import.Confinement
import Mykt.Proofs.Server.Freshness

/-!
Rewritten files and the documents that import them. The analysis of a document depends on the disk
wherever its imports are looked up, while a message names one document. Main statements: after a
file has been rewritten and its change told, the answer for an open document is the one of the new
disk, if since a moment without an analysis of the document it has been asked about only while the
disk answered as now wherever its imports lead; an analysis that is kept answers as on the disk it
was made on, whatever has been rewritten and told since.
-/

namespace Mykt

open Import (Alike optionsOf)

theorem Import.Alike.refl (d : Disk) (tested read : Path → Prop) : Alike d d tested read :=
  ⟨rfl, fun _ _ => rfl, fun _ _ => rfl⟩

namespace Analysis

/-- A path where the analysis of a text looks an import up. -/
def LooksUp (d : Disk) (settings : Settings) (uri source : String) (q : Path) : Prop :=
  ∃ t p u, parse source = .ok t ∧ Uri.toPath d.cwd uri = .ok p ∧
    Import.Consults (optionsOf d settings) (.document t.importHeaders uri)
      (Import.Session.start.note (Path.normalize d.cwd p)) q u

/-- Two disks cannot be told apart by the analysis of a text. -/
def Agree (d d' : Disk) (settings : Settings) (uri source : String) : Prop :=
  Alike d d' (LooksUp d settings uri source) (LooksUp d settings uri source)

variable {d d' : Disk} {settings : Settings} {uri source : String} {t : Tree}

theorem foldDocument_of_agree (ht : parse source = .ok t) (h : Agree d d' settings uri source) :
    foldDocument (optionsOf d' settings) uri t .start =
      foldDocument (optionsOf d settings) uri t .start := by
  have hcwd : (optionsOf d' settings).disk.cwd = (optionsOf d settings).disk.cwd := h.cwd
  cases hp : Uri.toPath (optionsOf d settings).disk.cwd uri with
  | error e =>
    rw [Import.foldDocument_homeless hp, Import.foldDocument_homeless (hcwd ▸ hp)]
  | ok p =>
    let marked := Import.Session.start.note (Path.normalize (optionsOf d settings).disk.cwd p)
    obtain ⟨acts, hr⟩ := Import.exists_runs (optionsOf d settings) t.importHeaders uri marked
    have halike : Alike d d' (fun q => ∃ u, Import.Consults (optionsOf d settings)
        (.document t.importHeaders uri) marked q u) fun q => .load q ∈ acts := by
      apply h.mono
      · rintro q ⟨u, hc⟩
        exact ⟨t, p, u, ht, hp, hc⟩
      · intro q hq
        obtain ⟨u, hc⟩ := hr.consults_of_load_mem hq
        exact ⟨t, p, u, ht, hp, hc⟩
    have hresolve : Import.resolve (optionsOf d' settings) t.importHeaders uri marked =
        Import.resolve (optionsOf d settings) t.importHeaders uri marked :=
      (hr.of_alike halike).eq_resolve.symm
    rw [Import.foldDocument_eq hp, Import.foldDocument_eq (hcwd ▸ hp), hcwd, hresolve]

/-- An analysis takes nothing from the disk but the answers where it looks imports up. -/
theorem run_of_agree (h : Agree d d' settings uri source) :
    run d' settings uri source = run d settings uri source := by
  unfold run
  cases ht : parse source with
  | error e => rfl
  | ok t =>
    have hfold := foldDocument_of_agree ht h
    unfold optionsOf at hfold
    dsimp only
    rw [hfold]

end Analysis

namespace Server

/-- Whether a message asks about a document. -/
def Message.asks (uri : String) : Message → Bool
  | .definition v _ => v = uri
  | _ => false

/-- Whether a message drops the analysis of a document. -/
def Message.drops (uri : String) : Message → Bool
  | .started (.object _) => true
  | .started _ => false
  | .opened v _ | .changed v _ | .closed v => v = uri
  | .definition _ _ => false

/-- The text of a document that is open. -/
def openText? (s : Server) (uri : String) : Option String :=
  s.workspace.bind (·.documents.lookup (Workspace.key uri))

/-- The server after messages, each of which comes with the disk as it is by then. -/
def replay (s : Server) (history : List (Disk × Message)) : Server :=
  history.foldl (fun s x => (s.step x.1 x.2).1) s

/-- Whenever a document is asked about while it is open, the disk answers as a given one wherever
the imports of the document lead. -/
def Undisturbed (d : Disk) (uri : String) : Server → List (Disk × Message) → Prop
  | _, [] => True
  | s, (d₀, m) :: history =>
    (m.asks uri = true → ∀ source, s.openText? uri = some source →
      Analysis.Agree d₀ d s.cache.settings uri source) ∧
    Undisturbed d uri (s.step d₀ m).1 history

/-- The analysis kept for a document, if it is open, is the one of its text on a disk. -/
def UpToDate (s : Server) (d : Disk) (uri : String) : Prop :=
  ∀ a source, s.cache.get? uri = some a → s.openText? uri = some source →
    (Analysis.run d s.cache.settings uri source).2 = .ok a

/-- All that the answers for an open document depend on is as it was. -/
structure Spares (s s' : Server) (uri : String) : Prop where
  get? : s'.cache.get? uri = s.cache.get? uri
  settings : s'.cache.settings = s.cache.settings
  openText? : s'.openText? uri = s.openText? uri

section

variable {s s' : Server} {d d₀ : Disk} {uri v : String} {w w' : Workspace} {m : Message}
  {source : String}

theorem Spares.refl (s : Server) (uri : String) : Spares s s uri := ⟨rfl, rfl, rfl⟩

theorem Spares.trans {s'' : Server} (h : Spares s s' uri) (h' : Spares s' s'' uri) :
    Spares s s'' uri :=
  ⟨h'.get?.trans h.get?, h'.settings.trans h.settings, h'.openText?.trans h.openText?⟩

theorem openText?_of_workspace (h : s.workspace = some w) :
    s.openText? uri = w.documents.lookup (Workspace.key uri) := by
  simp [openText?, h]

/-- A message drops the analysis of a document or spares the document. -/
def DropsOrSpares (m : Message) (s s' : Server) (uri : String) : Prop :=
  (m.drops uri = true ∧ s'.cache.get? uri = none) ∨ Spares s s' uri

/-- Dropping one analysis drops that of the document or spares it, if its text stays. -/
theorem discard_cases {documents : Option Workspace} (hm : uri = v → m.drops uri = true)
    (ht : uri ≠ v → documents.bind (·.documents.lookup (Workspace.key uri)) = s.openText? uri) :
    DropsOrSpares m s ⟨s.cache.discard v, documents, s.logLevel⟩ uri := by
  have hget := Cache.get?_discard s.cache v uri
  by_cases hv : uri = v
  · exact .inl ⟨hm hv, hget.trans (if_pos hv)⟩
  · exact .inr ⟨hget.trans (if_neg hv), rfl, ht hv⟩

theorem renewed_cases (hw : s.workspace = some w) (hm : uri = v → m.drops uri = true)
    (ht : uri ≠ v → w'.documents.lookup (Workspace.key uri) =
      w.documents.lookup (Workspace.key uri)) :
    DropsOrSpares m s (s.renewed v w').1 uri := by
  apply discard_cases hm
  intro hv
  rw [openText?_of_workspace hw]
  exact ht hv

theorem onOpened_cases {text : String} (hw : s.workspace = some w)
    (hb : (Message.opened v text).bypasses uri = false) :
    DropsOrSpares (.opened v text) s (s.onOpened w v text).1 uri := by
  unfold Server.onOpened Workspace.opened
  cases Workspace.pathOf v with
  | error e => exact .inr (.refl s uri)
  | ok p =>
    apply renewed_cases hw
    · rintro rfl
      simp [Message.drops]
    · intro hv
      exact Workspace.lookup_replaced (key_ne_of_not_bypasses hb hv)

theorem onChanged_cases {edits : List Edit} (hb : (Message.changed v edits).bypasses uri = false) :
    DropsOrSpares (.changed v edits) s (s.onChanged v edits).1 uri := by
  have hdrops : uri = v → (Message.changed v edits).drops uri = true := by
    rintro rfl
    simp [Message.drops]
  unfold Server.onChanged Workspace.changed
  split
  · exact discard_cases hdrops fun _ => rfl
  · exact .inr (.refl s uri)
  · next w hw =>
    cases w.documents.lookup (Workspace.key v) with
    | none => exact .inr (.refl s uri)
    | some text =>
      apply renewed_cases hw hdrops
      intro hv
      exact Workspace.lookup_replaced (key_ne_of_not_bypasses hb hv)

theorem onClosed_cases (hw : s.workspace = some w)
    (hb : (Message.closed v).bypasses uri = false) :
    DropsOrSpares (.closed v) s (s.onClosed w v).1 uri := by
  apply discard_cases
  · rintro rfl
    simp [Message.drops]
  · intro hv
    rw [openText?_of_workspace hw]
    exact lookup_filter_ne (key_ne_of_not_bypasses hb hv) w.documents

/-- A question makes an analysis of the document only if it is about it and there is none. -/
theorem onDefinition_cases (s : Server) (w : Workspace) (d : Disk) (uri v : String) (p : Position) :
    Spares s (s.onDefinition w d v p).1 uri ∨
      ∃ source a, v = uri ∧ s.cache.get? uri = none ∧ w.text d uri = .ok source ∧
        (Analysis.run d s.cache.settings uri source).2 = .ok a ∧
        (s.onDefinition w d v p).1 =
          { s with cache := { s.cache with entries := s.cache.entries ++ [(uri, a)] } } := by
  unfold Server.onDefinition
  cases ht : w.text d v with
  | error e => exact .inl (.refl s uri)
  | ok source =>
    dsimp only
    rcases Cache.ensure_cases s.cache d v source with
      ⟨a, -, he⟩ | ⟨-, e, events, -, he⟩ | ⟨hn, a, events, hr, he⟩
    · rw [he]
      exact .inl (.refl s uri)
    · rw [he]
      exact .inl (.refl s uri)
    · rw [he]
      by_cases hv : uri = v
      · subst hv
        exact .inr ⟨source, a, rfl, hn, ht, hr, rfl⟩
      · have hget := (Cache.get?_append s.cache hn a uri).trans (if_neg hv)
        exact .inl ⟨hget, rfl, rfl⟩

/-- What a message that does not bypass a document does to it: its analysis is dropped, or nothing
changes, or an analysis of its current text is made for a question. -/
theorem step_cases (s : Server) (d : Disk) (hb : m.bypasses uri = false) :
    DropsOrSpares m s (s.step d m).1 uri ∨
      ∃ w source a, m.asks uri = true ∧ s.cache.get? uri = none ∧ s.workspace = some w ∧
        w.text d uri = .ok source ∧ (Analysis.run d s.cache.settings uri source).2 = .ok a ∧
        (s.step d m).1 =
          { s with cache := { s.cache with entries := s.cache.entries ++ [(uri, a)] } } := by
  unfold Server.step
  split
  · next options =>
    cases options with
    | object => exact .inl (.inl ⟨rfl, Cache.get?_configure s.cache _ uri⟩)
    | _ => cases hb
  · exact .inl (onChanged_cases hb)
  · next hw => exact .inl (onOpened_cases hw hb)
  · next hw => exact .inl (onClosed_cases hw hb)
  · next v p w hw =>
    rcases onDefinition_cases s w d uri v p with hs | ⟨source, a, rfl, hrest⟩
    · exact .inl (.inr hs)
    · exact .inr ⟨w, source, a, by simp [Message.asks], hrest.1, hw, hrest.2⟩
  · exact .inl (.inr (.refl s uri))
  · exact .inl (.inr (.refl s uri))

theorem text_of_openText? (hw : s.workspace = some w) (h : s.openText? uri = some source)
    (d : Disk) : w.text d uri = .ok source := by
  rw [openText?_of_workspace hw] at h
  simp [Workspace.text, h]

theorem upToDate_of_get?_eq_none (h : s.cache.get? uri = none) : s.UpToDate d uri := by
  intro a source ha
  cases h.symm.trans ha

theorem UpToDate.of_spares (h : s.UpToDate d uri) (hs : Spares s s' uri) : s'.UpToDate d uri := by
  intro a source ha ho
  rw [hs.settings]
  exact h a source (hs.get?.symm.trans ha) (hs.openText?.symm.trans ho)

/-- An analysis stays up to date with a disk through a message, if a question that could make one is
put while the disk answers alike. -/
theorem UpToDate.step (h : s.UpToDate d uri) (hb : m.bypasses uri = false)
    (ha : m.asks uri = true → ∀ source, s.openText? uri = some source →
      Analysis.Agree d₀ d s.cache.settings uri source) : (s.step d₀ m).1.UpToDate d uri := by
  rcases step_cases s d₀ hb with (⟨-, hn⟩ | hs) | ⟨w, source, a, hask, hn, hw, ht, hr, hstep⟩
  · exact upToDate_of_get?_eq_none hn
  · exact h.of_spares hs
  · rw [hstep]
    intro b source' hget ho
    have hopen : s.openText? uri = some source' := ho
    cases ht.symm.trans (text_of_openText? hw hopen d₀)
    have hsome := (Cache.get?_append s.cache hn a uri).trans (if_pos rfl)
    cases hsome.symm.trans hget
    exact (congrArg Prod.snd (Analysis.run_of_agree (ha hask source hopen))).trans hr

theorem UpToDate.replay {history : List (Disk × Message)} (h : s.UpToDate d uri)
    (hb : ∀ x ∈ history, x.2.bypasses uri = false) (hu : Undisturbed d uri s history) :
    (s.replay history).UpToDate d uri := by
  induction history generalizing s with
  | nil => exact h
  | cons x history ih =>
    obtain ⟨d₀, m⟩ := x
    simp only [List.mem_cons, forall_eq_or_imp] at hb
    exact ih (h.step hb.1 hu.1) hb.2 hu.2

/-- What is up to date for an open document is fresh. -/
theorem UpToDate.fresh (h : s.UpToDate d uri) (ho : s.openText? uri = some source) :
    s.Fresh d uri := by
  intro a ha
  cases hw : s.workspace with
  | none => simp [openText?, hw] at ho
  | some w => exact ⟨w, source, rfl, text_of_openText? hw ho d, h a source ha ho⟩

/-- The answer of an analysis that is kept for an open document. -/
theorem answer_of_kept {a : Analysis} (ho : s.openText? uri = some source)
    (ha : s.cache.get? uri = some a) (p : Position) :
    (s.step d (.definition uri p)).2.answer = answerOf (a.definitionAt p) := by
  cases hw : s.workspace with
  | none => simp [openText?, hw] at ho
  | some w =>
    unfold Server.step
    simp only [hw, Server.onDefinition, text_of_openText? hw ho, Cache.ensure_of_get? ha]

theorem Undisturbed.append {early late : List (Disk × Message)} (h : Undisturbed d uri s early)
    (h' : Undisturbed d uri (s.replay early) late) : Undisturbed d uri s (early ++ late) := by
  induction early generalizing s with
  | nil => exact h'
  | cons x early ih => exact ⟨h.1, ih h.2 h'⟩

theorem replay_append (s : Server) (early late : List (Disk × Message)) :
    s.replay (early ++ late) = (s.replay early).replay late := List.foldl_append

/-- A document whose analysis is kept is spared by every message that does not drop this. -/
theorem Spares.replay {history : List (Disk × Message)} {a : Analysis}
    (ha : s.cache.get? uri = some a) (hb : ∀ x ∈ history, x.2.bypasses uri = false)
    (hd : ∀ x ∈ history, x.2.drops uri = false) : Spares s (s.replay history) uri := by
  induction history generalizing s with
  | nil => exact .refl s uri
  | cons x history ih =>
    obtain ⟨d₀, m⟩ := x
    simp only [List.mem_cons, forall_eq_or_imp] at hb hd
    have hstep : Spares s (s.step d₀ m).1 uri := by
      rcases step_cases s d₀ hb.1 with (⟨hdrop, -⟩ | hs) | ⟨-, -, -, -, hn, -⟩
      · cases hd.1.symm.trans hdrop
      · exact hs
      · cases hn.symm.trans ha
    exact hstep.trans (ih (hstep.get?.trans ha) hb.2 hd.2)

/-- An analysis that is kept answers as on the disk that it is up to date with, whatever has been
rewritten and told since. -/
theorem definition_eq_of_kept {history : List (Disk × Message)} {a : Analysis}
    (hu : s.UpToDate d₀ uri) (ho : s.openText? uri = some source) (ha : s.cache.get? uri = some a)
    (hb : ∀ x ∈ history, x.2.bypasses uri = false) (hd : ∀ x ∈ history, x.2.drops uri = false)
    (d : Disk) (p : Position) :
    ((s.replay history).step d (.definition uri p)).2.answer = s.uncached d₀ uri p := by
  have hs : Spares s (s.replay history) uri := .replay ha hb hd
  have hopen := hs.openText?.trans ho
  rw [← (hu.fresh ho).answer_eq p, answer_of_kept hopen (hs.get?.trans ha), answer_of_kept ho ha]

end

/-- After a file has been rewritten and its change told, the answer for an open document is the one
of its text on the new disk, if since a moment without an analysis of the document no message has
changed its text past the analysis, and it has been asked about only while the disk answered as now
wherever its imports lead. -/
theorem definition_eq_uncached_of_rewritten {settings : Settings} {logLevel : Nat} {d : Disk}
    {uri rewritten source : String} {edits : List Edit} {early late : List (Disk × Message)}
    (hn : ((start settings logLevel).replay early).cache.get? uri = none)
    (hb : ∀ x ∈ late ++ [(d, .changed rewritten edits)], x.2.bypasses uri = false)
    (hu : Undisturbed d uri ((start settings logLevel).replay early) late)
    (ho : ((start settings logLevel).replay
      (early ++ late ++ [(d, .changed rewritten edits)])).openText? uri = some source)
    (p : Position) :
    let s := (start settings logLevel).replay (early ++ late ++ [(d, .changed rewritten edits)])
    (s.step d (.definition uri p)).2.answer = s.uncached d uri p := by
  intro s
  have hlate : Undisturbed d uri ((start settings logLevel).replay early)
      (late ++ [(d, .changed rewritten edits)]) := hu.append ⟨by simp [Message.asks], trivial⟩
  have hup : s.UpToDate d uri := by
    have hearly : ((start settings logLevel).replay early).UpToDate d uri :=
      upToDate_of_get?_eq_none hn
    show ((start settings logLevel).replay _).UpToDate d uri
    rw [List.append_assoc, replay_append]
    exact hearly.replay hb hlate
  exact (hup.fresh ho).answer_eq p

/-- An importer that is told of a change of its own after the rewriting is answered from the new
disk, and so it stays when the rewritten file is opened and changed. -/
theorem definition_eq_uncached_of_rewritten_told :
    let disk (text : String) : Disk := ⟨⟨1, ["m"]⟩, [(["m"], .directory),
      (["m", "b.mykt"], .file (Text.Utf8.encode text.toList))]⟩
    let old := disk "val x = 1"
    let new := disk "\n\nval x = 1"
    let a := "file:///m/a.mykt"
    let b := "file:///m/b.mykt"
    let p : Position := ⟨1, 8⟩
    let s := (start {} 30).replay ([(old, .started .null), (old, .opened a "import b\nval y = x"),
      (old, .definition a p), (new, .changed a [])] ++ [(new, .opened b "val x = 1"),
      (new, .definition a p)] ++ [(new, .changed b [.whole "\n\nval x = 1"])])
    (s.step new (.definition a p)).2.answer = s.uncached new a p ∧
      s.uncached new a p = .links (some ⟨b, ⟨⟨2, 0⟩, ⟨2, 9⟩⟩, ⟨⟨2, 4⟩, ⟨2, 5⟩⟩, some ⟨p, ⟨1, 9⟩⟩⟩) ∧
      s.uncached old a p ≠ s.uncached new a p := by
  intro disk old new a b p s
  have hn : ((start {} 30).replay [(old, .started .null), (old, .opened a "import b\nval y = x"),
      (old, .definition a p), (new, .changed a [])]).cache.get? a = none := by
    decide +kernel
  have hb : ∀ x ∈ [(new, Message.opened b "val x = 1"), (new, .definition a p)] ++
      [(new, .changed b [.whole "\n\nval x = 1"])], x.2.bypasses a = false := by
    decide +kernel
  have hu : Undisturbed new a ((start {} 30).replay [(old, .started .null),
      (old, .opened a "import b\nval y = x"), (old, .definition a p), (new, .changed a [])])
      [(new, .opened b "val x = 1"), (new, .definition a p)] :=
    ⟨fun _ _ _ => .refl .., fun _ _ _ => .refl .., trivial⟩
  have ho : s.openText? a = some "import b\nval y = x" := by decide +kernel
  exact ⟨definition_eq_uncached_of_rewritten hn hb hu ho p, by decide +kernel, by decide +kernel⟩

/-- An importer that has been asked about before the rewriting is answered with where the
declaration stood in the old file, though the change of the file has been told. -/
theorem definition_stale_of_rewritten :
    let disk (text : String) : Disk := ⟨⟨1, ["m"]⟩, [(["m"], .directory),
      (["m", "b.mykt"], .file (Text.Utf8.encode text.toList))]⟩
    let old := disk "val x = 1"
    let new := disk "\n\nval x = 1"
    let a := "file:///m/a.mykt"
    let b := "file:///m/b.mykt"
    let p : Position := ⟨1, 8⟩
    let s := (start {} 30).replay [(old, .started .null), (old, .opened a "import b\nval y = x"),
      (old, .definition a p), (new, .opened b "val x = 1"),
      (new, .changed b [.whole "\n\nval x = 1"])]
    (s.step new (.definition a p)).2.answer =
        .links (some ⟨b, ⟨⟨0, 0⟩, ⟨0, 9⟩⟩, ⟨⟨0, 4⟩, ⟨0, 5⟩⟩, some ⟨p, ⟨1, 9⟩⟩⟩) ∧
      s.uncached new a p =
        .links (some ⟨b, ⟨⟨2, 0⟩, ⟨2, 9⟩⟩, ⟨⟨2, 4⟩, ⟨2, 5⟩⟩, some ⟨p, ⟨1, 9⟩⟩⟩) := by
  decide +kernel

end Server

end Mykt
