import Mykt.Proofs.Cache.History
import Mykt.Server

/-!
When answers are those of the current text. A kept analysis is fresh if it is the one that would be
made now. Messages about a document drop the analysis that is kept under its address as written,
while the documents of the editor are known by their decoded addresses. Main statements: an answer
is that of the current text if no message has changed the text past the analysis since this was
made; a change under another spelling of the address does, and the old answer is given.
-/

namespace Mykt

namespace Workspace

variable {w w' : Workspace} {uri v : String} {d : Disk}

theorem text_congr (h : w'.documents.lookup (key uri) = w.documents.lookup (key uri)) :
    w'.text d uri = w.text d uri := by
  simp only [text, h]

theorem lookup_replaced {t : String} (hk : key uri ≠ key v) :
    ((key v, t) :: w.documents.filter (·.1 ≠ key v)).lookup (key uri) =
      w.documents.lookup (key uri) := by
  have hb : (key uri == key v) = false := by simpa using hk
  rw [List.lookup_cons, hb]
  exact lookup_filter_ne hk w.documents

theorem text_opened {t : String} (h : w.opened v t = .ok w') (hk : key uri ≠ key v) :
    w'.text d uri = w.text d uri := by
  unfold opened at h
  split at h
  · cases h
  · cases h
    exact text_congr (lookup_replaced hk)

theorem text_changed {edits : List Edit} (h : w.changed v edits = .ok w')
    (hk : key uri ≠ key v) : w'.text d uri = w.text d uri := by
  unfold changed at h
  split at h
  · cases h
  · cases h
    exact text_congr (lookup_replaced hk)

theorem text_closed (hk : key uri ≠ key v) : (w.closed v).text d uri = w.text d uri :=
  text_congr (lookup_filter_ne hk w.documents)

end Workspace

namespace Server

/-- The answer to a question for a definition if nothing were kept. -/
def uncached (s : Server) (d : Disk) (uri : String) (p : Position) : Answer :=
  match s.workspace with
  | none => .failed .notStarted
  | some w =>
    match w.text d uri with
    | .error e => .failed (.ofWorkspace e)
    | .ok source =>
      match (Analysis.run d s.cache.settings uri source).2 with
      | .error f => .failed (.failure (.ofImport f))
      | .ok a => answerOf (a.definitionAt p)

/-- Whether a message can change the text of a document past its analysis: it is about another
spelling of the address, or it starts anew and keeps the settings. -/
def Message.bypasses (uri : String) : Message → Bool
  | .started (.object _) => false
  | .started _ => true
  | .opened v _ | .changed v _ | .closed v => v ≠ uri && Workspace.key v = Workspace.key uri
  | .definition _ _ => false

/-- The analysis kept for a document, if any, is the one of its current text. -/
def Fresh (s : Server) (d : Disk) (uri : String) : Prop :=
  ∀ a, s.cache.get? uri = some a → ∃ w source, s.workspace = some w ∧
    w.text d uri = .ok source ∧ (Analysis.run d s.cache.settings uri source).2 = .ok a

/-- The server after messages. -/
def after (s : Server) (d : Disk) (ms : List Message) : Server :=
  ms.foldl (fun s m => (s.step d m).1) s

section

variable {s : Server} {d : Disk} {uri v : String} {w w' : Workspace}

theorem fresh_of_get?_eq_none (h : s.cache.get? uri = none) : s.Fresh d uri := by
  intro a ha
  cases h.symm.trans ha

/-- Dropping one analysis keeps the others fresh, if their texts stay as they are. -/
theorem Fresh.discard {documents : Option Workspace} (h : s.Fresh d uri)
    (ht : uri ≠ v → ∀ w, s.workspace = some w →
      ∃ w', documents = some w' ∧ w'.text d uri = w.text d uri) :
    Fresh ⟨s.cache.discard v, documents, s.logLevel⟩ d uri := by
  intro a ha
  have hget : (s.cache.discard v).get? uri = some a := ha
  rw [Cache.get?_discard] at hget
  split at hget
  · cases hget
  · next hv =>
    obtain ⟨w, source, hw, htext, hrun⟩ := h a hget
    obtain ⟨w', hw', heq⟩ := ht hv w hw
    exact ⟨w', source, hw', heq.trans htext, hrun⟩

theorem Fresh.touched (h : s.Fresh d uri) (v : String) : (s.touched v).1.Fresh d uri := by
  apply h.discard
  intro _ w hw
  exact ⟨w, hw, rfl⟩

theorem Fresh.renewed (h : s.Fresh d uri) (hw : s.workspace = some w)
    (ht : uri ≠ v → w'.text d uri = w.text d uri) : (s.renewed v w').1.Fresh d uri := by
  apply h.discard
  intro hv w₀ hw₀
  cases hw₀.symm.trans hw
  exact ⟨w', rfl, ht hv⟩

/-- A message about another document that does not bypass is about another key. -/
theorem key_ne_of_not_bypasses (hb : (v ≠ uri && Workspace.key v = Workspace.key uri) = false)
    (hv : uri ≠ v) : Workspace.key uri ≠ Workspace.key v := by
  intro hk
  simp [hk, Ne.symm hv] at hb

theorem Fresh.onStarted {options : Json} (h : (Message.started options).bypasses uri = false) :
    (s.onStarted options).1.Fresh d uri := by
  cases options with
  | object => exact fresh_of_get?_eq_none (Cache.get?_configure s.cache _ uri)
  | _ => cases h

theorem Fresh.onOpened {text : String} (h : s.Fresh d uri) (hw : s.workspace = some w)
    (hb : (Message.opened v text).bypasses uri = false) :
    (s.onOpened w v text).1.Fresh d uri := by
  unfold Server.onOpened
  split
  · exact h
  · next w' ho =>
    apply h.renewed hw
    intro hv
    exact Workspace.text_opened ho (key_ne_of_not_bypasses hb hv)

theorem Fresh.onChanged {edits : List Edit} (h : s.Fresh d uri)
    (hb : (Message.changed v edits).bypasses uri = false) :
    (s.onChanged v edits).1.Fresh d uri := by
  unfold Server.onChanged
  split
  · exact h.touched v
  · exact h
  · next hw =>
    split
    · exact h
    · next w' hc =>
      apply h.renewed hw
      intro hv
      exact Workspace.text_changed hc (key_ne_of_not_bypasses hb hv)

theorem Fresh.onClosed (h : s.Fresh d uri) (hw : s.workspace = some w)
    (hb : (Message.closed v).bypasses uri = false) : (s.onClosed w v).1.Fresh d uri := by
  apply h.discard
  intro hv w₀ hw₀
  cases hw₀.symm.trans hw
  exact ⟨w.closed v, rfl, Workspace.text_closed (key_ne_of_not_bypasses hb hv)⟩

/-- A question for a definition keeps what is fresh, and what it adds is fresh. -/
theorem Fresh.onDefinition (h : s.Fresh d uri) (hw : s.workspace = some w) (v : String)
    (p : Position) : (s.onDefinition w d v p).1.Fresh d uri := by
  unfold Server.onDefinition
  split
  · exact h
  · next source ht =>
    dsimp only
    rcases Cache.ensure_cases s.cache d v source with
      ⟨a, -, he⟩ | ⟨-, e, events, -, he⟩ | ⟨hn, a, events, hr, he⟩
    · rw [he]
      exact h
    · rw [he]
      exact h
    · rw [he]
      intro b hb
      have hget := (Cache.get?_append s.cache hn a uri).symm.trans hb
      split at hget
      · next hv =>
        subst hv
        cases hget
        exact ⟨w, source, hw, ht, hr⟩
      · exact h b hget

/-- A message that does not bypass a document keeps its analysis fresh. -/
theorem Fresh.step {m : Message} (h : s.Fresh d uri) (hb : m.bypasses uri = false) :
    (s.step d m).1.Fresh d uri := by
  unfold Server.step
  split
  · exact .onStarted hb
  · exact h.onChanged hb
  · next hw => exact h.onOpened hw hb
  · next hw => exact h.onClosed hw hb
  · next hw => exact h.onDefinition hw _ _
  · exact h
  · exact h

theorem Fresh.after {ms : List Message} (h : s.Fresh d uri)
    (hb : ∀ m ∈ ms, m.bypasses uri = false) : (s.after d ms).Fresh d uri := by
  induction ms generalizing s with
  | nil => exact h
  | cons m ms ih =>
    simp only [List.mem_cons, forall_eq_or_imp] at hb
    exact ih (h.step hb.1) hb.2

/-- Where the analysis that is kept is fresh, the answer is as if nothing were kept. -/
theorem Fresh.answer_eq (h : s.Fresh d uri) (p : Position) :
    (s.step d (.definition uri p)).2.answer = s.uncached d uri p := by
  cases hw : s.workspace with
  | none =>
    unfold Server.step uncached
    rw [hw]
  | some w =>
    have hstep : s.step d (.definition uri p) = s.onDefinition w d uri p := by
      unfold Server.step
      rw [hw]
    rw [hstep]
    simp only [Server.onDefinition, uncached, hw]
    cases ht : w.text d uri with
    | error e => rfl
    | ok source =>
      dsimp only
      rcases Cache.ensure_cases s.cache d uri source with
        ⟨a, ha, he⟩ | ⟨-, e, events, hr, he⟩ | ⟨-, a, events, hr, he⟩
      · obtain ⟨w₀, source₀, hw₀, ht₀, hr⟩ := h a ha
        cases hw₀.symm.trans hw
        cases ht₀.symm.trans ht
        rw [he, hr]
      · rw [he, hr]
      · rw [he, hr]

end

/-- The answer to a question for a definition is the one of the current text and settings, if since
a moment without an analysis of the document no message has changed its text past the analysis. -/
theorem definition_eq_uncached {settings : Settings} {logLevel : Nat} {d : Disk} {uri : String}
    {early late : List Message}
    (hn : ((start settings logLevel).after d early).cache.get? uri = none)
    (hb : ∀ m ∈ late, m.bypasses uri = false) (p : Position) :
    (((start settings logLevel).after d (early ++ late)).step d (.definition uri p)).2.answer =
      ((start settings logLevel).after d (early ++ late)).uncached d uri p := by
  have hfresh : ((start settings logLevel).after d early).Fresh d uri := fresh_of_get?_eq_none hn
  have hafter : (start settings logLevel).after d (early ++ late) =
      ((start settings logLevel).after d early).after d late := List.foldl_append
  rw [hafter]
  exact (hfresh.after hb).answer_eq p

/-- After an edit the answer has moved with the declaration. -/
theorem definition_eq_uncached_edited :
    let d : Disk := ⟨⟨1, ["m"]⟩, [(["m"], .directory)]⟩
    let uri := "file:///m/a.mykt"
    let late := [Message.opened uri "val x = 1", .definition uri ⟨0, 4⟩,
      .changed uri [.whole "\n\nval x = 1"]]
    let s := (start {} 30).after d ([.started .null] ++ late)
    (s.step d (.definition uri ⟨2, 4⟩)).2.answer = s.uncached d uri ⟨2, 4⟩ ∧
      s.uncached d uri ⟨2, 4⟩ ≠ s.uncached d uri ⟨0, 4⟩ := by
  intro d uri late s
  have hn : ((start {} 30).after d [.started .null]).cache.get? uri = none := rfl
  have hb : ∀ m ∈ late, m.bypasses uri = false := by
    refine List.forall_mem_cons.2 ⟨?_, List.forall_mem_cons.2 ⟨rfl, List.forall_mem_singleton.2 ?_⟩⟩
    · simp [Message.bypasses]
    · simp [Message.bypasses]
  exact ⟨definition_eq_uncached hn hb ⟨2, 4⟩, by decide +kernel⟩

/-- An edit under another spelling of the address leaves the analysis as it was: the answer is the
declaration in the old text, where the current text has none. -/
theorem definition_stale_of_alias :
    let d : Disk := ⟨⟨1, ["m"]⟩, [(["m"], .directory)]⟩
    let uri := "file:///m/%61.mykt"
    let s := (start {} 30).after d [.started .null, .opened "file:///m/a.mykt" "val x = 1",
      .definition uri ⟨0, 4⟩, .changed "file:///m/a.mykt" [.whole "\n\nval x = 1"]]
    (s.step d (.definition uri ⟨0, 4⟩)).2.answer =
        .links (some ⟨uri, ⟨⟨0, 0⟩, ⟨0, 9⟩⟩, ⟨⟨0, 4⟩, ⟨0, 5⟩⟩, some ⟨⟨0, 4⟩, ⟨0, 5⟩⟩⟩) ∧
      s.uncached d uri ⟨0, 4⟩ = .links none := by
  decide +kernel

end Server

end Mykt
