import Mathlib.Data.List.Basic
import Mathlib.Data.List.Induction
import Mykt.Cache

/-!
What a cache holds after a history of operations, on a disk that changes between them. Main
statement: the analysis kept for a document is the first one that was returned for it since it was
last dropped, made from the text asked about then, on the disk of that moment, with the settings in
force; a listener has heard of each analysis when it was made, and of nothing else.
-/

namespace Mykt.Cache

namespace Operation

/-- The document that an operation is about. -/
def uri? : Operation → Option String
  | ensure uri _ | get uri | definition uri _ | invalidate uri | discard uri => some uri
  | clear | configure _ => none

/-- Whether an operation drops the analysis of a document. -/
def drops (uri : String) : Operation → Bool
  | invalidate v | discard v => v = uri
  | clear | configure _ => true
  | ensure _ _ | get _ | definition _ _ => false

def settings? : Operation → Option Settings
  | configure settings => some settings
  | _ => none

end Operation

/-- An operation and the disk of its moment. -/
structure Moment where
  disk : Disk
  operation : Operation

/-- A moment of a history, with the cache that it began with. -/
structure Record extends Moment where
  before : Cache

def Record.performed (r : Record) : Performed := r.before.perform r.disk r.operation

def after (c : Cache) (h : List Moment) : Cache :=
  h.foldl (fun c m => (c.perform m.disk m.operation).cache) c

def log (c : Cache) : List Moment → List Record
  | [] => []
  | m :: h => ⟨m, c⟩ :: log (c.perform m.disk m.operation).cache h

theorem after_append_singleton (c : Cache) (h : List Moment) (m : Moment) :
    c.after (h ++ [m]) = ((c.after h).perform m.disk m.operation).cache := by
  simp [after]

theorem log_append_singleton (c : Cache) (h : List Moment) (m : Moment) :
    c.log (h ++ [m]) = c.log h ++ [⟨m, c.after h⟩] := by
  induction h generalizing c with
  | nil => rfl
  | cons x h ih => simp [log, ih, after]

/-- The settings that were given last. -/
def configured (settings : Settings) (h : List Moment) : Settings :=
  (h.reverse.findSome? (·.operation.settings?)).getD settings

/-- The records after the last one that dropped the analysis of a document. -/
def since (uri : String) (rs : List Record) : List Record :=
  (rs.reverse.takeWhile fun r => !r.operation.drops uri).reverse

/-- The analysis of a document that was asked for and returned, with the disk and the text that it
was asked for on. -/
def Record.returned? (uri : String) (r : Record) : Option (Disk × String × Analysis) :=
  match r.operation, r.performed.outcome with
  | .ensure v source, .ensured (.ok a) => if v = uri then some (r.disk, source, a) else none
  | _, _ => none

def returned (uri : String) (rs : List Record) : List (Disk × String × Analysis) :=
  (since uri rs).filterMap (Record.returned? uri)

/-- The analysis that a record added to the cache. -/
def Record.built? (r : Record) : Option (String × Analysis) :=
  match r.operation with
  | .ensure uri _ =>
    match r.before.get? uri, r.performed.cache.get? uri with
    | none, some a => some (uri, a)
    | _, _ => none
  | _ => none

/-- What a listener is told of a new analysis. -/
def told (x : String × Analysis) : Option (String × List Diagnostic) :=
  if x.2.diagnostics.isEmpty then none else some (x.1, x.2.diagnostics)

/-- What is kept for a document, given the analyses returned for it since it was last dropped: the
first of them, and all later ones are the same. -/
def Keeps (c : Cache) (uri : String) : List (Disk × String × Analysis) → Prop
  | [] => c.get? uri = none
  | (d, source, a) :: later =>
    c.get? uri = some a ∧ (Analysis.run d c.settings uri source).2 = .ok a ∧
      ∀ x ∈ later, x.2.2 = a

section

variable {c c' : Cache} {uri : String} {xs : List (Disk × String × Analysis)}

theorem Keeps.congr (h : c.Keeps uri xs) (hg : c'.get? uri = c.get? uri)
    (hs : c'.settings = c.settings) : c'.Keeps uri xs := by
  cases xs with
  | nil => exact hg.trans h
  | cons x later =>
    obtain ⟨hget, hrun, hlater⟩ := h
    exact ⟨hg.trans hget, by rw [hs]; exact hrun, hlater⟩

theorem Keeps.append {a : Analysis} (h : c.Keeps uri xs) (ha : c.get? uri = some a) (d : Disk)
    (source : String) : c.Keeps uri (xs ++ [(d, source, a)]) := by
  cases xs with
  | nil => cases ha.symm.trans h
  | cons x later =>
    obtain ⟨hget, hrun, hlater⟩ := h
    refine ⟨hget, hrun, ?_⟩
    intro y hy
    rcases List.mem_append.1 hy with hy | hy
    · exact hlater y hy
    · obtain rfl := List.mem_singleton.1 hy
      exact Option.some.inj (ha.symm.trans hget)

theorem Keeps.eq_nil (h : c.Keeps uri xs) (hn : c.get? uri = none) : xs = [] := by
  cases xs with
  | nil => rfl
  | cons x later => cases hn.symm.trans h.1

end

section

variable {uri : String} {rs : List Record} {r : Record}

theorem returned_of_drops (h : r.operation.drops uri = true) : returned uri (rs ++ [r]) = [] := by
  simp [returned, since, h]

theorem returned_append (h : r.operation.drops uri = false) :
    returned uri (rs ++ [r]) = returned uri rs ++ (r.returned? uri).toList := by
  cases hr : r.returned? uri <;> simp [returned, since, h, hr, List.filterMap_append]

end

/-- Asking for an analysis gives the one that is kept, fails, or makes one and keeps it. -/
theorem ensure_cases (c : Cache) (d : Disk) (uri source : String) :
    (∃ a, c.get? uri = some a ∧ c.ensure d uri source = ⟨c, .ok a, [], []⟩) ∨
    (c.get? uri = none ∧ ∃ e events, (Analysis.run d c.settings uri source).2 = .error e ∧
      c.ensure d uri source = ⟨c, .error e, [], events⟩) ∨
    (c.get? uri = none ∧ ∃ a events, (Analysis.run d c.settings uri source).2 = .ok a ∧
      c.ensure d uri source =
        ⟨{ c with entries := c.entries ++ [(uri, a)] }, .ok a, a.diagnostics, events⟩) := by
  cases h : c.get? uri with
  | some a => exact .inl ⟨a, rfl, ensure_of_get? h d source⟩
  | none =>
    cases hr : (Analysis.run d c.settings uri source).2 with
    | error e => exact .inr (.inl ⟨rfl, e, _, rfl, ensure_of_error h hr⟩)
    | ok a => exact .inr (.inr ⟨rfl, a, _, rfl, ensure_of_ok h hr⟩)

section

variable {c : Cache} {d : Disk} {uri other : String} {op : Operation}

theorem settings_perform (c : Cache) (d : Disk) (op : Operation) :
    (c.perform d op).cache.settings = op.settings?.getD c.settings := by
  cases op with
  | ensure uri source =>
    rcases ensure_cases c d uri source with
      ⟨a, -, he⟩ | ⟨-, e, events, -, he⟩ | ⟨-, a, events, -, he⟩
    all_goals
      simp only [perform, he]
      rfl
  | get | definition | invalidate | discard | clear | configure => rfl

/-- An operation on one document leaves the others alone. -/
theorem get?_perform_of_ne (h : op.uri? = some uri) (ho : other ≠ uri) :
    (c.perform d op).cache.get? other = c.get? other := by
  cases op with
  | ensure v source =>
    obtain rfl : v = uri := Option.some.inj h
    rcases ensure_cases c d v source with
      ⟨a, -, he⟩ | ⟨-, e, events, -, he⟩ | ⟨hn, a, events, -, he⟩
    · simp only [perform, he]
    · simp only [perform, he]
    · simp only [perform, he]
      rw [get?_append c hn, if_neg ho]
  | get | definition => rfl
  | invalidate v | discard v =>
    obtain rfl : v = uri := Option.some.inj h
    exact (get?_discard c v other).trans (if_neg ho)
  | clear | configure => cases h

theorem get?_perform_of_drops (h : op.drops uri = true) :
    (c.perform d op).cache.get? uri = none := by
  cases op with
  | ensure | get | definition => cases h
  | invalidate v | discard v =>
    obtain rfl : v = uri := of_decide_eq_true h
    exact (get?_discard c v v).trans (if_pos rfl)
  | clear | configure => rfl

theorem returned?_ensure (c : Cache) (d : Disk) (uri source : String) :
    Record.returned? uri ⟨⟨d, .ensure uri source⟩, c⟩ =
      (c.ensure d uri source).result.toOption.map fun a => (d, source, a) := by
  simp only [Record.returned?, Record.performed, perform]
  cases (c.ensure d uri source).result <;> simp [Except.toOption]

theorem returned?_of_ne {v source : String} (h : uri ≠ v) (c : Cache) (d : Disk) :
    Record.returned? uri ⟨⟨d, .ensure v source⟩, c⟩ = none := by
  simp only [Record.returned?, Record.performed, perform]
  cases (c.ensure d v source).result <;> simp [Ne.symm h]

/-- Asking for an analysis keeps the account of its document. -/
theorem Keeps.ensure {xs : List (Disk × String × Analysis)} (h : c.Keeps uri xs) (d : Disk)
    (source : String) :
    (c.ensure d uri source).cache.Keeps uri
      (xs ++ ((c.ensure d uri source).result.toOption.map fun a => (d, source, a)).toList) := by
  rcases ensure_cases c d uri source with
    ⟨a, ha, he⟩ | ⟨-, e, events, -, he⟩ | ⟨hn, a, events, hr, he⟩
  · rw [he]
    exact h.append ha d source
  · rw [he]
    simpa [Except.toOption] using h
  · obtain rfl := h.eq_nil hn
    rw [he]
    refine ⟨?_, hr, ?_⟩
    · rw [get?_append c hn, if_pos rfl]
    · exact fun _ hx => nomatch hx

/-- One operation keeps the account of a document. -/
theorem Keeps.perform {rs : List Record} {r : Record} (h : r.before.Keeps uri (returned uri rs)) :
    r.performed.cache.Keeps uri (returned uri (rs ++ [r])) := by
  cases hd : r.operation.drops uri with
  | true =>
    rw [returned_of_drops hd]
    exact get?_perform_of_drops hd
  | false =>
    rw [returned_append hd]
    obtain ⟨⟨d, op⟩, c⟩ := r
    have same (hr : Record.returned? uri ⟨⟨d, op⟩, c⟩ = none)
        (hg : (c.perform d op).cache.get? uri = c.get? uri) (hs : op.settings? = none) :
        (c.perform d op).cache.Keeps uri
          (returned uri rs ++ (Record.returned? uri ⟨⟨d, op⟩, c⟩).toList) := by
      rw [hr, Option.toList_none, List.append_nil]
      exact h.congr hg ((settings_perform c d op).trans (by rw [hs]; rfl))
    cases op with
    | clear | configure => cases hd
    | get | definition => exact same rfl rfl rfl
    | invalidate v | discard v =>
      have hv : uri ≠ v := fun he => by simp [Operation.drops, he] at hd
      exact same rfl (get?_perform_of_ne rfl hv) rfl
    | ensure v source =>
      by_cases hv : uri = v
      · subst hv
        rw [returned?_ensure]
        exact h.ensure d source
      · exact same (returned?_of_ne hv c d) (get?_perform_of_ne rfl hv) rfl

/-- A listener is called exactly for an analysis made just now that it can be told something of. -/
theorem calls_performed (r : Record) : r.performed.calls = (r.built?.bind told).toList := by
  obtain ⟨⟨d, op⟩, c⟩ := r
  cases op with
  | ensure uri source =>
    simp only [Record.built?, Record.performed, perform]
    rcases ensure_cases c d uri source with
      ⟨a, ha, he⟩ | ⟨hn, e, events, -, he⟩ | ⟨hn, a, events, -, he⟩
    · rw [he, ha]
      rfl
    · rw [he, hn]
      rfl
    · rw [he, hn]
      simp only [get?_append c hn, if_true, Ensured.calls, Option.bind_some, told]
      split <;> rfl
  | get | definition | invalidate | discard | clear | configure => rfl

/-- An operation that fails to make an analysis changes nothing and tells nothing. -/
theorem performed_of_error {r : Record} {e : Import.Error}
    (h : r.performed.outcome = .ensured (.error e)) :
    r.performed.cache = r.before ∧ r.performed.calls = [] := by
  obtain ⟨⟨d, op⟩, c⟩ := r
  cases op with
  | ensure uri source =>
    simp only [Record.performed, perform] at h ⊢
    rcases ensure_cases c d uri source with
      ⟨a, -, he⟩ | ⟨-, e, events, -, he⟩ | ⟨-, a, events, -, he⟩
    · rw [he] at h
      cases h
    · rw [he]
      exact ⟨rfl, rfl⟩
    · rw [he] at h
      cases h
  | get | definition | invalidate | discard | clear | configure => cases h

end

theorem settings_after (settings : Settings) (h : List Moment) :
    ((empty settings).after h).settings = configured settings h := by
  induction h using List.reverseRecOn with
  | nil => rfl
  | append_singleton h m ih =>
    rw [after_append_singleton, settings_perform, ih, configured, configured, List.reverse_append]
    cases hm : m.operation.settings? <;> simp [hm]

theorem keeps_after (settings : Settings) (h : List Moment) (uri : String) :
    ((empty settings).after h).Keeps uri (returned uri ((empty settings).log h)) := by
  induction h using List.reverseRecOn with
  | nil => rfl
  | append_singleton h m ih =>
    rw [after_append_singleton, log_append_singleton]
    exact Keeps.perform (r := ⟨m, (empty settings).after h⟩) ih

/-- After any history, on a disk that changes between the operations: the settings are those given
last; the analysis of a document is the first one returned for it since it was last dropped; a
listener has been called once for each analysis made with diagnostics, in order, and never
otherwise; a failure changes nothing, and an operation on one document changes no other. -/
theorem perform_history (settings : Settings) (h : List Moment) :
    ((empty settings).after h).settings = configured settings h ∧
    (∀ uri, ((empty settings).after h).Keeps uri (returned uri ((empty settings).log h))) ∧
    ((empty settings).log h).flatMap (·.performed.calls) =
      (((empty settings).log h).filterMap Record.built?).filterMap told ∧
    (∀ r ∈ (empty settings).log h, ∀ e, r.performed.outcome = .ensured (.error e) →
      r.performed.cache = r.before ∧ r.performed.calls = []) ∧
    (∀ r ∈ (empty settings).log h, ∀ uri other, r.operation.uri? = some uri → other ≠ uri →
      r.performed.cache.get? other = r.before.get? other) := by
  refine ⟨settings_after settings h, keeps_after settings h, ?_, ?_, ?_⟩
  · simp only [calls_performed]
    rw [List.filterMap_filterMap, List.filterMap_eq_flatMap_toList]
  · intro r _ e he
    exact performed_of_error he
  · intro r _ uri other hu ho
    exact get?_perform_of_ne hu ho

end Mykt.Cache
