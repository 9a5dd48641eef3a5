import Mykt.Analysis

/-!
One analysis for each document, kept until the document changes. An analysis that is kept answers
for its document whatever text is asked about.
-/

namespace Mykt

section

variable {α : Type}

theorem lookup_filter_self (k : String) (xs : List (String × α)) :
    (xs.filter (·.1 ≠ k)).lookup k = none := by
  apply List.lookup_eq_none_iff.2
  intro x hx
  have hne : x.1 ≠ k := by simpa using (List.mem_filter.1 hx).2
  simpa using hne.symm

theorem lookup_filter_ne {k l : String} (h : k ≠ l) (xs : List (String × α)) :
    (xs.filter (·.1 ≠ l)).lookup k = xs.lookup k := by
  induction xs with
  | nil => rfl
  | cons x xs ih =>
    obtain ⟨m, a⟩ := x
    by_cases hm : m = l
    · have hk : (k == m) = false := by simpa [hm] using h
      rw [List.filter_cons_of_neg (by simpa using hm), ih, List.lookup_cons, hk]
    · rw [List.filter_cons_of_pos (by simpa using hm), List.lookup_cons, List.lookup_cons, ih]

end

structure Cache where
  settings : Settings
  entries : List (String × Analysis)
  deriving Repr

namespace Cache

def empty (settings : Settings) : Cache := ⟨settings, []⟩

def get? (c : Cache) (uri : String) : Option Analysis := c.entries.lookup uri

def contains (c : Cache) (uri : String) : Bool := (c.get? uri).isSome

def size (c : Cache) : Nat := c.entries.length

def discard (c : Cache) (uri : String) : Cache :=
  { c with entries := c.entries.filter (·.1 ≠ uri) }

def clear (c : Cache) : Cache := { c with entries := [] }

/-- Analyses made under other settings are of no use. -/
def configure (_ : Cache) (settings : Settings) : Cache := ⟨settings, []⟩

def invalidatedEvent (uri : String) : Event := ⟨.debug, .cache, "invalidated " ++ uri⟩

def invalidate (c : Cache) (uri : String) : List Event × Cache :=
  (if c.contains uri then [invalidatedEvent uri] else [], c.discard uri)

/-- What asking for an analysis brings about. -/
structure Ensured where
  cache : Cache
  result : Except Import.Error Analysis
  /-- The diagnostics of an analysis made just now. -/
  reported : List Diagnostic
  events : List Event

/-- The analysis kept for a document, or a new one of its text. -/
def ensure (c : Cache) (d : Disk) (uri source : String) : Ensured :=
  match c.get? uri with
  | some a => ⟨c, .ok a, [], []⟩
  | none =>
    match Analysis.run d c.settings uri source with
    | (events, .error e) => ⟨c, .error e, [], events⟩
    | (events, .ok a) =>
      ⟨{ c with entries := c.entries ++ [(uri, a)] }, .ok a, a.diagnostics, events⟩

/-- The calls of a listener: one for an analysis made just now, if there is anything to tell. -/
def Ensured.calls (e : Ensured) (uri : String) : List (String × List Diagnostic) :=
  if e.reported.isEmpty then [] else [(uri, e.reported)]

inductive Operation where
  | ensure (uri source : String)
  | get (uri : String)
  | definition (uri : String) (position : Position)
  | invalidate (uri : String)
  | discard (uri : String)
  | clear
  | configure (settings : Settings)
  deriving DecidableEq, Repr

/-- What an operation gives back. There is no definition without an analysis. -/
inductive Outcome where
  | done
  | ensured (result : Except Import.Error Analysis)
  | got (entry : Option Analysis)
  | defined (answer : Option (Except RangeError (Option Definition)))

structure Performed where
  cache : Cache
  outcome : Outcome := .done
  calls : List (String × List Diagnostic) := []
  events : List Event := []

def perform (c : Cache) (d : Disk) : Operation → Performed
  | .ensure uri source =>
    let e := c.ensure d uri source
    { cache := e.cache, outcome := .ensured e.result, calls := e.calls uri, events := e.events }
  | .get uri => { cache := c, outcome := .got (c.get? uri) }
  | .definition uri p =>
    { cache := c, outcome := .defined ((c.get? uri).map (·.definitionAt p)) }
  | .invalidate uri =>
    let (events, cache) := c.invalidate uri
    { cache, events }
  | .discard uri => { cache := c.discard uri }
  | .clear => { cache := c.clear }
  | .configure settings => { cache := c.configure settings }

@[simp] theorem get?_empty (settings : Settings) (uri : String) :
    (empty settings).get? uri = none := rfl

@[simp] theorem get?_clear (c : Cache) (uri : String) : c.clear.get? uri = none := rfl

@[simp] theorem get?_configure (c : Cache) (settings : Settings) (uri : String) :
    (c.configure settings).get? uri = none := rfl

theorem get?_discard (c : Cache) (uri other : String) :
    (c.discard uri).get? other = if other = uri then none else c.get? other := by
  simp only [get?, discard]
  split
  · next ho =>
    rw [ho]
    exact lookup_filter_self uri c.entries
  · next ho => exact lookup_filter_ne ho c.entries

theorem get?_invalidate (c : Cache) (uri other : String) :
    (c.invalidate uri).2.get? other = if other = uri then none else c.get? other :=
  get?_discard c uri other

theorem get?_append (c : Cache) {uri : String} (h : c.get? uri = none) (a : Analysis)
    (other : String) :
    ({ c with entries := c.entries ++ [(uri, a)] } : Cache).get? other =
      if other = uri then some a else c.get? other := by
  obtain ⟨settings, entries⟩ := c
  simp only [get?] at h ⊢
  rw [List.lookup_append]
  by_cases ho : other = uri
  · subst ho
    simp [h]
  · have hb : (other == uri) = false := by simpa using ho
    simp [List.lookup_cons, hb, ho]

section

variable {c : Cache} {d : Disk} {uri source : String} {a : Analysis}

theorem ensure_of_get? (h : c.get? uri = some a) (d : Disk) (source : String) :
    c.ensure d uri source = ⟨c, .ok a, [], []⟩ := by
  simp [ensure, h]

theorem ensure_of_error {e : Import.Error} (h : c.get? uri = none)
    (hr : (Analysis.run d c.settings uri source).2 = .error e) :
    c.ensure d uri source =
      ⟨c, .error e, [], (Analysis.run d c.settings uri source).1⟩ := by
  simp only [ensure, h]
  generalize Analysis.run d c.settings uri source = r at hr
  obtain ⟨events, result⟩ := r
  cases hr
  rfl

theorem ensure_of_ok (h : c.get? uri = none)
    (hr : (Analysis.run d c.settings uri source).2 = .ok a) :
    c.ensure d uri source =
      ⟨{ c with entries := c.entries ++ [(uri, a)] }, .ok a, a.diagnostics,
        (Analysis.run d c.settings uri source).1⟩ := by
  simp only [ensure, h]
  generalize Analysis.run d c.settings uri source = r at hr
  obtain ⟨events, result⟩ := r
  cases hr
  rfl

end

end Cache

end Mykt
