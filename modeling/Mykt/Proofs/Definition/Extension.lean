import Mykt.Proofs.Definition.Landing
import Mykt.Proofs.Grammar.Conformance

/-!
Imports extend a document and change nothing in it. Main statements: a name that means a declaration
of the document leads there, whatever was folded before; a name that means none leads to a global
declaration of an imported file or to nothing; so what resolves within a document resolves the same
on every disk.
-/

namespace Mykt

/-- The same declaration, asked for from the same text. -/
structure Definition.Agrees (x y : Definition) : Prop where
  name : x.symbol.name = y.symbol.name
  kind : x.symbol.kind = y.symbol.kind
  location : x.location = y.location
  origin : x.origin = y.origin

namespace Definition.Agrees

variable {x y z : Definition}

theorem symm (h : x.Agrees y) : y.Agrees x :=
  ⟨h.name.symm, h.kind.symm, h.location.symm, h.origin.symm⟩

theorem trans (h : x.Agrees y) (h' : y.Agrees z) : x.Agrees z :=
  ⟨h.name.trans h'.name, h.kind.trans h'.kind, h.location.trans h'.location,
    h.origin.trans h'.origin⟩

end Definition.Agrees

/-- Symbols that stand for one declaration differ at most in the scope that they open. -/
theorem Symbol.StandsFor.eq {x y : Symbol} {uri : String} {d : Tree} (hx : x.StandsFor uri d)
    (hy : y.StandsFor uri d) :
    x.name = y.name ∧ x.kind = y.kind ∧ x.location = y.location := by
  obtain ⟨n, r, nr, hc, hn, hr, hnr, hl⟩ := hx.located
  obtain ⟨n', r', nr', hc', hn', hr', hnr', hl'⟩ := hy.located
  cases hc.symm.trans hc'
  cases hr.symm.trans hr'
  cases hnr.symm.trans hnr'
  have hkind : x.kind = y.kind := Option.some.inj (hx.kind.symm.trans hy.kind)
  exact ⟨hn.symm.trans hn', hkind, hl.trans hl'.symm⟩

namespace Tree

/-- A node below the root stands in a node whose rule asks for it. -/
theorem IsRanged.exists_parent {t c : Tree} {i : Nat} {above : Trail} {s : Rule} (ht : t.IsRanged)
    (hc : t.at? (i :: above) = some c) (hs : c.kind = .rule s) :
    ∃ r cs, t.at? above = some (node (.rule r) cs) ∧ s ∈ r.body.parts := by
  rw [at?_cons] at hc
  obtain ⟨v, hv, hc⟩ := Option.bind_eq_some_iff.1 hc
  have hconforms := (ht.of_at? hv).conforms
  have hmem : c ∈ v.children := List.mem_of_getElem? hc
  cases hconforms with
  | leaf => cases hmem
  | @node r cs hd hcs => exact ⟨r, cs, hv, (Conforms.node hd hcs).mem_parts hmem hs⟩

/-- A parameter belongs to a routine. -/
theorem IsRanged.exists_owner {t d : Tree} {place : Trail} (ht : t.IsRanged)
    (hk : t.kind = .rule .file) (hd : t.at? place = some d)
    (hp : d.kind = .rule .functionValueParameter) : ∃ routine, t.owner place = some routine := by
  have parameters : ∀ r ∈ Rule.all, Rule.functionValueParameter ∈ r.body.parts →
      r = .functionValueParameters := by decide
  have routines : ∀ r ∈ Rule.all, Rule.functionValueParameters ∈ r.body.parts →
      r = .functionDeclaration := by decide
  cases place with
  | nil =>
    obtain rfl : t = d := by simpa using hd
    cases hk.symm.trans hp
  | cons i above =>
    obtain ⟨r, cs, hat, hr⟩ := ht.exists_parent hd hp
    obtain rfl := parameters r r.mem_all hr
    cases above with
    | nil =>
      obtain rfl : t = _ := by simpa using hat
      cases hk
    | cons j above =>
      obtain ⟨r, us, hat', hr⟩ := ht.exists_parent hat rfl
      obtain rfl := routines r r.mem_all hr
      have hroutine : t.isRoutineAt above = true := isRoutineAt_of_at? hat'
      have hbetween : t.isRoutineAt (j :: above) = false := isRoutineAt_of_at? hat
      refine ⟨above, ?_⟩
      rw [owner, routinesAround_cons, hbetween, if_neg Bool.false_ne_true]
      exact head?_routinesAround hroutine

end Tree

namespace SymbolTable

section

variable {base table : SymbolTable} {uri : String} {t : Tree} {trail : Trail} {n : Token}
  {document : Nat}

/-- At a caret there is no name, or a leaf whose name is looked up. -/
theorem definitionAt_eq (t : Tree) (pos : Position) :
    (∀ (table : SymbolTable) (document : Nat), table.definitionAt document t pos = .ok none) ∨
    ∃ trail n, n ∈ t.tokens ∧ t.at? trail = some (.leaf n) ∧
      ∀ (table : SymbolTable) (document : Nat),
        table.definitionAt document t pos = table.locate document trail (.leaf n) := by
  cases hleaf : t.leafAt pos.line pos.character with
  | none =>
    refine .inl ?_
    intro table document
    simp [definitionAt, hleaf]
  | some leaf =>
    obtain ⟨trail, n⟩ := leaf
    have hmem := (Tree.leafAt_eq_some hleaf).1
    cases hname : n.kind.isIdentifier with
    | false =>
      refine .inl ?_
      intro table document
      simp [definitionAt, hleaf, hname]
    | true =>
      refine .inr ⟨trail, n, Tree.mem_tokens_of_mem_leaves hmem, Tree.mem_leaves_nil.1 hmem, ?_⟩
      intro table document
      simp [definitionAt, hleaf, hname]

theorem locate_of_find? {x : Symbol} {l : Location}
    (h : table.find? (table.enclosing document trail) n.text = some x)
    (hl : x.location = some l) :
    table.locate document trail (.leaf n) =
      (Tree.leaf n).range.map fun origin => some ⟨x, l, origin⟩ := by
  simp [locate, h, hl]

theorem locate_of_find?_eq_none
    (h : table.find? (table.enclosing document trail) n.text = none) :
    table.locate document trail (.leaf n) = .ok none := by
  simp [locate, h]

/-- A name that means a declaration of the tree visited last leads there, whatever the table held
before. -/
theorem Numbered.locate_of_meaning_eq_some {d : Trail × Tree} (h : base.Numbered)
    (ht : t.IsRanged) (hk : t.kind = .rule .file) (hn : t.at? trail = some (.leaf n))
    (hd : t.meaning trail n.text = some d) (uri : String) :
    ∃ x l, x.StandsFor uri d.2 ∧ x.location = some l ∧
      (base.visited uri t).locate base.visits trail (.leaf n) =
        (Tree.leaf n).range.map fun origin => some ⟨x, l, origin⟩ := by
  obtain ⟨found, hf, hr⟩ := h.find?_enclosing ht hk hn uri n.text
  rw [hd] at hr
  cases hr with
  | @some x _ hx =>
    obtain ⟨l, hl⟩ := Option.isSome_iff_exists.1 hx.isSome_location
    exact ⟨x, l, hx, hl, locate_of_find? hf hl⟩

/-- A name that means nothing in the tree visited last leads to what the table held before. -/
theorem Numbered.find?_of_meaning_eq_none (h : base.Numbered) (ht : t.IsRanged)
    (hk : t.kind = .rule .file) (hn : t.at? trail = some (.leaf n))
    (hd : t.meaning trail n.text = none) (uri : String) :
    (base.visited uri t).find? ((base.visited uri t).enclosing base.visits trail) n.text =
      (base.root.lookup? n.text).filter (·.location.isSome) := by
  obtain ⟨found, hf, hr⟩ := h.find?_enclosing ht hk hn uri n.text
  rw [hd] at hr
  cases hr with
  | none => exact hf

/-- A name that means nothing in a tree is no global of it either. -/
theorem lookup?_of_meaning_eq_none {name : String} (ht : t.IsRanged) (hk : t.kind = .rule .file)
    (hd : t.meaning trail name = none) (base : SymbolTable) (uri : String) :
    (base.visited uri t).root.lookup? name = base.root.lookup? name := by
  obtain ⟨cs, rfl⟩ := ht.conforms.exists_children hk
  obtain ⟨found, hf, hr⟩ := lookup?_visited ht rfl base uri name
  have hlast : (Tree.node (.rule .file) cs).lastOwned name none = none := by
    unfold Tree.meaning at hd
    exact List.findSome?_eq_none_iff.1 hd none (by simp)
  rw [hlast] at hr
  cases hr with
  | none => exact hf

end

end SymbolTable

namespace Analysis

open Import

/-- A definition that stands for a global declaration of a file folded for the imports. -/
def IsImported (o : Options) (uri : String) (t : Tree) (x : Definition) : Prop :=
  ∃ acts s p xs, Analyzes o uri t acts s ∧ visits acts = xs ++ [(p, uri, t)] ∧
    ∃ y ∈ xs, load o.disk y.1 = .ok y.2.2 ∧ x.location.uri = y.2.1 ∧
      ∃ place declaration, x.symbol.IsAt y.2.1 y.2.2 place declaration ∧ y.2.2.owner place = none

/-- What the definition at a caret is in an analysis, given what it is in the document alone. Only
in a text that is too long for positions can a range be missing. -/
def Extends (o : Options) (t : Tree) (a : Analysis) (pos : Position) :
    Except RangeError (Option Definition) → Prop
  | .ok (some x) => ∃ y, a.definitionAt pos = .ok (some y) ∧ y.Agrees x
  | .ok none =>
    a.definitionAt pos = .ok none ∨
    (∃ y, a.definitionAt pos = .ok (some y) ∧
      a.table.root.lookup? y.symbol.name = some y.symbol ∧ y.symbol.kind ≠ .parameter ∧
      IsImported o a.uri t y) ∨
    (Position.limit < a.source.length ∧ ∃ e, a.definitionAt pos = .error e)
  | .error e => a.definitionAt pos = .error e

/-- The analysis of a document, with the trees that were folded before it. -/
structure Extension (o : Options) (t : Tree) (xs : List (Path × String × Tree)) (a : Analysis) :
    Prop where
  parse_eq : parse a.source = .ok t
  tree : a.tree = some t
  isRanged : t.IsRanged
  loaded : ∀ x ∈ xs, Loaded o x
  table : a.table = (foldVisits .empty xs).visited a.uri t
  analyzes : ∃ acts s p, Analyzes o a.uri t acts s ∧ visits acts = xs ++ [(p, a.uri, t)]

theorem exists_extension_of_run {d : Disk} {settings : Settings} {uri source : String} {t : Tree}
    {a : Analysis} (ht : parse source = .ok t) (hrun : (run d settings uri source).2 = .ok a) :
    a.uri = uri ∧ ∃ xs, Extension (optionsOf d settings) t xs a := by
  obtain ⟨acts, s, h, rfl⟩ := exists_analyzes_of_run ht hrun
  obtain ⟨p, xs, hx, hranged, hl, htable⟩ := h.loads ht
  exact ⟨rfl, xs, ht, rfl, hranged, hl, htable, acts, s, p, h, hx⟩

namespace Extension

variable {o : Options} {t : Tree} {a : Analysis} {xs : List (Path × String × Tree)}
  {pos : Position} {trail : Trail} {n : Token}

theorem isFile (h : Extension o t xs a) : t.kind = .rule .file := (conforms_of_parse h.parse_eq).2.1

theorem numbered (h : Extension o t xs a) : (foldVisits .empty xs).Numbered := by
  apply numbered_foldVisits SymbolTable.numbered_empty
  intro y hy
  exact (h.loaded y hy).isRanged

theorem definitionAt_eq (h : Extension o t xs a) (pos : Position) :
    a.definitionAt pos = ((foldVisits .empty xs).visited a.uri t).definitionAt
      (foldVisits .empty xs).visits t pos := by
  simp only [definitionAt, document, h.tree, h.table]
  rfl

/-- A global symbol from before the document is a global declaration of a folded file. -/
theorem exists_isAt {name : String} {x : Symbol} {l : Location} (h : Extension o t xs a)
    (hx : (foldVisits .empty xs).root.lookup? name = some x) (hl : x.location = some l) :
    x.kind ≠ .parameter ∧ ∃ y ∈ xs, load o.disk y.1 = .ok y.2.2 ∧ l.uri = y.2.1 ∧
      ∃ place declaration, x.IsAt y.2.1 y.2.2 place declaration ∧ y.2.2.owner place = none := by
  rcases lookup?_foldVisits h.loaded hx with he | ⟨y, hy, place, declaration, hat, howner⟩
  · cases he
  obtain ⟨hload, hranged⟩ := h.loaded y hy
  refine ⟨?_, y, hy, hload, (hat.exists_name hl).1, place, declaration, hat, howner⟩
  intro hparameter
  obtain ⟨text, -, hp⟩ := exists_text_of_load hload
  have hkind := Tree.eq_functionValueParameter (hparameter ▸ hat.standsFor.kind)
  have hplace := Tree.mem_places_nil.1 (List.mem_of_mem_filter hat.mem)
  obtain ⟨routine, hr⟩ := hranged.exists_owner (conforms_of_parse hp).2.1 hplace hkind
  cases howner.symm.trans hr

/-- A leaf without a range stands in a text that is too long for positions. -/
theorem limit_lt (h : Extension o t xs a) (hn : n ∈ t.tokens) {e : RangeError}
    (hr : (Tree.leaf n).range = .error e) : Position.limit < a.source.length := by
  apply Nat.lt_of_not_le
  intro hshort
  have hspans := (Tree.hasSpans_of_parse h.parse_eq hshort).mono
    (u := .leaf n) (by simpa [Tree.tokens] using hn)
  obtain ⟨r, hr'⟩ := hspans.exists_range (x := n) (by simp [Tree.tokens])
  cases hr.symm.trans hr'

/-- A name that means a declaration of the document leads there with and without imports. -/
theorem extends_of_meaning_eq_some {d : Trail × Tree} (h : Extension o t xs a)
    (hn : t.at? trail = some (.leaf n)) (hd : t.meaning trail n.text = some d)
    (ha : a.definitionAt pos = ((foldVisits .empty xs).visited a.uri t).locate
      (foldVisits .empty xs).visits trail (.leaf n)) :
    a.Extends o t pos ((SymbolTable.empty.visited a.uri t).locate 0 trail (.leaf n)) := by
  obtain ⟨x, l, hx, hxl, halone⟩ := SymbolTable.numbered_empty.locate_of_meaning_eq_some
    h.isRanged h.isFile hn hd a.uri
  obtain ⟨y, m, hy, hym, hfound⟩ := h.numbered.locate_of_meaning_eq_some
    h.isRanged h.isFile hn hd a.uri
  obtain ⟨hnames, hkinds, hlocations⟩ := hy.eq hx
  obtain rfl : m = l := by simpa [hxl, hym] using hlocations
  rw [hfound] at ha
  rw [show (SymbolTable.empty.visited a.uri t).locate 0 trail (.leaf n) = _ from halone]
  cases hr : (Tree.leaf n).range with
  | error e =>
    rw [hr] at ha
    exact ha
  | ok origin =>
    rw [hr] at ha
    exact ⟨_, ha, hnames, hkinds, rfl, rfl⟩

/-- A name that means nothing in the document leads into an imported file, or nowhere. -/
theorem extends_of_meaning_eq_none (h : Extension o t xs a) (hm : n ∈ t.tokens)
    (hn : t.at? trail = some (.leaf n)) (hd : t.meaning trail n.text = none)
    (ha : a.definitionAt pos = ((foldVisits .empty xs).visited a.uri t).locate
      (foldVisits .empty xs).visits trail (.leaf n)) :
    a.Extends o t pos ((SymbolTable.empty.visited a.uri t).locate 0 trail (.leaf n)) := by
  have halone := SymbolTable.numbered_empty.find?_of_meaning_eq_none h.isRanged h.isFile hn hd a.uri
  have hfind := h.numbered.find?_of_meaning_eq_none h.isRanged h.isFile hn hd a.uri
  rw [show (SymbolTable.empty.visited a.uri t).locate 0 trail (.leaf n) = .ok none from
    SymbolTable.locate_of_find?_eq_none halone]
  cases hlook : ((foldVisits .empty xs).root.lookup? n.text).filter (·.location.isSome) with
  | none =>
    rw [hlook] at hfind
    exact .inl (ha.trans (SymbolTable.locate_of_find?_eq_none hfind))
  | some x =>
    rw [hlook] at hfind
    obtain ⟨hlook, hsome⟩ := Option.filter_eq_some_iff.1 hlook
    obtain ⟨l, hxl⟩ := Option.isSome_iff_exists.1 hsome
    rw [SymbolTable.locate_of_find? hfind hxl] at ha
    cases hr : (Tree.leaf n).range with
    | error e =>
      rw [hr] at ha
      exact .inr (.inr ⟨h.limit_lt hm hr, e, ha⟩)
    | ok origin =>
      rw [hr] at ha
      obtain ⟨hkind, himported⟩ := h.exists_isAt hlook hxl
      obtain ⟨acts, s, p, hanalyzes, hvisits⟩ := h.analyzes
      have hname := SymbolTable.name_of_find? hfind
      have hroot := SymbolTable.lookup?_of_meaning_eq_none h.isRanged h.isFile hd
        (foldVisits .empty xs) a.uri
      rw [← h.table, hlook, ← hname] at hroot
      exact .inr (.inl ⟨_, ha, hroot, hkind, acts, s, p, xs, hanalyzes, hvisits, himported⟩)

/-- An analysis extends the table of its document. -/
theorem exists_extends (h : Extension o t xs a) (pos : Position) :
    ∃ table, SymbolTable.ofTree a.uri t = .ok table ∧
      a.Extends o t pos (table.definitionAt 0 t pos) := by
  refine ⟨_, SymbolTable.ofTree_eq_visited h.isRanged a.uri, ?_⟩
  have ha := h.definitionAt_eq pos
  rcases SymbolTable.definitionAt_eq t pos with hnone | ⟨trail, n, hm, hn, hlocate⟩
  · rw [hnone] at ha ⊢
    exact .inl ha
  · rw [hlocate] at ha ⊢
    cases hd : t.meaning trail n.text with
    | some d => exact h.extends_of_meaning_eq_some hn hd ha
    | none => exact h.extends_of_meaning_eq_none hm hn hd ha

end Extension

/-- Imports change nothing that resolves within a document, on any disk and with any settings; what
does not resolve within it leads to a global declaration of an imported file, or nowhere. -/
theorem definitionAt_extends {d : Disk} {settings : Settings} {uri source : String} {t : Tree}
    {a : Analysis} (ht : parse source = .ok t) (hrun : (run d settings uri source).2 = .ok a)
    (pos : Position) :
    ∃ table, SymbolTable.ofTree uri t = .ok table ∧
      a.Extends (optionsOf d settings) t pos (table.definitionAt 0 t pos) ∧
      ∀ (d' : Disk) (settings' : Settings) (a' : Analysis) (x : Definition),
        (run d' settings' uri source).2 = .ok a' → table.definitionAt 0 t pos = .ok (some x) →
        ∃ y z, a.definitionAt pos = .ok (some y) ∧ a'.definitionAt pos = .ok (some z) ∧
          y.Agrees z := by
  obtain ⟨rfl, xs, h⟩ := exists_extension_of_run ht hrun
  obtain ⟨table, htable, he⟩ := h.exists_extends pos
  refine ⟨table, htable, he, ?_⟩
  intro d' settings' a' x hrun' hx
  obtain ⟨huri, xs', h'⟩ := exists_extension_of_run ht hrun'
  obtain ⟨table', htable', he'⟩ := h'.exists_extends pos
  rw [huri] at htable'
  cases htable.symm.trans htable'
  rw [hx] at he he'
  obtain ⟨y, hy, hyx⟩ := he
  obtain ⟨z, hz, hzx⟩ := he'
  exact ⟨y, z, hy, hz, hyx.trans hzx.symm⟩

/-- A name that an imported file declares as well keeps its meaning in the document, and has it
without the file. -/
theorem definitionAt_extends_clash :
    let d : Disk := ⟨⟨1, ["m"]⟩, [(["m"], .directory),
      (["m", "a.mykt"], .file (Text.Utf8.encode "val x = 1".toList))]⟩
    let bare : Disk := ⟨⟨1, ["m"]⟩, [(["m"], .directory)]⟩
    let source := "import a val x = 2 val y = x"
    ∃ a b y z, (run d {} "file:///m/c.mykt" source).2 = .ok a ∧
      (run bare {} "file:///m/c.mykt" source).2 = .ok b ∧
      a.definitionAt ⟨0, 27⟩ = .ok (some y) ∧ b.definitionAt ⟨0, 27⟩ = .ok (some z) ∧
      y.Agrees z ∧ y.location.uri = "file:///m/c.mykt" := by
  intro d bare source
  have ok {ε α : Type} {r : Except ε α} {x : α} (h : r.toOption = some x) : r = .ok x := by
    cases r <;> cases h
    rfl
  have ends (d : Disk) (h : (run d {} "file:///m/c.mykt" source).2.toOption.isSome = true) :
      ∃ a, (run d {} "file:///m/c.mykt" source).2 = .ok a := by
    obtain ⟨a, ha⟩ := Option.isSome_iff_exists.1 h
    exact ⟨a, ok ha⟩
  obtain ⟨a, ha⟩ := ends d (by decide +kernel)
  obtain ⟨b, hb⟩ := ends bare (by decide +kernel)
  have halone : ((parse source).toOption.bind fun t =>
      (SymbolTable.ofTree "file:///m/c.mykt" t).toOption.bind fun table =>
        (table.definitionAt 0 t ⟨0, 27⟩).toOption.bind
          fun x => x.map (·.location.uri)) = some "file:///m/c.mykt" := by
    decide +kernel
  obtain ⟨t, ht, halone⟩ := Option.bind_eq_some_iff.1 halone
  obtain ⟨table, htable, halone⟩ := Option.bind_eq_some_iff.1 halone
  obtain ⟨found, hfound, halone⟩ := Option.bind_eq_some_iff.1 halone
  obtain ⟨x, rfl, huri⟩ := Option.map_eq_some_iff.1 halone
  obtain ⟨table', htable', he, hagree⟩ := definitionAt_extends (ok ht) ha ⟨0, 27⟩
  cases (ok htable).symm.trans htable'
  rw [ok hfound] at he
  obtain ⟨y, hy, hyx⟩ := he
  obtain ⟨y', z, hy', hz, hyz⟩ := hagree bare {} b x hb (ok hfound)
  cases hy.symm.trans hy'
  exact ⟨a, b, y, z, ha, hb, hy, hz, hyz, by rw [hyx.location, huri]⟩

end Analysis

end Mykt
