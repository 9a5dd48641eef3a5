import Mykt.Proofs.Import.Document
import Mykt.Proofs.Scope.Lexical

/-!
Where a definition lands. Main statements: the leaf at a caret touches it; the range of a declared
name cuts the name out of the text; the definition at a caret of an analyzed file is a declaration of
the file that its address leads to, and both of its names are the one at the caret.
-/

namespace Mykt

/-- A caret stands within a range of one line, or at its end. -/
def Range.Touches (r : Range) (p : Position) : Prop :=
  r.start.line = p.line ∧ r.stop.line = p.line ∧ r.start.character ≤ p.character ∧
    p.character ≤ r.stop.character

namespace Tree

theorem preferName_eq (best : Option (Trail × Token)) (x : Trail × Token) :
    preferName best x = x ∨ best = some (preferName best x) := by
  unfold preferName
  split
  · exact .inl rfl
  · split
    · exact .inl rfl
    · exact .inr rfl

/-- What a search keeps was kept before, or is touched on the line of the caret. -/
theorem caretSearch_eq_some {line character : Int} {best : Option (Trail × Token)}
    {xs : List (Trail × Token)} {x : Trail × Token}
    (h : caretSearch line character best xs = some x) :
    best = some x ∨ x ∈ xs ∧ x.2.line = line ∧ x.2.touches character = true := by
  induction xs generalizing best with
  | nil => exact .inl h
  | cons y ys ih =>
    have later {kept : Option (Trail × Token)} (hk : caretSearch line character kept ys = some x) :
        kept = some x ∨ x ∈ y :: ys ∧ x.2.line = line ∧ x.2.touches character = true := by
      rcases ih hk with hb | ⟨hm, hx⟩
      · exact .inl hb
      · exact .inr ⟨List.mem_cons_of_mem _ hm, hx⟩
    rw [caretSearch] at h
    split at h
    · exact later h
    split at h
    · exact .inl h
    split at h
    · next hbefore hbeyond htouch =>
      rcases later h with hp | hx
      · obtain rfl := Option.some.inj hp
        rcases preferName_eq best y with he | he
        · have hline : y.2.line = line := by omega
          rw [he]
          exact .inr ⟨List.mem_cons_self, hline, htouch⟩
        · exact .inl he
      · exact .inr hx
    split at h
    · exact .inl h
    · exact later h

/-- The leaf at a caret is on its line and touches it. -/
theorem leafAt_eq_some {t : Tree} {line character : Int} {x : Trail × Token}
    (h : t.leafAt line character = some x) :
    x ∈ t.leaves [] ∧ x.2.line = line + 1 ∧ x.2.touches character = true := by
  rcases caretSearch_eq_some h with hb | hx
  · cases hb
  · exact hx

theorem tokens_subset_of_at? {t u : Tree} {trail : Trail} (h : t.at? trail = some u) :
    u.tokens ⊆ t.tokens := by
  induction trail generalizing u with
  | nil =>
    obtain rfl : t = u := by simpa using h
    exact List.Subset.refl _
  | cons i above ih =>
    rw [at?_cons] at h
    obtain ⟨v, hv, hc⟩ := Option.bind_eq_some_iff.1 h
    cases v with
    | leaf x => simp [children] at hc
    | node k cs =>
      exact List.Subset.trans (tokens_subset_of_mem (List.mem_of_getElem? hc)) (ih hv)

theorem range_of_tokens_eq {t : Tree} {x : Token} {r : Range} (ht : t.tokens = [x])
    (h : t.range = .ok r) : Range.ofTokens x x = .ok r := by
  simp only [range, first?_eq, last?_eq, ht, List.head?_cons, List.getLast?_singleton] at h
  cases hr : Range.ofTokens x x with
  | error e => simp [hr, Except.mapError] at h
  | ok r' => simpa [hr, Except.mapError] using h

/-- The range of the leaf at a caret touches the caret and cuts the leaf out of the text. -/
theorem origin_of_leafAt {source : String} {t : Tree} {pos : Position} {trail : Trail}
    {token : Token} {r : Range} (ht : parse source = .ok t)
    (h : t.leafAt pos.line pos.character = some (trail, token)) (hr : (leaf token).range = .ok r) :
    r.Touches pos ∧ Text.cut source.toList r = token.text.toList := by
  obtain ⟨hmem, hline, htouch⟩ := leafAt_eq_some h
  have hstands := standsIn_of_parse ht (mem_tokens_of_mem_leaves hmem)
  have hspan := range_of_tokens_eq rfl hr
  obtain ⟨-, -, -, -, hl₁, hc₁, hl₂, hc₂⟩ := hstands.eq_of_ofTokens hspan
  simp only [Token.touches, Bool.and_eq_true, decide_eq_true_eq] at hline htouch
  exact ⟨⟨by omega, by omega, by omega, by omega⟩, hstands.cut_eq hspan⟩

end Tree

/-- A symbol is the declaration at a place of a tree, and goes by an address. -/
structure Symbol.IsAt (x : Symbol) (uri : String) (t : Tree) (place : Trail) (declaration : Tree) :
    Prop where
  mem : (place, declaration) ∈ t.declarations
  standsFor : x.StandsFor uri declaration

namespace Symbol.IsAt

variable {x : Symbol} {uri text : String} {t declaration : Tree} {place : Trail} {l : Location}

/-- The range of a declared name cuts it out of the text. -/
theorem cut_eq (h : x.IsAt uri t place declaration) (ht : t.IsRanged) (hp : parse text = .ok t)
    (hl : x.location = some l) : Text.cut text.toList l.nameRange = x.name.toList := by
  obtain ⟨hm, hk⟩ := List.mem_filter.1 h.mem
  have hat := Tree.mem_places_nil.1 hm
  obtain ⟨name, range, nameRange, hc, hname, -, hn, hx⟩ := h.standsFor.located
  cases hx.symm.trans hl
  cases declaration with
  | leaf y => simp [Tree.child?, Tree.children] at hc
  | node k cs =>
    obtain ⟨n, -, -, -, hc', -, -, -⟩ := (ht.of_at? hat).exists_locate h.standsFor.kind uri
    cases hc.symm.trans hc'
    have hchild : Tree.ofName n ∈ cs := List.mem_of_find?_eq_some hc
    have hmem : n ∈ t.tokens :=
      Tree.tokens_subset_of_at? hat (Tree.tokens_subset_of_mem hchild (by simp))
    rw [← hname, Tree.text_ofName]
    exact (standsIn_of_parse hp hmem).cut_eq (Tree.range_of_tokens_eq (Tree.tokens_ofName n) hn)

theorem exists_name (h : x.IsAt uri t place declaration) (hl : x.location = some l) :
    l.uri = uri ∧ declaration.range = .ok l.range ∧ ∃ name,
      declaration.child? (.rule .simpleIdentifier) = some name ∧ name.text = x.name ∧
      name.range = .ok l.nameRange := by
  obtain ⟨name, range, nameRange, hc, hname, hr, hn, hx⟩ := h.standsFor.located
  cases hx.symm.trans hl
  exact ⟨rfl, hr, name, hc, hname, hn⟩

end Symbol.IsAt

theorem Tree.mem_of_lastOwned {t : Tree} {name : String} {routine : Option Trail}
    {d : Trail × Tree} (h : t.lastOwned name routine = some d) :
    d ∈ t.declarations ∧ t.owner d.1 = routine := by
  have hm := List.mem_of_mem_filter (List.mem_of_getLast? h)
  exact ⟨List.mem_of_mem_filter hm, of_decide_eq_true (List.mem_filter.1 hm).2⟩

theorem Tree.mem_of_meaning {t : Tree} {trail : Trail} {name : String} {d : Trail × Tree}
    (h : t.meaning trail name = some d) : d ∈ t.declarations ∧
      (t.owner d.1 = none ∨ ∃ routine ∈ t.routinesAround trail, t.owner d.1 = some routine) := by
  obtain ⟨routine, hr, hl⟩ := List.exists_of_findSome?_eq_some h
  obtain ⟨hm, ho⟩ := mem_of_lastOwned hl
  refine ⟨hm, ?_⟩
  rcases List.mem_append.1 hr with hr | hr
  · obtain ⟨place, hp, rfl⟩ := List.mem_map.1 hr
    exact .inr ⟨place, hp, ho⟩
  · exact .inl (by rw [ho, List.mem_singleton.1 hr])

namespace Import

variable {o : Options} {home p : Path} {xs : List (Path × String × Tree)}

theorem numbered_foldVisits {table : SymbolTable} (h : table.Numbered)
    (hx : ∀ x ∈ xs, x.2.2.IsRanged) : (foldVisits table xs).Numbered := by
  induction xs generalizing table with
  | nil => exact h
  | cons x xs ih =>
    simp only [List.mem_cons, forall_eq_or_imp] at hx
    exact ih (h.visited hx.1 x.2.1) hx.2

/-- What the global scope gives for a name, after the visit of one more loaded tree. -/
theorem Loaded.lookup?_visited {y : Path × String × Tree} (hy : Loaded o y) (table : SymbolTable)
    (name : String) :
    ∃ found : Option Symbol,
      (table.visited y.2.1 y.2.2).root.lookup? name = found.or (table.root.lookup? name) ∧
      Option.Rel (fun x d => x.StandsFor y.2.1 d.2) found (y.2.2.lastOwned name none) := by
  obtain ⟨text, -, hp⟩ := exists_text_of_load hy.load_eq
  obtain ⟨cs, he⟩ := hy.isRanged.conforms.exists_children (conforms_of_parse hp).2.1
  have hranged := hy.isRanged
  rw [he] at hranged ⊢
  exact SymbolTable.lookup?_visited hranged rfl table y.2.1 name

/-- A global symbol of a table that trees were folded into was there before, or is a global
declaration of one of the trees. -/
theorem lookup?_foldVisits {table : SymbolTable} {name : String} {x : Symbol}
    (hx : ∀ y ∈ xs, Loaded o y)
    (h : (foldVisits table xs).root.lookup? name = some x) :
    table.root.lookup? name = some x ∨ ∃ y ∈ xs, ∃ place declaration,
      x.IsAt y.2.1 y.2.2 place declaration ∧ y.2.2.owner place = none := by
  induction xs generalizing table with
  | nil => exact .inl h
  | cons y ys ih =>
    simp only [List.mem_cons, forall_eq_or_imp] at hx
    obtain ⟨hy, hys⟩ := hx
    rcases ih hys h with hl | ⟨z, hz, hd⟩
    · obtain ⟨found, hf, hrel⟩ := hy.lookup?_visited table name
      rw [hf] at hl
      generalize hd : y.2.2.lastOwned name none = d at hrel
      cases hrel with
      | none => exact .inl hl
      | @some z d hz =>
        cases hl
        obtain ⟨hm, ho⟩ := Tree.mem_of_lastOwned hd
        exact .inr ⟨y, List.mem_cons_self, d.1, d.2, ⟨hm, hz⟩, ho⟩
    · exact .inr ⟨z, List.mem_cons_of_mem _ hz, hd⟩

/-- A name at a leaf of the tree visited last leads to a declaration of a visited tree: a global one,
or one of a routine around the leaf. -/
theorem exists_isAt_of_find? {uri name : String} {t : Tree} {trail : Trail} {token : Token}
    {x : Symbol} (hx : ∀ y ∈ xs, Located o home y) (ht : t.IsRanged) (hk : t.kind = .rule .file)
    (hl : t.at? trail = some (.leaf token))
    (h : ((foldVisits .empty xs).visited uri t).find?
      (((foldVisits .empty xs).visited uri t).enclosing (foldVisits .empty xs).visits trail) name =
        some x) :
    ∃ y ∈ xs ++ [(p, uri, t)], ∃ place declaration, x.IsAt y.2.1 y.2.2 place declaration ∧
      (y.2.2.owner place = none ∨ y = (p, uri, t) ∧
        ∃ routine ∈ t.routinesAround trail, t.owner place = some routine) := by
  have hranged : ∀ y ∈ xs, y.2.2.IsRanged := by
    intro y hy
    exact (hx y hy).isRanged
  have hnumbered := numbered_foldVisits SymbolTable.numbered_empty hranged
  obtain ⟨found, hf, hrel⟩ := hnumbered.find?_enclosing ht hk hl uri name
  rw [hf] at h
  generalize hd : t.meaning trail name = d at hrel
  cases hrel with
  | none =>
    have hlook := (Option.filter_eq_some_iff.1 h).1
    have hloaded : ∀ y ∈ xs, Loaded o y := by
      intro y hy
      exact (hx y hy).loaded
    rcases lookup?_foldVisits hloaded hlook with he | ⟨y, hy, place, declaration, hat, ho⟩
    · cases he
    · exact ⟨y, by simp [hy], place, declaration, hat, .inl ho⟩
  | @some z d hz =>
    cases h
    obtain ⟨hm, ho⟩ := Tree.mem_of_meaning hd
    refine ⟨(p, uri, t), by simp, d.1, d.2, ⟨hm, hz⟩, ?_⟩
    rcases ho with ho | hr
    · exact .inl ho
    · exact .inr ⟨rfl, hr⟩

theorem Lies.toPath_eq {uri n : String} {names : List String} (h : Lies o home p uri names n)
    (ho : Tame o home) (he : ∀ c ∈ o.extension.toList, Uri.isUnreserved c = true) (cwd : Path) :
    Uri.toPath cwd uri = .ok p := by
  have hnames : ∀ m ∈ names, Path.IsComponent m := by
    intro m hm
    exact isComponent_of_isIdentifier (h.directories m hm)
  have hplain : ∀ c ∈ Path.slashed names ++ n.toList, Uri.isPlain c = true := by
    intro c hc
    rcases List.mem_append.1 hc with hc | hc
    · exact isPlain_of_mem_slashed h.directories c hc
    · rcases h.plain c hc with hp | hx
      · exact hp
      · simp [Uri.isPlain, he c hx]
  have hparts : Path.parts (Path.slashed names ++ n.toList) = names ++ [n] := by
    rw [Path.parts_slashed hnames, Path.parts_toList h.isComponent.1]
  have hhead : (Path.slashed names ++ n.toList).head? ≠ some '/' := by
    apply Path.head?_slashed hnames
    intro hn
    exact h.isComponent.1.2 (List.mem_of_mem_head? hn)
  rw [← Path.toList_intercalate] at hplain hparts hhead
  rw [h.uri, Uri.toPath_ofFolder_append ho.isWellFormed ho.isAbsolute ho.hasDrive hplain hhead,
    hparts, h.path]
  rfl

/-- Each tree that an analysis visits is the one of the text that its address leads to. -/
theorem Analyzes.exists_text {source : String} {t : Tree} {acts : List Act} {s : Session}
    (h : Analyzes o (Uri.ofPath p) t acts s) (hp : Tame o p)
    (he : ∀ c ∈ o.extension.toList, Uri.isUnreserved c = true) (ht : parse source = .ok t)
    (hr : o.disk.readText p = .ok source) {y : Path × String × Tree} (hy : y ∈ visits acts) :
    y.2.2.IsRanged ∧ Uri.toPath o.disk.cwd y.2.1 = .ok y.1 ∧
      ∃ text, o.disk.readText y.1 = .ok text ∧ parse text = .ok y.2.2 := by
  obtain ⟨xs, hx, hranged, hl, -⟩ := h.folds hp ht
  rw [hx] at hy
  rcases List.mem_append.1 hy with hy | hy
  · obtain ⟨names, n, hlies⟩ := (hl y hy).lies
    exact ⟨(hl y hy).isRanged, hlies.toPath_eq hp.parent he _,
      exists_text_of_load (hl y hy).load_eq⟩
  · obtain rfl := List.mem_singleton.1 hy
    exact ⟨hranged, hp.toPath_eq _, source, hr, ht⟩

end Import

namespace SymbolTable

variable {table : SymbolTable} {document : Nat} {t : Tree}

theorem name_of_find? {scope : Trail} {name : String} {x : Symbol}
    (h : table.find? scope name = some x) : x.name = name := by
  obtain ⟨trail, -, hx⟩ := List.exists_of_findSome?_eq_some h
  obtain ⟨s, -, hl⟩ := Option.bind_eq_some_iff.1 (Option.filter_eq_some_iff.1 hx).1
  rw [Scope.lookup?] at hl
  simpa using List.find?_some hl

/-- The definition at a caret is what the name of the leaf there leads to. -/
theorem exists_leaf_of_definitionAt {pos : Position} {definition : Definition}
    (h : table.definitionAt document t pos = .ok (some definition)) :
    ∃ trail token, t.leafAt pos.line pos.character = some (trail, token) ∧
      table.find? (table.enclosing document trail) token.text = some definition.symbol ∧
      definition.symbol.location = some definition.location ∧
      (Tree.leaf token).range = .ok definition.origin := by
  unfold definitionAt at h
  split at h
  · cases h
  · next trail token hleaf =>
    split at h
    · rw [locate, Tree.text_leaf] at h
      split at h
      · cases h
      · next symbol hf =>
        split at h
        · cases h
        · next location hl =>
          cases hr : (Tree.leaf token).range with
          | error e => simp [hr, Except.map] at h
          | ok origin =>
            obtain rfl : ⟨symbol, location, origin⟩ = definition := by
              simpa [hr, Except.map] using h
            exact ⟨trail, token, hleaf, hf, hl, hr⟩
    · cases h

end SymbolTable

namespace Analysis

open Import

/-- A definition lands on the name of a declaration in the file that its address leads to. The
declaration is a global one or belongs to a routine around the caret, and its name is the text at the
caret. -/
theorem definitionAt_lands {d : Disk} {settings : Settings} {p : Path} {source : String}
    {a : Analysis} {pos : Position} {definition : Definition} (hw : p.IsWellFormed)
    (ha : p.isAbsolute = true) (hd : p.hasDrive = false)
    (he : ∀ c ∈ settings.fileExtension.toList, Uri.isUnreserved c = true)
    (hr : d.readText p = .ok source) (hrun : (run d settings (Uri.ofPath p) source).2 = .ok a)
    (hdef : a.definitionAt pos = .ok (some definition)) :
    ∃ t trail token file text target place declaration name,
      a.tree = some t ∧ t.leafAt pos.line pos.character = some (trail, token) ∧
      Uri.toPath d.cwd definition.location.uri = .ok file ∧ d.readText file = .ok text ∧
      parse text = .ok target ∧
      Text.cut text.toList definition.location.nameRange = definition.symbol.name.toList ∧
      Text.cut source.toList definition.origin = definition.symbol.name.toList ∧
      definition.origin.Touches pos ∧
      (place, declaration) ∈ target.declarations ∧
      declaration.range = .ok definition.location.range ∧
      declaration.child? (.rule .simpleIdentifier) = some name ∧
      name.text = definition.symbol.name ∧ name.range = .ok definition.location.nameRange ∧
      (target.owner place = none ∨ file = p ∧ target = t ∧
        ∃ routine ∈ t.routinesAround trail, target.owner place = some routine) := by
  cases ht : parse source with
  | error e =>
    simp only [run, ht, Except.ok.injEq] at hrun
    subst hrun
    cases hdef
  | ok t =>
    obtain ⟨acts, s, h, rfl⟩ := exists_analyzes_of_run ht hrun
    have hslash : '/' ∉ settings.fileExtension.toList := by
      intro hs
      cases he _ hs
    have tame : Tame (optionsOf d settings) p := ⟨hw, ha, hd, hslash⟩
    obtain ⟨xs, hx, hranged, hl, htable⟩ := h.folds tame ht
    obtain ⟨trail, token, hleaf, hfind, hloc, horigin⟩ :=
      SymbolTable.exists_leaf_of_definitionAt hdef
    have hat := Tree.mem_leaves_nil.1 (Tree.leafAt_eq_some hleaf).1
    obtain ⟨htouches, hcut⟩ := Tree.origin_of_leafAt ht hleaf horigin
    rw [← SymbolTable.name_of_find? hfind] at hcut
    have hdocument : s.fold.table.visits - 1 = (foldVisits .empty xs).visits := by
      rw [htable]
      rfl
    simp only [document] at hfind
    rw [hdocument, htable] at hfind
    obtain ⟨y, hy, place, declaration, hd, howner⟩ := exists_isAt_of_find? (p := p) hl hranged
      (conforms_of_parse ht).2.1 hat hfind
    rw [← hx] at hy
    obtain ⟨htarget, hpath, text, hread, hparse⟩ := h.exists_text tame he ht hr hy
    obtain ⟨huri, hrange, name, hchild, hname, hnameRange⟩ := hd.exists_name hloc
    have hselection := hd.cut_eq htarget hparse hloc
    rw [← huri] at hpath
    refine ⟨t, trail, token, y.1, text, y.2.2, place, declaration, name, rfl, hleaf, hpath, hread,
      hparse, hselection, hcut, htouches, hd.mem, hrange, hchild, hname, hnameRange, ?_⟩
    rcases howner with howner | ⟨rfl, hroutine⟩
    · exact .inl howner
    · exact .inr ⟨rfl, rfl, hroutine⟩

/-- A name that an imported file declares leads into that file. -/
theorem definitionAt_lands_imported :
    let d : Disk := ⟨⟨1, ["m"]⟩, [(["m"], .directory),
      (["m", "a.mykt"], .file (Text.Utf8.encode "val x = 1".toList)),
      (["m", "c.mykt"], .file (Text.Utf8.encode "import a val y = x".toList))]⟩
    ∃ a definition text,
      (run d {} (Uri.ofPath ⟨1, ["m", "c.mykt"]⟩) "import a val y = x").2 = .ok a ∧
      a.definitionAt ⟨0, 17⟩ = .ok (some definition) ∧
      Uri.toPath d.cwd definition.location.uri = .ok ⟨1, ["m", "a.mykt"]⟩ ∧
      d.readText ⟨1, ["m", "a.mykt"]⟩ = .ok text ∧
      Text.cut text.toList definition.location.nameRange = definition.symbol.name.toList := by
  intro d
  obtain ⟨a, definition, hrun, hdef, huri⟩ : ∃ a definition,
      (run d {} (Uri.ofPath ⟨1, ["m", "c.mykt"]⟩) "import a val y = x").2 = .ok a ∧
      a.definitionAt ⟨0, 17⟩ = .ok (some definition) ∧
      definition.location.uri = "file:///m/a.mykt" := by
    have hfound : ((run d {} (Uri.ofPath ⟨1, ["m", "c.mykt"]⟩) "import a val y = x").2.toOption.bind
        fun a => (a.definitionAt ⟨0, 17⟩).toOption.bind
          fun definition => definition.map (·.location.uri)) = some "file:///m/a.mykt" := by
      decide +kernel
    have ok {ε α : Type} {r : Except ε α} {x : α} (h : r.toOption = some x) : r = .ok x := by
      cases r <;> cases h
      rfl
    obtain ⟨a, hrun, hfound⟩ := Option.bind_eq_some_iff.1 hfound
    obtain ⟨found, hdef, hfound⟩ := Option.bind_eq_some_iff.1 hfound
    obtain ⟨definition, rfl, huri⟩ := Option.map_eq_some_iff.1 hfound
    exact ⟨a, definition, ok hrun, ok hdef, huri⟩
  obtain ⟨-, -, -, file, text, -, -, -, -, -, -, hpath, hread, -, hcut, -⟩ :=
    definitionAt_lands (p := ⟨1, ["m", "c.mykt"]⟩) ⟨by decide, by decide⟩ rfl rfl
      (by simp [defaultExtension, Uri.isUnreserved]) (by decide +kernel) hrun hdef
  have hfile : file = ⟨1, ["m", "a.mykt"]⟩ := by
    have : Uri.toPath d.cwd "file:///m/a.mykt" = .ok ⟨1, ["m", "a.mykt"]⟩ := by decide +kernel
    rw [huri, this] at hpath
    exact (Except.ok.inj hpath).symm
  subst hfile
  exact ⟨a, definition, text, hrun, hdef, hpath, hread, hcut⟩

end Analysis

end Mykt
