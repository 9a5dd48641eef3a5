import Mykt.Proofs.Definition.Extension
import Mykt.Proofs.Grammar.Lookahead
import Mykt.Proofs.Scope.Record
import Mykt.Proofs.Tree.Ranges

/-!
The extent of what a text declares. Main statements: each part of a parsed text has a range, but for
an empty preamble and a file without tokens; ranges are nested like the parts; the name of a symbol
is within the symbol, and what a routine's scope holds is within the routine.
-/

namespace Mykt

namespace Tree

variable {t u : Tree} {trail : Trail}

/-- A file stands in nothing. -/
theorem IsRanged.eq_nil_of_file (ht : t.IsRanged) (hu : t.at? trail = some u)
    (hk : u.kind = .rule .file) : trail = [] := by
  have nowhere : ∀ r ∈ Rule.all, Rule.file ∉ r.body.parts := by decide
  cases trail with
  | nil => rfl
  | cons i above =>
    obtain ⟨r, cs, -, hr⟩ := ht.exists_parent hu hk
    exact absurd hr (nowhere r r.mem_all)

theorem eq_nil_of_derives_preamble {cs : List Tree} (h : Rule.preamble.body.Derives cs)
    (hc : tokensOf cs = []) : cs = [] := by
  obtain ⟨headers, hheaders, rfl⟩ := Pattern.derives_many_iff.1 h
  cases headers with
  | nil => rfl
  | cons header headers =>
    rw [List.flatten_cons, tokensOf_append, List.append_eq_nil_iff] at hc
    exact absurd hc.1 ((hheaders header List.mem_cons_self).tokensOf_ne_nil rfl)

/-- A part without tokens is an empty preamble or a file. -/
theorem IsRanged.tokens_eq_nil_iff (ht : t.IsRanged) (hu : t.at? trail = some u) :
    u.tokens = [] ↔ u = node (.rule .preamble) [] ∨ trail = [] ∧ t.tokens = [] := by
  constructor
  · intro hnone
    have hconforms := (ht.of_at? hu).conforms
    cases hconforms with
    | leaf => cases hnone
    | @node r cs hd hcs =>
      have hnullable : r.isNullable = true := by
        by_contra hr
        rw [← Rule.isNullable_body] at hr
        exact hd.tokensOf_ne_nil (by simpa using hr) hnone
      have hrule : r = .file ∨ r = .preamble := by
        revert hnullable
        cases r <;> decide
      rcases hrule with rfl | rfl
      · obtain rfl := ht.eq_nil_of_file hu rfl
        obtain rfl : t = _ := by simpa using hu
        exact .inr ⟨rfl, hnone⟩
      · left
        rw [eq_nil_of_derives_preamble hd hnone]
  · intro h
    rcases h with rfl | ⟨rfl, hnone⟩
    · rfl
    · obtain rfl : t = u := by simpa using hu
      exact hnone

theorem IsRanged.exists_range_of_routine (h : u.IsRanged)
    (hk : u.kind = .rule .functionDeclaration) : ∃ r, u.range = .ok r := by
  cases h with
  | terminal hc =>
    cases hc with
    | leaf hterminal => cases hterminal.symm.trans hk
  | rule _ hlocated _ =>
    obtain rfl := hk
    obtain ⟨_, r, _, -, hr, -⟩ := hlocated (by decide)
    exact ⟨r, hr⟩

/-- What a routine owns is written in the routine. -/
theorem tokens_subset_of_mem_owned {routine : Trail} {d : Trail × Tree}
    (hd : d ∈ t.owned (some routine)) (hu : t.at? routine = some u) : d.2.tokens ⊆ u.tokens := by
  have howner : t.owner d.1 = some routine := of_decide_eq_true (List.mem_filter.1 hd).2
  obtain ⟨down, i, hplace⟩ := exists_of_owner_eq howner
  have hat : t.at? d.1 = some d.2 := at?_of_mem_owned hd
  rw [hplace, List.append_cons, at?, List.reverse_append, descend_append] at hat
  obtain ⟨v, hv, hbelow⟩ := Option.bind_eq_some_iff.1 hat
  obtain rfl : u = v := Option.some.inj (hu.symm.trans hv)
  exact (tokens_sublist_of_at? hbelow).subset

end Tree

/-- The name of a declaration is within the declaration. -/
theorem Symbol.StandsFor.exists_location {x : Symbol} {uri : String} {d : Tree}
    (h : x.StandsFor uri d) (hd : d.IsLaid) :
    ∃ l, x.location = some l ∧ d.range = .ok l.range ∧ l.nameRange.Within l.range := by
  obtain ⟨name, range, nameRange, hchild, -, hrange, hname, hlocation⟩ := h.located
  refine ⟨_, hlocation, hrange, ?_⟩
  have hmem : name ∈ d.children := List.mem_of_find?_eq_some hchild
  cases d with
  | leaf => cases hmem
  | node k cs => exact hd.within (Tree.tokens_subset_of_mem hmem) hrange hname

namespace SymbolTable

theorem Holds.exists_notes {table : SymbolTable} {s : Scope} {ds : List Tree.Declared}
    (h : table.Holds s ds) {x : Symbol} (hx : x ∈ s.symbols) : ∃ d ∈ ds, table.Notes x d := by
  obtain ⟨symbols, hsymbols, hnotes⟩ := h
  rw [hsymbols, Scope.latest, List.mem_filterMap] at hx
  obtain ⟨name, -, hfind⟩ := hx
  have hmem : x ∈ symbols := List.mem_reverse.1 (List.mem_of_find?_eq_some hfind)
  clear hsymbols hfind
  induction hnotes with
  | nil => cases hmem
  | @cons y d symbols ds hfirst _ ih =>
    rcases List.mem_cons.1 hmem with rfl | hmem
    · exact ⟨d, List.mem_cons_self, hfirst⟩
    · obtain ⟨d', hd', hnotes⟩ := ih hmem
      exact ⟨d', List.mem_cons_of_mem d hd', hnotes⟩

section

variable {table : SymbolTable} {t : Tree} {uri : String} {trail : Trail} {scope : Scope}
  {xs : List (String × Tree)}

theorem Holds.exists_owned {document : Nat} {routine : Option Trail}
    (h : table.Holds scope (t.declaredBy document uri routine)) {x : Symbol}
    (hx : x ∈ scope.symbols) : ∃ d ∈ t.owned routine, x.StandsFor uri d.2 := by
  obtain ⟨_, hdeclared, hnotes⟩ := h.exists_notes hx
  obtain ⟨d, hd, rfl⟩ := List.mem_map.1 hdeclared
  exact ⟨d, hd, hnotes.standsFor⟩

/-- A scope that a visit opens belongs to a routine and holds what the routine owns. -/
theorem Records.exists_owned_of_mem_opened (h : table.Records xs) (hn : table.Numbered)
    (ht : t.IsRanged) (hk : t.kind = .rule .file) (hs : (trail, scope) ∈ table.opened uri t) :
    ∃ place, t.isRoutineAt place = true ∧
      scope.anchor = some (Tree.anchorOf table.visits place) ∧
      ∀ x ∈ scope.symbols, ∃ d ∈ t.owned (some place), x.StandsFor uri d.2 := by
  obtain ⟨place, hroutine, hanchor⟩ := exists_of_mem_opened ht hs
  have hlast : (xs ++ [(uri, t)])[table.visits]? = some (uri, t) := by
    rw [h.visits_eq, List.getElem?_concat_length]
  obtain ⟨n, outer, s, hfor, -, hat, -, hholds⟩ :=
    (h.visited hn ht hk uri).routine table.visits uri t place hlast hroutine
  -- the scope that is found for the routine is this one
  have hscope : (table.visited uri t).root.at? trail = some scope := by
    rw [← Scope.mem_outline_nil]
    change (trail, scope) ∈ (table.visited uri t).scopes
    rw [scopes_visited]
    exact List.mem_cons_of_mem _ (List.mem_append_right _ hs)
  have hsame := hn.scopeFor?_eq_some ht hscope ⟨_, hanchor, rfl, rfl⟩
  obtain rfl : n :: outer = trail := Option.some.inj (hfor.symm.trans hsame)
  obtain rfl : s = scope := Option.some.inj (hat.symm.trans hscope)
  exact ⟨place, hroutine, hanchor, fun x hx => hholds.exists_owned hx⟩

/-- What a scope of a single tree holds: the global one what the file owns, and each other one what
its routine owns. -/
theorem exists_owned_of_mem_scopes (ht : t.IsRanged) (hk : t.kind = .rule .file)
    (hs : (trail, scope) ∈ (empty.visited uri t).scopes) :
    ∃ routine, (∀ x ∈ scope.symbols, ∃ d ∈ t.owned routine, x.StandsFor uri d.2) ∧
      (routine = none ∧ trail = [] ∨
        ∃ place, routine = some place ∧ t.isRoutineAt place = true ∧
          scope.anchor = some (Tree.anchorOf 0 place)) := by
  rw [scopes_visited, List.mem_cons, List.mem_append] at hs
  rcases hs with hroot | hold | hopened
  · obtain ⟨rfl, rfl⟩ := Prod.mk.inj hroot
    have hglobals := (records_empty.visited numbered_empty ht hk uri).globals
    simp only [List.nil_append, List.zipIdx_singleton, List.flatMap_singleton] at hglobals
    exact ⟨none, fun x hx => hglobals.exists_owned hx, .inl ⟨rfl, rfl⟩⟩
  · cases hold
  · obtain ⟨place, hroutine, hanchor, howned⟩ :=
      records_empty.exists_owned_of_mem_opened numbered_empty ht hk hopened
    exact ⟨some place, howned, .inr ⟨place, rfl, hroutine, hanchor⟩⟩

end

end SymbolTable

/-- Ranges of a parsed text are well formed and nested, and the parts without one are an empty
preamble and a file without tokens. In the table of the text the names of symbols are within them,
and symbols in the scope of a routine are within the routine. -/
theorem ranges_nested {source : String} {t : Tree} (h : parse source = .ok t)
    (hs : source.length ≤ Position.limit) (uri : String) :
    (∀ trail u, t.at? trail = some u → u.HasNestedRanges ∧
      (u.tokens = [] ↔ u = .node (.rule .preamble) [] ∨ trail = [] ∧ t.tokens = [])) ∧
    ∃ table, SymbolTable.ofTree uri t = .ok table ∧
      ∀ x ∈ table.scopes,
        (∀ symbol ∈ x.2.symbols, ∃ l, symbol.location = some l ∧ l.nameRange.Within l.range) ∧
        (x.1 = [] ∨ ∃ a u r, x.2.anchor = some a ∧ t.at? a.trail = some u ∧
          u.kind = .rule .functionDeclaration ∧ u.range = .ok r ∧
          ∀ symbol ∈ x.2.symbols, ∀ l, symbol.location = some l → l.range.Within r) := by
  have hranged := Tree.isRanged_of_parse h hs
  have hspans := Tree.hasSpans_of_parse h hs
  have hlaid := Tree.isLaid_of_parse h
  refine ⟨?_, _, SymbolTable.ofTree_eq_visited hranged uri, ?_⟩
  · intro trail u hu
    have hsub := Tree.tokens_sublist_of_at? hu
    have hnested := (hspans.mono hsub.subset).hasNestedRanges (hlaid.mono hsub)
    exact ⟨hnested, hranged.tokens_eq_nil_iff hu⟩
  · intro x hx
    obtain ⟨routine, howned, hscope⟩ :=
      SymbolTable.exists_owned_of_mem_scopes hranged (conforms_of_parse h).2.1 hx
    have hlocated : ∀ symbol ∈ x.2.symbols, ∃ d ∈ t.owned routine, ∃ l,
        symbol.location = some l ∧ d.2.range = .ok l.range ∧ l.nameRange.Within l.range := by
      intro symbol hsymbol
      obtain ⟨d, hd, hstands⟩ := howned symbol hsymbol
      have hsub := Tree.tokens_sublist_of_at? (Tree.at?_of_mem_owned hd)
      exact ⟨d, hd, hstands.exists_location (hlaid.mono hsub)⟩
    refine ⟨?_, ?_⟩
    · intro symbol hsymbol
      obtain ⟨_, _, l, hl, -, hwithin⟩ := hlocated symbol hsymbol
      exact ⟨l, hl, hwithin⟩
    · rcases hscope with ⟨-, hroot⟩ | ⟨place, rfl, hroutine, hanchor⟩
      · exact .inl hroot
      · right
        obtain ⟨u, hu, hkind⟩ := (Option.any_eq_true _ _).1 hroutine
        have hkind : u.kind = .rule .functionDeclaration := of_decide_eq_true hkind
        obtain ⟨r, hr⟩ := (hranged.of_at? hu).exists_range_of_routine hkind
        refine ⟨_, u, r, hanchor, hu, hkind, hr, ?_⟩
        intro symbol hsymbol l hl
        obtain ⟨d, hd, l', hl', hrange, -⟩ := hlocated symbol hsymbol
        obtain rfl : l = l' := Option.some.inj (hl.symm.trans hl')
        exact (hlaid.mono (Tree.tokens_sublist_of_at? hu)).within
          (Tree.tokens_subset_of_mem_owned hd hu) hr hrange

/-- A routine over three lines, with a parameter and a routine in it, behind an empty preamble. -/
theorem ranges_nested_three_lines :
    ∃ t table, parse "fun f(a: Int) \x7b\n  fun g() = a\n\x7d" = .ok t ∧
      SymbolTable.ofTree "file:///m" t = .ok table ∧
      t.range = .ok ⟨⟨0, 0⟩, ⟨2, 1⟩⟩ ∧ t.HasNestedRanges ∧
      t.at? [0] = some (.node (.rule .preamble) []) ∧
      table.scopes.map (fun x => (x.1, x.2.names)) =
        [([], ["f"]), ([0], ["a", "g"]), ([0, 0], [])] ∧
      ∀ x ∈ table.scopes, x.1 = [] ∨ ∃ a u r, x.2.anchor = some a ∧ t.at? a.trail = some u ∧
        u.kind = .rule .functionDeclaration ∧ u.range = .ok r ∧
        ∀ symbol ∈ x.2.symbols, ∀ l, symbol.location = some l → l.range.Within r := by
  obtain ⟨t, ht, hrange, hpreamble, hnames⟩ :
      ∃ t, parse "fun f(a: Int) \x7b\n  fun g() = a\n\x7d" = .ok t ∧
        t.range = .ok ⟨⟨0, 0⟩, ⟨2, 1⟩⟩ ∧
        t.at? [0] = some (.node (.rule .preamble) []) ∧
        ((SymbolTable.ofTree "file:///m" t).map fun table =>
          table.scopes.map fun x => (x.1, x.2.names)) =
            .ok [([], ["f"]), ([0], ["a", "g"]), ([0, 0], [])] :=
    ⟨_, rfl, by decide +kernel, rfl, by decide +kernel⟩
  obtain ⟨hparts, table, htable, hscopes⟩ := ranges_nested ht (by decide) "file:///m"
  rw [htable] at hnames
  refine ⟨t, table, ht, htable, hrange, (hparts [] t rfl).1, hpreamble, ?_, ?_⟩
  · simpa [Except.map] using hnames
  · intro x hx
    exact (hscopes x hx).2

end Mykt
