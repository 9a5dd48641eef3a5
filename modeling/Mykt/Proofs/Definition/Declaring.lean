import Mykt.Proofs.Definition.Extension
import Mykt.Proofs.Tree.Touch

/-!
A caret on the name of a declaration. Main statements: the search for a leaf finds the name that
begins at the caret; the last declaration of a name leads from its own name to itself, unless it is
a routine that owns a declaration of its own name; such a routine does not.
-/

namespace Mykt

namespace Tree

/-- At the first character of a name stands its leaf. -/
theorem leafAt_name {source : String} {t : Tree} (h : parse source = .ok t) {trail : Trail}
    {n : Token} (hat : t.at? trail = some (leaf n)) (hn : n.isName = true) :
    t.leafAt (n.line - 1) n.column = some (trail, n) := by
  have hmeets : n.Meets (n.line - 1 + 1) n.column := ⟨by omega, by omega, by omega⟩
  have htouched : (trail, n) ∈ t.touched (n.line - 1) n.column := mem_touched.2 ⟨hat, hmeets⟩
  rw [leafAt_eq_preferred h]
  exact preferred_of_name (length_touched_names_le h) htouched hn

/-- The last declaration of a name in its owner is meant by the name wherever the routines around
are those around the declaration, if it is not hidden by what it owns itself. -/
theorem meaning_declared {t : Tree} {d : Trail × Tree} {place : Trail} {name : String}
    (hroot : t.isRoutine = false) (haround : t.routinesAround place = t.routinesAround d.1)
    (hd : t.lastOwned name (t.owner d.1) = some d)
    (hself : t.isRoutineAt d.1 = true → t.lastOwned name (some d.1) = none) :
    t.meaning place name = some d := by
  have outer {rs : List Trail} (h : t.lastOwned name rs.head? = some d) :
      (rs.map some ++ [none]).findSome? (t.lastOwned name) = some d := by
    cases rs with
    | nil => simpa using h
    | cons r rs => simp [show t.lastOwned name (some r) = some d from h]
  rw [meaning, haround]
  cases htrail : d.1 with
  | nil =>
    rw [htrail] at hd
    rw [routinesAround_nil hroot]
    exact outer hd
  | cons i above =>
    rw [htrail] at hd hself
    rw [routinesAround_cons]
    split
    · next hroutine =>
      rw [List.map_cons, List.cons_append, List.findSome?_cons, hself hroutine]
      exact outer hd
    · exact outer hd

/-- The name of a declaration, as a leaf below it. -/
theorem exists_name_leaf {t : Tree} {place : Trail} {k : Kind} {cs : List Tree} {n : Token}
    (hat : t.at? place = some (node k cs))
    (hchild : (node k cs).child? (.rule .simpleIdentifier) = some (ofName n))
    (hn : n.isName = true) :
    ∃ trail, t.at? trail = some (leaf n) ∧ t.routinesAround trail = t.routinesAround place := by
  obtain ⟨i, hi⟩ := List.getElem?_of_mem (List.mem_of_find?_eq_some hchild)
  have hidentifier : t.at? (i :: place) = some (ofName n) := by
    rw [at?_cons, hat]
    exact hi
  have hleaf : t.at? (0 :: i :: place) = some (leaf n) := by
    rw [at?_cons, hidentifier]
    rfl
  have hroutine : (leaf n).isRoutine = false := by simp [isRoutine, kind, Token.isName_iff.1 hn]
  refine ⟨0 :: i :: place, hleaf, ?_⟩
  rw [routinesAround_cons, isRoutineAt_of_at? hleaf, hroutine, if_neg Bool.false_ne_true,
    routinesAround_cons, isRoutineAt_of_at? hidentifier]
  rfl

end Tree

namespace SymbolTable

/-- From the first character of its own name, the last declaration of a name leads to itself, if it
is not a routine that owns a declaration of that name. -/
theorem definitionAt_declared {source : String} {t : Tree} (h : parse source = .ok t)
    (hs : source.length ≤ Position.limit) (uri : String) {d : Trail × Tree} {name : String}
    (hd : t.lastOwned name (t.owner d.1) = some d)
    (hself : d.2.isRoutine = true → t.lastOwned name (some d.1) = none) :
    ∃ table symbol identifier range nameRange, ofTree uri t = .ok table ∧
      d.2.child? (.rule .simpleIdentifier) = some identifier ∧ d.2.range = .ok range ∧
      identifier.range = .ok nameRange ∧
      table.definitionAt 0 t nameRange.start =
        .ok (some ⟨symbol, ⟨uri, range, nameRange⟩, nameRange⟩) ∧
      symbol.name = name ∧ Fold.declares d.2.kind = some symbol.kind := by
  obtain ⟨place, declaration⟩ := d
  have hconforms := conforms_of_parse h
  have hranged := Tree.isRanged_of_parse h hs
  obtain ⟨hplace, hkind⟩ := List.mem_filter.1 (Tree.mem_of_lastOwned hd).1
  have hat := Tree.mem_places_nil.1 hplace
  obtain ⟨kind, hkind⟩ := Option.isSome_iff_exists.1 hkind
  cases declaration with
  | leaf x =>
    obtain ⟨k, hk⟩ := hconforms.1.exists_terminal
      (Tree.mem_tokens_of_mem_leaves (Tree.mem_leaves_nil.2 hat))
    simp [Tree.kind, hk, Fold.declares] at hkind
  | node k cs =>
    obtain ⟨n, range, nameRange, hn, hchild, hrange, hnameRange, -⟩ :=
      (hranged.of_at? hat).exists_locate hkind uri
    obtain ⟨trail, hleaf, haround⟩ := Tree.exists_name_leaf hat hchild hn
    have hname : n.text = name := by
      have hdeclared := Tree.declaredName_of_lastOwned hd
      simpa [Tree.declaredName, hchild] using hdeclared
    -- the routines around the name are those around the declaration, itself included
    have hroot : t.isRoutine = false := by simp [Tree.isRoutine, hconforms.2.1]
    have hmeaning : t.meaning trail n.text = some (place, .node k cs) := by
      rw [hname]
      apply Tree.meaning_declared hroot haround hd
      rw [Tree.isRoutineAt_of_at? hat]
      exact hself
    obtain ⟨x, l, hx, hl, hlocate⟩ :=
      numbered_empty.locate_of_meaning_eq_some hranged hconforms.2.1 hleaf hmeaning uri
    obtain ⟨identifier, range', nameRange', hchild', hname', hrange', hnameRange', hl'⟩ :=
      hx.located
    cases hchild.symm.trans hchild'
    cases hrange.symm.trans hrange'
    cases hnameRange.symm.trans hnameRange'
    cases hl.symm.trans hl'
    have horigin : (Tree.leaf n).range = .ok nameRange := hnameRange
    have hmem := Tree.mem_tokens_of_mem_leaves (Tree.mem_leaves_nil.2 hleaf)
    have hstands := standsIn_of_parse h hmem
    obtain ⟨-, -, -, -, hline, hcolumn, -, -⟩ :=
      hstands.eq_of_ofTokens (Tree.range_of_tokens_eq rfl horigin)
    have hcaret := Tree.leafAt_name h hleaf hn
    rw [← hline, ← hcolumn] at hcaret
    refine ⟨_, x, _, range, nameRange, ofTree_eq_visited hranged uri, hchild, hrange, hnameRange,
      ?_, ?_, hx.kind⟩
    · rw [horigin] at hlocate
      have hidentifier : n.kind.isIdentifier = true := by
        simp [Kind.isIdentifier, Token.isName_iff.1 hn]
      simp only [definitionAt, hcaret, hidentifier, if_true]
      exact hlocate
    · rw [← hname', Tree.text_ofName, hname]

/-- A routine replaces a variable of its name, and what an inner routine declares hides neither. -/
theorem definitionAt_declared_routine :
    ∃ t table symbol range nameRange,
      parse "val f = 1 fun f(a: Int) { fun g() { val f = a } }" = .ok t ∧
      ofTree "file:///m" t = .ok table ∧ nameRange = ⟨⟨0, 14⟩, ⟨0, 15⟩⟩ ∧
      table.definitionAt 0 t nameRange.start =
        .ok (some ⟨symbol, ⟨"file:///m", range, nameRange⟩, nameRange⟩) ∧
      symbol.kind = .routine := by
  obtain ⟨t, ht, hfacts⟩ : ∃ t, parse "val f = 1 fun f(a: Int) { fun g() { val f = a } }" = .ok t ∧
      (t.lastOwned "f" none).map (fun d => (t.owner d.1, (t.lastOwned "f" (some d.1)).isNone,
        d.2.kind, (d.2.child? (.rule .simpleIdentifier)).map (·.range.toOption))) =
          some (none, true, .rule .functionDeclaration, some (some ⟨⟨0, 14⟩, ⟨0, 15⟩⟩)) := by
    refine ⟨_, rfl, ?_⟩
    decide +kernel
  obtain ⟨d, hd, he⟩ := Option.map_eq_some_iff.1 hfacts
  simp only [Prod.mk.injEq] at he
  obtain ⟨howner, hself, hkind, hname⟩ := he
  rw [← howner] at hd
  obtain ⟨table, symbol, identifier, range, nameRange, htable, hchild, -, hnameRange, hfound, -,
    hsymbol⟩ := definitionAt_declared ht (by decide) "file:///m" hd
      fun _ => Option.isNone_iff_eq_none.1 hself
  have hplace : nameRange = ⟨⟨0, 14⟩, ⟨0, 15⟩⟩ := by
    simpa [hchild, hnameRange, Except.toOption] using hname
  rw [hkind] at hsymbol
  exact ⟨t, table, symbol, range, nameRange, ht, htable, hplace, hfound,
    (Option.some.inj hsymbol).symm⟩

/-- The name of a routine is looked up in the routine, so its parameter of that name is found. -/
theorem definitionAt_parameter_of_routine :
    ∃ t table d x, parse "fun f(f: Int) {}" = .ok t ∧ ofTree "file:///m" t = .ok table ∧
      t.lastOwned "f" (t.owner d.1) = some d ∧ d.2.kind = .rule .functionDeclaration ∧
      (d.2.child? (.rule .simpleIdentifier)).map (·.range.toOption) =
        some (some ⟨⟨0, 4⟩, ⟨0, 5⟩⟩) ∧
      table.definitionAt 0 t ⟨0, 4⟩ = .ok (some x) ∧ x.symbol.kind = .parameter ∧
      x.location.range = ⟨⟨0, 6⟩, ⟨0, 12⟩⟩ := by
  have ok {ε α : Type} {r : Except ε α} {x : α} (h : r.toOption = some x) : r = .ok x := by
    cases r <;> simp_all [Except.toOption]
  obtain ⟨t, ht, hfacts, hfound⟩ : ∃ t, parse "fun f(f: Int) {}" = .ok t ∧
      (t.lastOwned "f" none).map (fun d => (t.owner d.1, d.2.kind,
        (d.2.child? (.rule .simpleIdentifier)).map (·.range.toOption))) =
          some (none, .rule .functionDeclaration, some (some ⟨⟨0, 4⟩, ⟨0, 5⟩⟩)) ∧
      ((ofTree "file:///m" t).toOption.bind fun table =>
        (table.definitionAt 0 t ⟨0, 4⟩).toOption.bind fun found =>
          found.map fun x => (x.symbol.kind, x.location.range)) =
            some (.parameter, ⟨⟨0, 6⟩, ⟨0, 12⟩⟩) := by
    refine ⟨_, rfl, ?_, ?_⟩
    · decide +kernel
    · decide +kernel
  obtain ⟨d, hd, he⟩ := Option.map_eq_some_iff.1 hfacts
  simp only [Prod.mk.injEq] at he
  obtain ⟨howner, hkind, hname⟩ := he
  rw [← howner] at hd
  obtain ⟨table, htable, hdefinition⟩ := Option.bind_eq_some_iff.1 hfound
  obtain ⟨found, hresult, hx⟩ := Option.bind_eq_some_iff.1 hdefinition
  obtain ⟨x, rfl, hparts⟩ := Option.map_eq_some_iff.1 hx
  obtain ⟨hsymbol, hrange⟩ := Prod.mk.inj hparts
  exact ⟨t, table, d, x, ht, ok htable, hd, hkind, hname, ok hresult, hsymbol, hrange⟩

end SymbolTable

end Mykt
