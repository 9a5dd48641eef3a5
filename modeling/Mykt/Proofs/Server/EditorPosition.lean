import Mykt.Proofs.Definition.Declaring
import Mykt.Proofs.Server.Importers
import Mykt.Proofs.Token.LineEnds
import Mykt.Proofs.Tree.Ranges

/-!
Positions as an editor counts them. A line of an editor ends with a line feed, a carriage return or
both together, and its characters are counted in UTF-16 units, while tokens are placed by line feeds
and characters. Main statements: the two positions behind a text are the same exactly if each of its
carriage returns stands before a line feed and its last line holds no character of two units; so a
name is answered at the editor's position, with the editor's range, exactly behind such a text.
-/

namespace Mykt

open Text

namespace Text

theorem units16_eq_one_iff {c : Char} : units16 c = 1 ↔ c.toNat < 0x10000 := by
  unfold units16
  split <;> simp_all

theorem length_le_unitCount (cs : List Char) : cs.length ≤ unitCount cs := by
  induction cs with
  | nil => exact Nat.le_refl _
  | cons c cs ih =>
    have hc : 1 ≤ units16 c := by
      unfold units16
      split <;> omega
    simp only [unitCount, List.length_cons]
    omega

/-- A text has as many units as characters exactly if each character has one. -/
theorem unitCount_eq_length_iff {cs : List Char} :
    unitCount cs = cs.length ↔ ∀ c ∈ cs, c.toNat < 0x10000 := by
  induction cs with
  | nil => simp [unitCount]
  | cons c cs ih =>
    have hle := length_le_unitCount cs
    have hc : units16 c = 1 ∨ units16 c = 2 := by
      unfold units16
      split <;> simp
    rw [List.forall_mem_cons, ← units16_eq_one_iff, ← ih, unitCount, List.length_cons]
    omega

/-- A text is its last line, or ends with it behind a line feed. -/
theorem lastLine_cases (cs : List Char) :
    '\n' ∉ lastLine cs ∧ (cs = lastLine cs ∨ ∃ init, cs = init ++ '\n' :: lastLine cs) := by
  induction cs using List.reverseRecOn with
  | nil => simp [lastLine]
  | append_singleton cs c ih =>
    by_cases hc : c = '\n'
    · subst hc
      rw [lastLine_newline]
      exact ⟨List.not_mem_nil, .inr ⟨cs, rfl⟩⟩
    · rw [lastLine_concat cs hc]
      obtain ⟨hnot, hcases⟩ := ih
      refine ⟨by simpa [hnot] using Ne.symm hc, ?_⟩
      rcases hcases with heq | ⟨init, heq⟩
      · exact .inl (by rw [← heq])
      · refine .inr ⟨init, ?_⟩
        rw [← List.cons_append, ← List.append_assoc, ← heq]

end Text

namespace Position

theorem eq_iff {p q : Position} : p = q ↔ p.line = q.line ∧ p.character = q.character := by
  cases p
  cases q
  simp

/-- The editor's position behind a text that begins at a position. A carriage return before a line
feed is part of its line end. -/
def behind (p : Position) : List Char → Position
  | [] => p
  | c :: cs =>
    if c = '\r' ∧ cs.head? = some '\n' then behind p cs
    else if c = '\r' ∨ c = '\n' then behind ⟨p.line + 1, 0⟩ cs
    else behind ⟨p.line, p.character + units16 c⟩ cs

/-- Texts one behind the other, unless a carriage return and a line feed are torn apart. -/
theorem behind_append (p : Position) {xs ys : List Char} (h : ys.head? ≠ some '\n') :
    p.behind (xs ++ ys) = (p.behind xs).behind ys := by
  induction xs generalizing p with
  | nil => rfl
  | cons c xs ih =>
    have hhead : (xs ++ ys).head? = some '\n' ↔ xs.head? = some '\n' := by
      cases xs with
      | nil => simpa using h
      | cons x xs => rfl
    simp only [List.cons_append, behind, hhead, ih]
    split
    · rfl
    · split <;> rfl

theorem character_behind_newline (p : Position) (xs : List Char) :
    (p.behind (xs ++ ['\n'])).character = 0 := by
  induction xs generalizing p with
  | nil => rfl
  | cons c xs ih =>
    simp only [List.cons_append, behind]
    split
    · exact ih p
    · split
      · exact ih _
      · exact ih _

/-- On one line only units count. -/
theorem behind_of_notMem (p : Position) {cs : List Char} (hr : '\r' ∉ cs) (hn : '\n' ∉ cs) :
    p.behind cs = ⟨p.line, p.character + unitCount cs⟩ := by
  induction cs generalizing p with
  | nil => rfl
  | cons c cs ih =>
    simp only [List.mem_cons, not_or] at hr hn
    have hc : ¬ (c = '\r' ∨ c = '\n') := by
      simp [Ne.symm hr.1, Ne.symm hn.1]
    rw [behind, if_neg (fun h => hc (.inl h.1)), if_neg hc, ih _ hr.2 hn.2, unitCount,
      Nat.add_assoc]

theorem count_le_line_behind (p : Position) (cs : List Char) :
    p.line + cs.count '\n' ≤ (p.behind cs).line := by
  induction cs generalizing p with
  | nil => simp [behind]
  | cons c cs ih =>
    rw [behind]
    split
    · next h =>
      rw [h.1, List.count_cons_of_ne (by decide)]
      exact ih p
    · split
      · have hle : (c :: cs).count '\n' ≤ cs.count '\n' + 1 := by
          rw [List.count_cons]
          split <;> omega
        have := ih ⟨p.line + 1, 0⟩
        simp only at this
        omega
      · next h =>
        rw [List.count_cons_of_ne (fun hc => h (.inr hc))]
        exact ih ⟨p.line, p.character + units16 c⟩

/-- An editor counts as many lines as there are line feeds exactly if no carriage return stands
alone. -/
theorem line_behind_eq_iff (p : Position) (cs : List Char) :
    (p.behind cs).line = p.line + cs.count '\n' ↔ IsPaired cs := by
  induction cs generalizing p with
  | nil => simp [behind, IsPaired]
  | cons c cs ih =>
    rw [behind, IsPaired]
    split
    · next h =>
      rw [h.1, List.count_cons_of_ne (by decide), ih p]
      simp [h.2]
    · next hpair =>
      by_cases hr : c = '\r'
      -- a carriage return alone is one line more
      · have hle := count_le_line_behind ⟨p.line + 1, 0⟩ cs
        have hnot : cs.head? ≠ some '\n' := fun h => hpair ⟨hr, h⟩
        rw [if_pos (.inl hr), hr, List.count_cons_of_ne (by decide)]
        simp only at hle
        simp only [forall_const, hnot, false_and, iff_false]
        omega
      by_cases hn : c = '\n'
      · have := ih ⟨p.line + 1, 0⟩
        rw [if_pos (.inr hn), hn, List.count_cons_self]
        simp only at this
        simp only [Char.reduceEq, false_implies, true_and, ← this]
        omega
      · rw [if_neg (by simp [hr, hn]), List.count_cons_of_ne hn, ih]
        simp [hr]

/-- Behind a text without a carriage return that stands alone, the units of the last line count. -/
theorem character_behind {cs : List Char} (h : IsPaired cs) :
    (behind ⟨0, 0⟩ cs).character = unitCount (lastLine cs) := by
  obtain ⟨hn, hcases⟩ := lastLine_cases cs
  have hr : '\r' ∉ lastLine cs := by
    rw [← List.append_nil cs] at h
    exact return_notMem_lastLine h (by simp)
  have hhead : (lastLine cs).head? ≠ some '\n' := fun he => hn (List.mem_of_mem_head? he)
  rcases hcases with heq | ⟨init, heq⟩
  · rw [← heq] at hr hn ⊢
    rw [behind_of_notMem _ hr hn]
    exact Nat.zero_add _
  · have hsplit : cs = (init ++ ['\n']) ++ lastLine cs := by
      rw [List.append_assoc]
      exact heq
    rw [hsplit, behind_append _ hhead, ← hsplit, behind_of_notMem _ hr hn,
      character_behind_newline]
    exact Nat.zero_add _

/-- The editor's position behind a text is the place of a token there exactly if no carriage return
of the text stands alone and no character of its last line has two units. -/
theorem behind_eq_position_iff {cs : List Char} :
    behind ⟨0, 0⟩ cs = (Place.start.advance cs).position ↔
      IsPaired cs ∧ ∀ c ∈ lastLine cs, c.toNat < 0x10000 := by
  have hline := line_behind_eq_iff ⟨0, 0⟩ cs
  simp only [Nat.zero_add] at hline
  rw [eq_iff, Place.position, Place.line_advance, Place.column_advance, hline]
  refine and_congr_right fun hpaired => ?_
  rw [character_behind hpaired, unitCount_eq_length_iff]

end Position

/-- A definition that is found for a leaf begins with the range of the leaf. -/
theorem SymbolTable.range_of_locate {table : SymbolTable} {document : Nat} {trail : Trail}
    {t : Tree} {found : Definition} (h : table.locate document trail t = .ok (some found)) :
    t.range = .ok found.origin := by
  unfold locate at h
  split at h
  · cases h
  · split at h
    · cases h
    · cases hr : t.range with
      | error e => simp [hr, Except.map] at h
      | ok origin =>
        simp only [hr, Except.map, Except.ok.injEq, Option.some.injEq] at h
        rw [← h]

namespace Token

/-- A token stands behind the first part of a text. -/
structure StandsBehind (x : Token) (before cs : List Char) : Prop where
  text : ∃ after, cs = before ++ x.text.toList ++ after
  line : x.line = (Place.start.advance before).line + 1
  column : x.column = (Place.start.advance before).column

/-- The range of a token in the numbers of an editor. -/
def editorRange (x : Token) (before : List Char) : Range :=
  ⟨.behind ⟨0, 0⟩ before, .behind ⟨0, 0⟩ (before ++ x.text.toList)⟩

variable {x : Token} {before cs : List Char}

/-- A name stands on one line, and each of its characters has one unit. -/
theorem behind_name (hx : x.IsSpelled) (hn : x.isName = true) (p : Position) :
    p.behind x.text.toList = ⟨p.line, p.character + x.text.length⟩ ∧
      x.text.toList.head? ≠ some '\n' := by
  have hpart := fun c hc => Lexer.isNamePart_of_isIdentifier (x := c) (hx.isIdentifier hn) hc
  have hr : '\r' ∉ x.text.toList := fun h => absurd (hpart _ h) (by decide)
  have hnl : '\n' ∉ x.text.toList := fun h => absurd (hpart _ h) (by decide)
  have hunits : unitCount x.text.toList = x.text.length := by
    rw [← String.length_toList, unitCount_eq_length_iff]
    intro c hc
    exact Nat.lt_trans (Lexer.toNat_lt_of_isNamePart (hpart c hc)) (by decide)
  rw [Position.behind_of_notMem p hr hnl, hunits]
  exact ⟨rfl, fun h => hnl (List.mem_of_mem_head? h)⟩

/-- The range of a name is the editor's exactly if its position is. -/
theorem StandsBehind.range_eq_editorRange_iff {r : Range} (h : x.StandsBehind before cs)
    (hx : x.IsSpelled) (hn : x.isName = true) (hr : Range.ofTokens x x = .ok r) :
    r = x.editorRange before ↔
      Position.behind ⟨0, 0⟩ before = (Place.start.advance before).position := by
  have hcoordinates := Range.coordinates_of_ofTokens hr
  have hline := h.line
  have hcolumn := h.column
  have hstart : r.start = (Place.start.advance before).position := by
    rw [Position.eq_iff, Place.position]
    simp only
    omega
  obtain ⟨hbehind, hhead⟩ := behind_name hx hn (.behind ⟨0, 0⟩ before)
  rw [← hstart, editorRange, Position.behind_append _ hhead, hbehind]
  obtain ⟨start, stop⟩ := r
  simp only [Range.mk.injEq, Position.eq_iff] at hcoordinates ⊢
  omega

end Token

namespace Server

variable {s : Server} {d : Disk} {uri source : String} {t : Tree} {a : Analysis} {trail : Trail}
  {n : Token}

theorem uncached_of_open (ho : s.openText? uri = some source)
    (ha : (Analysis.run d s.cache.settings uri source).2 = .ok a) (p : Position) :
    s.uncached d uri p = answerOf (a.definitionAt p) := by
  cases hw : s.workspace with
  | none => simp [openText?, hw] at ho
  | some w => simp only [uncached, hw, text_of_openText? hw ho, ha]

/-- The analysis of a text answers at the place of a name with what is found for the name. -/
theorem definitionAt_position (ht : parse source = .ok t)
    (ha : (Analysis.run d s.cache.settings uri source).2 = .ok a)
    (hat : t.at? trail = some (.leaf n)) (hn : n.isName = true) {before : List Char}
    (hb : n.StandsBehind before source.toList) :
    a.definitionAt (Place.start.advance before).position =
      a.table.locate a.document trail (.leaf n) := by
  obtain ⟨acts, session, -, rfl⟩ := Import.exists_analyzes_of_run ht ha
  have hcaret := Tree.leafAt_name ht hat hn
  have hline : n.line - 1 = (Place.start.advance before).line := by
    rw [hb.line]
    omega
  rw [hline, hb.column] at hcaret
  have hidentifier : n.kind.isIdentifier = true := by
    simp [Kind.isIdentifier, Token.isName_iff.1 hn]
  simp only [Analysis.definitionAt, SymbolTable.definitionAt, Place.position, hcaret, hidentifier,
    if_true]

/-- A name of an open document is answered at the editor's position, with the link of its
definition and the editor's range of the name, exactly if no carriage return before it stands alone
and no character before it on its line has two units. -/
theorem definition_at_editor_position_iff {found : Definition} {before : List Char}
    (hf : s.Fresh d uri) (ho : s.openText? uri = some source) (ht : parse source = .ok t)
    (ha : (Analysis.run d s.cache.settings uri source).2 = .ok a)
    (hat : t.at? trail = some (.leaf n)) (hn : n.isName = true)
    (hfound : a.table.locate a.document trail (.leaf n) = .ok (some found))
    (hb : n.StandsBehind before source.toList) :
    ((s.step d (.definition uri (.behind ⟨0, 0⟩ before))).2.answer = .links (some found.link) ∧
      found.link.originSelectionRange = some (n.editorRange before)) ↔
      IsPaired before ∧ ∀ c ∈ lastLine before, c.toNat < 0x10000 := by
  have hmem := Tree.mem_tokens_of_mem_leaves (Tree.mem_leaves_nil.2 hat)
  have hrange := Tree.range_of_tokens_eq rfl (SymbolTable.range_of_locate hfound)
  have horigin : found.link.originSelectionRange = some (n.editorRange before) ↔
      Position.behind ⟨0, 0⟩ before = (Place.start.advance before).position := by
    rw [← hb.range_eq_editorRange_iff (standsIn_of_parse ht hmem).spelled hn hrange]
    exact Option.some_inj
  rw [horigin, ← Position.behind_eq_position_iff]
  apply and_iff_right_of_imp
  intro heq
  rw [heq, hf.answer_eq, uncached_of_open ho ha, definitionAt_position ht ha hat hn hb, hfound]
  rfl

/-- What is found for a name, from a test of the analysis. -/
theorem exists_locate_of_isSome (x : Except Import.Error Analysis) (trail : Trail) (n : Token)
    (h : (x.toOption.bind fun a =>
      (a.table.locate a.document trail (.leaf n)).toOption.join).isSome = true) :
    ∃ a found, x = .ok a ∧ a.table.locate a.document trail (.leaf n) = .ok (some found) := by
  cases x with
  | error e => cases h
  | ok a =>
    simp only [Except.toOption, Option.bind_some] at h
    refine ⟨a, ?_⟩
    cases hl : a.table.locate a.document trail (.leaf n) with
    | error e => simp [hl] at h
    | ok found =>
      cases found with
      | none => simp [hl] at h
      | some found => exact ⟨found, rfl, rfl⟩

/-- Line ends of two characters and accents of one unit do not matter. -/
theorem definition_at_editor_position_iff_accented :
    let d : Disk := ⟨⟨1, ["m"]⟩, [(["m"], .directory)]⟩
    let uri := "file:///m/a.mykt"
    let s := (start {} 30).after d [.started .null, .opened uri "val x = 1\r\n\"é\" x"]
    let before := "val x = 1\r\n\"é\" ".toList
    let n : Token := ⟨.terminal .name, "x", 2, 4⟩
    ∃ found : Definition, Position.behind ⟨0, 0⟩ before = ⟨1, 4⟩ ∧
      n.editorRange before = ⟨⟨1, 4⟩, ⟨1, 5⟩⟩ ∧
      (s.step d (.definition uri (.behind ⟨0, 0⟩ before))).2.answer = .links (some found.link) ∧
      found.link.originSelectionRange = some (n.editorRange before) := by
  intro d uri s before n
  have hf : s.Fresh d uri := fresh_of_get?_eq_none (by decide +kernel)
  have ho : s.openText? uri = some "val x = 1\r\n\"é\" x" := by decide +kernel
  obtain ⟨t, ht, hleaf⟩ : ∃ t, parse "val x = 1\r\n\"é\" x" = .ok t ∧
      ([0, 0, 3], n) ∈ t.leaves [] := ⟨_, rfl, by decide +kernel⟩
  obtain ⟨a, found, ha, hfound⟩ := exists_locate_of_isSome
    (Analysis.run d s.cache.settings uri "val x = 1\r\n\"é\" x").2 [0, 0, 3] n (by decide +kernel)
  have hb : n.StandsBehind before "val x = 1\r\n\"é\" x".toList :=
    ⟨⟨[], by decide⟩, by decide, by decide⟩
  have hiff := definition_at_editor_position_iff hf ho ht ha (Tree.mem_leaves_nil.1 hleaf) rfl
    hfound hb
  have hunits : ∀ c ∈ lastLine before, c.toNat < 0x10000 := by
    have hall : (lastLine before).all (·.toNat < 0x10000) = true := by decide
    simpa only [List.all_eq_true, decide_eq_true_eq] using hall
  obtain ⟨hanswer, horigin⟩ := hiff.2 ⟨by decide, hunits⟩
  exact ⟨found, by decide, by decide, hanswer, horigin⟩

/-- Behind two characters of two units each on its line, a name that has a definition is not found
at the editor's position. -/
theorem definition_missed_of_wide_characters :
    let d : Disk := ⟨⟨1, ["m"]⟩, [(["m"], .directory)]⟩
    let uri := "file:///m/a.mykt"
    let s := (start {} 30).after d [.started .null, .opened uri "val x = 1\n\"😀😀\" x"]
    let before := "val x = 1\n\"😀😀\" ".toList
    let n : Token := ⟨.terminal .name, "x", 2, 5⟩
    (∃ t a found, parse "val x = 1\n\"😀😀\" x" = .ok t ∧ t.at? [0, 0, 3] = some (.leaf n) ∧
      (Analysis.run d s.cache.settings uri "val x = 1\n\"😀😀\" x").2 = .ok a ∧
      a.table.locate a.document [0, 0, 3] (.leaf n) = .ok (some found)) ∧
    n.StandsBehind before "val x = 1\n\"😀😀\" x".toList ∧
    Position.behind ⟨0, 0⟩ before = ⟨1, 7⟩ ∧ n.editorRange before = ⟨⟨1, 7⟩, ⟨1, 8⟩⟩ ∧
    (s.step d (.definition uri ⟨1, 7⟩)).2.answer = .links none := by
  intro d uri s before n
  obtain ⟨t, ht, hleaf⟩ : ∃ t, parse "val x = 1\n\"😀😀\" x" = .ok t ∧
      ([0, 0, 3], n) ∈ t.leaves [] := ⟨_, rfl, by decide +kernel⟩
  obtain ⟨a, found, ha, hfound⟩ := exists_locate_of_isSome
    (Analysis.run d s.cache.settings uri "val x = 1\n\"😀😀\" x").2 [0, 0, 3] n (by decide +kernel)
  refine ⟨⟨t, a, found, ht, Tree.mem_leaves_nil.1 hleaf, ha, hfound⟩, ?_, by decide, by decide,
    by decide +kernel⟩
  exact ⟨⟨[], by decide⟩, by decide, by decide⟩

end Server

end Mykt
