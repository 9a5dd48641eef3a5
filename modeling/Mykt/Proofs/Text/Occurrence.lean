import Mathlib.Data.List.Forall2
import Mykt.Proofs.Token.Partition
import Mykt.Text.Occurrence

/-!
Occurrences of a needle and the terminals that stand there. Main statements: a search that begins
each time behind the last match goes through all offsets at which the needle stands, in order; the
position of an offset by its line feeds is the place that the lexer counts up to there; so an
occurrence at a terminal has the position of its token and, if the needle is its text, its range.
-/

namespace Mykt

namespace Text

/-- The offsets at which a needle stands in a text, up to its end, in order. -/
def standings (source needle : List Char) : List Nat :=
  (List.range (source.length + 1)).filter fun i => needle <+: source.drop i

theorem mem_standings {source needle : List Char} {i : Nat} :
    i ∈ standings source needle ↔ i ≤ source.length ∧ needle <+: source.drop i := by
  simp [standings, Nat.lt_succ_iff]

theorem pairwise_standings (source needle : List Char) :
    (standings source needle).Pairwise (· < ·) :=
  List.pairwise_lt_range.filter _

theorem indexOf?_eq_find? (needle cs : List Char) :
    indexOf? needle cs =
      (List.range (cs.length + 1)).find? fun i => needle <+: cs.drop i := by
  induction cs with
  | nil => by_cases h : needle = [] <;> simp [indexOf?, List.range_succ, h]
  | cons c cs ih =>
    rw [List.length_cons, List.range_succ_eq_map, List.find?_cons, List.find?_map, indexOf?]
    by_cases h : needle <+: c :: cs
    · simp [h, List.isPrefixOf_iff_prefix.2 h]
    · have hb : needle.isPrefixOf (c :: cs) = false := by
        simpa [← List.isPrefixOf_iff_prefix] using h
      simp [h, hb, ih, Function.comp_def]

/-- A search finds the first standing from its start on. -/
theorem indexFrom?_eq_head? (source needle : List Char) (start : Nat) :
    indexFrom? source needle start =
      ((standings source needle).filter (start ≤ ·)).head? := by
  rw [standings, List.filter_filter, List.head?_filter, indexFrom?]
  split
  · next h =>
    obtain ⟨rest, hrest⟩ : ∃ rest, source.length + 1 = start + (rest + 1) :=
      ⟨source.length - start, by omega⟩
    have before : (List.range start).find?
        (fun i => decide (start ≤ i) && decide (needle <+: source.drop i)) = none := by
      simp only [List.find?_eq_none, List.mem_range, Bool.and_eq_true, decide_eq_true_eq]
      omega
    have length : (source.drop start).length = rest := by
      rw [List.length_drop]
      omega
    rw [hrest, List.range_add, List.find?_append, before, Option.none_or, List.find?_map,
      indexOf?_eq_find?, length]
    simp [Function.comp_def, List.drop_drop]
  · next h =>
    symm
    simp only [List.find?_eq_none, List.mem_range, Bool.and_eq_true, decide_eq_true_eq]
    omega

/-- What follows an element of an increasing list is all that is larger. -/
theorem filter_lt_of_filter_eq_cons {xs ys : List Nat} {start i : Nat}
    (hx : xs.Pairwise (· < ·)) (h : xs.filter (start ≤ ·) = i :: ys) :
    ys = xs.filter (i + 1 ≤ ·) := by
  have hi : start ≤ i := by
    have hm : i ∈ xs.filter (start ≤ ·) := h ▸ List.mem_cons_self
    simpa using (List.mem_filter.1 hm).2
  have later : ∀ j ∈ ys, i < j := (List.pairwise_cons.1 (h ▸ hx.filter _)).1
  have all : (i :: ys).filter (i + 1 ≤ ·) = ys := by
    rw [List.filter_cons_of_neg (by simp), List.filter_eq_self]
    intro j hj
    exact decide_eq_true (later j hj)
  rw [← all, ← h, List.filter_filter]
  apply List.filter_congr
  intro j _
  have : i + 1 ≤ j → start ≤ j := by omega
  simpa using this

/-- Searching again and again goes through the standings in order. -/
theorem searchFrom?_succ (source needle : List Char) (k : Nat) (index : Int) :
    searchFrom? source needle (k + 1) index =
      ((standings source needle).filter ((index + 1).toNat ≤ ·))[k]?.map (↑) := by
  induction k generalizing index with
  | zero =>
    rw [searchFrom?, indexFrom?_eq_head?, List.head?_eq_getElem?]
    cases ((standings source needle).filter ((index + 1).toNat ≤ ·))[0]? <;> rfl
  | succ k ih =>
    rw [searchFrom?, indexFrom?_eq_head?]
    cases hs : (standings source needle).filter ((index + 1).toNat ≤ ·) with
    | nil => rfl
    | cons i later =>
      have hlater := filter_lt_of_filter_eq_cons (pairwise_standings source needle) hs
      have hi : ((i : Int) + 1).toNat = i + 1 := by omega
      simp only [List.head?_cons, ih, hi, ← hlater, List.getElem?_cons_succ]

theorem searchFrom?_eq (source needle : List Char) (k : Nat) :
    searchFrom? source needle (k + 1) (-1) = (standings source needle)[k]?.map (↑) := by
  rw [searchFrom?_succ, List.filter_eq_self.2 (by simp)]

/-- The last line begins behind the last line feed. -/
theorem length_lastLine (cs : List Char) :
    (cs.length : Int) - (lastNewline cs + 1) = (lastLine cs).length := by
  have hwidth : (lastLine cs).length = cs.reverse.findIdx (· = '\n') := by
    have hle : cs.reverse.findIdx (· = '\n') ≤ cs.reverse.length := List.findIdx_le_length
    rw [List.length_reverse] at hle
    simp [lastLine, List.takeWhile_eq_take_findIdx_not, hle]
  rw [hwidth, lastNewline]
  split
  · next i hi =>
    obtain ⟨hlt, hidx⟩ := List.findIdx?_eq_some_iff_findIdx_eq.1 hi
    rw [List.length_reverse] at hlt
    rw [hidx]
    omega
  · next hi =>
    rw [List.findIdx?_eq_none_iff_findIdx_eq.1 hi, List.length_reverse]
    omega

section

variable {source needle : String} {k i : Nat}

theorem positionOf_of_le (h : (standings source.toList needle.toList).length ≤ k) :
    positionOf source needle k = .error .missing := by
  have hk : ((k : Int) + 1).toNat = k + 1 := by omega
  rw [positionOf, hk, searchFrom?_eq, List.getElem?_eq_none h]
  rfl

/-- The position of an offset is told by the text before it. -/
theorem positionOf_of_getElem? (h : (standings source.toList needle.toList)[k]? = some i) :
    positionOf source needle k =
      (Position.ofInts ((source.toList.take i).count '\n')
        (lastLine (source.toList.take i)).length).mapError .position := by
  have hk : ((k : Int) + 1).toNat = k + 1 := by omega
  have hi : i ≤ source.toList.length := (mem_standings.1 (List.mem_of_getElem? h)).1
  have hbefore : before source.toList i = source.toList.take i := by
    rw [before, if_neg (by omega), Int.toNat_natCast]
  have hcolumn := length_lastLine (source.toList.take i)
  rw [List.length_take, Nat.min_eq_left hi] at hcolumn
  rw [positionOf, hk, searchFrom?_eq, h]
  simp only [Option.map_some, hbefore, hcolumn]

/-- In a short text an offset has a position, and so has what stands behind a match on its line. -/
theorem position_bounds (hs : source.length ≤ Position.limit)
    (h : (standings source.toList needle.toList)[k]? = some i) :
    (source.toList.take i).count '\n' ≤ Position.limit ∧
      (lastLine (source.toList.take i)).length + needle.length ≤ Position.limit := by
  obtain ⟨hi, hneedle⟩ := mem_standings.1 (List.mem_of_getElem? h)
  have hplace := Place.advance_le .start (source.toList.take i)
  have hlength := hneedle.length_le
  rw [Place.line_advance, Place.column_advance, List.length_take, Nat.min_eq_left hi] at hplace
  rw [List.length_drop, String.length_toList, String.length_toList] at hlength
  rw [String.length_toList] at hi
  simp only [Place.start, Nat.zero_add] at hplace
  omega

theorem positionOf_of_isShort (hs : source.length ≤ Position.limit)
    (h : (standings source.toList needle.toList)[k]? = some i) :
    positionOf source needle k =
      .ok ⟨(source.toList.take i).count '\n', (lastLine (source.toList.take i)).length⟩ := by
  obtain ⟨hline, hcharacter⟩ := position_bounds hs h
  rw [positionOf_of_getElem? h, Position.ofInts_natCast hline (by omega)]
  rfl

end

end Text

namespace Lexer

/-- The offsets at which the terminals of a text begin, if so many characters stand before it. At
most `n` pieces are read. -/
def startsFrom : Nat → Nat → List Char → List Nat
  | _, _, [] => []
  | 0, _, _ :: _ => []
  | n + 1, offset, c :: cs =>
    match piece? (c :: cs) with
    | none => []
    | some (.gap chars, rest) => startsFrom n (offset + chars.length) rest
    | some (.terminal _ chars, rest) => offset :: startsFrom n (offset + chars.length) rest

/-- The offsets at which the terminals of a text begin. -/
def starts (cs : List Char) : List Nat := startsFrom cs.length 0 cs

end Lexer

/-- A token's characters stand at an offset of a text, and its line and column are those of the
offset. -/
structure Token.BeginsAt (cs : List Char) (i : Nat) (x : Token) : Prop where
  stands : x.text.toList <+: cs.drop i
  line_eq : x.line = (cs.take i).count '\n' + 1
  column_eq : x.column = (Text.lastLine (cs.take i)).length

namespace Lexer

theorem beginsAt_tokenAt {done cs rest chars : List Char} {k : Terminal}
    (h : piece? cs = some (.terminal k chars, rest)) :
    (tokenAt (Place.start.advance done) k chars).BeginsAt (done ++ cs) done.length where
  stands := by simp [tokenAt, (piece?_eq h).1, Piece.chars]
  line_eq := by simp [tokenAt, Place.line_advance]
  column_eq := by simp [tokenAt, Place.column_advance]

/-- The terminals of a scan begin at their offsets, one for one. -/
theorem forall₂_beginsAt (n : Nat) (done cs : List Char) :
    List.Forall₂ (Token.BeginsAt (done ++ cs)) (startsFrom n done.length cs)
      (scanFrom n (Place.start.advance done) cs).tokens := by
  induction n generalizing done cs with
  | zero => cases cs <;> exact .nil
  | succ n ih =>
    cases cs with
    | nil => exact .nil
    | cons c cs =>
      rcases hp : piece? (c :: cs) with _ | ⟨chars | ⟨k, chars⟩, rest⟩
      · simp only [startsFrom, scanFrom, hp]
        exact .nil
      · simp only [startsFrom, scanFrom, hp]
        have hcs : c :: cs = chars ++ rest := (piece?_eq hp).1
        have hrest := ih (done ++ chars) rest
        rw [List.length_append, Place.advance_append, List.append_assoc, ← hcs] at hrest
        exact hrest
      · simp only [startsFrom, scanFrom, hp]
        have hcs : c :: cs = chars ++ rest := (piece?_eq hp).1
        have hrest := ih (done ++ chars) rest
        rw [List.length_append, Place.advance_append, List.append_assoc, ← hcs] at hrest
        exact .cons (beginsAt_tokenAt hp) hrest

theorem forall₂_starts {source : String} {t : Tree} (h : parse source = .ok t) :
    List.Forall₂ (Token.BeginsAt source.toList) (starts source.toList) t.tokens := by
  rw [(conforms_of_parse h).2.2]
  exact forall₂_beginsAt source.toList.length [] source.toList

end Lexer

namespace Text

section

variable {source needle : String} {k i : Nat} {x : Token}

/-- An occurrence at a token has the token's position. -/
theorem positionOf_of_beginsAt (hs : source.length ≤ Position.limit)
    (h : (standings source.toList needle.toList)[k]? = some i)
    (hx : x.BeginsAt source.toList i) :
    ∃ p, positionOf source needle k = .ok p ∧ x.line - 1 = p.line ∧ x.column = p.character := by
  refine ⟨_, positionOf_of_isShort hs h, ?_, hx.column_eq⟩
  rw [hx.line_eq]
  simp

/-- An occurrence of a token's text at the token has the token's range. -/
theorem rangeOf_of_beginsAt (hs : source.length ≤ Position.limit)
    (h : (standings source.toList needle.toList)[k]? = some i)
    (hx : x.BeginsAt source.toList i) (htext : x.text = needle) :
    ∃ r, (Tree.leaf x).range = .ok r ∧ rangeOf source needle k = .ok r := by
  obtain ⟨hline, hcharacter⟩ := position_bounds hs h
  have hposition := positionOf_of_isShort hs h
  have hfirst : x.line - 1 = ((source.toList.take i).count '\n' : Nat) := by
    rw [hx.line_eq]
    simp
  have hcolumn := hx.column_eq
  generalize (source.toList.take i).count '\n' = line at *
  generalize (lastLine (source.toList.take i)).length = column at *
  have hstart : Position.ofInts line column = .ok ⟨line, column⟩ :=
    Position.ofInts_natCast hline (by omega)
  have hstop : Position.ofInts line (column + needle.length) =
      .ok ⟨line, column + needle.length⟩ := by
    exact_mod_cast Position.ofInts_natCast hline hcharacter
  refine ⟨⟨⟨line, column⟩, ⟨line, column + needle.length⟩⟩, ?_, ?_⟩
  · simp only [Tree.range, Tree.first?, Tree.last?, Range.ofTokens, Range.ofInts, hfirst, hcolumn,
      htext, hstart, hstop]
    rfl
  · simp only [rangeOf, hposition, bind, Except.bind, hstop]
    rfl

end

/-- The position of an occurrence is that of the offset at which the needle stands for so many
times; there is none exactly if it stands at too few offsets. Where a terminal begins, this is the
position of its token, and the range of its text is the token's range. -/
theorem positionOf_finds (source needle : String) (k : Nat)
    (hs : source.length ≤ Position.limit) :
    ((∃ e, positionOf source needle k = .error e) ↔
      (standings source.toList needle.toList).length < k + 1) ∧
    (∀ e, positionOf source needle k = .error e → e = .missing) ∧
    ∀ i, (standings source.toList needle.toList)[k]? = some i →
      positionOf source needle k =
        .ok ⟨(source.toList.take i).count '\n', (lastLine (source.toList.take i)).length⟩ ∧
      ∀ t, parse source = .ok t →
        (Lexer.starts source.toList).length = t.tokens.length ∧
        ∀ (j : Nat) x, (Lexer.starts source.toList)[j]? = some i → t.tokens[j]? = some x →
          (∃ p, positionOf source needle k = .ok p ∧ x.line - 1 = p.line ∧
            x.column = p.character) ∧
          (x.text = needle →
            ∃ r, (Tree.leaf x).range = .ok r ∧ rangeOf source needle k = .ok r) := by
  have hmissing : (standings source.toList needle.toList).length < k + 1 →
      positionOf source needle k = .error .missing := by
    intro hfew
    exact positionOf_of_le (by omega)
  have hfound (hmany : ¬ (standings source.toList needle.toList).length < k + 1) :
      ∃ p, positionOf source needle k = .ok p := by
    have hk : k < (standings source.toList needle.toList).length := by omega
    exact ⟨_, positionOf_of_isShort hs (List.getElem?_eq_getElem hk)⟩
  refine ⟨⟨?_, ?_⟩, ?_, ?_⟩
  · rintro ⟨e, he⟩
    by_contra hmany
    obtain ⟨p, hp⟩ := hfound hmany
    cases he.symm.trans hp
  · intro hfew
    exact ⟨.missing, hmissing hfew⟩
  · intro e he
    by_cases hfew : (standings source.toList needle.toList).length < k + 1
    · cases he.symm.trans (hmissing hfew)
      rfl
    · obtain ⟨p, hp⟩ := hfound hfew
      cases he.symm.trans hp
  · intro i hi
    refine ⟨positionOf_of_isShort hs hi, ?_⟩
    intro t ht
    have hbegins := Lexer.forall₂_starts ht
    refine ⟨hbegins.length_eq, ?_⟩
    intro j x hj hx
    have hat : x.BeginsAt source.toList i := by
      obtain ⟨hlt, rfl⟩ := List.getElem?_eq_some_iff.1 hj
      obtain ⟨hlt', rfl⟩ := List.getElem?_eq_some_iff.1 hx
      exact hbegins.get hlt hlt'
    exact ⟨positionOf_of_beginsAt hs hi hat, rangeOf_of_beginsAt hs hi hat⟩

/-- Of three matches two overlap, and the last is a name that begins a line. -/
theorem positionOf_finds_overlapping :
    ∃ t, parse "aaa\naa" = .ok t ∧ standings "aaa\naa".toList "aa".toList = [0, 1, 4] ∧
      Lexer.starts "aaa\naa".toList = [0, 4] ∧
      positionOf "aaa\naa" "aa" 2 = .ok ⟨1, 0⟩ ∧
      (∃ e, positionOf "aaa\naa" "aa" 3 = .error e) ∧
      ∃ x r, t.tokens[1]? = some x ∧ x.text = "aa" ∧ (Tree.leaf x).range = .ok r ∧
        rangeOf "aaa\naa" "aa" 2 = .ok r := by
  obtain ⟨t, ht, hx⟩ : ∃ t, parse "aaa\naa" = .ok t ∧
      t.tokens[1]? = some ⟨.terminal .name, "aa", 2, 0⟩ := by
    exact ⟨_, rfl, by decide +kernel⟩
  have hstandings : standings "aaa\naa".toList "aa".toList = [0, 1, 4] := by decide +kernel
  have hstarts : Lexer.starts "aaa\naa".toList = [0, 4] := by decide +kernel
  obtain ⟨-, -, hfound⟩ := positionOf_finds "aaa\naa" "aa" 2 (by decide +kernel)
  obtain ⟨hmissing, -, -⟩ := positionOf_finds "aaa\naa" "aa" 3 (by decide +kernel)
  obtain ⟨hposition, hterminal⟩ := hfound 4 (by rw [hstandings]; rfl)
  obtain ⟨-, hrange⟩ := (hterminal t ht).2 1 _ (by rw [hstarts]; rfl) hx
  obtain ⟨r, hr, hrange⟩ := hrange rfl
  refine ⟨t, ht, hstandings, hstarts, hposition, hmissing.2 ?_, _, r, hx, rfl, hr, hrange⟩
  rw [hstandings]
  decide

end Text

end Mykt
