import Mykt.Proofs.Token.Partition
import Mykt.Proofs.Tree.Places

/-!
The leaves that a caret touches. Main statements: a caret in a text that is read touches at most two
leaves, and at most one of them is a name; the search for the leaf at a caret, though it stops at
the first token beyond the caret, finds the touched name, or else the first of the touched leaves.
-/

namespace Mykt

/-- A caret on a line, counted from one, stands in a token or at one of its ends. -/
def Token.Meets (x : Token) (line character : Int) : Prop :=
  x.line = line ∧ x.column ≤ character ∧ character ≤ x.column + x.text.length

instance (x : Token) (line character : Int) : Decidable (x.Meets line character) :=
  inferInstanceAs (Decidable (_ ∧ _))

namespace Token

variable {x y : Token} {line character : Int}

theorem meets_iff_touches (h : x.line = line) :
    x.Meets line character ↔ x.touches character = true := by
  simp [Meets, touches, h]

/-- Behind a token that is beyond a caret the caret meets nothing. -/
theorem Leads.not_meets (h : x.Leads y)
    (hx : line < x.line ∨ x.line = line ∧ character < x.column) : ¬ y.Meets line character := by
  have hends := h.ends
  unfold Meets
  omega

/-- A caret does not meet three tokens: the second would have no room. -/
theorem Leads.not_meets_third {z : Token} (hxy : x.Leads y) (hyz : y.Leads z)
    (hlength : 0 < y.text.length) (hx : x.Meets line character) : ¬ z.Meets line character := by
  have hends := hxy.ends
  have hends' := hyz.ends
  unfold Meets at hx ⊢
  omega

/-- Between two names something is written, so a caret meets one of them. -/
theorem Leads.not_meets_names (h : x.Leads y) (hx : x.isName = true) (hy : y.isName = true)
    (hm : x.Meets line character) : ¬ y.Meets line character := by
  have hapart := h.apart hx hy
  unfold Meets at hm ⊢
  omega

end Token

namespace Tree

/-- The leaves that a caret meets, from left to right, with lines counted from zero. -/
def touched (t : Tree) (line character : Int) : List (Trail × Token) :=
  (t.leaves []).filter fun x => x.2.Meets (line + 1) character

/-- Of some leaves the first that is a name, or else the first. -/
def preferred (xs : List (Trail × Token)) : Option (Trail × Token) :=
  (xs.find? (·.2.isName)).or xs.head?

/-- A name that is kept stays, and anything else gives way to the first name. -/
theorem foldl_preferName_some (xs : List (Trail × Token)) (b : Trail × Token) :
    xs.foldl (fun best x => some (preferName best x)) (some b) =
      if b.2.isName then some b else (xs.find? (·.2.isName)).or (some b) := by
  induction xs generalizing b with
  | nil => simp
  | cons x xs ih =>
    rw [List.foldl_cons, ih]
    by_cases hb : b.2.isName <;> by_cases hx : x.2.isName <;> simp [preferName, hb, hx]

theorem foldl_preferName (xs : List (Trail × Token)) :
    xs.foldl (fun best x => some (preferName best x)) none = preferred xs := by
  cases xs with
  | nil => rfl
  | cons x xs =>
    rw [List.foldl_cons, preferName, foldl_preferName_some]
    by_cases hx : x.2.isName <;> simp [preferred, hx]

/-- A search that stops early keeps the same leaf as one that looks at all that the caret meets. -/
theorem caretSearch_eq_foldl {line character : Int} {xs : List (Trail × Token)}
    (h : xs.Pairwise fun x y => x.2.Leads y.2) (best : Option (Trail × Token)) :
    caretSearch line character best xs =
      (xs.filter fun x => x.2.Meets line character).foldl
        (fun best x => some (preferName best x)) best := by
  induction xs generalizing best with
  | nil => rfl
  | cons x xs ih =>
    obtain ⟨hx, hxs⟩ := List.pairwise_cons.1 h
    have beyond (hb : line < x.2.line ∨ x.2.line = line ∧ character < x.2.column) :
        xs.filter (fun y => y.2.Meets line character) = [] := by
      rw [List.filter_eq_nil_iff]
      intro y hy
      rw [decide_eq_true_eq]
      exact (hx y hy).not_meets hb
    rw [caretSearch]
    by_cases hbefore : x.2.line < line
    · have hnot : ¬ x.2.Meets line character := by
        unfold Token.Meets
        omega
      rw [if_pos hbefore, List.filter_cons_of_neg (by simpa using hnot), ih hxs]
    by_cases hafter : line < x.2.line
    · have hnot : ¬ x.2.Meets line character := by
        unfold Token.Meets
        omega
      rw [if_neg hbefore, if_pos hafter, List.filter_cons_of_neg (by simpa using hnot),
        beyond (.inl hafter)]
      rfl
    have hline : x.2.line = line := by omega
    have hmeets : x.2.Meets line character ↔ x.2.touches character = true :=
      Token.meets_iff_touches hline
    rw [if_neg hbefore, if_neg hafter]
    by_cases htouch : x.2.touches character
    · rw [if_pos htouch, List.filter_cons_of_pos (by simpa using hmeets.2 htouch),
        List.foldl_cons, ih hxs]
    rw [if_neg htouch, List.filter_cons_of_neg (by simpa using mt hmeets.1 htouch)]
    by_cases hcolumn : character < x.2.column
    · rw [if_pos hcolumn, beyond (.inr ⟨hline, hcolumn⟩)]
      rfl
    · rw [if_neg hcolumn, ih hxs]

theorem preferred_eq_none_iff {xs : List (Trail × Token)} : preferred xs = none ↔ xs = [] := by
  cases xs <;> simp [preferred]

/-- A leaf that is the only name is preferred. -/
theorem preferred_of_name {xs : List (Trail × Token)} {x : Trail × Token}
    (hn : (xs.filter (·.2.isName)).length ≤ 1) (hx : x ∈ xs) (hname : x.2.isName = true) :
    preferred xs = some x := by
  have hmem : x ∈ xs.filter (·.2.isName) := List.mem_filter.2 ⟨hx, hname⟩
  have hlength : (xs.filter (·.2.isName)).length = 1 :=
    Nat.le_antisymm hn (List.length_pos_of_mem hmem)
  obtain ⟨y, honly⟩ := List.length_eq_one_iff.1 hlength
  rw [honly, List.mem_singleton] at hmem
  rw [preferred, ← List.head?_filter, honly, hmem]
  rfl

theorem preferred_of_no_name {xs : List (Trail × Token)} (h : ∀ x ∈ xs, x.2.isName = false) :
    preferred xs = xs.head? := by
  have hnone : xs.find? (·.2.isName) = none := by
    rw [List.find?_eq_none]
    intro x hx
    simp [h x hx]
  rw [preferred, hnone, Option.none_or]

section

variable {source : String} {t : Tree} {line character : Int}

theorem mem_touched {x : Trail × Token} : x ∈ t.touched line character ↔
    t.at? x.1 = some (leaf x.2) ∧ x.2.Meets (line + 1) character := by
  rw [touched, List.mem_filter, decide_eq_true_eq, ← mem_leaves_nil]

/-- The leaves of a text that is read stand one behind the other. -/
theorem pairwise_leads_leaves (h : parse source = .ok t) :
    (t.leaves []).Pairwise fun x y => x.2.Leads y.2 := by
  obtain ⟨first, pieces, -, htokens, -, hlaid⟩ := Lexer.exists_laid_of_parse h
  rw [← List.pairwise_map, map_leaves, ← htokens]
  exact hlaid.pairwise_leads

theorem length_pos_of_leaf (h : parse source = .ok t) {trail : Trail} {x : Token}
    (hx : t.at? trail = some (leaf x)) : 0 < x.text.length := by
  obtain ⟨first, pieces, -, htokens, -, hlaid⟩ := Lexer.exists_laid_of_parse h
  have hpiece : x ∈ pieces.map (·.1) := by
    rw [htokens]
    exact mem_tokens_of_mem_leaves (mem_leaves_nil.2 hx)
  obtain ⟨_, _, -, hsits⟩ := hlaid.exists_sits hpiece
  exact hsits.length_pos

theorem length_touched_le (h : parse source = .ok t) : (t.touched line character).length ≤ 2 := by
  have hleads : (t.touched line character).Pairwise fun x y => x.2.Leads y.2 :=
    (pairwise_leads_leaves h).filter _
  have hmem : ∀ x ∈ t.touched line character, t.at? x.1 = some (leaf x.2) ∧
      x.2.Meets (line + 1) character := fun _ => mem_touched.1
  generalize t.touched line character = xs at hleads hmem
  match xs with
  | [] | [_] | [_, _] => simp
  | x :: y :: z :: rest =>
    simp only [List.mem_cons, forall_eq_or_imp] at hmem
    obtain ⟨hx, hy, hz, -⟩ := hmem
    obtain ⟨hxs, hys⟩ := List.pairwise_cons.1 hleads
    have hxy := hxs y List.mem_cons_self
    have hyz := (List.pairwise_cons.1 hys).1 z List.mem_cons_self
    exact absurd hz.2 (hxy.not_meets_third hyz (length_pos_of_leaf h hy.1) hx.2)

theorem length_touched_names_le (h : parse source = .ok t) :
    ((t.touched line character).filter (·.2.isName)).length ≤ 1 := by
  have hleads : ((t.touched line character).filter (·.2.isName)).Pairwise
      fun x y => x.2.Leads y.2 := ((pairwise_leads_leaves h).filter _).filter _
  have hmem : ∀ x ∈ (t.touched line character).filter (·.2.isName), x.2.isName = true ∧
      x.2.Meets (line + 1) character := by
    intro x hx
    rw [List.mem_filter] at hx
    exact ⟨hx.2, (mem_touched.1 hx.1).2⟩
  generalize (t.touched line character).filter (·.2.isName) = xs at hleads hmem
  match xs with
  | [] | [_] => simp
  | x :: y :: rest =>
    simp only [List.mem_cons, forall_eq_or_imp] at hmem
    obtain ⟨hx, hy, -⟩ := hmem
    have hxy := (List.pairwise_cons.1 hleads).1 y List.mem_cons_self
    exact absurd hy.2 (hxy.not_meets_names hx.1 hy.1 hx.2)

theorem leafAt_eq_preferred (h : parse source = .ok t) :
    t.leafAt line character = preferred (t.touched line character) := by
  rw [leafAt, caretSearch_eq_foldl (pairwise_leads_leaves h), foldl_preferName, touched]

/-- The leaf at a caret is the touched name, or else the first touched leaf. -/
theorem leafAt_among_touched (h : parse source = .ok t) (line character : Int) :
    (t.touched line character).length ≤ 2 ∧
    ((t.touched line character).filter (·.2.isName)).length ≤ 1 ∧
    (t.leafAt line character = none ↔ t.touched line character = []) ∧
    (∀ x ∈ t.touched line character, x.2.isName = true → t.leafAt line character = some x) ∧
    ((∀ x ∈ t.touched line character, x.2.isName = false) →
      t.leafAt line character = (t.touched line character).head?) := by
  rw [leafAt_eq_preferred h]
  refine ⟨length_touched_le h, length_touched_names_le h, preferred_eq_none_iff, ?_, ?_⟩
  · intro x hx hname
    exact preferred_of_name (length_touched_names_le h) hx hname
  · exact preferred_of_no_name

/-- Between an opening parenthesis and a name the caret is on the name. -/
theorem leafAt_among_touched_argument :
    ∃ t, parse "f(x)" = .ok t ∧ (t.touched 0 2).map (·.2.text) = ["(", "x"] ∧
      (t.leafAt 0 2).map (·.2.text) = some "x" := by
  obtain ⟨t, ht, htouched, x, hx, hname, htext⟩ : ∃ t, parse "f(x)" = .ok t ∧
      (t.touched 0 2).map (·.2.text) = ["(", "x"] ∧
      ∃ x ∈ t.touched 0 2, x.2.isName = true ∧ x.2.text = "x" := by
    exact ⟨_, rfl, by decide +kernel, by decide +kernel⟩
  obtain ⟨-, -, -, hfound, -⟩ := leafAt_among_touched ht 0 2
  refine ⟨t, ht, htouched, ?_⟩
  rw [hfound x hx hname, Option.map_some, htext]

end

end Tree

end Mykt
