import Mykt.Proofs.Linked.Traversal
import Mykt.Proofs.Scope.Layout
import Mykt.Scope.Linked

/-!
Linked scopes as they are filled. Main statements: a symbol that is put into a scope and a scope that
is opened keep the links of scopes in accord, and change the scopes that hold each other at the place
of one scope.
-/

namespace Mykt

namespace Registry

/-- The links of scopes are in accord, every scope is reached from the root, entries open scopes
that there are, and the index has the scopes of nodes. -/
structure Sound (g : Registry) : Prop where
  tidy : g.frames.Tidy 0
  root : g.frames.above? 0 = none
  size_pos : 0 < g.frames.size
  reached : ∀ n < g.frames.size, g.frames.Reaches 0 n
  opens : ∀ n, ∀ x ∈ (g.frame n).entries, ∀ k, x.opens = some k → k < g.frames.size
  indexed : ∀ a n, (a, n) ∈ g.index ↔ (g.frame n).anchor = some a

variable {g : Registry} {uri : String} {trail : Trail} {scope n : Nat} {t : Tree} {x y : Entry}
  {a : Anchor}

theorem frame_start (n : Nat) : start.frame n = .empty := by
  cases n <;> rfl

theorem sound_start : start.Sound where
  tidy := (Linked.Tidy.of_size _).plant _ _
  root := rfl
  size_pos := by decide
  reached := by
    intro n hn
    obtain rfl : n = 0 := by
      have : n < 0 + 1 := hn
      omega
    exact .refl
  opens := by
    intro n x hx
    rw [frame_start] at hx
    cases hx
  indexed := by
    intro a n
    rw [frame_start]
    exact iff_of_false List.not_mem_nil (Option.some_ne_none a).symm

theorem Frame.mem_insert {xs : List Entry} (h : y ∈ insert x xs) : y = x ∨ y ∈ xs := by
  induction xs with
  | nil => exact .inl (List.mem_singleton.1 h)
  | cons z xs ih =>
    rw [insert] at h
    split at h
    · rcases List.mem_cons.1 h with h | h
      · exact .inl h
      · exact .inr (List.mem_cons_of_mem _ h)
    · rcases List.mem_cons.1 h with rfl | h
      · exact .inr List.mem_cons_self
      · exact (ih h).imp_right (List.mem_cons_of_mem _)

@[simp] theorem size_record : (g.record scope x).frames.size = g.frames.size :=
  Linked.size_modify _ _ _

@[simp] theorem size_define : (g.define scope x).frames.size = g.frames.size :=
  Linked.size_modify _ _ _

theorem size_openScope (h : scope < g.frames.size) :
    (g.openScope scope a).frames.size = g.frames.size + 1 :=
  Linked.size_hang h _

theorem below_openScope (h : scope < g.frames.size) :
    (g.openScope scope a).frames.below n =
      if scope = n then g.frames.below scope ++ [g.frames.size] else g.frames.below n :=
  Linked.below_hang h _ n

theorem above?_openScope (h : scope < g.frames.size) :
    (g.openScope scope a).frames.above? n =
      if n < g.frames.size then g.frames.above? n
      else if n < g.frames.size + 1 then some scope else none :=
  Linked.above?_hang h _ n

theorem frame_record (h : scope < g.frames.size) :
    (g.record scope x).frame n = if scope = n then (g.frame n).define x else g.frame n := by
  rw [frame, record, Linked.value?_modify]
  split
  · next he =>
    subst he
    obtain ⟨v, hv⟩ : ∃ v, g.frames.value? scope = some v := by
      rw [Linked.value?, Array.getElem?_eq_getElem h]
      exact ⟨_, rfl⟩
    simp [frame, hv]
  · rfl

theorem frame_of_size_le (h : g.frames.size ≤ n) : g.frame n = .empty := by
  rw [frame, Linked.value?, Array.getElem?_eq_none h]
  rfl

theorem frame_openScope (h : scope < g.frames.size) :
    (g.openScope scope a).frame n = if n = g.frames.size then ⟨some a, []⟩ else g.frame n := by
  rw [frame, openScope, Linked.value?_hang h]
  by_cases hn : n < g.frames.size
  · rw [if_pos hn, if_neg (by omega)]
    rfl
  · rw [if_neg hn]
    split
    · next he => simp [he]
    · rw [List.getElem?_eq_none (by simp; omega), frame_of_size_le (Nat.le_of_not_lt hn)]
      rfl

namespace Sound

theorem record (h : g.Sound) (hs : scope < g.frames.size)
    (hx : ∀ k, x.opens = some k → k < g.frames.size) : (g.record scope x).Sound where
  tidy := h.tidy.modify _ _
  root := (Linked.above?_modify _ _ _ _).trans h.root
  size_pos := by simpa using h.size_pos
  reached := by
    intro n hn
    refine (h.reached n (by simpa using hn)).mono fun p => ?_
    exact (Linked.below_modify _ _ _ p).symm ▸ List.Subset.refl _
  opens := by
    intro n y hy k hk
    rw [frame_record hs] at hy
    rw [size_record]
    split at hy
    · rcases Frame.mem_insert hy with rfl | hy
      · exact hx k hk
      · exact h.opens n y hy k hk
    · exact h.opens n y hy k hk
  indexed := by
    intro a n
    have hanchor : ((g.record scope x).frame n).anchor = (g.frame n).anchor := by
      rw [frame_record hs]
      split <;> rfl
    rw [hanchor]
    exact h.indexed a n

theorem define (h : g.Sound) (hs : scope < g.frames.size)
    (hx : ∀ k, x.opens = some k → k < g.frames.size) : (g.define scope x).Sound := by
  obtain ⟨htidy, hroot, hpos, hreached, hopens, hindexed⟩ := h.record hs hx
  exact ⟨htidy, hroot, hpos, hreached, hopens, hindexed⟩

theorem openScope (h : g.Sound) (hs : scope < g.frames.size) : (g.openScope scope a).Sound where
  tidy := h.tidy.hang _ _
  root := by
    rw [above?_openScope hs, if_pos h.size_pos]
    exact h.root
  size_pos := by
    rw [size_openScope hs]
    omega
  reached := by
    intro n hn
    rw [size_openScope hs] at hn
    by_cases hlt : n < g.frames.size
    · exact (h.reached n hlt).hang _ _
    · obtain rfl : n = g.frames.size := by omega
      refine .tail ((h.reached scope hs).hang _ _) ?_
      rw [below_openScope hs, if_pos rfl]
      exact List.mem_append_right _ (List.mem_singleton_self _)
  opens := by
    intro n y hy k hk
    rw [frame_openScope hs] at hy
    rw [size_openScope hs]
    split at hy
    · cases hy
    · have := h.opens n y hy k hk
      omega
  indexed := by
    intro b n
    rw [frame_openScope hs]
    change (b, n) ∈ (a, g.frames.size) :: g.index ↔ _
    have hnew : (b, g.frames.size) ∉ g.index := by
      rw [h.indexed, frame_of_size_le (Nat.le_refl _)]
      simp [Frame.empty]
    rw [List.mem_cons, Prod.mk.injEq]
    split
    · next he =>
      subst he
      simp [hnew, eq_comm]
    · next hne => simp [hne, h.indexed]

/-- The index finds a scope of a node if there is one. -/
theorem scopeFor?_cases (h : g.Sound) (document : Nat) (trail : Trail) :
    match g.scopeFor? document trail with
    | some n => ∃ a, (g.frame n).anchor = some a ∧ a.document = document ∧ a.trail = trail
    | none => ∀ n a, (g.frame n).anchor = some a → ¬ (a.document = document ∧ a.trail = trail) := by
  unfold scopeFor?
  cases hfind : g.index.find? fun x => x.1.document = document && x.1.trail = trail with
  | some x =>
    refine ⟨x.1, (h.indexed x.1 x.2).1 (List.mem_of_find?_eq_some hfind), ?_⟩
    simpa using List.find?_some hfind
  | none =>
    intro n a hanchor
    simpa using List.find?_eq_none.1 hfind (a, n) ((h.indexed a n).2 hanchor)

end Sound

/-! The tree that linked scopes make -/

/-- A linked scope with all within it. -/
def nested (g : Registry) (n : Nat) : Scope :=
  g.frames.fold (fun n inner => (g.frame n).scope g.frames.trail inner) n

/-- The same table with scopes that hold each other. -/
def fold (g : Registry) : Fold := ⟨⟨g.nested 0, g.visits⟩, g.events⟩

theorem nested_eq (g : Registry) (n : Nat) :
    g.nested n = (g.frame n).scope g.frames.trail ((g.frames.below n).map g.nested) := by
  rw [nested, Linked.fold_eq]
  rfl

theorem descend_nested (g : Registry) (n : Nat) (down : List Nat) :
    (g.nested n).descend down = (g.frames.descend n down).map g.nested := by
  induction down generalizing n with
  | nil => rfl
  | cons i is ih =>
    rw [nested_eq, Scope.descend, Linked.descend, Frame.scope, Scope.inner_mk, List.getElem?_map]
    cases (g.frames.below n)[i]? with
    | none => rfl
    | some c => exact ih c

theorem Sound.at?_nested (h : g.Sound) (hn : n < g.frames.size) :
    (g.nested 0).at? (g.frames.trail n) = some (g.nested n) := by
  have hat := h.tidy.at?_trail h.root (h.reached n hn)
  rw [Linked.at?] at hat
  rw [Scope.at?, descend_nested, hat]
  rfl

/-- Two registries have the same scope, apart from what it lists. -/
def SameAt (g g' : Registry) (n : Nat) : Prop :=
  g'.frames.below n = g.frames.below n ∧
    (g'.frame n).scope g'.frames.trail = (g.frame n).scope g.frames.trail

theorem nested_congr {g' : Registry} (h : ∀ m, g.frames.Reaches n m → g.SameAt g' m) :
    g'.nested n = g.nested n :=
  (Linked.fold_congr fun m hm => ⟨(h m hm).1, funext fun is => (congrFun (h m hm).2 is).symm⟩).symm

/-- Where one scope changes, the scopes around it change by what they hold. -/
theorem nested_eq_modifyDown {g' : Registry} {f : Scope → Scope} {r : Nat} {down : List Nat}
    (htidy : g.frames.Tidy 0) (hn : g'.nested n = f (g.nested n))
    (hother : ∀ m ≠ n, g.frames.Reaches r m → g.SameAt g' m)
    (hdown : g.frames.descend r down = some n) :
    g'.nested r = Scope.modifyDown f down (g.nested r) := by
  induction down generalizing r with
  | nil =>
    obtain rfl : r = n := by simpa [Linked.descend] using hdown
    exact hn
  | cons i is ih =>
    obtain ⟨c, hc, hdown⟩ := Option.bind_eq_some_iff.1 hdown
    have hmem := List.mem_of_getElem? hc
    have hreach := Linked.reaches_of_descend hdown
    have hne : r ≠ n := by
      have := (Linked.lt_of_mem_below hmem).1
      have := hreach.le
      omega
    obtain ⟨hbelow, hframe⟩ := hother r hne .refl
    rw [nested_eq g', nested_eq g, hframe, hbelow, Frame.scope, Frame.scope, Scope.modifyDown,
      Scope.mk.injEq]
    refine ⟨rfl, rfl, ?_⟩
    apply List.ext_getElem?
    intro j
    rw [List.getElem?_modify, List.getElem?_map, List.getElem?_map]
    by_cases hj : i = j
    · subst hj
      have hchanged := ih (fun m hm hr => hother m hm (.head hmem hr)) hdown
      simp [hc, hchanged]
    · cases hc' : (g.frames.below r)[j]? with
      | none => rfl
      | some c' =>
        have hmem' := List.mem_of_getElem? hc'
        have hnot : ¬ g.frames.Reaches c' n := by
          intro hr
          have he := htidy.eq_of_reaches (Nat.zero_le r) hmem hmem' hreach hr
          subst he
          exact hj ((List.getElem?_inj (List.getElem?_eq_some_iff.1 hc).1
            (htidy.nodup_below r (Nat.zero_le r))).1 (hc.trans hc'.symm))
        have hkept : g'.nested c' = g.nested c' := by
          refine nested_congr fun m hm => hother m ?_ (.head hmem' hm)
          rintro rfl
          exact hnot hm
        simp [hj, hkept]

/-- What stands below a scope does not change with it. -/
theorem map_nested_below {g' : Registry}
    (hother : ∀ m ≠ n, m < g.frames.size → g.SameAt g' m) :
    (g.frames.below n).map g'.nested = (g.frames.below n).map g.nested := by
  apply List.map_congr_left
  intro c hc
  obtain ⟨hlt, hsize⟩ := Linked.lt_of_mem_below hc
  refine nested_congr fun m hm => hother m ?_ (hm.lt_size hsize)
  have := hm.le
  omega

theorem Sound.nested_eq_modifyAt {g' : Registry} {f : Scope → Scope} (h : g.Sound)
    (hs : n < g.frames.size) (hn : g'.nested n = f (g.nested n))
    (hother : ∀ m ≠ n, m < g.frames.size → g.SameAt g' m) :
    g'.nested 0 = (g.nested 0).modifyAt (g.frames.trail n) f :=
  nested_eq_modifyDown h.tidy hn (fun m hm hr => hother m hm (hr.lt_size h.size_pos))
    (h.tidy.at?_trail h.root (h.reached n hs))

theorem Frame.map_insert (place : Nat → Trail) (x : Entry) (xs : List Entry) :
    (insert x xs).map (·.symbol place) = Scope.insert (x.symbol place) (xs.map (·.symbol place)) := by
  induction xs with
  | nil => rfl
  | cons y xs ih =>
    rw [insert, List.map_cons, Scope.insert]
    change _ = if y.name = x.name then _ else _
    split
    · rfl
    · rw [List.map_cons, ih]

theorem trail_record : (g.record scope x).frames.trail = g.frames.trail :=
  funext (Linked.trail_congr (Linked.above?_modify _ _ _) (Linked.below_modify _ _ _))

@[simp] theorem trail_define : (g.define scope x).frames.trail = g.frames.trail := trail_record

@[simp] theorem below_define : (g.define scope x).frames.below n = g.frames.below n :=
  Linked.below_modify _ _ _ n

theorem Sound.nested_record (h : g.Sound) (hs : scope < g.frames.size) :
    (g.record scope x).nested 0 =
      (g.nested 0).modifyAt (g.frames.trail scope) (·.define (x.symbol g.frames.trail)) := by
  have hbelow (m : Nat) : (g.record scope x).frames.below m = g.frames.below m :=
    Linked.below_modify _ _ _ m
  have hother : ∀ m ≠ scope, m < g.frames.size → g.SameAt (g.record scope x) m := by
    intro m hm _
    refine ⟨hbelow m, ?_⟩
    rw [frame_record hs, if_neg (Ne.symm hm), trail_record]
  refine h.nested_eq_modifyAt hs ?_ hother
  rw [nested_eq, nested_eq g, hbelow, map_nested_below hother, frame_record hs, if_pos rfl,
    trail_record, Frame.scope, Frame.define, Frame.map_insert]
  rfl

theorem Sound.trail_openScope (h : g.Sound) (hs : scope < g.frames.size) (hn : n < g.frames.size) :
    (g.openScope scope a).frames.trail n = g.frames.trail n :=
  h.tidy.trail_hang h.root (h.reached n hn) hs h.size_pos _

/-- A new scope comes after the others. -/
theorem Sound.trail_openScope_size (h : g.Sound) (hs : scope < g.frames.size) :
    (g.openScope scope a).frames.trail g.frames.size =
      (g.frames.below scope).length :: g.frames.trail scope := by
  have habove : (g.openScope scope a).frames.above? g.frames.size = some scope := by
    rw [above?_openScope hs, if_neg (by omega), if_pos (by omega)]
  have hnot : g.frames.size ∉ g.frames.below scope := by
    intro hm
    have := (Linked.lt_of_mem_below hm).2
    omega
  have hindex : ((g.openScope scope a).frames.below scope).idxOf g.frames.size =
      (g.frames.below scope).length := by
    rw [below_openScope hs, if_pos rfl, List.idxOf_append_of_notMem hnot]
    simp
  rw [Linked.trail_of_above habove, hindex, h.trail_openScope hs hs]

theorem Sound.nested_openScope (h : g.Sound) (hs : scope < g.frames.size) :
    (g.openScope scope a).nested 0 =
      (g.nested 0).modifyAt (g.frames.trail scope) (·.openInner a) := by
  have hframe (m : Nat) (hm : m < g.frames.size) :
      ((g.openScope scope a).frame m).scope (g.openScope scope a).frames.trail =
        (g.frame m).scope g.frames.trail := by
    rw [frame_openScope hs, if_neg (by omega)]
    funext inner
    rw [Frame.scope, Frame.scope, Scope.mk.injEq]
    refine ⟨rfl, List.map_congr_left fun x hx => ?_, rfl⟩
    cases hk : x.opens with
    | none => simp [Entry.symbol, hk]
    | some k => simp [Entry.symbol, hk, h.trail_openScope hs (h.opens m x hx k hk)]
  have hother : ∀ m ≠ scope, m < g.frames.size → g.SameAt (g.openScope scope a) m := by
    intro m hm hlt
    refine ⟨?_, hframe m hlt⟩
    rw [below_openScope hs, if_neg (Ne.symm hm)]
  have hnew : (g.openScope scope a).nested g.frames.size = .mk (some a) [] [] := by
    have hnil : (g.openScope scope a).frames.below g.frames.size = [] := by
      rw [below_openScope hs, if_neg (by omega), Linked.below_eq_nil (Nat.le_refl _)]
    rw [nested_eq, hnil, frame_openScope hs, if_pos rfl]
    rfl
  refine h.nested_eq_modifyAt hs ?_ hother
  rw [nested_eq, nested_eq g, hframe scope hs, below_openScope hs, if_pos rfl, List.map_append,
    map_nested_below hother, List.map_singleton, hnew]
  rfl

end Registry

end Mykt
