import Mathlib.Data.List.Nodup
import Mathlib.Logic.Relation

/-!
Depth-first walks. A node counts as seen from the moment it is entered, and is finished after all
that it leads to. Main statements: nothing is finished twice; what is finished is what can be reached
through good nodes; a node is finished after the nodes it leads to, unless it can be reached from
them; where nothing leads on, the nodes are finished in the order in which they are to do.
-/

namespace Mykt.Graph

variable {α : Type} (good : α → Prop) (next : α → List α)

/-- The walk from the nodes seen before through the nodes to do: the nodes in the order in which they
are finished, and the nodes seen after it. A node that is not good may or may not be seen. -/
inductive Explores : List α → List α → List α → List α → Prop where
  | nil {seen : List α} : Explores seen [] [] seen
  | skip {seen xs done seen' : List α} {x : α} (hx : x ∈ seen ∨ ¬ good x)
      (h : Explores seen xs done seen') : Explores seen (x :: xs) done seen'
  | reject {seen xs done seen' : List α} {x : α} (hg : ¬ good x)
      (h : Explores (x :: seen) xs done seen') : Explores seen (x :: xs) done seen'
  | enter {seen xs inner middle done seen' : List α} {x : α} (hx : x ∉ seen) (hg : good x)
      (hi : Explores (x :: seen) (next x) inner middle) (h : Explores middle xs done seen') :
      Explores seen (x :: xs) (inner ++ x :: done) seen'

/-- A step from a good node to one that it leads to. -/
def Leads (x y : α) : Prop := good x ∧ y ∈ next x

/-- One node stands before another one in a list. -/
def Before (x y : α) (xs : List α) : Prop := ∃ before after, xs = before ++ y :: after ∧ x ∈ before

variable {good next} {seen todo done seen' : List α} {x y : α}

theorem Before.append_right (h : Before x y todo) (xs : List α) : Before x y (todo ++ xs) := by
  obtain ⟨before, after, rfl, hx⟩ := h
  exact ⟨before, after ++ xs, by simp, hx⟩

theorem Before.append_left (h : Before x y todo) (xs : List α) : Before x y (xs ++ todo) := by
  obtain ⟨before, after, rfl, hx⟩ := h
  exact ⟨xs ++ before, after, by simp, List.mem_append_right _ hx⟩

theorem Before.of_mem {xs ys : List α} (hx : x ∈ xs) (hy : y ∈ ys) : Before x y (xs ++ ys) := by
  obtain ⟨before, after, rfl⟩ := List.append_of_mem hy
  exact ⟨xs ++ before, after, by simp, List.mem_append_left _ hx⟩

namespace Explores

theorem append {todo' done' seen'' : List α} (h : Explores good next seen todo done seen')
    (h' : Explores good next seen' todo' done' seen'') :
    Explores good next seen (todo ++ todo') (done ++ done') seen'' := by
  induction h with
  | nil => exact h'
  | skip hx _ ih => exact .skip hx (ih h')
  | reject hg _ ih => exact .reject hg (ih h')
  | enter hx hg hi _ _ ih =>
    rw [List.append_assoc, List.cons_append, List.cons_append]
    exact .enter hx hg hi (ih h')

theorem seen_subset (h : Explores good next seen todo done seen') : seen ⊆ seen' := by
  induction h with
  | nil => exact List.Subset.refl _
  | skip _ _ ih => exact ih
  | reject _ _ ih =>
    intro y hy
    exact ih (List.mem_cons_of_mem _ hy)
  | enter _ _ _ _ ihi ih =>
    intro y hy
    exact ih (ihi (List.mem_cons_of_mem _ hy))

theorem done_subset (h : Explores good next seen todo done seen') : done ⊆ seen' := by
  induction h with
  | nil => exact List.nil_subset _
  | skip _ _ ih | reject _ _ ih => exact ih
  | enter _ _ hi h ihi ih =>
    intro y hy
    rcases List.mem_append.1 hy with hy | hy
    · exact h.seen_subset (ihi hy)
    · rcases List.mem_cons.1 hy with rfl | hy
      · exact h.seen_subset (hi.seen_subset List.mem_cons_self)
      · exact ih hy

/-- A good node that is seen was seen before or is finished. -/
theorem mem_or_mem_done (h : Explores good next seen todo done seen') (hy : y ∈ seen')
    (hg : good y) : y ∈ seen ∨ y ∈ done := by
  induction h with
  | nil => exact .inl hy
  | skip _ _ ih => exact ih hy
  | @reject _ _ _ _ x hx _ ih =>
    rcases ih hy with h | h
    · rcases List.mem_cons.1 h with rfl | h
      · exact absurd hg hx
      · exact .inl h
    · exact .inr h
  | enter _ _ _ _ ihi ih =>
    simp only [List.mem_append, List.mem_cons]
    rcases ih hy with h | h
    · rcases ihi h with h | h
      · rcases List.mem_cons.1 h with rfl | h
        · exact .inr (.inr (.inl rfl))
        · exact .inl h
      · exact .inr (.inl h)
    · exact .inr (.inr (.inr h))

theorem good_of_mem (h : Explores good next seen todo done seen') (hy : y ∈ done) : good y := by
  induction h with
  | nil => cases hy
  | skip _ _ ih | reject _ _ ih => exact ih hy
  | enter _ hg _ _ ihi ih =>
    rcases List.mem_append.1 hy with hy | hy
    · exact ihi hy
    · rcases List.mem_cons.1 hy with rfl | hy
      · exact hg
      · exact ih hy

theorem notMem_seen (h : Explores good next seen todo done seen') (hy : y ∈ done) : y ∉ seen := by
  induction h with
  | nil => cases hy
  | skip _ _ ih => exact ih hy
  | reject _ _ ih =>
    intro hs
    exact ih hy (List.mem_cons_of_mem _ hs)
  | enter hx _ hi _ ihi ih =>
    intro hs
    rcases List.mem_append.1 hy with hy | hy
    · exact ihi hy (List.mem_cons_of_mem _ hs)
    · rcases List.mem_cons.1 hy with rfl | hy
      · exact hx hs
      · exact ih hy (hi.seen_subset (List.mem_cons_of_mem _ hs))

/-- Nothing is finished twice. -/
theorem nodup_done (h : Explores good next seen todo done seen') : done.Nodup := by
  induction h with
  | nil => exact List.nodup_nil
  | skip _ _ ih | reject _ _ ih => exact ih
  | @enter _ _ _ _ done _ x _ _ hi h ihi ih =>
    have hx : x ∉ done := by
      intro hx
      exact h.notMem_seen hx (hi.seen_subset List.mem_cons_self)
    refine List.nodup_append.2 ⟨ihi, List.nodup_cons.2 ⟨hx, ih⟩, ?_⟩
    intro a ha b hb hsame
    subst hsame
    rcases List.mem_cons.1 hb with rfl | hb
    · exact hi.notMem_seen ha List.mem_cons_self
    · exact h.notMem_seen hb (hi.done_subset ha)

/-- Good nodes to do are seen. -/
theorem mem_of_mem_todo (h : Explores good next seen todo done seen') (hx : x ∈ todo)
    (hg : good x) : x ∈ seen' := by
  induction h with
  | nil => cases hx
  | skip hs h ih =>
    rcases List.mem_cons.1 hx with rfl | hx
    · exact h.seen_subset (hs.resolve_right (not_not_intro hg))
    · exact ih hx
  | reject hn _ ih =>
    rcases List.mem_cons.1 hx with rfl | hx
    · exact absurd hg hn
    · exact ih hx
  | enter _ _ hi h _ ih =>
    rcases List.mem_cons.1 hx with rfl | hx
    · exact h.seen_subset (hi.seen_subset List.mem_cons_self)
    · exact ih hx

/-- Good nodes that finished nodes lead to are seen. -/
theorem mem_of_leads (h : Explores good next seen todo done seen') (hx : x ∈ done)
    (hy : y ∈ next x) (hg : good y) : y ∈ seen' := by
  induction h with
  | nil => cases hx
  | skip _ _ ih | reject _ _ ih => exact ih hx
  | enter _ _ hi h ihi ih =>
    rcases List.mem_append.1 hx with hx | hx
    · exact h.seen_subset (ihi hx)
    · rcases List.mem_cons.1 hx with rfl | hx
      · exact h.seen_subset (hi.mem_of_mem_todo hy hg)
      · exact ih hx

/-- What is finished can be reached from the nodes to do. -/
theorem exists_reaches (h : Explores good next seen todo done seen') (hy : y ∈ done) :
    ∃ x ∈ todo, Relation.ReflTransGen (Leads good next) x y := by
  induction h with
  | nil => cases hy
  | skip _ _ ih | reject _ _ ih =>
    obtain ⟨x, hx, hr⟩ := ih hy
    exact ⟨x, List.mem_cons_of_mem _ hx, hr⟩
  | @enter _ _ _ _ _ _ x _ hg _ _ ihi ih =>
    rcases List.mem_append.1 hy with hy | hy
    · obtain ⟨z, hz, hr⟩ := ihi hy
      exact ⟨x, List.mem_cons_self, .head ⟨hg, hz⟩ hr⟩
    · rcases List.mem_cons.1 hy with rfl | hy
      · exact ⟨y, List.mem_cons_self, .refl⟩
      · obtain ⟨z, hz, hr⟩ := ih hy
        exact ⟨z, List.mem_cons_of_mem _ hz, hr⟩

/-- If no good node was seen before, the finished nodes are the good ones that can be reached. -/
theorem mem_done_iff (h : Explores good next seen todo done seen') (hs : ∀ z ∈ seen, ¬ good z) :
    y ∈ done ↔ good y ∧ ∃ x ∈ todo, Relation.ReflTransGen (Leads good next) x y := by
  have finished {z : α} (hz : z ∈ seen') (hg : good z) : z ∈ done := by
    rcases h.mem_or_mem_done hz hg with hz | hz
    · exact absurd hg (hs z hz)
    · exact hz
  constructor
  · intro hy
    exact ⟨h.good_of_mem hy, h.exists_reaches hy⟩
  intro hx
  obtain ⟨hg, x, hx, hr⟩ := hx
  induction hr with
  | refl => exact finished (h.mem_of_mem_todo hx hg) hg
  | tail _ hl ih => exact finished (h.mem_of_leads (ih hl.1) hl.2 hg) hg

/-- A good node that a finished node leads to was seen before, or is finished earlier, or leads back
to it. The nodes entered and not yet finished all lead to the node that is entered next. -/
theorem before_or_reaches (h : Explores good next seen todo done seen') (hx : x ∈ done)
    (hy : y ∈ next x) (hg : good y) :
    y ∈ seen ∨ Before y x done ∨ Relation.ReflTransGen (Leads good next) y x := by
  induction h with
  | nil => cases hx
  | skip _ _ ih => exact ih hx
  | reject hn _ ih =>
    rcases ih hx with h | h
    · rcases List.mem_cons.1 h with rfl | h
      · exact absurd hg hn
      · exact .inl h
    · exact .inr h
  | @enter seen xs inner middle done seen' z _ hz hi h ihi ih =>
    rcases List.mem_append.1 hx with hin | hx
    · rcases ihi hin with h | h | h
      · rcases List.mem_cons.1 h with rfl | h
        · obtain ⟨w, hw, hr⟩ := hi.exists_reaches hin
          exact .inr (.inr (.head ⟨hz, hw⟩ hr))
        · exact .inl h
      · exact .inr (.inl (h.append_right _))
      · exact .inr (.inr h)
    · -- what was seen before the rest: before the node, the node itself, or finished below it
      have earlier (hm : y ∈ middle) (hx : x ∈ z :: done) :
          y ∈ seen ∨ Before y x (inner ++ z :: done) ∨ y = z := by
        rcases hi.mem_or_mem_done hm hg with h | h
        · rcases List.mem_cons.1 h with rfl | h
          · exact .inr (.inr rfl)
          · exact .inl h
        · exact .inr (.inl (.of_mem h hx))
      rcases List.mem_cons.1 hx with rfl | hx'
      · rcases earlier (hi.mem_of_mem_todo hy hg) hx with h | h | rfl
        · exact .inl h
        · exact .inr (.inl h)
        · exact .inr (.inr .refl)
      · rcases ih hx' with h | h | h
        · rcases earlier h hx with h | h | rfl
          · exact .inl h
          · exact .inr (.inl h)
          · refine .inr (.inl ?_)
            exact (Before.of_mem (List.mem_singleton_self y) hx').append_left inner
        · refine .inr (.inl ?_)
          have := h.append_left (inner ++ [z])
          simpa using this
        · exact .inr (.inr h)

/-- Where no node leads on, the good nodes to do are finished in their order, each where it stands
first. -/
theorem done_eq_eraseDups [DecidableEq α] [DecidablePred good]
    (h : Explores good next seen todo done seen') (hn : ∀ x, next x = []) :
    done = (todo.filter fun x => good x ∧ x ∉ seen).eraseDups := by
  induction h with
  | nil => rfl
  | @skip seen xs _ _ x hx _ ih =>
    rw [ih, List.filter_cons_of_neg]
    simpa [imp_iff_not_or, or_comm] using hx
  | @reject seen xs _ _ x hg _ ih =>
    rw [ih, List.filter_cons_of_neg (by simp [hg])]
    congr 1
    apply List.filter_congr
    intro y _
    simp only [List.mem_cons, not_or, decide_eq_decide]
    refine and_congr_right fun hy => and_iff_right ?_
    intro hsame
    subst hsame
    exact hg hy
  | @enter seen xs inner middle _ _ x hx hg hi _ _ ih =>
    rw [hn x] at hi
    cases hi
    rw [ih, List.filter_cons_of_pos (by simp [hg, hx]), List.eraseDups_cons, List.filter_filter,
      List.nil_append]
    congr 2
    apply List.filter_congr
    intro y _
    simp only [List.mem_cons, not_or, Bool.decide_and]
    grind

end Explores

end Mykt.Graph
