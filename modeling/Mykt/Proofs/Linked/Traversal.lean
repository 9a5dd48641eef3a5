import Mathlib.Data.List.Nodup
import Mathlib.Logic.Relation
import Mykt.Linked

/-!
Traversals of linked items. Main statements: a walk with a stack is the recursive pre-order, which
lists what is reached downwards; where every item lists another that names it, and lists it once,
the pre-order lists nothing twice and the chain from an item is the way back to the root.
-/

namespace Mykt.Linked

variable {α : Type} {a : Linked α} {root n m c p : Nat}

/-- To show something of an item, one may use it of the items below it. -/
theorem below_induction {P : Nat → Prop} (h : ∀ n, (∀ c ∈ a.below n, P c) → P n) (n : Nat) :
    P n := by
  apply h
  intro c hc
  have := lt_of_mem_below hc
  exact below_induction h c
termination_by a.size - n

theorem walkFrom_eq (a : Linked α) (stack : List Nat) :
    a.walkFrom stack = stack.flatMap a.preorder := by
  fun_induction walkFrom a stack with
  | case1 => rfl
  | case2 n stack ih => rw [ih, List.flatMap_append, List.flatMap_cons, preorder_eq, List.cons_append]

theorem walk_eq_preorder (a : Linked α) (n : Nat) : a.walk n = a.preorder n := by
  simp [walk, walkFrom_eq]

/-- Some way down leads from one item to another. -/
def Reaches (a : Linked α) : Nat → Nat → Prop := Relation.ReflTransGen fun n c => c ∈ a.below n

theorem mem_preorder_iff : m ∈ a.preorder n ↔ a.Reaches n m := by
  induction n using below_induction (a := a) with
  | h n ih =>
    rw [preorder_eq, List.mem_cons, List.mem_flatMap, Reaches, Relation.ReflTransGen.cases_head_iff]
    constructor
    · intro hm
      rcases hm with rfl | ⟨c, hc, hm⟩
      · exact .inl rfl
      · exact .inr ⟨c, hc, (ih c hc).1 hm⟩
    · intro hm
      rcases hm with rfl | ⟨c, hc, hm⟩
      · exact .inl rfl
      · exact .inr ⟨c, hc, (ih c hc).2 hm⟩

theorem Reaches.le (h : a.Reaches n m) : n ≤ m := by
  induction h with
  | refl => exact Nat.le_refl n
  | tail _ hc ih => exact Nat.le_trans ih (Nat.le_of_lt (lt_of_mem_below hc).1)

theorem Reaches.lt_size (h : a.Reaches n m) (hn : n < a.size) : m < a.size := by
  induction h with
  | refl => exact hn
  | tail _ hc _ => exact (lt_of_mem_below hc).2

theorem Reaches.mono {b : Linked α} (h : a.Reaches n m) (hb : ∀ p, a.below p ⊆ b.below p) :
    b.Reaches n m := by
  induction h with
  | refl => exact .refl
  | tail _ hc ih => exact .tail ih (hb _ hc)

theorem Reaches.hang (h : a.Reaches n m) (p : Nat) (vs : List α) : (a.hang p vs).Reaches n m := by
  by_cases hp : p < a.size
  · refine h.mono fun q c hc => ?_
    rw [below_hang hp]
    split
    · next he => exact List.mem_append_left _ (he ▸ hc)
    · exact hc
  · rwa [hang_of_size_le (Nat.le_of_not_lt hp)]

theorem fold_congr {β : Type} {b : Linked α} {f g : Nat → List β → β}
    (h : ∀ m, a.Reaches n m → b.below m = a.below m ∧ f m = g m) : a.fold f n = b.fold g n := by
  induction n using below_induction (a := a) with
  | h n ih =>
    obtain ⟨hbelow, hf⟩ := h n .refl
    rw [fold_eq, fold_eq b, hbelow, hf]
    congr 1
    apply List.map_congr_left
    intro c hc
    exact ih c hc fun m hm => h m (.head hc hm)

/-! By trails -/

theorem descend_append (a : Linked α) (n : Nat) (xs ys : List Nat) :
    a.descend n (xs ++ ys) = (a.descend n xs).bind (a.descend · ys) := by
  induction xs generalizing n with
  | nil => rfl
  | cons i is ih =>
    simp only [List.cons_append, descend, Option.bind_assoc]
    congr 1
    funext c
    exact ih c

@[simp] theorem at?_nil (a : Linked α) (root : Nat) : a.at? root [] = some root := rfl

theorem at?_cons (a : Linked α) (root i : Nat) (trail : Trail) :
    a.at? root (i :: trail) = (a.at? root trail).bind fun n => (a.below n)[i]? := by
  simp [at?, descend_append, descend]

/-- Only what is listed counts on the way down. -/
theorem at?_congr {b : Linked α} (h : ∀ m, b.below m = a.below m) (root : Nat) (trail : Trail) :
    b.at? root trail = a.at? root trail := by
  induction trail with
  | nil => rfl
  | cons i trail ih => simp only [at?_cons, ih, h]

theorem reaches_of_descend {down : List Nat} (h : a.descend n down = some m) : a.Reaches n m := by
  induction down generalizing n with
  | nil =>
    obtain rfl : n = m := by simpa [descend] using h
    exact .refl
  | cons i is ih =>
    obtain ⟨c, hc, hm⟩ := Option.bind_eq_some_iff.1 h
    exact .head (List.mem_of_getElem? hc) (ih hm)

theorem reaches_of_at? {trail : Trail} (h : a.at? root trail = some n) : a.Reaches root n :=
  reaches_of_descend h

/-! Upwards -/

theorem chain_of_above (h : a.above? n = some p) : a.chain n = n :: a.chain p := by
  rw [chain]
  split
  · next q hq =>
    obtain rfl : q = p := by simpa [hq] using h
    rfl
  · next hq => simp [hq] at h

theorem chain_of_root (h : a.above? n = none) : a.chain n = [n] := by
  rw [chain]
  split
  · next q hq => simp [hq] at h
  · rfl

theorem trail_of_above (h : a.above? n = some p) :
    a.trail n = (a.below p).idxOf n :: a.trail p := by
  rw [trail]
  split
  · next q hq =>
    obtain rfl : q = p := by simpa [hq] using h
    rfl
  · next hq => simp [hq] at h

theorem trail_of_root (h : a.above? n = none) : a.trail n = [] := by
  rw [trail]
  split
  · next q hq => simp [hq] at h
  · rfl

/-- Values do not count for trails. -/
theorem trail_congr {b : Linked α} (habove : ∀ m, b.above? m = a.above? m)
    (hbelow : ∀ m, b.below m = a.below m) (n : Nat) : b.trail n = a.trail n := by
  induction n using Nat.strongRecOn with
  | ind n ih =>
    cases hn : a.above? n with
    | none => rw [trail_of_root hn, trail_of_root ((habove n).trans hn)]
    | some p =>
      rw [trail_of_above hn, trail_of_above ((habove n).trans hn), hbelow, ih p (above?_lt hn)]

/-- A chain depends on what is named by the items up to it. -/
theorem chain_congr {b : Linked α} (h : ∀ m ≤ n, b.above? m = a.above? m) :
    b.chain n = a.chain n := by
  induction n using Nat.strongRecOn with
  | ind n ih =>
    cases hn : a.above? n with
    | none => rw [chain_of_root hn, chain_of_root ((h n (Nat.le_refl n)).trans hn)]
    | some p =>
      have hp := above?_lt hn
      rw [chain_of_above hn, chain_of_above ((h n (Nat.le_refl n)).trans hn),
        ih p hp fun m hm => h m (by omega)]

theorem le_of_mem_chain {a : Linked α} {n m : Nat} (h : m ∈ a.chain n) : m ≤ n := by
  induction n using Nat.strongRecOn with
  | ind n ih =>
    cases hn : a.above? n with
    | none =>
      rw [chain_of_root hn] at h
      exact Nat.le_of_eq (List.mem_singleton.1 h)
    | some p =>
      rw [chain_of_above hn] at h
      rcases List.mem_cons.1 h with rfl | h
      · exact Nat.le_refl m
      · exact Nat.le_of_lt (Nat.lt_of_le_of_lt (ih p (above?_lt hn) h) (above?_lt hn))

/-- A chain leads to ever lower numbers. -/
theorem pairwise_chain (a : Linked α) (n : Nat) : (a.chain n).Pairwise (· > ·) := by
  induction n using Nat.strongRecOn with
  | ind n ih =>
    cases hn : a.above? n with
    | none => simp [chain_of_root hn]
    | some p =>
      rw [chain_of_above hn]
      refine List.pairwise_cons.2 ⟨?_, ih p (above?_lt hn)⟩
      intro x hx
      exact Nat.lt_of_le_of_lt (le_of_mem_chain hx) (above?_lt hn)

theorem nodup_chain (a : Linked α) (n : Nat) : (a.chain n).Nodup :=
  (a.pairwise_chain n).imp fun h => Nat.ne_of_gt h

/-- From the root on, what an item lists names the item, and is listed once. -/
structure Tidy (a : Linked α) (root : Nat) : Prop where
  above?_of_mem : ∀ n c, root ≤ n → c ∈ a.below n → a.above? c = some n
  nodup_below : ∀ n, root ≤ n → (a.below n).Nodup

namespace Tidy

theorem of_size (a : Linked α) : a.Tidy a.size where
  above?_of_mem := by
    intro n c hn hc
    rw [below_eq_nil hn] at hc
    cases hc
  nodup_below := by
    intro n hn
    rw [below_eq_nil hn]
    exact List.nodup_nil

theorem plant (h : a.Tidy root) (v : α) (above : Option (Fin a.size)) :
    (a.plant v above).Tidy root where
  above?_of_mem := by
    intro n c hn hc
    rw [below_plant] at hc
    rw [above?_plant, if_neg (Nat.ne_of_lt (lt_of_mem_below hc).2)]
    exact h.above?_of_mem n c hn hc
  nodup_below := by
    intro n hn
    rw [below_plant]
    exact h.nodup_below n hn

/-- Values do not count. -/
theorem congr {b : Linked α} (h : a.Tidy root) (habove : ∀ m, b.above? m = a.above? m)
    (hbelow : ∀ m, b.below m = a.below m) : b.Tidy root where
  above?_of_mem := by simpa only [habove, hbelow] using h.above?_of_mem
  nodup_below := by simpa only [hbelow] using h.nodup_below

theorem modify (h : a.Tidy root) (n : Nat) (f : α → α) : (a.modify n f).Tidy root :=
  h.congr (above?_modify a n f) (below_modify a n f)

theorem hang (h : a.Tidy root) (n : Nat) (vs : List α) : (a.hang n vs).Tidy root := by
  by_cases hn : n < a.size
  case neg =>
    rw [hang_of_size_le (Nat.le_of_not_lt hn)]
    exact h
  constructor
  · intro m c hm hc
    rw [above?_hang hn]
    rw [below_hang hn] at hc
    split at hc
    · next he =>
      subst he
      rw [List.mem_append, mem_next] at hc
      rcases hc with hc | hc
      · rw [if_pos (lt_of_mem_below hc).2]
        exact h.above?_of_mem n c hm hc
      · rw [if_neg (by omega), if_pos hc.2]
    · rw [if_pos (lt_of_mem_below hc).2]
      exact h.above?_of_mem m c hm hc
  · intro m hm
    rw [below_hang hn]
    split
    · next he =>
      subst he
      refine List.Nodup.append (h.nodup_below n hm) List.nodup_range' ?_
      intro c hc hc'
      have := (lt_of_mem_below hc).2
      have := (mem_next.1 hc').1
      omega
    · exact h.nodup_below m hm

/-- Two items that an item lists have nothing below them in common. -/
theorem eq_of_reaches {c' : Nat} (h : a.Tidy root) (hn : root ≤ n) (hc : c ∈ a.below n)
    (hc' : c' ∈ a.below n) (hm : a.Reaches c m) (hm' : a.Reaches c' m) : c = c' := by
  have hlt := (lt_of_mem_below hc).1
  have hlt' := (lt_of_mem_below hc').1
  induction hm with
  | refl =>
    -- a last step to `c` would come from `n`, which stands above both
    rcases Relation.ReflTransGen.cases_tail hm' with he | ⟨p, hp, hcp⟩
    · exact he
    · have hle : c' ≤ p := Reaches.le hp
      have hp' := h.above?_of_mem p c (by omega) hcp
      rw [h.above?_of_mem n c hn hc] at hp'
      simp only [Option.some.injEq] at hp'
      omega
  | @tail p m hp hmp ih =>
    have hle : c ≤ p := Reaches.le hp
    have hm := h.above?_of_mem p m (by omega) hmp
    rcases Relation.ReflTransGen.cases_tail hm' with he | ⟨q, hq, hmq⟩
    · subst he
      rw [h.above?_of_mem n m hn hc'] at hm
      simp only [Option.some.injEq] at hm
      omega
    · have hle' : c' ≤ q := Reaches.le hq
      rw [h.above?_of_mem q m (by omega) hmq] at hm
      obtain rfl : q = p := by simpa using hm
      exact ih hq

theorem nodup_preorder (h : a.Tidy root) (hn : root ≤ n) : (a.preorder n).Nodup := by
  induction n using below_induction (a := a) with
  | h n ih =>
    rw [preorder_eq, List.nodup_cons, List.nodup_flatMap]
    refine ⟨?_, ?_, ?_⟩
    · intro hm
      obtain ⟨c, hc, hm⟩ := List.mem_flatMap.1 hm
      have := (mem_preorder_iff.1 hm).le
      have := (lt_of_mem_below hc).1
      omega
    · intro c hc
      have := (lt_of_mem_below hc).1
      exact ih c hc (by omega)
    · refine (h.nodup_below n hn).imp_of_mem ?_
      intro c c' hc hc' hne m hm hm'
      exact hne (h.eq_of_reaches hn hc hc' (mem_preorder_iff.1 hm) (mem_preorder_iff.1 hm'))

/-- An item below the root is listed by the one that it names. -/
theorem exists_above (h : a.Tidy root) (hn : a.Reaches root n) (hne : n ≠ root) :
    ∃ p, a.Reaches root p ∧ a.above? n = some p ∧ n ∈ a.below p := by
  rcases Relation.ReflTransGen.cases_tail hn with he | ⟨p, hp, hc⟩
  · exact absurd he hne
  · exact ⟨p, hp, h.above?_of_mem p n (Reaches.le hp) hc, hc⟩

theorem count_below (h : a.Tidy root) (hn : root ≤ n) (hc : c ∈ a.below n) :
    (a.below n).count c = 1 :=
  List.count_eq_one_of_mem (h.nodup_below n hn) hc

/-- A chain ends at the root. -/
theorem getLast?_chain (h : a.Tidy root) (hroot : a.above? root = none) (hn : a.Reaches root n) :
    (a.chain n).getLast? = some root := by
  induction hn with
  | refl => rw [chain_of_root hroot, List.getLast?_singleton]
  | tail hp hc ih =>
    rw [chain_of_above (h.above?_of_mem _ _ (Reaches.le hp) hc), List.getLast?_cons, ih]
    rfl

/-- The trail of an item leads to it. -/
theorem at?_trail (h : a.Tidy root) (hroot : a.above? root = none) (hn : a.Reaches root n) :
    a.at? root (a.trail n) = some n := by
  induction hn with
  | refl => rw [trail_of_root hroot, at?_nil]
  | tail hp hc ih =>
    rw [trail_of_above (h.above?_of_mem _ _ (Reaches.le hp) hc), at?_cons, ih]
    exact List.getElem?_idxOf hc

/-- Items keep their trails when others are added. -/
theorem trail_hang (h : a.Tidy root) (hroot : a.above? root = none) (hn : a.Reaches root n)
    (hp : p < a.size) (hlt : root < a.size) (vs : List α) : (a.hang p vs).trail n = a.trail n := by
  have habove {m : Nat} (hm : m < a.size) : (a.hang p vs).above? m = a.above? m := by
    rw [above?_hang hp, if_pos hm]
  induction hn with
  | refl => rw [trail_of_root hroot, trail_of_root ((habove hlt).trans hroot)]
  | tail hq hc ih =>
    have hq' := h.above?_of_mem _ _ (Reaches.le hq) hc
    rw [trail_of_above hq', trail_of_above ((habove (lt_of_mem_below hc).2).trans hq'), ih,
      below_hang hp]
    split
    · next he =>
      subst he
      rw [List.idxOf_append_of_mem hc]
    · rfl

/-- The chain of an item runs through the places around it, up to the root and on from there. -/
theorem chain_eq_of_at? {root' : Nat} {trail : Trail} (h : a.Tidy root) (hr : root ≤ root')
    (hn : a.at? root' trail = some n) :
    (a.chain n).map some =
      (Trail.upward trail).map (a.at? root') ++ (a.chain root').tail.map some := by
  induction trail generalizing n with
  | nil =>
    obtain rfl : root' = n := by simpa using hn
    rw [chain]
    rfl
  | cons i trail ih =>
    have hat := hn
    rw [at?_cons] at hn
    obtain ⟨p, hp, hc⟩ := Option.bind_eq_some_iff.1 hn
    have hle := Nat.le_trans hr (reaches_of_at? hp).le
    rw [chain_of_above (h.above?_of_mem p n hle (List.mem_of_getElem? hc)), List.map_cons, ih hp,
      Trail.upward, List.map_cons, hat, List.cons_append]

end Tidy

end Mykt.Linked
