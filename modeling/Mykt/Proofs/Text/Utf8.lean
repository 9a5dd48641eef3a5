import Mathlib.Data.List.TakeWhile
import Mykt.Text.Utf8

/-!
Bytes of texts are read back. Main statements: decoding the bytes of a text gives the text, and
repairing them changes nothing, whatever bytes follow.
-/

namespace Mykt.Text.Utf8

theorem toNat_ofNat {m : Nat} (h : m < 256) : (UInt8.ofNat m).toNat = m := by
  simp [Nat.mod_eq_of_lt h]

theorem ofNat_lt_iff {m : Nat} {b : UInt8} (h : m < 256) : UInt8.ofNat m < b ↔ m < b.toNat := by
  rw [UInt8.lt_iff_toNat_lt, toNat_ofNat h]

theorem ofNat_eq_iff {m : Nat} {b : UInt8} (h : m < 256) : UInt8.ofNat m = b ↔ m = b.toNat := by
  rw [← UInt8.toNat_inj, toNat_ofNat h]

/-- A byte that continues a character, with six bits of it. -/
def tailByte (n : Nat) : UInt8 := UInt8.ofNat (n % 0x40 + 0x80)

theorem toNat_tailByte (n : Nat) : (tailByte n).toNat = n % 0x40 + 0x80 :=
  toNat_ofNat (by omega)

theorem isContinuation_tailByte (n : Nat) : isContinuation (tailByte n) = true := by
  simp only [isContinuation, Bool.and_eq_true, decide_eq_true_eq, UInt8.le_iff_toNat_le,
    UInt8.lt_iff_toNat_lt, toNat_tailByte]
  exact ⟨Nat.le_add_left _ _, by simp; omega⟩

/-- The second byte of a character of the shortest form that is no surrogate and in range. -/
theorem secondFits_tailByte {a n : Nat} (ha : a < 256) (he0 : a = 0xe0 → 0x20 ≤ n % 0x40)
    (hed : a = 0xed → n % 0x40 < 0x20) (hf0 : a = 0xf0 → 0x10 ≤ n % 0x40)
    (hf4 : a = 0xf4 → n % 0x40 < 0x10) : secondFits (UInt8.ofNat a) (tailByte n) = true := by
  simp only [secondFits, isContinuation_tailByte, Bool.true_and, Bool.and_eq_true,
    Bool.not_eq_true', Bool.and_eq_false_iff, decide_eq_false_iff_not, ofNat_eq_iff ha,
    UInt8.lt_iff_toNat_lt, UInt8.le_iff_toNat_le, toNat_tailByte]
  simp only [UInt8.reduceToNat]
  omega

theorem widthOf_ofNat {a : Nat} (ha : a < 256) :
    widthOf (UInt8.ofNat a) =
      if a < 0x80 then 1 else if a < 0xc2 then 0 else if a < 0xe0 then 2
      else if a < 0xf0 then 3 else if a < 0xf5 then 4 else 0 := by
  simp only [widthOf, ofNat_lt_iff ha, UInt8.reduceToNat]

theorem next_one {a : Nat} (ha : a < 0x80) (rest : List UInt8) :
    next (UInt8.ofNat a) rest = .ok (Char.ofNat a, 1) := by
  have hw : widthOf (UInt8.ofNat a) = 1 := by rw [widthOf_ofNat (by omega), if_pos ha]
  have hg : goodBytes 1 (UInt8.ofNat a :: rest) = 1 := by cases rest <;> rfl
  have hlt : UInt8.ofNat a < 0x80 := (ofNat_lt_iff (by omega)).2 ha
  simp only [next, hw, hg, codePoint, hlt]
  simp [toNat_ofNat (show a < 256 by omega)]

/-- A first byte with as many bytes behind it as it asks for. -/
theorem next_wide {a n : Nat} {ns : List Nat} (hw : widthOf (UInt8.ofNat a) = ns.length + 2)
    (hs : secondFits (UInt8.ofNat a) (tailByte n) = true) (rest : List UInt8) :
    next (UInt8.ofNat a) ((n :: ns).map tailByte ++ rest) =
      .ok (Char.ofNat (codePoint (UInt8.ofNat a) ((n :: ns).map tailByte)), ns.length + 2) := by
  have hall : (ns.map tailByte).takeWhile isContinuation = ns.map tailByte := by
    apply List.takeWhile_eq_self_iff.2
    intro b hb
    obtain ⟨m, -, rfl⟩ := List.mem_map.1 hb
    exact isContinuation_tailByte m
  have hg : goodBytes (ns.length + 2)
      (UInt8.ofNat a :: tailByte n :: (ns.map tailByte ++ rest)) = ns.length + 2 := by
    have htake : (ns.map tailByte ++ rest).take (ns.length + 2 - 2) = ns.map tailByte := by
      simp
    simp only [goodBytes, hs, htake, hall, List.length_map]
    simp only [Nat.le_add_left, decide_true, Bool.and_self, if_true]
    omega
  simp only [next, hw, List.map_cons, List.cons_append, hg]
  simp

theorem codePoint_ofNat {a : Nat} (ha : a < 256) (ns : List Nat) :
    codePoint (UInt8.ofNat a) (ns.map tailByte) =
      ns.foldl (fun v n => v * 0x40 + n % 0x40)
        (if a < 0x80 then a else if a < 0xe0 then a % 0x20 else if a < 0xf0 then a % 0x10
          else a % 0x08) := by
  have six (n : Nat) : (n % 0x40 + 0x80) % 0x40 = n % 0x40 := by omega
  simp only [codePoint, List.foldl_map, toNat_tailByte, six, ofNat_lt_iff ha, UInt8.reduceToNat,
    toNat_ofNat ha]

/-- The bytes of a character are read back. -/
theorem next_utf8EncodeChar (c : Char) (rest : List UInt8) :
    ∃ first tail, String.utf8EncodeChar c = first :: tail ∧
      next first (tail ++ rest) = .ok (c, tail.length + 1) := by
  have hc : c.val.toNat < 0xd800 ∨ 0xdfff < c.val.toNat ∧ c.val.toNat < 0x110000 := c.valid
  have back : Char.ofNat c.val.toNat = c := Char.ofNat_toNat c
  -- a first byte with the bytes behind it that make up the character
  have wide {a n : Nat} {ns : List Nat} (ha : a < 256)
      (hw : widthOf (UInt8.ofNat a) = ns.length + 2)
      (hs : secondFits (UInt8.ofNat a) (tailByte n) = true)
      (hv : codePoint (UInt8.ofNat a) ((n :: ns).map tailByte) = c.val.toNat) :
      next (UInt8.ofNat a) ((n :: ns).map tailByte ++ rest) =
        .ok (c, ((n :: ns).map tailByte).length + 1) := by
    rw [next_wide hw hs, hv, back]
    simp
  unfold String.utf8EncodeChar
  generalize c.val.toNat = v at hc back wide
  dsimp only
  split
  · next h => exact ⟨_, [], rfl, by rw [List.nil_append, next_one (by omega), back]; rfl⟩
  · split
    · refine ⟨_, [v].map tailByte, rfl, wide (by omega) ?_ ?_ ?_⟩
      · rw [widthOf_ofNat (by omega), if_neg (by omega), if_neg (by omega), if_pos (by omega)]
        rfl
      · exact secondFits_tailByte (by omega) (by omega) (by omega) (by omega) (by omega)
      · rw [codePoint_ofNat (by omega), if_neg (by omega), if_pos (by omega)]
        simp only [List.foldl_cons, List.foldl_nil]
        omega
    · split
      · refine ⟨_, [v / 64, v].map tailByte, rfl, wide (by omega) ?_ ?_ ?_⟩
        · rw [widthOf_ofNat (by omega), if_neg (by omega), if_neg (by omega), if_neg (by omega),
            if_pos (by omega)]
          rfl
        · exact secondFits_tailByte (by omega) (by omega) (by omega) (by omega) (by omega)
        · rw [codePoint_ofNat (by omega), if_neg (by omega), if_neg (by omega), if_pos (by omega)]
          simp only [List.foldl_cons, List.foldl_nil]
          omega
      · refine ⟨_, [v / 4096, v / 64, v].map tailByte, rfl, wide (by omega) ?_ ?_ ?_⟩
        · rw [widthOf_ofNat (by omega), if_neg (by omega), if_neg (by omega), if_neg (by omega),
            if_neg (by omega), if_pos (by omega)]
          rfl
        · exact secondFits_tailByte (by omega) (by omega) (by omega) (by omega) (by omega)
        · rw [codePoint_ofNat (by omega), if_neg (by omega), if_neg (by omega), if_neg (by omega)]
          simp only [List.foldl_cons, List.foldl_nil]
          omega

/-- The bytes of a text begin with those of its first character. -/
theorem exists_encode_cons (c : Char) (cs : List Char) :
    ∃ first tail, encode (c :: cs) = first :: (tail ++ encode cs) ∧
      next first (tail ++ encode cs) = .ok (c, tail.length + 1) := by
  obtain ⟨first, tail, he, hn⟩ := next_utf8EncodeChar c (encode cs)
  refine ⟨first, tail, ?_, hn⟩
  rw [encode, List.flatMap_cons, he]
  rfl

theorem length_repairFrom_le (n : Nat) (bytes : List UInt8) :
    (repairFrom n bytes).length ≤ bytes.length := by
  induction n generalizing bytes with
  | zero => cases bytes <;> simp [repairFrom]
  | succ n ih =>
    cases bytes with
    | nil => exact Nat.le_refl _
    | cons first rest =>
      have step (k : Nat) : (repairFrom n (rest.drop k)).length + 1 ≤ rest.length + 1 := by
        have hrest := ih (rest.drop k)
        rw [List.length_drop] at hrest
        omega
      rw [repairFrom]
      split
      · exact step _
      · exact step _

/-- A number of characters that suffices gives all of them. -/
theorem repairFrom_eq_repair {n : Nat} {bytes : List UInt8} (h : bytes.length ≤ n) :
    repairFrom n bytes = repair bytes := by
  have enough {n m : Nat} {bytes : List UInt8} (hn : bytes.length ≤ n) (hm : bytes.length ≤ m) :
      repairFrom n bytes = repairFrom m bytes := by
    induction n generalizing m bytes with
    | zero =>
      obtain rfl := List.eq_nil_of_length_eq_zero (Nat.le_zero.1 hn)
      cases m <;> rfl
    | succ n ih =>
      cases bytes with
      | nil => cases m <;> rfl
      | cons first rest =>
        cases m with
        | zero => simp at hm
        | succ m =>
          simp only [List.length_cons] at hn hm
          have hrest (k : Nat) : repairFrom n (rest.drop k) = repairFrom m (rest.drop k) := by
            apply ih
            · rw [List.length_drop]
              omega
            · rw [List.length_drop]
              omega
          simp only [repairFrom, hrest]
  exact enough h (Nat.le_refl _)

/-- The bytes of a text before others are that text before what the others are. -/
theorem repair_encode_append (cs : List Char) (bytes : List UInt8) :
    repair (encode cs ++ bytes) = cs ++ repair bytes := by
  induction cs with
  | nil => rfl
  | cons c cs ih =>
    obtain ⟨first, tail, he, hn⟩ := next_utf8EncodeChar c (encode cs ++ bytes)
    have hcons : encode (c :: cs) ++ bytes = first :: (tail ++ (encode cs ++ bytes)) := by
      rw [encode, List.flatMap_cons, he, List.cons_append, List.cons_append, List.append_assoc]
      rfl
    have hlength : (encode cs ++ bytes).length ≤ (tail ++ (encode cs ++ bytes)).length := by simp
    rw [hcons, repair, List.length_cons, repairFrom, hn]
    simp only [Nat.add_sub_cancel, List.drop_left]
    rw [repairFrom_eq_repair hlength, ih, List.cons_append]

/-- The bytes of a text are that text. -/
theorem repair_encode (cs : List Char) : repair (encode cs) = cs := by
  have h := repair_encode_append cs []
  rwa [List.append_nil, show repair [] = [] from rfl, List.append_nil] at h

theorem decodeFrom_encode {n : Nat} (position : Nat) (cs : List Char)
    (h : (encode cs).length ≤ n) : decodeFrom n position (encode cs) = .ok cs := by
  induction cs generalizing n position with
  | nil => cases n <;> rfl
  | cons c cs ih =>
    obtain ⟨first, tail, hcons, hn⟩ := exists_encode_cons c cs
    rw [hcons] at h ⊢
    simp only [List.length_cons, List.length_append] at h
    cases n with
    | zero => omega
    | succ n =>
      have hrest := ih (n := n) (position + (tail.length + 1)) (by omega)
      rw [decodeFrom, hn]
      simp [hrest, bind, Except.bind, pure, Except.pure]

/-- The bytes of a text are at fault nowhere. -/
theorem decode_encode (cs : List Char) : decode (encode cs) = .ok cs :=
  decodeFrom_encode 0 cs (Nat.le_refl _)

end Mykt.Text.Utf8
