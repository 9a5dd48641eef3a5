import Mathlib.Data.List.TakeWhile
import Mykt.Proofs.Text.Utf8
import Mykt.Uri.Percent

/-!
Escapes and how they are read back. Main statements: an escaped text stands for the text, whatever
is written after it; a text stands for itself exactly if it holds no escape, and for a shorter one
otherwise.
-/

namespace Mykt.Uri

/-- A character that stands for itself in an address. -/
def isPlain (c : Char) : Bool := isUnreserved c || c = '/'

/-- A character of an escaped text. -/
def isEscaped (c : Char) : Bool := isPlain c || c = '%'

/-- A percent sign and two hexadecimal digits begin a text. -/
def startsEscape : List Char → Bool
  | '%' :: a :: b :: _ => (escapedByte? a b).isSome
  | _ => false

/-- A percent sign stands somewhere before two hexadecimal digits. -/
def hasEscape : List Char → Bool
  | [] => false
  | c :: cs => startsEscape (c :: cs) || hasEscape cs

theorem isAscii_of_isEscaped {c : Char} (h : isEscaped c = true) : isAscii c = true := by
  have below {d : Char} (hd : d.toNat < 0x80) (hc : c ≤ d) : c.toNat < 0x80 :=
    Nat.lt_of_le_of_lt hc hd
  simp only [isEscaped, isPlain, isUnreserved, Bool.or_eq_true, Bool.and_eq_true,
    decide_eq_true_eq] at h
  refine decide_eq_true ?_
  rcases h with (((((((⟨-, h⟩ | ⟨-, h⟩) | ⟨-, h⟩) | rfl) | rfl) | rfl) | rfl) | rfl) | rfl
  iterate 3 exact below (by decide) h
  all_goals decide

theorem ne_percent_of_isPlain {c : Char} (h : isPlain c = true) : c ≠ '%' := by
  intro hsame
  subst hsame
  revert h
  decide

theorem escapedByte?_hexUpper (b : UInt8) :
    escapedByte? (hexUpper (b.toNat / 16)) (hexUpper (b.toNat % 16)) = some b := by
  have digit : ∀ n < 16, hexValue? (hexUpper n) = some n := by decide
  have hb := UInt8.toNat_lt b
  rw [escapedByte?, digit _ (by omega), digit _ (by omega)]
  simp [Nat.div_add_mod']

theorem asciiBytes_escapeByte (b : UInt8) (rest : List Char) :
    asciiBytes (escapeByte b ++ rest) = b :: asciiBytes rest := by
  simp only [escapeByte, List.cons_append, List.nil_append, asciiBytes, escapedByte?_hexUpper]

theorem asciiBytes_flatMap_escapeByte (bs : List UInt8) (rest : List Char) :
    asciiBytes (bs.flatMap escapeByte ++ rest) = bs ++ asciiBytes rest := by
  induction bs with
  | nil => rfl
  | cons b bs ih =>
    rw [List.flatMap_cons, List.append_assoc, asciiBytes_escapeByte, ih, List.cons_append]

theorem utf8EncodeChar_of_isAscii {c : Char} (h : isAscii c = true) :
    String.utf8EncodeChar c = [c.toUInt8] := by
  have hc : c.val.toNat ≤ 0x7f := Nat.le_of_lt_succ (of_decide_eq_true h)
  unfold String.utf8EncodeChar
  dsimp only
  rw [if_pos hc]
  rfl

theorem asciiBytes_cons {c : Char} {rest : List Char} (h : startsEscape (c :: rest) = false) :
    asciiBytes (c :: rest) = c.toUInt8 :: asciiBytes rest := by
  rw [asciiBytes.eq_def]
  split
  · next a b cs he =>
    cases he
    simp only [startsEscape, Option.isSome_eq_false_iff, Option.isNone_iff_eq_none] at h
    rw [h]
  · next he =>
    cases he
    rfl
  · next he => cases he

theorem startsEscape_of_isPlain {c : Char} (h : isPlain c = true) (rest : List Char) :
    startsEscape (c :: rest) = false := by
  unfold startsEscape
  split
  · next he =>
    cases he
    exact absurd rfl (ne_percent_of_isPlain h)
  · rfl

theorem hasEscape_of_isPlain {cs : List Char} (h : ∀ c ∈ cs, isPlain c = true) :
    hasEscape cs = false := by
  induction cs with
  | nil => rfl
  | cons c cs ih =>
    simp only [List.mem_cons, forall_eq_or_imp] at h
    rw [hasEscape, startsEscape_of_isPlain h.1, ih h.2]
    rfl

theorem encode_cons_of_isAscii {c : Char} (h : isAscii c = true) (cs : List Char) :
    Text.Utf8.encode (c :: cs) = c.toUInt8 :: Text.Utf8.encode cs := by
  rw [Text.Utf8.encode, List.flatMap_cons, utf8EncodeChar_of_isAscii h]
  rfl

/-- The bytes of an escaped text, whatever is written after it. -/
theorem asciiBytes_encode (cs tail : List Char) :
    asciiBytes (encode cs ++ tail) = Text.Utf8.encode cs ++ asciiBytes tail := by
  induction cs with
  | nil => rfl
  | cons c cs ih =>
    rw [encode, List.flatMap_cons, List.append_assoc]
    change asciiBytes (_ ++ (encode cs ++ tail)) = _
    split
    · next hc =>
      have hascii : isAscii c = true := isAscii_of_isEscaped (by simp [isEscaped, isPlain, hc])
      rw [List.singleton_append, asciiBytes_cons (startsEscape_of_isPlain hc _), ih,
        encode_cons_of_isAscii hascii, List.cons_append]
    · rw [asciiBytes_flatMap_escapeByte, ih]
      simp [Text.Utf8.encode]

/-- Without an escape, ASCII characters are their own bytes. -/
theorem asciiBytes_of_not_hasEscape {cs : List Char} (ha : ∀ c ∈ cs, isAscii c = true)
    (h : hasEscape cs = false) : asciiBytes cs = Text.Utf8.encode cs := by
  induction cs with
  | nil => rfl
  | cons c cs ih =>
    simp only [List.mem_cons, forall_eq_or_imp] at ha
    rw [hasEscape, Bool.or_eq_false_iff] at h
    rw [asciiBytes_cons h.1, ih ha.2 h.2, encode_cons_of_isAscii ha.1]

/-- An escape is one byte for three characters. -/
theorem length_asciiBytes (cs : List Char) :
    (asciiBytes cs).length ≤ cs.length ∧
      (hasEscape cs = true → (asciiBytes cs).length < cs.length) := by
  fun_induction asciiBytes cs with
  | case1 a b cs byte hbyte ih =>
    simp only [List.length_cons]
    omega
  | case2 a b cs hbyte ih =>
    have hstarts : startsEscape ('%' :: a :: b :: cs) = false := by simp [startsEscape, hbyte]
    rw [hasEscape, hstarts, Bool.false_or]
    simp only [List.length_cons] at ih ⊢
    exact ⟨by omega, fun h => by have := ih.2 h; omega⟩
  | case3 c cs hnot ih =>
    have hstarts : startsEscape (c :: cs) = false := by
      unfold startsEscape
      split
      · next he =>
        cases he
        exact (hnot _ _ _ rfl rfl).elim
      · rfl
    rw [hasEscape, hstarts, Bool.false_or]
    simp only [List.length_cons]
    exact ⟨by omega, fun h => by have := ih.2 h; omega⟩
  | case4 => simp [hasEscape]

theorem isEscaped_of_mem_encode {cs : List Char} {c : Char} (h : c ∈ encode cs) :
    isEscaped c = true := by
  have digit : ∀ n < 16, isEscaped (hexUpper n) = true := by decide
  obtain ⟨x, -, hc⟩ := List.mem_flatMap.1 h
  split at hc
  · next hx =>
    obtain rfl := List.mem_singleton.1 hc
    exact Bool.or_eq_true_iff.2 (.inl hx)
  · obtain ⟨b, -, hb⟩ := List.mem_flatMap.1 hc
    have := UInt8.toNat_lt b
    simp only [escapeByte, List.mem_cons, List.not_mem_nil, or_false] at hb
    rcases hb with rfl | rfl | rfl
    · decide
    · exact digit _ (by omega)
    · exact digit _ (by omega)

theorem hexValue?_eq_none {c : Char} (h : isAscii c = false) : hexValue? c = none := by
  have beyond {d : Char} (hd : d.toNat < 0x80) : ¬ c ≤ d := by
    intro hle
    exact absurd (Nat.lt_of_le_of_lt hle hd) (of_decide_eq_false h)
  have digit : ¬ c ≤ '9' := beyond (by decide)
  have small : ¬ c ≤ 'f' := beyond (by decide)
  have large : ¬ c ≤ 'F' := beyond (by decide)
  simp [hexValue?, digit, small, large]

/-- No escape reaches over a character that is not ASCII. -/
theorem hasEscape_append {c : Char} (hc : isAscii c = false) (cs rest : List Char) :
    hasEscape (cs ++ c :: rest) = (hasEscape cs || hasEscape rest) := by
  have hnone := hexValue?_eq_none hc
  induction cs with
  | nil =>
    have hstarts : startsEscape (c :: rest) = false := by
      unfold startsEscape
      split
      · next he =>
        cases he
        exact absurd hc (by decide)
      · rfl
    show (startsEscape (c :: rest) || hasEscape rest) = (false || hasEscape rest)
    rw [hstarts]
  | cons x xs ih =>
    have hstarts : startsEscape (x :: (xs ++ c :: rest)) = startsEscape (x :: xs) := by
      match xs with
      | [] =>
        by_cases hx : x = '%'
        · subst hx
          cases rest <;> simp [startsEscape, escapedByte?, hnone]
        · simp [startsEscape, hx]
      | [y] =>
        by_cases hx : x = '%'
        · subst hx
          simp [startsEscape, escapedByte?, hnone]
        · simp [startsEscape, hx]
      | y :: z :: zs =>
        by_cases hx : x = '%'
        · subst hx
          simp [startsEscape]
        · simp [startsEscape, hx]
    rw [List.cons_append, hasEscape, hstarts, ih, hasEscape, Bool.or_assoc]

section

variable {c : Char} {run rest cs : List Char}

/-- A text is a run of ASCII characters, or one before a character that is not and some text. -/
theorem runs_induction {motive : List Char → Prop}
    (last : ∀ run, (∀ x ∈ run, isAscii x = true) → motive run)
    (next : ∀ run c rest, (∀ x ∈ run, isAscii x = true) → isAscii c = false → motive rest →
      motive (run ++ c :: rest)) (cs : List Char) : motive cs := by
  generalize hn : cs.length = n
  induction n using Nat.strongRecOn generalizing cs with
  | ind n ih =>
    have hsplit := List.takeWhile_append_dropWhile (p := isAscii) (l := cs)
    have hrun : ∀ x ∈ cs.takeWhile isAscii, isAscii x = true := fun x => List.mem_takeWhile_imp
    cases hd : cs.dropWhile isAscii with
    | nil =>
      rw [hd, List.append_nil] at hsplit
      rw [← hsplit]
      exact last _ hrun
    | cons c rest =>
      have hc : isAscii c = false := by
        have := List.head?_dropWhile_not isAscii cs
        rw [hd] at this
        simpa using this
      rw [hd] at hsplit
      have hlength := congrArg List.length hsplit
      simp only [List.length_append, List.length_cons] at hlength
      rw [← hsplit]
      exact next _ c rest hrun hc (ih rest.length (by omega) rest rfl)

theorem dropWhile_of_isAscii (h : ∀ x ∈ run, isAscii x = true) :
    run.dropWhile isAscii = [] := List.dropWhile_eq_nil_iff.2 h

theorem decodeRuns_of_isAscii (h : ∀ x ∈ run, isAscii x = true) (n : Nat) :
    decodeRuns (n + 1) run = Text.Utf8.repair (asciiBytes run) := by
  rw [decodeRuns, dropWhile_of_isAscii h]

theorem decodeRuns_append (h : ∀ x ∈ run, isAscii x = true) (hc : isAscii c = false) (n : Nat) :
    decodeRuns (n + 1) (run ++ c :: rest) =
      Text.Utf8.repair (asciiBytes run) ++ c :: decodeRuns n rest := by
  have hdrop : (run ++ c :: rest).dropWhile isAscii = c :: rest := by
    rw [List.dropWhile_append_of_pos h, List.dropWhile_cons_of_neg (by simp [hc])]
  have htake : (run ++ c :: rest).takeWhile isAscii = run := by
    rw [List.takeWhile_append_of_pos h, List.takeWhile_cons_of_neg (by simp [hc]), List.append_nil]
  rw [decodeRuns, hdrop, htake]

/-- A number of runs that suffices gives all of them. -/
theorem decodeRuns_congr {n m : Nat} (hn : cs.length < n) (hm : cs.length < m) :
    decodeRuns n cs = decodeRuns m cs := by
  induction cs using runs_induction generalizing n m with
  | last run h =>
    obtain ⟨n, rfl⟩ := Nat.exists_eq_add_one_of_ne_zero (Nat.ne_zero_of_lt hn)
    obtain ⟨m, rfl⟩ := Nat.exists_eq_add_one_of_ne_zero (Nat.ne_zero_of_lt hm)
    rw [decodeRuns_of_isAscii h, decodeRuns_of_isAscii h]
  | next run c rest h hc ih =>
    obtain ⟨n, rfl⟩ := Nat.exists_eq_add_one_of_ne_zero (Nat.ne_zero_of_lt hn)
    obtain ⟨m, rfl⟩ := Nat.exists_eq_add_one_of_ne_zero (Nat.ne_zero_of_lt hm)
    simp only [List.length_append, List.length_cons] at hn hm
    have hrest : decodeRuns n rest = decodeRuns m rest := ih (by omega) (by omega)
    rw [decodeRuns_append h hc, decodeRuns_append h hc, hrest]

theorem decode_of_isAscii (h : ∀ x ∈ run, isAscii x = true) :
    decode run = Text.Utf8.repair (asciiBytes run) := decodeRuns_of_isAscii h _

theorem decode_append (h : ∀ x ∈ run, isAscii x = true) (hc : isAscii c = false) :
    decode (run ++ c :: rest) = Text.Utf8.repair (asciiBytes run) ++ c :: decode rest := by
  have hfuel : decodeRuns (run ++ c :: rest).length rest = decode rest := by
    apply decodeRuns_congr
    · simp only [List.length_append, List.length_cons]
      omega
    · omega
  rw [decode, decodeRuns_append h hc, hfuel]

/-- An escaped text is read back, whatever is written after it. -/
theorem decode_encode (cs tail : List Char) : decode (encode cs ++ tail) = cs ++ decode tail := by
  have hascii : ∀ x ∈ encode cs, isAscii x = true := by
    intro x hx
    exact isAscii_of_isEscaped (isEscaped_of_mem_encode hx)
  have hbytes (run : List Char) : Text.Utf8.repair (asciiBytes (encode cs ++ run)) =
      cs ++ Text.Utf8.repair (asciiBytes run) := by
    rw [asciiBytes_encode, Text.Utf8.repair_encode_append]
  cases tail using runs_induction with
  | last run h =>
    rw [decode_of_isAscii (List.forall_mem_append.2 ⟨hascii, h⟩), hbytes, decode_of_isAscii h]
  | next run c rest h hc _ =>
    rw [← List.append_assoc, decode_append (List.forall_mem_append.2 ⟨hascii, h⟩) hc, hbytes,
      decode_append h hc, List.append_assoc]

theorem length_repair_asciiBytes (run : List Char) :
    (Text.Utf8.repair (asciiBytes run)).length ≤ run.length ∧
      (hasEscape run = true → (Text.Utf8.repair (asciiBytes run)).length < run.length) := by
  have hrepair : (Text.Utf8.repair (asciiBytes run)).length ≤ (asciiBytes run).length :=
    Text.Utf8.length_repairFrom_le _ _
  obtain ⟨hle, hlt⟩ := length_asciiBytes run
  exact ⟨by omega, fun h => by have := hlt h; omega⟩

/-- A text stands for one that is no longer, and for a shorter one if it holds an escape. -/
theorem length_decode (cs : List Char) :
    (decode cs).length ≤ cs.length ∧ (hasEscape cs = true → (decode cs).length < cs.length) := by
  induction cs using runs_induction with
  | last run h =>
    rw [decode_of_isAscii h]
    exact length_repair_asciiBytes run
  | next run c rest h hc ih =>
    obtain ⟨hle, hlt⟩ := length_repair_asciiBytes run
    rw [decode_append h hc, hasEscape_append hc, Bool.or_eq_true]
    simp only [List.length_append, List.length_cons]
    refine ⟨by omega, fun h => ?_⟩
    rcases h with h | h
    · have := hlt h
      omega
    · have := ih.2 h
      omega

/-- A text stands for itself exactly if it holds no escape. -/
theorem decode_eq_self_iff : decode cs = cs ↔ hasEscape cs = false := by
  constructor
  · intro h
    rw [Bool.eq_false_iff]
    intro he
    have hlt := (length_decode cs).2 he
    rw [h] at hlt
    exact Nat.lt_irrefl _ hlt
  · intro h
    induction cs using runs_induction with
    | last run ha =>
      rw [decode_of_isAscii ha, asciiBytes_of_not_hasEscape ha h, Text.Utf8.repair_encode]
    | next run c rest ha hc ih =>
      rw [hasEscape_append hc, Bool.or_eq_false_iff] at h
      rw [decode_append ha hc, asciiBytes_of_not_hasEscape ha h.1, Text.Utf8.repair_encode, ih h.2]

end

end Mykt.Uri
