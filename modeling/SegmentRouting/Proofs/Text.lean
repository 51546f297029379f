import Mathlib.Data.List.TakeWhile
import SegmentRouting.Text

/-! What a numeral denotes, said of the whole text: the fault that stops the
reader, and the place where it stops, play no part. Every number is denoted by
its decimal digits, with any blanks around them that are trimmed before. -/

namespace SegmentRouting

/-- At least one ASCII digit, and nothing else. -/
def Digits (s : List Char) (n : Nat) : Prop :=
  s ≠ [] ∧ (∀ c ∈ s, c.isDigit = true) ∧ Nat.ofDigitChars 10 s 0 = n

def Denotes (s : List Char) (n : Nat) : Prop :=
  Digits s n ∨ ∃ digits, s = '+' :: digits ∧ Digits digits n

theorem not_digits_plus (s : List Char) (n : Nat) : ¬ Digits ('+' :: s) n := by
  intro h
  have hsign := h.2.1 '+' List.mem_cons_self
  contradiction

theorem le_ofDigitChars (s : List Char) (acc : Nat) : acc ≤ Nat.ofDigitChars 10 s acc := by
  induction s generalizing acc with
  | nil => exact Nat.le_refl acc
  | cons c s ih =>
    have hrest := ih (10 * acc + (c.toNat - '0'.toNat))
    rw [Nat.ofDigitChars_cons]
    omega

theorem readDigits_eq_ok_iff {limit acc n : Nat} {excess : NumeralFault} {s : List Char}
    (hacc : acc < limit) :
    readDigits limit excess acc s = .ok n ↔
      (∀ c ∈ s, c.isDigit = true) ∧ Nat.ofDigitChars 10 s acc = n ∧ n < limit := by
  induction s generalizing acc with
  | nil =>
    have hnil : Nat.ofDigitChars 10 [] acc = acc := rfl
    simp only [readDigits, Except.ok.injEq, hnil, List.not_mem_nil, false_implies, implies_true,
      true_and]
    constructor
    · rintro rfl
      exact ⟨rfl, hacc⟩
    · exact And.left
  | cons c s ih =>
    have hgrow := le_ofDigitChars s (10 * acc + (c.toNat - '0'.toNat))
    rw [readDigits, Nat.ofDigitChars_cons, Nat.mul_comm acc 10]
    by_cases hc : c.isDigit = true
    · by_cases hnext : 10 * acc + (c.toNat - '0'.toNat) < limit
      · simp only [hc, if_true, hnext, ih hnext, List.forall_mem_cons, true_and]
      · simp only [hc, if_true, hnext, if_false, reduceCtorEq, false_iff]
        rintro ⟨-, rfl, hlt⟩
        omega
    · simp [hc]

theorem readNatural_eq_ok_iff {limit n : Nat} {s : List Char} (hlimit : 0 < limit) :
    readNatural limit s = .ok n ↔ Denotes s n ∧ n < limit := by
  have hdigits : ∀ {digits}, digits ≠ [] →
      (readDigits limit .tooLarge 0 digits = .ok n ↔ Digits digits n ∧ n < limit) := by
    intro digits hne
    rw [readDigits_eq_ok_iff hlimit, Digits]
    simp only [hne, ne_eq, not_false_eq_true, true_and, and_assoc]
  unfold readNatural
  split
  · simp [Denotes, Digits]
  · simp [Denotes, Digits]
  · rename_i digits hne
    rw [hdigits (by rintro rfl; exact hne rfl)]
    simp [Denotes, not_digits_plus]
  · rename_i hne _ hsign
    have hnone : ∀ digits, s ≠ '+' :: digits := fun digits => hsign digits
    rw [hdigits hne]
    simp [Denotes, hnone]

theorem digits_toString (n : Nat) : Digits (toString n).toList n := by
  rw [Nat.toString_eq_repr, Nat.toList_repr]
  refine ⟨Nat.toDigits_ne_nil, ?_, Nat.ofDigitChars_toDigits (by decide) (by decide)⟩
  intro c hc
  exact Nat.isDigit_of_mem_toDigits (by decide) (by decide) hc

theorem isBlank_of_isDigit {c : Char} (h : c.isDigit = true) : isBlank c = false := by
  have hrange : 48 ≤ c.toNat ∧ c.toNat ≤ 57 := by
    simpa [Char.isDigit, UInt32.le_iff_toNat_le] using h
  simp [isBlank, blankRanges]
  omega

theorem dropWhile_eq_self {α : Type} {p : α → Bool} {l : List α} (h : ∀ a ∈ l, p a = false) :
    l.dropWhile p = l := by
  apply List.dropWhile_eq_self_iff.mpr
  intro hl
  exact Bool.eq_false_iff.mp (h _ (List.getElem_mem hl))

theorem trimChars_padded {u t v : List Char} (hu : ∀ c ∈ u, isBlank c = true)
    (ht : ∀ c ∈ t, isBlank c = false) (hv : ∀ c ∈ v, isBlank c = true) :
    trimChars (u ++ t ++ v) = t := by
  have hrest : (t ++ v).dropWhile isBlank = if t.isEmpty then [] else t ++ v := by
    rw [List.dropWhile_append, dropWhile_eq_self ht, List.dropWhile_eq_nil_iff.mpr hv]
  rw [trimChars, List.append_assoc, List.dropWhile_append_of_pos hu, hrest]
  cases t with
  | nil => rfl
  | cons c t =>
    have hback : ∀ a ∈ v.reverse, isBlank a = true := fun a ha => hv a (List.mem_reverse.mp ha)
    have hkept : ∀ a ∈ (c :: t).reverse, isBlank a = false :=
      fun a ha => ht a (List.mem_reverse.mp ha)
    rw [List.isEmpty_cons, if_neg Bool.false_ne_true, List.reverse_append,
      List.dropWhile_append_of_pos hback, dropWhile_eq_self hkept, List.reverse_reverse]

theorem denotes_padded (n : Nat) {u v : String} (hu : ∀ c ∈ u.toList, isBlank c = true)
    (hv : ∀ c ∈ v.toList, isBlank c = true) :
    Denotes (trimChars (u ++ toString n ++ v).toList) n := by
  have hdigits := digits_toString n
  rw [String.toList_append, String.toList_append,
    trimChars_padded hu (fun c hc => isBlank_of_isDigit (hdigits.2.1 c hc)) hv]
  exact .inl hdigits

end SegmentRouting
