import Mathlib.Data.List.Forall2
import SegmentRouting.ReplicaState

/-! The texts that are read as the two states a replica may serve in: the
capital word in any mixture of ASCII letter cases, between any blanks. -/

namespace SegmentRouting

/-- The same character, or the small letter of a capital. -/
def IsCaseOf (capital c : Char) : Prop :=
  c = capital ∨ (capital.isUpper = true ∧ c.toNat = capital.toNat + 32)

def IsCaseVariant (word : String) (text : List Char) : Prop :=
  List.Forall₂ IsCaseOf word.toList text

theorem toNat_toUpper (c : Char) :
    c.toUpper.toNat = if 97 ≤ c.toNat ∧ c.toNat ≤ 122 then c.toNat - 32 else c.toNat := by
  have hlt : c.val.toNat < 4294967296 := c.val.toNat_lt
  unfold Char.toUpper Char.toNat
  split <;> rename_i hc <;> simp [UInt32.le_iff_toNat_le] at hc
  · simp [hc]
    omega
  · simp
    omega

theorem val_between_iff {c lo hi : Char} :
    c.val ≥ lo.val ∧ c.val ≤ hi.val ↔ lo.toNat ≤ c.toNat ∧ c.toNat ≤ hi.toNat := by
  rw [ge_iff_le, UInt32.le_iff_toNat_le, UInt32.le_iff_toNat_le]
  rfl

theorem toUpper_eq_iff {capital c : Char} (h : capital.isLower = false) :
    c.toUpper = capital ↔ IsCaseOf capital c := by
  have hnot : ¬ (97 ≤ capital.toNat ∧ capital.toNat ≤ 122) := by
    intro hb
    have hv : capital.val ≥ 'a'.val ∧ capital.val ≤ 'z'.val := val_between_iff.mpr hb
    have hl : capital.isLower = true :=
      Bool.and_eq_true_iff.mpr ⟨decide_eq_true hv.1, decide_eq_true hv.2⟩
    rw [h] at hl
    contradiction
  have hup : capital.isUpper = true ↔ 65 ≤ capital.toNat ∧ capital.toNat ≤ 90 :=
    decide_eq_true_iff.trans val_between_iff
  rw [IsCaseOf, hup, ← Char.toNat_inj, ← Char.toNat_inj, toNat_toUpper]
  split <;> omega

theorem map_toUpper_eq_iff {word text : List Char} (h : word.all (fun c => !c.isLower) = true) :
    text.map Char.toUpper = word ↔ List.Forall₂ IsCaseOf word text := by
  induction word generalizing text with
  | nil => simp
  | cons capital word ih =>
    have hh : capital.isLower = false ∧ word.all (fun c => !c.isLower) = true := by simpa using h
    cases text with
    | nil => simp
    | cons c text =>
      rw [List.map_cons, List.cons_eq_cons, List.forall₂_cons, toUpper_eq_iff hh.1, ih hh.2]

namespace ReplicaState

/-- The text that is looked at for a state: no blanks around it, and capitals only. -/
theorem capitals_eq_iff {s word : String} (h : word.toList.all (fun c => !c.isLower) = true) :
    String.ofList ((trimChars s.toList).map Char.toUpper) = word ↔
      IsCaseVariant word (trimChars s.toList) := by
  rw [IsCaseVariant, ← map_toUpper_eq_iff h]
  constructor
  · rintro rfl
    exact String.toList_ofList.symm
  · intro he
    rw [he, String.ofList_toList]

theorem ofString_eq_online_iff {s : String} :
    ofString s = online ↔ IsCaseVariant "ONLINE" (trimChars s.toList) := by
  rw [← capitals_eq_iff (by decide), ofString]
  split <;> simp_all

theorem ofString_eq_consuming_iff {s : String} :
    ofString s = consuming ↔ IsCaseVariant "CONSUMING" (trimChars s.toList) := by
  rw [← capitals_eq_iff (by decide), ofString]
  split <;> simp_all

end ReplicaState

end SegmentRouting
