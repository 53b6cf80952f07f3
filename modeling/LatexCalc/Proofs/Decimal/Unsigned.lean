import Mathlib
import LatexCalc.Decimal.Read
import LatexCalc.Proofs.Token.Spelling

/-!
# Numbers without a sign

The digits of a numeral are read as a number, whatever their count (`readFloat?_numeral`), and the
number has no minus sign: it is a finite double, zero included, whose sign bit is clear, or the
positive infinity where the digits are out of range (`IsUnsigned`).
-/

namespace LatexCalc

open Float.Model (Format UnpackedFloat)
open Float.Model.UnpackedFloat

/-! ## Doubles by their parts -/

/-- The parts of a number whose sign bit is clear. -/
def UnsignedParts : UnpackedFloat → Prop
  | .notANumber => False
  | .infinity s | .zero s | .finite s _ _ _ => s = .positive

/-- A number whose sign bit is clear, perhaps infinite. -/
def IsUnsigned (x : Float) : Prop :=
  UnsignedParts x.toModel.unpack

theorem unpackSign_packComponents {spec : Format} (s : Sign) (e : BitVec spec.exponentBits)
    (m : BitVec spec.mantissaBitsWithoutImplicit) :
    unpackSign (packComponents spec s e m) = s.toBitVec := by
  ext i hi
  have hi0 : i = 0 := by omega
  subst hi0
  simp [unpackSign, packComponents, BitVec.getLsbD_append, BitVec.getElem_append]

/-- Components with a clear sign bit are those of a number, unless they are those of none. -/
theorem unsignedParts_packComponents {e : BitVec 11} {m : BitVec 52} (h : e = -1#11 → m = 0#52) :
    UnsignedParts (unpack .binary64 (packComponents .binary64 .positive e m)) := by
  have hs : Sign.ofBitVec Sign.positive.toBitVec = .positive := rfl
  unfold unpack
  simp only [unpackSign_packComponents, unpackExponent_packComponents,
    unpackMantissa_packComponents, hs]
  split
  · next he => simp [h he, UnsignedParts]
  · split
    · split <;> rfl
    · rfl

/-- What is packed without a sign has none. -/
theorem isUnsigned_pack {u : UnpackedFloat} (h : UnsignedParts u) :
    IsUnsigned (.ofModel (.pack u)) := by
  show UnsignedParts (unpack .binary64 (pack .binary64 u))
  cases u with
  | notANumber => exact h.elim
  | infinity s =>
    cases h
    exact unsignedParts_packComponents fun _ => rfl
  | zero s =>
    cases h
    exact unsignedParts_packComponents fun _ => rfl
  | finite s m e hm =>
    cases h
    unfold pack
    simp only
    split
    · exact unsignedParts_packComponents fun _ => rfl
    · next hb =>
      have hne : BitVec.ofNat 11 (e + Format.binary64.exponentBias +
          Format.binary64.mantissaBitsWithoutImplicit).toNat ≠ -1#11 := by
        intro heq
        have hnat := congrArg BitVec.toNat heq
        simp only [BitVec.toNat_ofNat] at hnat
        have hmod : (-1#11).toNat = 2047 := by decide
        omega
      split
      · exact unsignedParts_packComponents fun he => absurd he hne
      · exact unsignedParts_packComponents fun he => absurd he (by decide)

/-! ## Arithmetic -/

theorem unsignedParts_round (m : Nat) (e : Int) (acc : Accuracy) :
    UnsignedParts (roundWithAccuracy .binary64 .positive m e acc) := by
  unfold roundWithAccuracy
  simp only
  split <;> rfl

theorem unsignedParts_ofNat (n : Nat) : UnsignedParts (UnpackedFloat.ofNat .binary64 n) := by
  unfold UnpackedFloat.ofNat UnpackedFloat.ofInt UnpackedFloat.normalize
  cases n with
  | zero => rfl
  | succ n => exact unsignedParts_round _ _ _

/-- Whether a number is finite, positive and not zero. -/
def isPositive : UnpackedFloat → Bool
  | .finite .positive _ _ _ => true
  | _ => false

/-- Products with positive numbers and quotients by them have no sign if the other number has none. -/
theorem unsignedParts_mul_div {u v : UnpackedFloat} (hu : UnsignedParts u)
    (hv : isPositive v = true) :
    UnsignedParts (mul .binary64 u v) ∧ UnsignedParts (div .binary64 u v) := by
  obtain ⟨m, e, hm, rfl⟩ : ∃ m e hm, v = .finite .positive m e hm := by
    unfold isPositive at hv
    split at hv
    · exact ⟨_, _, _, rfl⟩
    · cases hv
  cases u with
  | notANumber => exact hu.elim
  | infinity s =>
    cases hu
    exact ⟨rfl, rfl⟩
  | zero s =>
    cases hu
    exact ⟨rfl, rfl⟩
  | finite s m' e' hm' =>
    cases hu
    exact ⟨unsignedParts_round _ _ _, unsignedParts_round _ _ _⟩

theorem unsignedParts_ofScientific (m : Nat) (e : Int) :
    UnsignedParts (UnpackedFloat.ofScientific .binary64 m e) := by
  unfold UnpackedFloat.ofScientific
  split
  · rfl
  · split
    · rfl
    · split
      · rfl
      · split
        · exact unsignedParts_round _ _ _
        · exact unsignedParts_round _ _ _

/-- The powers of ten that doubles hold are positive. -/
theorem isPositive_powerOfTen : ∀ i : Fin 23,
    isPositive (Float.exactlyRepresentablePowersOfTen[i]).toModel.unpack = true := by
  decide +kernel

/-- **What digits are read as has no sign.** -/
theorem isUnsigned_ofScientific (m : Nat) (s : Bool) (e : Nat) :
    IsUnsigned (Float.ofScientific m s e) := by
  unfold Float.ofScientific
  split
  · next h =>
    have hm : IsUnsigned m.toUInt64.toFloat := isUnsigned_pack (unsignedParts_ofNat _)
    have hmd := unsignedParts_mul_div hm (isPositive_powerOfTen ⟨e, by omega⟩)
    split
    · exact isUnsigned_pack hmd.2
    · exact isUnsigned_pack hmd.1
  · exact isUnsigned_pack (unsignedParts_ofScientific _ _)

/-! ## Numerals -/

theorem toLower_of_isDigit {c : Char} (h : c.isDigit = true) : c.toLower = c := by
  simp only [Char.isDigit, Bool.and_eq_true, decide_eq_true_eq] at h
  unfold Char.toLower
  rw [dif_neg]
  intro hc
  have h₁ := h.2
  have h₂ := hc.1
  simp only [ge_iff_le, UInt32.le_iff_toNat_le] at h₁ h₂
  simp at h₁ h₂
  omega

theorem splitSign_of_isDigit {c : Char} {cs : List Char} (hc : c.isDigit = true) :
    splitSign (c :: cs) = (false, c :: cs) := by
  unfold splitSign
  split
  · simp_all
  · simp_all
  · rfl

/-- A text that starts with a digit, perhaps behind a sign, is read as a decimal. -/
theorem ofText?_of_splitSign {s : String} {negative : Bool} {c : Char} {cs : List Char}
    (hs : splitSign s.toList = (negative, c :: cs)) (hc : c.isDigit = true) :
    Numeral.ofText? s = (Decimal.ofChars? (c :: cs)).map (.decimal negative) := by
  have hname (name : String) (hstart : name.toList.head?.all fun d => !d.isDigit) :
      String.ofList ((c :: cs).map Char.toLower) ≠ name := by
    rintro rfl
    simp [toLower_of_isDigit hc, hc] at hstart
  unfold Numeral.ofText?
  simp only [hs]
  rw [if_neg (hname _ (by decide)), if_neg]
  rintro (h | h)
  · exact hname _ (by decide) h
  · exact hname _ (by decide) h

/-- A text that starts with a digit is read as a decimal. -/
theorem ofText?_of_isDigit {c : Char} {cs : List Char} (hc : c.isDigit = true) :
    Numeral.ofText? (String.ofList (c :: cs)) =
      (Decimal.ofChars? (c :: cs)).map (.decimal false) :=
  ofText?_of_splitSign (by rw [String.toList_ofList, splitSign_of_isDigit hc]) hc

/-- The decimal that digits around a point, or without one, are. -/
theorem ofChars?_numeral {cs : List Char} (h : IsNumeral cs) : ∃ d, Decimal.ofChars? cs = some d := by
  obtain ⟨whole, rest, hw, rfl, hr⟩ : ∃ whole rest, IsDigits whole ∧ cs = whole ++ rest ∧
      (rest = [] ∨ ∃ fraction, IsDigits fraction ∧ rest = '.' :: fraction) := by
    rcases h with h | ⟨whole, fraction, hw, hf, rfl⟩
    · exact ⟨cs, [], h, by simp, .inl rfl⟩
    · exact ⟨whole, _, hw, rfl, .inr ⟨fraction, hf, rfl⟩⟩
  unfold Decimal.ofChars?
  simp only [List.takeWhile_append_of_pos hw.2, List.dropWhile_append_of_pos hw.2]
  rcases hr with rfl | ⟨fraction, hf, rfl⟩
  · simp [hw.1, exponent?]
  · have hend : ∀ c ∈ ([] : List Char).head?, c.isDigit = false := by simp
    obtain ⟨htake, hdrop⟩ := take_drop_while_append hf.2 hend
    rw [List.append_nil] at htake hdrop
    simp [Char.isDigit, htake, hdrop, hw.1, exponent?]

/-- **The digits of a numeral are read as a number without a sign.** -/
theorem readFloat?_numeral {cs : List Char} (h : IsNumeral cs) :
    ∃ x, readFloat? (String.ofList cs) = some x ∧ IsUnsigned x := by
  obtain ⟨c, cs', rfl, hc⟩ : ∃ c cs', cs = c :: cs' ∧ c.isDigit = true := by
    rcases h with ⟨hne, hall⟩ | ⟨whole, fraction, ⟨hne, hall⟩, -, rfl⟩
    · obtain ⟨c, cs', rfl⟩ := List.exists_cons_of_ne_nil hne
      exact ⟨c, cs', rfl, hall c (List.mem_cons_self)⟩
    · obtain ⟨c, cs', rfl⟩ := List.exists_cons_of_ne_nil hne
      exact ⟨c, _, List.cons_append, hall c (List.mem_cons_self)⟩
  obtain ⟨d, hd⟩ := ofChars?_numeral h
  refine ⟨d.toFloat, ?_, isUnsigned_ofScientific _ _ _⟩
  rw [readFloat?, ofText?_of_isDigit hc, hd]
  rfl

end LatexCalc
