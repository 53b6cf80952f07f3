import LatexCalc.Decimal.Shortest
import LatexCalc.Proofs.Decimal.Unsigned

/-!
# The digits of a number's text

A decimal is written as a numeral, digits with a point among them or none (`Decimal.isNumeral_text`),
and so is a finite number without a sign (`isNumeral_floatText`).
-/

namespace LatexCalc

theorem isDigits_append {cs ds : List Char} (hcs : IsDigits cs) (hds : ∀ c ∈ ds, c.isDigit = true) :
    IsDigits (cs ++ ds) := by
  refine ⟨by simp [hcs.1], fun c hc => ?_⟩
  rcases List.mem_append.1 hc with hc | hc
  · exact hcs.2 c hc
  · exact hds c hc

theorem mem_of_mem_dropTrailingZeros {c : Char} {ds : List Char} (h : c ∈ dropTrailingZeros ds) :
    c ∈ ds := by
  rw [dropTrailingZeros, List.mem_reverse] at h
  have hsub := (List.dropWhile_sublist (l := ds.reverse) fun c => decide (c = '0')).subset h
  exact List.mem_reverse.1 hsub

/-- Digits with a point between them are a numeral, whether the zeros at the end are all or not. -/
theorem isNumeral_pointed {whole fraction : List Char} (hw : IsDigits whole)
    (hf : ∀ c ∈ fraction, c.isDigit = true) : IsNumeral (pointed whole fraction) := by
  unfold pointed
  split
  · exact .inl hw
  · next hne =>
    have hdigits : IsDigits (dropTrailingZeros fraction) :=
      ⟨hne, fun c hc => hf c (mem_of_mem_dropTrailingZeros hc)⟩
    exact .inr ⟨whole, _, hw, hdigits, rfl⟩

namespace Decimal

theorem isDigits_digits (d : Decimal) : IsDigits d.digits :=
  ⟨Nat.toDigits_ne_nil, fun _ hc => Nat.isDigit_of_mem_toDigits (by decide) (by decide) hc⟩

theorem isDigits_parts (d : Decimal) : IsDigits d.parts.1 ∧ ∀ c ∈ d.parts.2, c.isDigit = true := by
  have hzero : '0'.isDigit = true := rfl
  unfold parts
  split
  · refine ⟨isDigits_append d.isDigits_digits fun c hc => ?_, by simp⟩
    rw [(List.mem_replicate.1 hc).2, hzero]
  · -- The digits are padded to one more than there are places, so that some stand before the point.
    have hall : ∀ c ∈ d.digits.leftpad ((-d.exponent).toNat + 1) '0', c.isDigit = true := by
      intro c hc
      rcases List.mem_append.1 hc with hc | hc
      · rw [(List.mem_replicate.1 hc).2, hzero]
      · exact d.isDigits_digits.2 c hc
    have hlen := List.length_leftpad (n := (-d.exponent).toNat + 1) (a := '0') (l := d.digits)
    refine ⟨⟨fun hnil => ?_, fun c hc => hall c (List.mem_of_mem_take hc)⟩,
      fun c hc => hall c (List.mem_of_mem_drop hc)⟩
    have htake := congrArg List.length hnil
    simp only [List.length_take, List.length_nil] at htake
    omega

/-- A decimal is written as a numeral. -/
theorem isNumeral_text (d : Decimal) : IsNumeral d.text.toList := by
  obtain ⟨hw, hf⟩ := d.isDigits_parts
  rw [text, String.toList_ofList]
  exact isNumeral_pointed hw hf

end Decimal

/-- A finite number without a sign is written as a numeral. -/
theorem isNumeral_floatText {x : Float} (hfin : x.isFinite = true) (hx : IsUnsigned x) :
    IsNumeral (floatText x).toList := by
  have hfin' : x.toModel.unpack.isFinite = true := hfin
  unfold IsUnsigned at hx
  unfold floatText
  cases h : x.toModel.unpack with
  | notANumber => rw [h] at hx; exact hx.elim
  | infinity s => rw [h] at hfin'; cases hfin'
  | zero s =>
    rw [h] at hx
    cases hx
    have hzero : (signText .positive ++ "0").toList = ['0'] := by decide
    show IsNumeral (signText .positive ++ "0").toList
    rw [hzero]
    exact .inl (by decide)
  | finite s m q hm =>
    rw [h] at hx
    cases hx
    simpa [signText] using Decimal.isNumeral_text _

end LatexCalc
