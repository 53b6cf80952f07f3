import Mathlib.Data.String.Basic

/-!
# Texts as bytes

Texts are compared by their characters. In UTF-8 that is the order of their bytes (`utf8Bytes_lt_iff`): a
character with a greater code has a greater first byte, or the same first byte and a greater one at the
first place where its bytes differ (`BytesPrecede`), so that what follows it does not count.
-/

namespace LatexCalc

/-- The bytes of a text in UTF-8. -/
def utf8Bytes (s : String) : List UInt8 :=
  s.toUTF8.data.toList

theorem utf8Bytes_eq_flatMap (s : String) :
    utf8Bytes s = s.toList.flatMap String.utf8EncodeChar := by
  have h : s.toUTF8 = s.toList.utf8Encode := String.utf8Encode_toList.symm
  rw [utf8Bytes, h, List.utf8Encode, List.data_toByteArray]

/-! ## Characters -/

/-- Whatever follows them, the bytes `bs` come before the bytes `bs'`. -/
def BytesPrecede (bs bs' : List UInt8) : Prop :=
  ∀ rest rest', bs ++ rest < bs' ++ rest'

theorem bytesPrecede_cons {m n : Nat} (h : m < n) (hn : n < 256) (bs bs' : List UInt8) :
    BytesPrecede (.ofNat m :: bs) (.ofNat n :: bs') := by
  intro rest rest'
  have hlt : UInt8.ofNat m < UInt8.ofNat n := by
    rw [UInt8.lt_iff_toNat_lt, UInt8.toNat_ofNat_of_lt' (Nat.lt_trans h hn),
      UInt8.toNat_ofNat_of_lt' hn]
    exact h
  exact List.cons_lt_cons_iff.2 (.inl hlt)

/-- A number in `k + 1` bytes: what is left of it before the last `k` groups of six bits stands in the
first byte, above `mark`, and each group in a byte of its own. -/
def markedBytes (mark : Nat) : (k : Nat) → (v : Nat) → List UInt8
  | 0, v => [.ofNat (mark + v)]
  | k + 1, v => markedBytes mark k (v / 64) ++ [.ofNat (128 + v % 64)]

theorem markedBytes_eq_cons (mark k v : Nat) :
    ∃ bs, markedBytes mark k v = .ofNat (mark + v / 64 ^ k) :: bs := by
  induction k generalizing v with
  | zero => exact ⟨[], by simp [markedBytes]⟩
  | succ k ih =>
    obtain ⟨bs, hbs⟩ := ih (v / 64)
    refine ⟨bs ++ [.ofNat (128 + v % 64)], ?_⟩
    rw [markedBytes, hbs, Nat.div_div_eq_div_mul, ← Nat.pow_succ']
    rfl

/-- With as many bytes, a greater number has the greater ones. -/
theorem bytesPrecede_markedBytes {mark k m n : Nat} (h : m < n) (hn : mark + n / 64 ^ k < 256) :
    BytesPrecede (markedBytes mark k m) (markedBytes mark k n) := by
  induction k generalizing m n with
  | zero => exact bytesPrecede_cons (by omega) (by simpa using hn) [] []
  | succ k ih =>
    intro rest rest'
    rw [markedBytes, markedBytes, List.append_assoc, List.append_assoc]
    rcases Nat.lt_or_ge (m / 64) (n / 64) with hlt | hge
    · exact ih hlt (by rwa [Nat.div_div_eq_div_mul, ← Nat.pow_succ']) _ _
    · have heq : m / 64 = n / 64 := by omega
      rw [heq]
      exact List.append_left_lt (bytesPrecede_cons (by omega) (by omega) [] [] rest rest')

/-- How many bytes follow the first one of a character with the code `v`, and the mark of the first. -/
def utf8Layout (v : Nat) : Nat × Nat :=
  if v ≤ 0x7f then (0, 0) else if v ≤ 0x7ff then (1, 0xc0) else if v ≤ 0xffff then (2, 0xe0)
  else (3, 0xf0)

/-- The first byte of a character with the code `v`. -/
def utf8First (v : Nat) : Nat :=
  (utf8Layout v).2 + v / 64 ^ (utf8Layout v).1

theorem utf8First_lt {v : Nat} (h : v < 0x110000) : utf8First v < 256 := by
  unfold utf8First utf8Layout
  split_ifs <;> simp only <;> omega

/-- A greater code has the greater first byte, or as many bytes under the same mark. -/
theorem utf8Layout_eq_or_lt {m n : Nat} (h : m < n) (hm : m < 0x110000) :
    utf8Layout m = utf8Layout n ∨ utf8First m < utf8First n := by
  unfold utf8First utf8Layout
  split_ifs <;> simp <;> omega

theorem toNat_val_lt (c : Char) : c.val.toNat < 0x110000 := by
  have h := c.valid
  unfold UInt32.isValidChar Nat.isValidChar at h
  omega

theorem utf8EncodeChar_eq_markedBytes (c : Char) : String.utf8EncodeChar c =
    markedBytes (utf8Layout c.val.toNat).2 (utf8Layout c.val.toNat).1 c.val.toNat := by
  have hc := toNat_val_lt c
  unfold String.utf8EncodeChar utf8Layout
  simp only
  generalize c.val.toNat = v at hc
  split_ifs
  · simp [markedBytes]
  · have h₁ : v / 64 % 32 = v / 64 := by omega
    simp [markedBytes, h₁, Nat.add_comm]
  · have h₁ : v / 4096 % 16 = v / 4096 := by omega
    simp [markedBytes, h₁, Nat.add_comm, Nat.div_div_eq_div_mul]
  · have h₁ : v / 262144 % 8 = v / 262144 := by omega
    simp [markedBytes, h₁, Nat.add_comm, Nat.div_div_eq_div_mul]

theorem utf8EncodeChar_eq_cons (c : Char) :
    ∃ bs, String.utf8EncodeChar c = .ofNat (utf8First c.val.toNat) :: bs := by
  rw [utf8EncodeChar_eq_markedBytes]
  exact markedBytes_eq_cons _ _ _

/-- **A greater character has the greater bytes.** -/
theorem bytesPrecede_utf8EncodeChar {c d : Char} (h : c < d) :
    BytesPrecede (String.utf8EncodeChar c) (String.utf8EncodeChar d) := by
  have hlt : c.val.toNat < d.val.toNat := h
  have hd : utf8First d.val.toNat < 256 := utf8First_lt (toNat_val_lt d)
  rcases utf8Layout_eq_or_lt hlt (toNat_val_lt c) with heq | hfirst
  · rw [utf8EncodeChar_eq_markedBytes, utf8EncodeChar_eq_markedBytes, heq]
    exact bytesPrecede_markedBytes hlt hd
  · obtain ⟨bs, hbs⟩ := utf8EncodeChar_eq_cons c
    obtain ⟨bs', hbs'⟩ := utf8EncodeChar_eq_cons d
    rw [hbs, hbs']
    exact bytesPrecede_cons hfirst hd bs bs'

/-! ## Texts -/

theorem flatMap_utf8EncodeChar_lt {cs ds : List Char} (h : cs < ds) :
    cs.flatMap String.utf8EncodeChar < ds.flatMap String.utf8EncodeChar := by
  induction cs generalizing ds with
  | nil =>
    cases ds with
    | nil => exact absurd h (List.lt_irrefl [])
    | cons d ds =>
      obtain ⟨bs, hbs⟩ := utf8EncodeChar_eq_cons d
      rw [List.flatMap_cons, hbs]
      exact List.nil_lt_cons _ _
  | cons c cs ih =>
    cases ds with
    | nil => exact absurd h (List.not_lt_nil _)
    | cons d ds =>
      rw [List.flatMap_cons, List.flatMap_cons]
      rcases List.cons_lt_cons_iff.1 h with hlt | ⟨rfl, hlt⟩
      · exact bytesPrecede_utf8EncodeChar hlt _ _
      · exact List.append_left_lt (ih hlt)

/-- **The order of texts is the order of their bytes.** -/
theorem utf8Bytes_lt_iff (s t : String) : utf8Bytes s < utf8Bytes t ↔ s < t := by
  have hlt {s t : String} (h : s < t) : utf8Bytes s < utf8Bytes t := by
    rw [utf8Bytes_eq_flatMap, utf8Bytes_eq_flatMap]
    exact flatMap_utf8EncodeChar_lt (String.lt_iff_toList_lt.1 h)
  refine ⟨fun h => ?_, hlt⟩
  rcases lt_trichotomy s t with hst | rfl | hts
  · exact hst
  · exact absurd h (List.lt_irrefl _)
  · exact absurd (hlt hts) (List.lt_asymm h)

theorem utf8Bytes_le_iff (s t : String) : utf8Bytes s ≤ utf8Bytes t ↔ s ≤ t := by
  rw [← List.not_lt, utf8Bytes_lt_iff, String.not_lt]

end LatexCalc
