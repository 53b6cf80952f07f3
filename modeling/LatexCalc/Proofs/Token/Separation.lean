import LatexCalc.Proofs.Token.Tiling

/-!
# Separators

No piece of a line reaches over a character with which no token starts, the point apart, which numbers
look past (`IsSeparator`). So the items on both sides of a separator are those of the two parts of the
line, the second part being moved (`drain_append`); the separator itself is passed over if it is blank,
and an error if it is not.
-/

namespace LatexCalc

/-- A character with which no token starts and over which no number goes on. -/
def IsSeparator (c : Char) : Prop :=
  startsToken c = false ∧ c ≠ '.'

theorem startsToken_eq_false_iff {c : Char} :
    startsToken c = false ↔
      c ≠ '\\' ∧ c.isAlpha = false ∧ c.isDigit = false ∧ symbolKind? c = none := by
  simp [startsToken, and_assoc]

/-- No token starts with a blank. -/
theorem isSeparator_of_isBlank {c : Char} (h : isBlank c = true) : IsSeparator c := by
  have hne {d : Char} (hd : isBlank d = false) : c ≠ d := by
    rintro rfl
    exact absurd h (by simp [hd])
  have hnat := h
  simp only [isBlank, blankRanges, List.any_cons, List.any_nil, Bool.or_eq_true, Bool.and_eq_true,
    Bool.false_eq_true, decide_eq_true_eq, or_false] at hnat
  refine ⟨startsToken_eq_false_iff.2 ⟨hne (by decide), ?_, ?_, ?_⟩, hne (by decide)⟩
  · rw [Bool.eq_false_iff]
    simp only [Char.isAlpha, Char.isUpper, Char.isLower, ne_eq, Bool.or_eq_true, Bool.and_eq_true,
      decide_eq_true_eq, ge_iff_le, UInt32.le_iff_toNat_le]
    change ¬(65 ≤ c.toNat ∧ c.toNat ≤ 90 ∨ 97 ≤ c.toNat ∧ c.toNat ≤ 122)
    omega
  · rw [Bool.eq_false_iff]
    simp only [Char.isDigit, ne_eq, Bool.and_eq_true, decide_eq_true_eq, ge_iff_le,
      UInt32.le_iff_toNat_le]
    change ¬(48 ≤ c.toNat ∧ c.toNat ≤ 57)
    omega
  · unfold symbolKind?
    split <;> first | rfl | exact absurd h (by decide)

section

variable {c : Char}

theorem takeWhile_append_cons {p : Char → Bool} (hc : p c = false) (cs ds : List Char) :
    (cs ++ c :: ds).takeWhile p = cs.takeWhile p ∧
      (cs ++ c :: ds).dropWhile p = cs.dropWhile p ++ c :: ds := by
  induction cs with
  | nil => simp [hc]
  | cons d cs ih =>
    cases hd : p d with
    | false => simp [hd]
    | true => simpa [hd] using ih

theorem number_of_fraction {cs ds : List Char} {d : Char}
    (h : cs.dropWhile Char.isDigit = '.' :: d :: ds) (hd : d.isDigit = true) :
    Piece.number cs = (cs.takeWhile Char.isDigit ++ '.' :: (d :: ds).takeWhile Char.isDigit,
      (d :: ds).dropWhile Char.isDigit) := by
  unfold Piece.number
  rw [h]
  simp only [hd, if_true]

theorem number_of_not_fraction {cs : List Char}
    (h : ∀ d ds, cs.dropWhile Char.isDigit = '.' :: d :: ds → d.isDigit = false) :
    Piece.number cs = (cs.takeWhile Char.isDigit, cs.dropWhile Char.isDigit) := by
  unfold Piece.number
  split
  · next d ds heq => rw [if_neg (by simp [h d ds heq]), heq]
  · rfl

/-- A number does not reach over a separator. -/
theorem number_append_separator (hc : IsSeparator c) (cs ds : List Char) :
    Piece.number (cs ++ c :: ds) = ((Piece.number cs).1, (Piece.number cs).2 ++ c :: ds) := by
  obtain ⟨-, -, hdigit, -⟩ := startsToken_eq_false_iff.1 hc.1
  obtain ⟨ht, hd⟩ := takeWhile_append_cons hdigit cs ds
  by_cases h : ∃ e es, cs.dropWhile Char.isDigit = '.' :: e :: es ∧ e.isDigit = true
  · obtain ⟨e, es, heq, he⟩ := h
    rw [heq] at hd
    obtain ⟨ht', hd'⟩ := takeWhile_append_cons hdigit (e :: es) ds
    rw [number_of_fraction heq he, number_of_fraction hd he, ht, ← ht', ← hd']
    rfl
  · have hno : ∀ e es, cs.dropWhile Char.isDigit = '.' :: e :: es → e.isDigit = false :=
      fun e es heq => Bool.eq_false_iff.2 fun he => h ⟨e, es, heq, he⟩
    rw [number_of_not_fraction hno, number_of_not_fraction, ht, hd]
    -- The point before the separator may be the last character of `cs`.
    intro e es heq
    rw [hd] at heq
    rcases hr : cs.dropWhile Char.isDigit with _ | ⟨x, _ | ⟨y, r⟩⟩
    · rw [hr] at heq
      exact absurd (List.cons.inj heq).1 hc.2
    · rw [hr] at heq
      obtain ⟨-, heq⟩ := List.cons.inj heq
      exact (List.cons.inj heq).1 ▸ hdigit
    · rw [hr] at heq
      obtain ⟨hx, heq⟩ := List.cons.inj heq
      obtain ⟨rfl, -⟩ := List.cons.inj heq
      exact hno y r (hx ▸ hr)

/-- **No piece reaches over a separator.** -/
theorem first_append_separator (hc : IsSeparator c) (d : Char) (cs ds : List Char) :
    Piece.first d (cs ++ c :: ds) = ((Piece.first d cs).1, (Piece.first d cs).2 ++ c :: ds) := by
  obtain ⟨-, halpha, -, -⟩ := startsToken_eq_false_iff.1 hc.1
  obtain ⟨ht, hd⟩ := takeWhile_append_cons halpha cs ds
  unfold Piece.first
  rw [ht, hd, number_append_separator hc]
  split
  · rfl
  · split
    · rfl
    · split
      · rfl
      · split
        · rfl
        · split <;> rfl

/-! ## Lines -/

theorem itemsFrom_append_separator (hc : IsSeparator c) (o : Nat) (cs ds : List Char) :
    itemsFrom o (cs ++ c :: ds) = itemsFrom o cs ++ itemsFrom (o + byteSize cs) (c :: ds) := by
  induction o, cs using itemsFrom.induct with
  | case1 o => rw [itemsFrom, List.nil_append, List.nil_append, byteSize_nil, Nat.add_zero]
  | case2 o d cs ih =>
    have hsize : byteSize (d :: cs) = (Piece.first d cs).1.size + byteSize (Piece.first d cs).2 := by
      rw [← Piece.text_append_first d cs, byteSize_append, Piece.size_eq]
    rw [List.cons_append, itemsFrom, first_append_separator hc, ih, itemsFrom.eq_2 o d cs,
      List.append_assoc, hsize, Nat.add_assoc]

/-- A separator is passed over if it is blank, and fits nowhere if it is not. -/
theorem itemsFrom_separator (hc : IsSeparator c) (o : Nat) (ds : List Char) :
    itemsFrom o (c :: ds) =
      (if isBlank c then [] else [.error ⟨c, o⟩]) ++ itemsFrom (o + c.utf8Size) ds := by
  obtain ⟨hslash, halpha, hdigit, hsymbol⟩ := startsToken_eq_false_iff.1 hc.1
  rw [itemsFrom, Piece.first, if_neg hslash, halpha, hdigit, hsymbol]
  cases isBlank c <;> simp [Piece.item?, Piece.size_eq, Piece.text]

namespace Item

/-- The same item, `k` bytes further on. -/
def moved (k : Nat) : Item → Item
  | .ok t => .ok { t with offset := t.offset + k }
  | .error e => .error { e with offset := e.offset + k }

end Item

theorem itemsFrom_add (o k : Nat) (cs : List Char) :
    itemsFrom (o + k) cs = (itemsFrom o cs).map (Item.moved k) := by
  induction o, cs using itemsFrom.induct with
  | case1 o => simp [itemsFrom]
  | case2 o d cs ih =>
    rw [itemsFrom, itemsFrom.eq_2 o d cs, List.map_append, ← ih, Nat.add_right_comm]
    cases (Piece.first d cs).1 <;> rfl

/-- A line has tokens only where it has no error. -/
theorem exists_tokenize_iff {line : String} :
    (∃ ts, tokenize line = .ok ts) ↔ ∀ i ∈ items line, ∃ t, i = .ok t := by
  have hrange := Set.ext_iff.1 (Set.range_list_map (Except.ok : Token → Item)) (items line)
  calc (∃ ts, tokenize line = .ok ts)
    _ ↔ ∃ ts, List.map .ok ts = items line :=
      exists_congr fun ts => tokenize_eq_ok_iff.trans eq_comm
    _ ↔ ∀ i ∈ items line, ∃ t, .ok t = i := hrange
    _ ↔ ∀ i ∈ items line, ∃ t, i = .ok t := by simp only [eq_comm]

/-- An item that was moved is a token if it was one. -/
theorem exists_moved_eq_ok {k : Nat} {i : Item} : (∃ t, i.moved k = .ok t) ↔ ∃ t, i = .ok t := by
  cases i <;> simp [Item.moved]

end

/-- **Lexing is compositional.** The items of a line with a separator in it are those of the part
before it, an error for the separator unless it is blank, and those of the part after it, moved to
their place. With a blank as separator, a line has tokens exactly if both parts have. -/
theorem drain_append {c : Char} (hc : isBlank c = true ∨ startsToken c = false ∧ c ≠ '.')
    (a b : String) :
    let before := a ++ String.singleton c
    (Lexer.ofLine (before ++ b)).drain =
        (Lexer.ofLine a).drain ++ (if isBlank c then [] else [.error ⟨c, a.utf8ByteSize⟩]) ++
          (Lexer.ofLine b).drain.map (Item.moved before.utf8ByteSize) ∧
      (isBlank c = true → ((∃ ts, tokenize (before ++ b) = .ok ts) ↔
        (∃ ts, tokenize a = .ok ts) ∧ ∃ ts, tokenize b = .ok ts)) := by
  intro before
  have hsep : IsSeparator c := hc.elim isSeparator_of_isBlank id
  have hitems : items (before ++ b) = items a ++
      (if isBlank c then [] else [.error ⟨c, a.utf8ByteSize⟩]) ++
        (items b).map (Item.moved before.utf8ByteSize) := by
    have hchars : (before ++ b).toList = a.toList ++ c :: b.toList := by simp [before]
    have ha : 0 + byteSize a.toList = a.utf8ByteSize := by simp [byteSize]
    have hbefore : a.utf8ByteSize + c.utf8Size = 0 + before.utf8ByteSize := by simp [before]
    unfold items
    rw [hchars, itemsFrom_append_separator hsep, itemsFrom_separator hsep, ha, hbefore, itemsFrom_add,
      List.append_assoc]
  simp only [Lexer.drain_ofLine]
  refine ⟨hitems, fun hblank => ?_⟩
  rw [exists_tokenize_iff, exists_tokenize_iff, exists_tokenize_iff, hitems, if_pos hblank]
  simp only [List.append_nil, List.forall_mem_append, List.forall_mem_map, exists_moved_eq_ok]

/-- A point is at the end of the part before the separator, and the separator is an error. -/
theorem drain_append_number_sign :
    (isBlank '#' = true ∨ startsToken '#' = false ∧ '#' ≠ '.') ∧
      (Lexer.ofLine "1.#x").drain =
        [.ok ⟨.number, "1", 0⟩, .error ⟨'.', 1⟩, .error ⟨'#', 2⟩, .ok ⟨.identifier, "x", 3⟩] := by
  have hc : isBlank '#' = true ∨ startsToken '#' = false ∧ '#' ≠ '.' := by decide
  refine ⟨hc, (drain_append hc "1." "x").1.trans ?_⟩
  rw [Lexer.drain_ofLine, Lexer.drain_ofLine]
  cbv

end LatexCalc
