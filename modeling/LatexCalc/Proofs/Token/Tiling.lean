import Mathlib
import LatexCalc.Proofs.Token.Items
import LatexCalc.Proofs.Token.Spelling

/-!
# Items tile the line

The items of a line stand in it one after the other, each where its offset says and with the
characters that it names, and what is between them is blank or a sizing command (`Tiles`). No token
could have been longer (`Token.IsMaximal`). All of this is a matter of single pieces (`isWhole_first`),
each put in front of the tiling of what follows it (`Tiles.piece`).
-/

namespace LatexCalc

/-! ## Bytes -/

/-- The bytes that characters occupy. -/
def byteSize (cs : List Char) : Nat :=
  (String.ofList cs).utf8ByteSize

@[simp] theorem byteSize_nil : byteSize [] = 0 := rfl

@[simp] theorem byteSize_append (cs ds : List Char) :
    byteSize (cs ++ ds) = byteSize cs + byteSize ds := by
  simp [byteSize, String.utf8ByteSize_append]

@[simp] theorem byteSize_singleton (c : Char) : byteSize [c] = c.utf8Size := by
  simp [byteSize]

theorem byteSize_pos {cs : List Char} (h : cs ≠ []) : 0 < byteSize cs := by
  refine Nat.pos_of_ne_zero fun h0 => h ?_
  simpa [byteSize] using h0

theorem Piece.size_eq (p : Piece) : p.size = byteSize p.text := rfl

/-! ## Where items stand -/

/-- Whether a token or a command may start with a character. -/
def startsToken (c : Char) : Bool :=
  c = '\\' || c.isAlpha || c.isDigit || (symbolKind? c).isSome

namespace Item

/-- The byte at which an item starts. -/
def offset : Item → Nat
  | .ok t => t.offset
  | .error e => e.offset

/-- The characters of an item. -/
def chars : Item → List Char
  | .ok t => t.text.toList
  | .error e => [e.char]

/-- The byte after an item. -/
def stop (i : Item) : Nat :=
  i.offset + byteSize i.chars

end Item

/-- A token could not go on in front of `rest`: no letter follows a name or a command, no digit a
number, and no point with a digit a number without a point. -/
structure Token.IsMaximal (t : Token) (rest : List Char) : Prop where
  letters : t.kind = .identifier ∨ t.text.toList.head? = some '\\' →
    ∀ c ∈ rest.head?, c.isAlpha = false
  digits : t.kind = .number → ∀ c ∈ rest.head?, c.isDigit = false
  fraction : t.kind = .number → '.' ∉ t.text.toList →
    ∀ d cs, rest = '.' :: d :: cs → d.isDigit = false

/-- An item is all that stands there in front of `rest`: a token that could not go on, or a character
that fits nowhere. -/
def Item.IsWhole : Item → List Char → Prop
  | .ok t, rest => t.IsSpelled ∧ t.IsMaximal rest
  | .error e, _ => startsToken e.char = false ∧ isBlank e.char = false

/-- Characters that count for nothing in front of `rest`: a blank, or a sizing command. -/
def IsSkipped (chars rest : List Char) : Prop :=
  (∃ c, chars = [c] ∧ isBlank c = true) ∨
    ∃ name, chars = '\\' :: name ∧ String.ofList name ∈ sizingCommands ∧
      ∀ c ∈ rest.head?, c.isAlpha = false

/-- Among the characters `cs`, the first of which is at byte `base`, stand the characters `chars` at
byte `offset`, and `rest` follows them. -/
def StandsAt (base : Nat) (cs : List Char) (offset : Nat) (chars rest : List Char) : Prop :=
  ∃ before, cs = before ++ (chars ++ rest) ∧ offset = base + byteSize before

/-- The items `is` tile the characters `cs`, the first of which is at byte `base`. -/
structure Tiles (base : Nat) (cs : List Char) (is : List Item) : Prop where
  /-- No item is empty. -/
  proper : ∀ i ∈ is, i.offset < i.stop
  /-- Items come one after the other. -/
  ordered : is.Pairwise fun i j => i.stop ≤ j.offset
  /-- Items stand where they say. -/
  located : ∀ i ∈ is, ∃ rest, StandsAt base cs i.offset i.chars rest ∧ i.IsWhole rest
  /-- What is in no item counts for nothing. -/
  covered : ∀ k, base ≤ k → k < base + byteSize cs → (∀ i ∈ is, ¬(i.offset ≤ k ∧ k < i.stop)) →
    ∃ o chars rest, StandsAt base cs o chars rest ∧ IsSkipped chars rest ∧
      o ≤ k ∧ k < o + byteSize chars

/-! ## Single pieces -/

/-- A piece is all that stands there in front of `rest`. -/
def Piece.IsWhole : Piece → List Char → Prop
  | skipped chars, rest => IsSkipped chars rest
  | token kind chars, rest => ∀ o, Token.IsMaximal ⟨kind, String.ofList chars, o⟩ rest
  | stray c, _ => startsToken c = false ∧ isBlank c = false

theorem head?_dropWhile {p : Char → Bool} {cs : List Char} :
    ∀ c ∈ (cs.dropWhile p).head?, p c = false := by
  intro c hc
  have h := List.head?_dropWhile_not p cs
  rw [hc] at h
  exact h

/-- A number goes on to the last digit, and over a point to the digits after it. -/
theorem number_maximal (cs : List Char) :
    (∀ c ∈ (Piece.number cs).2.head?, c.isDigit = false) ∧
      ('.' ∉ (Piece.number cs).1 →
        ∀ d ds, (Piece.number cs).2 = '.' :: d :: ds → d.isDigit = false) := by
  unfold Piece.number
  split
  · next d ds h =>
    split
    · exact ⟨head?_dropWhile, fun hpoint => absurd (by simp) hpoint⟩
    · next hd =>
      refine ⟨h ▸ head?_dropWhile, fun _ d' ds' heq => ?_⟩
      cases heq
      simpa using hd
  · next hno => exact ⟨head?_dropWhile, fun _ d ds heq => (hno d ds heq).elim⟩

theorem kind_of_symbolKind {c : Char} {kind : TokenKind} (h : symbolKind? c = some kind) :
    kind ≠ .identifier ∧ kind ≠ .number := by
  unfold symbolKind? at h
  split at h <;> cases h <;> decide

theorem isWhole_command (cs : List Char) :
    (Piece.command (cs.takeWhile Char.isAlpha)).IsWhole (cs.dropWhile Char.isAlpha) := by
  unfold Piece.command
  split
  · next hs => exact .inr ⟨_, rfl, hs, head?_dropWhile⟩
  · split
    · exact fun o => ⟨fun _ => head?_dropWhile, nofun, nofun⟩
    · exact fun o => ⟨fun _ => head?_dropWhile, nofun, nofun⟩

/-- **The first piece of a line** is all that stands there. -/
theorem isWhole_first (c : Char) (cs : List Char) :
    (Piece.first c cs).1.IsWhole (Piece.first c cs).2 := by
  unfold Piece.first
  split
  · exact isWhole_command cs
  · next hslash =>
    split
    · exact fun o => ⟨fun _ => head?_dropWhile, nofun, nofun⟩
    · next halpha =>
      split
      · obtain ⟨hdigits, hfraction⟩ := number_maximal cs
        refine fun o => ⟨fun h => ?_, fun _ => hdigits, fun _ hpoint => hfraction ?_⟩
        · rcases h with h | h
          · cases h
          · exact absurd (by simpa using h) hslash
        · exact fun hmem => hpoint (by simp [hmem])
      · next hdigit =>
        split
        · next kind hk =>
          obtain ⟨hi, hn⟩ := kind_of_symbolKind hk
          refine fun o => ⟨fun h => ?_, fun h => absurd h hn, fun h => absurd h hn⟩
          rcases h with h | h
          · exact absurd h hi
          · exact absurd (by simpa using h) hslash
        · next hk =>
          split
          · next hblank => exact .inl ⟨c, rfl, hblank⟩
          · next hblank =>
            exact ⟨by simp [startsToken, hslash, halpha, hdigit, hk], Bool.not_eq_true _ ▸ hblank⟩

/-! ## Tiling -/

section

variable {base : Nat} {cs : List Char} {is : List Item} {p : Piece}

theorem StandsAt.head {chars rest : List Char} :
    StandsAt base (chars ++ rest) base chars rest :=
  ⟨[], rfl, rfl⟩

/-- What stands after some characters stands in the whole of them. -/
theorem StandsAt.append {front chars rest : List Char} {o : Nat}
    (h : StandsAt (base + byteSize front) cs o chars rest) :
    StandsAt base (front ++ cs) o chars rest := by
  obtain ⟨before, rfl, rfl⟩ := h
  exact ⟨front ++ before, by simp, by rw [byteSize_append, Nat.add_assoc]⟩

theorem StandsAt.base_le {chars rest : List Char} {o : Nat} (h : StandsAt base cs o chars rest) :
    base ≤ o := by
  obtain ⟨before, -, rfl⟩ := h
  exact Nat.le_add_right _ _

/-- What a piece yields stands where the piece does. -/
theorem place_of_item? {i : Item} (h : p.item? base = some i) :
    i.offset = base ∧ i.chars = p.text ∧ i.stop = base + p.size := by
  cases p <;> cases h <;> simp [Item.offset, Item.chars, Item.stop, Piece.text, Piece.size_eq]

/-- What a piece yields is all that stands there, if the piece is. -/
theorem isWhole_of_item? {i : Item} (h : p.item? base = some i) (hp : p.IsWhole cs)
    (hs : ∀ kind chars, p = .token kind chars → Spelled kind chars) : i.IsWhole cs := by
  cases p with
  | skipped chars => cases h
  | token kind chars =>
    cases h
    exact ⟨by simpa [Token.IsSpelled] using hs kind chars rfl, hp base⟩
  | stray c =>
    cases h
    exact hp

theorem Tiles.base_le {i : Item} (h : Tiles base cs is) (hi : i ∈ is) : base ≤ i.offset := by
  obtain ⟨rest, hstands, -⟩ := h.located i hi
  exact hstands.base_le

/-- **A piece in front of a tiling.** -/
theorem Tiles.piece (hne : p.text ≠ []) (hp : p.IsWhole cs)
    (hs : ∀ kind chars, p = .token kind chars → Spelled kind chars)
    (h : Tiles (base + p.size) cs is) :
    Tiles base (p.text ++ cs) ((p.item? base).toList ++ is) where
  proper i hi := by
    rcases List.mem_append.1 hi with hi | hi
    · obtain ⟨hoffset, -, hstop⟩ := place_of_item? (Option.mem_toList.1 hi)
      have hpos := byteSize_pos hne
      rw [← Piece.size_eq] at hpos
      omega
    · exact h.proper i hi
  ordered := by
    refine List.pairwise_append.2 ⟨?_, h.ordered, fun i hi j hj => ?_⟩
    · cases p.item? base with
      | none => exact .nil
      | some i => exact List.pairwise_singleton _ i
    · obtain ⟨-, -, hstop⟩ := place_of_item? (Option.mem_toList.1 hi)
      rw [hstop]
      exact h.base_le hj
  located i hi := by
    rcases List.mem_append.1 hi with hi | hi
    · have hitem := Option.mem_toList.1 hi
      obtain ⟨hoffset, hchars, -⟩ := place_of_item? hitem
      refine ⟨cs, ?_, isWhole_of_item? hitem hp hs⟩
      rw [hoffset, hchars]
      exact .head
    · obtain ⟨rest, hstands, hwhole⟩ := h.located i hi
      exact ⟨rest, hstands.append, hwhole⟩
  covered k hk hlt hno := by
    simp only [List.mem_append] at hno
    rw [byteSize_append, ← Piece.size_eq] at hlt
    by_cases hkp : k < base + p.size
    · cases hitem : p.item? base with
      | some i =>
        obtain ⟨hoffset, -, hstop⟩ := place_of_item? hitem
        exact absurd ⟨by omega, by omega⟩ (hno i (.inl (Option.mem_toList.2 hitem)))
      | none =>
        cases p with
        | skipped chars => exact ⟨base, chars, cs, .head, hp, hk, hkp⟩
        | token kind chars => cases hitem
        | stray c => cases hitem
    · obtain ⟨o, chars, rest, hstands, hskipped, hle, hlt⟩ :=
        h.covered k (by omega) (by omega) fun i hi => hno i (.inr hi)
      exact ⟨o, chars, rest, hstands.append, hskipped, hle, hlt⟩

theorem tiles_itemsFrom (base : Nat) (cs : List Char) : Tiles base cs (itemsFrom base cs) := by
  induction base, cs using itemsFrom.induct with
  | case1 base =>
    rw [itemsFrom]
    exact ⟨by simp, .nil, by simp, fun k hk hlt _ => absurd hlt (by simpa using hk)⟩
  | case2 base c cs ih =>
    rw [itemsFrom, ← Piece.text_append_first c cs]
    exact ih.piece (Piece.text_ne_nil c cs) (isWhole_first c cs) fun _ _ h => spelled_first h

end

/-- **The items of a line tile it.** -/
theorem drain_tiles (line : String) : Tiles 0 line.toList (Lexer.ofLine line).drain := by
  rw [Lexer.drain_ofLine]
  exact tiles_itemsFrom 0 _

end LatexCalc
