import LatexCalc.Token.Lexer
import LatexCalc.Operator

/-!
# The spelling of tokens

The characters of a token that is cut out of a line tell its kind: digits make numbers, letters make
names, a backslash and letters make commands, and each other token is a symbol (`Spelled`,
`tokenize_spelled`).
-/

namespace LatexCalc

/-- Digits, at least one. -/
def IsDigits (cs : List Char) : Prop :=
  cs ≠ [] ∧ ∀ c ∈ cs, c.isDigit = true

/-- Letters, at least one. -/
def IsWord (cs : List Char) : Prop :=
  cs ≠ [] ∧ ∀ c ∈ cs, c.isAlpha = true

/-- Digits, or digits with a point among them. -/
def IsNumeral (cs : List Char) : Prop :=
  IsDigits cs ∨ ∃ whole fraction, IsDigits whole ∧ IsDigits fraction ∧ cs = whole ++ '.' :: fraction

/-- The name of a command that is a token of its own: letters, perhaps none. -/
def IsCommandName (name : List Char) : Prop :=
  (∀ c ∈ name, c.isAlpha = true) ∧ String.ofList name ∉ sizingCommands ∧
    String.ofList name ∉ productCommands

instance (cs : List Char) : Decidable (IsDigits cs) :=
  decidable_of_iff (cs ≠ [] ∧ cs.all Char.isDigit = true) (by simp [IsDigits])

instance (cs : List Char) : Decidable (IsWord cs) :=
  decidable_of_iff (cs ≠ [] ∧ cs.all Char.isAlpha = true) (by simp [IsWord])

instance (name : List Char) : Decidable (IsCommandName name) :=
  decidable_of_iff (name.all Char.isAlpha = true ∧ String.ofList name ∉ sizingCommands ∧
    String.ofList name ∉ productCommands) (by simp [IsCommandName])

/-- The characters that tokens of a kind consist of. -/
def Spelled : TokenKind → List Char → Prop
  | .number, cs => IsNumeral cs
  | .identifier, cs => IsWord cs
  | .function, cs => ∃ name, IsCommandName name ∧ cs = '\\' :: name
  | .operator, cs => ∃ op, Op.ofText? (String.ofList cs) = some op
  | kind, cs => ∃ c, symbolKind? c = some kind ∧ cs = [c]

/-- A token with the text that its kind asks for. -/
def Token.IsSpelled (t : Token) : Prop :=
  Spelled t.kind t.text.toList

/-! ## Pieces -/

/-- Taking characters and dropping them end where the first one does not satisfy `p`. -/
theorem take_drop_while_append {p : Char → Bool} {cs rest : List Char} (hcs : ∀ c ∈ cs, p c = true)
    (hrest : ∀ c ∈ rest.head?, p c = false) :
    (cs ++ rest).takeWhile p = cs ∧ (cs ++ rest).dropWhile p = rest := by
  rw [List.takeWhile_append_of_pos hcs, List.dropWhile_append_of_pos hcs]
  cases rest with
  | nil => simp
  | cons c rest =>
    have hc : p c = false := hrest c rfl
    simp [hc]

theorem isDigits_cons_takeWhile {c : Char} (hc : c.isDigit = true) (cs : List Char) :
    IsDigits (c :: cs.takeWhile Char.isDigit) := by
  refine ⟨List.cons_ne_nil _ _, fun d hd => ?_⟩
  rcases List.mem_cons.1 hd with rfl | hd
  · exact hc
  · exact List.all_eq_true.1 (List.all_takeWhile) d hd

theorem isNumeral_number {c : Char} (hc : c.isDigit = true) (cs : List Char) :
    IsNumeral (c :: (Piece.number cs).1) := by
  have hwhole := isDigits_cons_takeWhile hc cs
  unfold Piece.number
  split
  · next d ds _ =>
    split
    · next hd =>
      refine .inr ⟨_, _, hwhole, isDigits_cons_takeWhile hd ds, ?_⟩
      simp [hd]
    · exact .inl hwhole
  · exact .inl hwhole

theorem spelled_symbol {c : Char} {kind : TokenKind} (h : symbolKind? c = some kind) :
    Spelled kind [c] := by
  unfold symbolKind? at h
  split at h <;> cases h
  case h_5 | h_6 | h_7 | h_8 | h_9 => exact ⟨_, rfl⟩
  all_goals exact ⟨_, rfl, rfl⟩

theorem spelled_command {kind : TokenKind} {name chars : List Char}
    (hname : ∀ c ∈ name, c.isAlpha = true) (h : Piece.command name = .token kind chars) :
    Spelled kind chars := by
  unfold Piece.command at h
  split at h
  · cases h
  · next hs =>
    split at h <;> cases h
    · next hp =>
      have hop : String.ofList name = "cdot" ∨ String.ofList name = "times" := by
        simpa [productCommands] using hp
      rcases hop with hop | hop
      all_goals
        have hn := congrArg String.toList hop
        rw [String.toList_ofList] at hn
        rw [hn]
        exact ⟨.mul, rfl⟩
    · next hp => exact ⟨name, ⟨hname, hs, hp⟩, rfl⟩

/-- A piece that is a token is spelled like one of its kind. -/
theorem spelled_first {c : Char} {cs chars : List Char} {kind : TokenKind}
    (h : (Piece.first c cs).1 = .token kind chars) : Spelled kind chars := by
  have hletters : ∀ d ∈ cs.takeWhile Char.isAlpha, d.isAlpha = true :=
    List.all_eq_true.1 List.all_takeWhile
  unfold Piece.first at h
  split at h
  · exact spelled_command hletters h
  · split at h
    · next hc =>
      cases h
      refine ⟨List.cons_ne_nil _ _, fun d hd => ?_⟩
      rcases List.mem_cons.1 hd with rfl | hd
      · exact hc
      · exact hletters d hd
    · split at h
      · next hd =>
        cases h
        exact isNumeral_number hd cs
      · split at h
        · next hk =>
          cases h
          exact spelled_symbol hk
        · split at h <;> cases h

/-! ## Lines -/

theorem mem_itemsFrom_spelled {t : Token} (offset : Nat) (cs : List Char)
    (h : .ok t ∈ itemsFrom offset cs) : t.IsSpelled := by
  induction offset, cs using itemsFrom.induct with
  | case1 => simp [itemsFrom] at h
  | case2 offset c cs ih =>
    rw [itemsFrom, List.mem_append] at h
    rcases h with h | h
    · cases hp : (Piece.first c cs).1 with
      | skipped => simp [hp, Piece.item?] at h
      | stray => simp [hp, Piece.item?] at h
      | token kind chars =>
        simp only [hp, Piece.item?, Option.toList_some, List.mem_singleton, Except.ok.injEq] at h
        subst h
        have hs := spelled_first hp
        simpa [Token.IsSpelled] using hs
    · exact ih h

/-- A list of outcomes has a value when all of them have. -/
theorem mapM_id_eq_ok_iff {ε α : Type} (xs : List (Except ε α)) (ys : List α) :
    xs.mapM id = .ok ys ↔ xs = ys.map .ok := by
  induction xs generalizing ys with
  | nil => cases ys <;> simp [pure, Except.pure]
  | cons x xs ih =>
    rw [List.mapM_cons]
    cases x with
    | error e => cases ys <;> simp [bind, Except.bind]
    | ok a =>
      cases ys with
      | nil => cases xs.mapM id <;> simp [bind, Except.bind, pure, Except.pure]
      | cons y ys =>
        rw [List.map_cons, List.cons.injEq, ← ih ys]
        cases xs.mapM id <;> simp [bind, Except.bind, pure, Except.pure]

theorem tokenize_eq_ok_iff {line : String} {ts : List Token} :
    tokenize line = .ok ts ↔ items line = ts.map .ok :=
  mapM_id_eq_ok_iff _ _

/-- **The tokens of a line are spelled as their kinds tell.** -/
theorem tokenize_spelled {line : String} {ts : List Token} (h : tokenize line = .ok ts) :
    ∀ t ∈ ts, t.IsSpelled := by
  intro t ht
  have hmem : (.ok t : Item) ∈ items line := by
    rw [tokenize_eq_ok_iff.1 h]
    exact List.mem_map_of_mem ht
  exact mem_itemsFrom_spelled 0 _ hmem

end LatexCalc
