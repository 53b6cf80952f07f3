import LatexCalc.Proofs.Token.Cutting
import LatexCalc.Proofs.Token.Separation

/-!
# Parts of a line

A piece is cut out wherever it is all that stands there (`first_of_isWhole`), and it still is where the
line ends earlier. So the part of a line in front of a token has the tokens that come before this one
(`exists_before`). Behind a part of a line, tokens that are written down with blanks in front of them are
cut out again (`tokenize_append_spaced`).
-/

namespace LatexCalc

/-! ## Pieces that are all that stands there -/

section

variable {c : Char} {cs rest : List Char}

/-- The spellings of an operator: a sign, or a command. -/
theorem spelled_operator (h : Spelled .operator cs) :
    (∃ c, symbolKind? c = some .operator ∧ cs = [c]) ∨
      ∃ name, String.ofList name ∈ productCommands ∧ cs = '\\' :: name := by
  obtain ⟨op, hop⟩ := h
  unfold Op.ofText? at hop
  have hchars {s : String} (hs : String.ofList cs = s) : cs = s.toList := by
    rw [← hs, String.toList_ofList]
  split at hop
  · next hs => exact .inl ⟨'+', rfl, hchars hs⟩
  split at hop
  · next hs => exact .inl ⟨'-', rfl, hchars hs⟩
  split at hop
  · next hs =>
    rcases hs with hs | hs | hs
    · exact .inl ⟨'*', rfl, hchars hs⟩
    · exact .inr ⟨['c', 'd', 'o', 't'], by decide, hchars hs⟩
    · exact .inr ⟨['t', 'i', 'm', 'e', 's'], by decide, hchars hs⟩
  split at hop
  · next hs => exact .inl ⟨'/', rfl, hchars hs⟩
  split at hop
  · next hs => exact .inl ⟨'^', rfl, hchars hs⟩
  · cases hop

/-- No token is empty. -/
theorem Token.IsSpelled.ne_nil {t : Token} (hs : t.IsSpelled) : t.text.toList ≠ [] := by
  unfold Token.IsSpelled at hs
  cases hk : t.kind with
  | number =>
    rw [hk] at hs
    rcases hs with hs | ⟨whole, fraction, -, -, heq⟩
    · exact hs.1
    · simp [heq]
  | identifier =>
    rw [hk] at hs
    exact hs.1
  | operator =>
    rw [hk] at hs
    rcases spelled_operator hs with ⟨c, -, heq⟩ | ⟨name, -, heq⟩ <;> simp [heq]
  | _ =>
    rw [hk] at hs
    obtain ⟨_, _, heq⟩ := hs
    simp [heq]

/-- Commands with a meaning for the lexer consist of letters. -/
theorem isAlpha_of_mem_commands
    (h : String.ofList cs ∈ sizingCommands ∨ String.ofList cs ∈ productCommands) :
    ∀ d ∈ cs, d.isAlpha = true := by
  have hletters : ∀ s ∈ sizingCommands ++ productCommands, s.toList.all Char.isAlpha = true := by decide
  simpa using hletters _ (List.mem_append.2 h)

/-- A token is cut out where it could not go on. -/
theorem first_of_isMaximal {t : Token} (hs : t.IsSpelled) (hm : t.IsMaximal rest)
    (ht : t.text.toList = c :: cs) : Piece.first c (cs ++ rest) = (.token t.kind (c :: cs), rest) := by
  obtain ⟨hletters, hdigits, hfraction⟩ := hm
  rw [ht] at hletters hfraction
  rw [Token.IsSpelled, ht] at hs
  cases hk : t.kind with
  | number =>
    rw [hk] at hs
    exact first_numeral hs (hdigits hk) (hfraction hk)
  | identifier =>
    rw [hk] at hs
    exact first_word hs (hletters (.inl hk))
  | function =>
    rw [hk] at hs
    obtain ⟨name, hname, heq⟩ := hs
    obtain ⟨rfl, rfl⟩ := List.cons.inj heq
    exact first_command hname (hletters (.inr rfl))
  | operator =>
    rw [hk] at hs
    rcases spelled_operator hs with ⟨d, hd, heq⟩ | ⟨name, hname, heq⟩
    · obtain ⟨rfl, rfl⟩ := List.cons.inj heq
      exact first_symbol hd rest
    · obtain ⟨rfl, rfl⟩ := List.cons.inj heq
      have hsizing : ∀ s ∈ productCommands, s ∉ sizingCommands := by decide
      rw [first_backslash (isAlpha_of_mem_commands (.inr hname)) (hletters (.inr rfl)), Piece.command,
        if_neg (hsizing _ hname), if_pos hname]
  | _ =>
    rw [hk] at hs
    obtain ⟨d, hd, heq⟩ := hs
    obtain ⟨rfl, rfl⟩ := List.cons.inj heq
    exact first_symbol hd rest

/-- **A piece is cut out where it is all that stands there.** -/
theorem first_of_isWhole {p : Piece} (hp : p.IsWhole rest)
    (hs : ∀ kind chars, p = .token kind chars → Spelled kind chars) (ht : p.text = c :: cs) :
    Piece.first c (cs ++ rest) = (p, rest) := by
  cases p with
  | token kind chars =>
    obtain rfl : chars = c :: cs := ht
    have hspelled : Token.IsSpelled ⟨kind, String.ofList (c :: cs), 0⟩ := by
      simpa [Token.IsSpelled] using hs kind (c :: cs) rfl
    exact first_of_isMaximal hspelled (hp 0) (String.toList_ofList)
  | skipped chars =>
    obtain rfl : chars = c :: cs := ht
    rcases hp with ⟨d, heq, hblank⟩ | ⟨name, heq, hname, hletters⟩
    · obtain ⟨rfl, rfl⟩ := List.cons.inj heq
      obtain ⟨hslash, halpha, hdigit, hsymbol⟩ :=
        startsToken_eq_false_iff.1 (isSeparator_of_isBlank hblank).1
      unfold Piece.first
      rw [if_neg hslash, halpha, hdigit, hsymbol, hblank]
      rfl
    · obtain ⟨rfl, rfl⟩ := List.cons.inj heq
      rw [first_backslash (isAlpha_of_mem_commands (.inl hname)) hletters, Piece.command, if_pos hname]
  | stray d =>
    obtain ⟨rfl, rfl⟩ := List.cons.inj ht
    obtain ⟨hstart, hblank⟩ := hp
    obtain ⟨hslash, halpha, hdigit, hsymbol⟩ := startsToken_eq_false_iff.1 hstart
    unfold Piece.first
    rw [if_neg hslash, halpha, hdigit, hsymbol, hblank]
    rfl

theorem itemsFrom_piece {p : Piece} (hp : p.IsWhole rest)
    (hs : ∀ kind chars, p = .token kind chars → Spelled kind chars) (hne : p.text ≠ []) (o : Nat) :
    itemsFrom o (p.text ++ rest) = (p.item? o).toList ++ itemsFrom (o + p.size) rest := by
  obtain ⟨c, cs, ht⟩ := List.exists_cons_of_ne_nil hne
  rw [ht, List.cons_append, itemsFrom, first_of_isWhole hp hs ht]

end

/-! ## The part of a line in front of an item -/

section

variable {xs ys cs : List Char}

theorem Token.IsMaximal.of_append {t : Token} (h : t.IsMaximal (xs ++ ys)) : t.IsMaximal xs where
  letters ht c hc := h.letters ht c (List.mem_head?_append_of_mem_head? hc)
  digits ht c hc := h.digits ht c (List.mem_head?_append_of_mem_head? hc)
  fraction ht hpoint d ds heq := h.fraction ht hpoint d (ds ++ ys) (by rw [heq]; rfl)

/-- What is all that stands there still is where the line ends earlier. -/
theorem Piece.IsWhole.of_append {p : Piece} (h : p.IsWhole (xs ++ ys)) : p.IsWhole xs := by
  cases p with
  | token kind chars => exact fun o => (h o).of_append
  | skipped chars =>
    rcases h with h | ⟨name, heq, hname, hletters⟩
    · exact .inl h
    · exact .inr ⟨name, heq, hname, fun c hc =>
        hletters c (List.mem_head?_append_of_mem_head? hc)⟩
  | stray c => exact h

/-- **The items in front of an item** are those of the part of the line in front of it. -/
theorem exists_before {o : Nat} {is js : List Item} {i : Item}
    (h : itemsFrom o cs = is ++ i :: js) :
    ∃ before behind, cs = before ++ behind ∧ i.offset = o + byteSize before ∧
      itemsFrom o before = is := by
  induction o, cs using itemsFrom.induct generalizing is with
  | case1 o =>
    rw [itemsFrom] at h
    simp at h
  | case2 o c cs ih =>
    let p := (Piece.first c cs).1
    have hline : c :: cs = p.text ++ (Piece.first c cs).2 := (Piece.text_append_first c cs).symm
    -- The piece is cut out of a shorter line, too.
    have hcut {xs ys : List Char} (hxs : (Piece.first c cs).2 = xs ++ ys) :
        itemsFrom o (p.text ++ xs) = (p.item? o).toList ++ itemsFrom (o + p.size) xs := by
      have hwhole := isWhole_first c cs
      rw [hxs] at hwhole
      exact itemsFrom_piece hwhole.of_append (fun _ _ => spelled_first) (Piece.text_ne_nil c cs) o
    have hbehind {is' : List Item} (hp : (p.item? o).toList ++ is' = is)
        (hrest : itemsFrom (o + p.size) (Piece.first c cs).2 = is' ++ i :: js) :
        ∃ before behind, c :: cs = before ++ behind ∧ i.offset = o + byteSize before ∧
          itemsFrom o before = is := by
      obtain ⟨before, behind, hcs, hoffset, hitems⟩ := ih hrest
      refine ⟨p.text ++ before, behind, by rw [hline, hcs, List.append_assoc], ?_, ?_⟩
      · rw [hoffset, byteSize_append, ← Piece.size_eq, Nat.add_assoc]
      · rw [hcut hcs, hitems, hp]
    rw [itemsFrom] at h
    cases hitem : p.item? o with
    | none =>
      rw [show (Piece.first c cs).1.item? o = none from hitem] at h
      exact hbehind (by rw [hitem]; rfl) h
    | some j =>
      rw [show (Piece.first c cs).1.item? o = some j from hitem] at h
      cases is with
      | nil =>
        obtain ⟨rfl, -⟩ := List.cons.inj h
        exact ⟨[], c :: cs, rfl, (place_of_item? hitem).1, itemsFrom.eq_1 o⟩
      | cons j' is =>
        obtain ⟨rfl, hrest⟩ := List.cons.inj h
        exact hbehind (by rw [hitem]; rfl) hrest

/-- The tokens in front of a token are those of the part of the line in front of it. -/
theorem exists_tokenize_before {line : String} {us vs : List Token} {t : Token}
    (h : tokenize line = .ok (us ++ t :: vs)) :
    ∃ before behind, line = before ++ behind ∧ before.utf8ByteSize = t.offset ∧
      tokenize before = .ok us := by
  rw [tokenize_eq_ok_iff, List.map_append, List.map_cons] at h
  obtain ⟨before, behind, hline, hoffset, hitems⟩ := exists_before h
  refine ⟨String.ofList before, String.ofList behind, ?_, ?_, ?_⟩
  · rw [← String.ofList_append, ← hline, String.ofList_toList]
  · simpa [Item.offset, byteSize] using hoffset.symm
  · rw [tokenize_eq_ok_iff, items, String.toList_ofList, hitems]

end

/-! ## Tokens with blanks in front of them -/

/-- The token wherever it stands. -/
def Token.bare (t : Token) : Token :=
  { t with offset := 0 }

/-- Tokens written down with blanks in front of them. -/
def spaced (ts : List Token) : List Char :=
  ts.flatMap fun t => ' ' :: t.text.toList

section

variable {ts : List Token} {rest : List Char}

theorem apart_space (cs : List Char) : Apart (' ' :: cs) :=
  apart_cons cs (by decide)

theorem Apart.isMaximal (h : Apart rest) (t : Token) : t.IsMaximal rest where
  letters _ c hc := (h c hc).1
  digits _ c hc := (h c hc).2.1
  fraction _ _ _ _ heq := absurd rfl (h '.' (heq ▸ rfl)).2.2

theorem cutsInto_spelled {t : Token} (hs : t.IsSpelled) (hrest : Apart rest) :
    CutsInto (IsToken t.kind t.text.toList) t.text.toList rest := by
  intro o
  obtain ⟨c, cs, ht⟩ := List.exists_cons_of_ne_nil hs.ne_nil
  have hfirst := first_of_isMaximal hs (hrest.isMaximal t) ht
  rw [ht]
  exact cutsInto_of_first hfirst o

/-- **Tokens that are written down with blanks in front of them** are cut out again. -/
theorem cutsInto_spaced (hs : ∀ t ∈ ts, t.IsSpelled) (hrest : Apart rest) :
    CutsInto (fun us => us.map Token.bare = ts.map Token.bare) (spaced ts) rest := by
  induction ts with
  | nil => exact fun o => ⟨[], o, rfl, rfl⟩
  | cons t ts ih =>
    obtain ⟨ht, hts⟩ := List.forall_mem_cons.1 hs
    have happart : Apart (spaced ts ++ rest) := by
      cases ts with
      | nil => exact hrest
      | cons u ts => exact apart_space _
    have hcut := (cutsInto_space _).append ((cutsInto_spelled ht happart).append (ih hts))
    have hspaced : spaced (t :: ts) = [' '] ++ (t.text.toList ++ spaced ts) := rfl
    rw [hspaced]
    refine hcut.mono ?_
    rintro _ ⟨_, _, rfl, rfl, _, us, rfl, ⟨o, rfl⟩, hus⟩
    simp [hus, Token.bare]

/-- **Behind any part of a line**, tokens can be written down. -/
theorem tokenize_append_spaced {line : String} {us ws : List Token} (h : tokenize line = .ok us)
    (hs : ∀ t ∈ ws, t.IsSpelled) :
    ∃ vs, tokenize (line ++ String.ofList (spaced ws)) = .ok (us ++ vs) ∧
      vs.map Token.bare = ws.map Token.bare := by
  have hcut (o : Nat) : ∃ vs : List Token, itemsFrom o (spaced ws) = vs.map .ok ∧
      vs.map Token.bare = ws.map Token.bare := by
    obtain ⟨vs, o', hitems, hvs⟩ := cutsInto_spaced hs apart_nil o
    rw [List.append_nil, itemsFrom.eq_1, List.append_nil] at hitems
    exact ⟨vs, hitems, hvs⟩
  have hsplit (o : Nat) (cs : List Char) : itemsFrom o (cs ++ spaced ws) =
      itemsFrom o cs ++ itemsFrom (o + byteSize cs) (spaced ws) := by
    cases ws with
    | nil => simp [spaced, itemsFrom]
    | cons t ws => exact itemsFrom_append_separator (isSeparator_of_isBlank (by decide)) o cs _
  rw [tokenize_eq_ok_iff] at h
  obtain ⟨vs, hvs, hbare⟩ := hcut (0 + byteSize line.toList)
  refine ⟨vs, ?_, hbare⟩
  rw [tokenize_eq_ok_iff, items, String.toList_append, String.toList_ofList, hsplit, hvs,
    List.map_append, ← h]
  rfl

end

end LatexCalc
