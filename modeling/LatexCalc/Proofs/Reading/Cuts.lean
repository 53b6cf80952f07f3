import LatexCalc.Proofs.Reading.Served
import Mathlib.Data.List.Basic

/-!
# The variable of a differential

The variable of a differential is what is left of its text behind the first byte. There is a text behind a
byte only if a character ends there (`bytesFrom?`), and whether this is so for a token is made sure of
elsewhere: by looking ahead, at positions in a list of tokens (`differentialAt`, `headerAt`). Integrals and
derivatives that cut the variable out after they have looked ahead, and raise an alarm where it cannot be
cut out, are those of the parser (`Parse.cutIntegral_eq`, `Parse.cutFraction_eq`).
-/

namespace LatexCalc

/-! ## Texts behind a byte -/

/-- The text from byte `k` on. There is none if the text has fewer bytes, or a character has bytes on both
sides. -/
def bytesFrom? (s : String) (k : Nat) : Option String :=
  if h : String.Pos.Raw.IsValid s ⟨k⟩ then some (s.sliceFrom (s.pos ⟨k⟩ h)).copy else none

theorem bytesFrom?_append (s t : String) : bytesFrom? (s ++ t) s.utf8ByteSize = some t := by
  have h : String.Pos.Raw.IsValid (s ++ t) ⟨s.utf8ByteSize⟩ :=
    String.Pos.Raw.isValid_iff_exists_append.2 ⟨s, t, rfl, rfl⟩
  have hsplit : ((s ++ t).pos ⟨s.utf8ByteSize⟩ h).Splits s t := ⟨rfl, rfl⟩
  rw [bytesFrom?, dif_pos h, ((s ++ t).pos ⟨s.utf8ByteSize⟩ h).splits.eq_right hsplit]

example : bytesFrom? "é" 1 = none := by decide +kernel

/-! ## Looking ahead -/

namespace Token

/-- Whether a token is a name of at least two bytes that starts with `d`. -/
def isDifferential (t : Token) : Bool :=
  t.kind = .identifier && 2 ≤ t.size && t.text.toList.head? = some 'd'

/-- The variable of a differential is behind its first byte. -/
theorem bytesFrom?_of_differential {t : Token} {v : String} (h : t.differential? = some v) :
    bytesFrom? t.text 1 = some v := by
  unfold differential? at h
  split at h
  · next c cs hcs =>
    cases h
    have htext : t.text = "d" ++ String.ofList (c :: cs) := by
      rw [← String.ofList_toList (s := t.text), hcs, String.ofList_cons]
      rfl
    rw [htext]
    exact bytesFrom?_append "d" _
  · cases h

/-- A second byte is a second character, since the first one is a `d`. -/
theorem isDifferential_eq (t : Token) :
    t.isDifferential = (decide (t.kind = .identifier) && t.differential?.isSome) := by
  rw [isDifferential, Bool.and_assoc]
  congr 1
  have htext : t.text = String.ofList t.text.toList := String.ofList_toList.symm
  unfold differential? size
  split
  · next c cs hcs =>
    have hpos := c.utf8Size_pos
    have hd : "d".utf8ByteSize = 1 := rfl
    have hsize : t.text.utf8ByteSize = 1 + (c.utf8Size + (String.ofList cs).utf8ByteSize) := by
      rw [htext, hcs]
      simp [hd]
    simp only [hcs, hsize, List.head?_cons, Option.isSome_some, Bool.and_eq_true, decide_eq_true_eq,
      decide_true, and_true]
    omega
  · next hno =>
    rcases hcs : t.text.toList with _ | ⟨d, _ | ⟨c, cs⟩⟩
    · simp
    · by_cases hd : d = 'd'
      · have hsize : t.text.utf8ByteSize = 1 := by
          rw [htext, hcs, hd]
          rfl
        simp [hsize]
      · simp [hd]
    · have hd : d ≠ 'd' := fun hd => hno c cs (by rw [hcs, hd])
      simp [hd]

end Token

/-- Whether a differential starts at position `i` of a list of tokens: a name `dx` that no operand
follows, unless that is itself a differential. -/
def differentialAt (ts : List Token) (i : Nat) : Bool :=
  if h : i < ts.length then
    ts[i].isDifferential &&
      match ts[i + 1]?.map Token.kind with
      | some .number | some .function | some .parenOpen | some .braceOpen => false
      | some .identifier => differentialAt ts (i + 1)
      | _ => true
  else false
termination_by ts.length - i

/-- Whether the six tokens from position `i` on are the header `{d}{dx}` of a derivative. -/
def headerAt (ts : List Token) (i : Nat) : Bool :=
  match (ts.drop i).take 6 with
  | [open₁, d, close₁, open₂, dx, close₂] =>
    open₁.kind = .braceOpen && d.kind = .identifier && d.text = "d" && close₁.kind = .braceClose &&
      open₂.kind = .braceOpen && dx.isDifferential && close₂.kind = .braceClose
  | _ => false

theorem differentialAt_append (us ts : List Token) :
    differentialAt (us ++ ts) us.length = startsDifferential ts := by
  induction ts generalizing us with
  | nil =>
    rw [differentialAt, dif_neg (by simp)]
    rfl
  | cons t ts ih =>
    have hbound : us.length < (us ++ t :: ts).length := by simp
    have hfirst : (us ++ t :: ts)[us.length] = t := by simp
    have hsecond : (us ++ t :: ts)[us.length + 1]? = ts.head? := by
      rw [List.getElem?_append_right (Nat.le_succ _)]
      simp [List.head?_eq_getElem?]
    have hrest : differentialAt (us ++ t :: ts) (us.length + 1) = startsDifferential ts := by
      simpa using ih (us ++ [t])
    rw [differentialAt, dif_pos hbound, hfirst, hsecond, hrest, Token.isDifferential_eq]
    cases ts with
    | nil => rfl
    | cons u ts =>
      simp only [startsDifferential, List.head?_cons, Option.map_some]
      cases u.kind <;> rfl

/-- **What is seen ahead** at a position in a list of tokens is what starts with the tokens from there
on. -/
theorem differentialAt_eq (ts : List Token) (i : Nat) :
    differentialAt ts i = startsDifferential (ts.drop i) := by
  rcases Nat.lt_or_ge i ts.length with hi | hi
  · have hsplit := differentialAt_append (ts.take i) (ts.drop i)
    rwa [List.take_append_drop, List.length_take_of_le (Nat.le_of_lt hi)] at hsplit
  · rw [differentialAt, dif_neg (Nat.not_lt.2 hi), List.drop_of_length_le hi]
    rfl

theorem headerAt_eq (ts : List Token) (i : Nat) :
    headerAt ts i = (derivativeVariable? (ts.drop i)).isSome := by
  unfold headerAt
  rcases ts.drop i with _ | ⟨a, _ | ⟨b, _ | ⟨c, _ | ⟨d, _ | ⟨e, _ | ⟨f, us⟩⟩⟩⟩⟩⟩
  case cons.cons.cons.cons.cons.cons =>
    simp only [List.take_succ_cons, List.take_zero, derivativeVariable?, Token.isDifferential_eq]
    split
    · next h =>
      obtain ⟨ha, hb, hd, hc, ho, he, hf⟩ := h
      simp [ha, hb, hd, hc, ho, he, hf]
    · next h =>
      simp only [Option.isSome_none, Bool.and_eq_false_iff, decide_eq_false_iff_not]
      tauto
  all_goals rfl

/-! ## Integrals and derivatives -/

namespace Parse

variable {n : Nat} (alarm : ParseError) (expr : Nat → Parse n Expr) (primary : Parse n Expr)

/-- The variable of a differential, cut out of its text. If that cannot be done, the step fails with
`alarm`. -/
def cutVariable (t : Token) : Parse n String :=
  match bytesFrom? t.text 1 with
  | some name => return name
  | none => throw alarm

/-- A differential, cut with an alarm. -/
def cutDifferential : Parse n String := do
  let ts ← tokens
  match ts.head? with
  | some t =>
    if differentialAt ts 0 then
      advance
      cutVariable alarm t
    else fail .differential
  | none => fail .differential

/-- An integral after its command, cut with an alarm. -/
def cutIntegral : Parse n Expr := do
  let (lower, upper) ← bounds expr primary
  let integrand ← inIntegrand (expr 0)
  let name ← cutDifferential alarm
  return .integral name lower upper integrand

/-- A fraction or a derivative after its command, cut with an alarm. The header is looked at first, and
then taken token by token. -/
def cutFraction : Parse n Expr := do
  if headerAt (← tokens) 0 then
    let _ ← expect .braceOpen
    let _ ← expectName
    let _ ← expect .braceClose
    let _ ← expect .braceOpen
    let differential ← expectName
    let _ ← expect .braceClose
    let name ← cutVariable alarm differential
    derivative expr name
  else
    let numerator ← group expr
    let denominator ← group expr
    return .fraction numerator denominator

variable {alarm}

theorem cutVariable_eq {t : Token} {v : String} (h : t.differential? = some v) :
    (cutVariable alarm t : Parse n String) = pure v := by
  rw [cutVariable, Token.bytesFrom?_of_differential h]

theorem cutDifferential_eq : (cutDifferential alarm : Parse n String) = differential := by
  funext c
  rw [cutDifferential, differential, tokens_bind, tokens_bind, differentialAt_eq, List.drop_zero]
  cases hts : c.1.rest with
  | nil => rfl
  | cons t ts =>
    simp only [List.head?_cons, Option.bind_some]
    cases hv : t.differential? with
    | none => simp [startsDifferential, hv]
    | some v => simp only [cutVariable_eq hv]

/-- **Integrals raise no alarm**, at whatever place. -/
theorem cutIntegral_eq : cutIntegral alarm expr primary = integral expr primary := by
  rw [cutIntegral, integral, cutDifferential_eq]

section

variable {α : Type} {c : Below n} {t : Token} {ts : List Token}

/-- A token that is there is taken. -/
theorem expect_bind {kind : TokenKind} (hts : c.1.rest = t :: ts) (hk : t.kind = kind)
    (f : Token → Parse n α) : (expect kind >>= f) c = f t c.advance := by
  refine bind_of_ok ?_
  rw [expect, expectWith_of_cons hts, if_pos (by simpa using hk)]

theorem expectName_bind (hts : c.1.rest = t :: ts) (hk : t.kind = .identifier)
    (f : Token → Parse n α) : (expectName >>= f) c = f t c.advance := by
  refine bind_of_ok ?_
  rw [expectName, expectWith_of_cons hts, if_pos (by simpa using hk)]

theorem rest_below_advance (hts : c.1.rest = t :: ts) : c.advance.1.rest = ts := by
  rw [Below.advance, Cursor.rest_advance, hts]
  rfl

end

/-- **Derivatives raise no alarm**, at whatever place. -/
theorem cutFraction_eq : cutFraction alarm expr = fraction expr := by
  funext c
  rw [cutFraction, fraction, tokens_bind, tokens_bind, headerAt_eq, List.drop_zero]
  cases hv : derivativeVariable? c.1.rest with
  | none => rfl
  | some v =>
    simp only [Option.isSome_some, if_true]
    unfold derivativeVariable? at hv
    split at hv
    · next o d e o' x e' ts h₁ =>
      split at hv
      · next hk =>
        obtain ⟨ho, hd, -, he, ho', hx, he'⟩ := hk
        -- The tokens of the header are taken one by one, or all at once.
        have h₂ := rest_below_advance h₁
        have h₃ := rest_below_advance h₂
        have h₄ := rest_below_advance h₃
        have h₅ := rest_below_advance h₄
        have h₆ := rest_below_advance h₅
        rw [expect_bind h₁ ho, expectName_bind h₂ hd, expect_bind h₃ he, expect_bind h₄ ho',
          expectName_bind h₅ hx, expect_bind h₆ he', cutVariable_eq hv]
        rfl
      · cases hv
    · cases hv

end Parse

end LatexCalc
