import LatexCalc.Decimal.Shortest

/-!
# Environments and scopes

An `Environment` holds the variables of a session, in the order of their names and each name once,
so that two environments with the same variables are the same. A `Scope` is what an expression sees:
the variables of the session below any number of bound ones, of which the innermost counts.
-/

namespace LatexCalc

/-- A list of bindings with the value of `name` set. Names stay in order. -/
def setBinding (name : String) (value : Float) : List (String × Float) → List (String × Float)
  | [] => [(name, value)]
  | (key, old) :: rest =>
    if name < key then (name, value) :: (key, old) :: rest
    else if name = key then (name, value) :: rest
    else (key, old) :: setBinding name value rest

theorem mem_setBinding {name : String} {value : Float} {b : String × Float}
    {bs : List (String × Float)} (h : b ∈ setBinding name value bs) : b = (name, value) ∨ b ∈ bs := by
  induction bs with
  | nil => simpa [setBinding] using h
  | cons b' bs ih =>
    simp only [setBinding] at h
    split at h
    · simpa using h
    · split at h
      · rcases List.mem_cons.1 h with h | h
        · exact .inl h
        · exact .inr (List.mem_cons_of_mem _ h)
      · rcases List.mem_cons.1 h with h | h
        · exact .inr (by simp [h])
        · exact (ih h).imp_right (List.mem_cons_of_mem _)

/-- Setting a binding keeps the names in order. -/
theorem pairwise_setBinding (name : String) (value : Float) {bs : List (String × Float)}
    (h : bs.Pairwise fun a b => a.1 < b.1) :
    (setBinding name value bs).Pairwise fun a b => a.1 < b.1 := by
  induction bs with
  | nil => simp [setBinding]
  | cons b bs ih =>
    obtain ⟨hb, hbs⟩ := List.pairwise_cons.1 h
    simp only [setBinding]
    split
    · next hlt =>
      refine List.pairwise_cons.2 ⟨fun a ha => ?_, h⟩
      rcases List.mem_cons.1 ha with rfl | ha
      · exact hlt
      · exact String.lt_trans hlt (hb a ha)
    · next hlt =>
      split
      · next heq => exact List.pairwise_cons.2 ⟨fun a ha => heq ▸ hb a ha, hbs⟩
      · next hne =>
        refine List.pairwise_cons.2 ⟨fun a ha => ?_, ih hbs⟩
        rcases mem_setBinding ha with rfl | ha
        · exact String.not_le.1 fun hle => hne (String.le_antisymm hle (String.not_lt.1 hlt))
        · exact hb a ha

/-- The variables of a session. -/
structure Environment where
  /-- The names with their values, in ascending order of the names. -/
  toList : List (String × Float)
  sorted : toList.Pairwise fun a b => a.1 < b.1

namespace Environment

/-- No variables. -/
def empty : Environment :=
  ⟨[], .nil⟩

/-- The value of a name. -/
def lookup (env : Environment) (name : String) : Option Float :=
  env.toList.lookup name

/-- Gives a name a value, which replaces the one it has. -/
def define (env : Environment) (name : String) (value : Float) : Environment :=
  ⟨setBinding name value env.toList, pairwise_setBinding name value env.sorted⟩

/-- The number of names. -/
def size (env : Environment) : Nat :=
  env.toList.length

/-- Whether there is no name. -/
def isEmpty (env : Environment) : Bool :=
  env.toList.isEmpty

/-- The bindings as one text. -/
def text (env : Environment) : String :=
  "\x7b" ++ ", ".intercalate (env.toList.map fun b => b.1 ++ ": " ++ floatText b.2) ++ "\x7d"

end Environment

/-- The variables that an expression sees. -/
inductive Scope
  | global (env : Environment)
  | bound (name : String) (value : Float) (outer : Scope)

namespace Scope

/-- The value of a name: that of the innermost binding of it. -/
def lookup (name : String) : Scope → Option Float
  | global env => env.lookup name
  | bound name' value outer => if name' = name then some value else outer.lookup name

end Scope

end LatexCalc
