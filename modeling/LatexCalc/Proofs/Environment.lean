import LatexCalc.Environment

/-!
# Environments as maps

What `Environment.lookup` gives determines the bindings: a name is looked up as the value that it was
given last (`Environment.lookup_define`), and the bindings of an environment are the pairs that lookup
gives (`Environment.mem_toList_iff`).
-/

namespace LatexCalc

/-- The first binding of a list counts. -/
theorem lookup_cons_eq_ite (key name : String) (value : Float) (bs : List (String × Float)) :
    ((name, value) :: bs).lookup key = if key = name then some value else bs.lookup key := by
  rw [List.lookup_cons]
  by_cases h : key = name
  · simp [h]
  · rw [beq_false_of_ne h, if_neg h]

theorem lookup_setBinding (name key : String) (value : Float) (bs : List (String × Float)) :
    (setBinding name value bs).lookup key = if key = name then some value else bs.lookup key := by
  induction bs with
  | nil => exact lookup_cons_eq_ite key name value []
  | cons b bs ih =>
    obtain ⟨other, old⟩ := b
    unfold setBinding
    by_cases hlt : name < other
    · rw [if_pos hlt, lookup_cons_eq_ite]
    · rw [if_neg hlt]
      by_cases heq : name = other
      · subst heq
        rw [if_pos rfl, lookup_cons_eq_ite, lookup_cons_eq_ite]
        split <;> rfl
      · rw [if_neg heq, lookup_cons_eq_ite, lookup_cons_eq_ite, ih]
        by_cases h : key = name
        · subst h
          simp [heq]
        · simp [h]

namespace Environment

@[simp] theorem lookup_empty (name : String) : empty.lookup name = none := rfl

/-- A name is looked up as the value it was given last. -/
theorem lookup_define (env : Environment) (name key : String) (value : Float) :
    (env.define name value).lookup key = if key = name then some value else env.lookup key :=
  lookup_setBinding name key value env.toList

/-- Of definitions made one after the other, the last one of a name counts. -/
theorem lookup_foldl_define (definitions : List (String × Float)) (env : Environment) (name : String) :
    (definitions.foldl (fun env d => env.define d.1 d.2) env).lookup name =
      (definitions.reverse.lookup name).or (env.lookup name) := by
  induction definitions generalizing env with
  | nil => rfl
  | cons d ds ih =>
    obtain ⟨key, x⟩ := d
    rw [List.foldl_cons, ih, lookup_define, List.reverse_cons, List.lookup_append, Option.or_assoc,
      lookup_cons_eq_ite]
    by_cases h : name = key <;> simp [h]

/-- A list without repeated names gives each name the value it is listed with. -/
theorem lookup_eq_some_iff {bs : List (String × Float)} (h : (bs.map Prod.fst).Nodup)
    (name : String) (value : Float) : bs.lookup name = some value ↔ (name, value) ∈ bs := by
  induction bs with
  | nil => simp
  | cons b bs ih =>
    rw [List.map_cons] at h
    obtain ⟨hb, hbs⟩ := List.nodup_cons.1 h
    obtain ⟨key, old⟩ := b
    rw [lookup_cons_eq_ite, List.mem_cons, Prod.mk.injEq]
    by_cases hkey : name = key
    · subst hkey
      have hnot : (name, value) ∉ bs := fun hmem => hb (List.mem_map.2 ⟨_, hmem, rfl⟩)
      simp [hnot, eq_comm]
    · simp [hkey, ih hbs]

/-- No name is bound twice. -/
theorem nodup_names (env : Environment) : (env.toList.map Prod.fst).Nodup :=
  List.pairwise_map.2 (env.sorted.imp fun h => String.ne_of_lt h)

/-- The bindings are the pairs that lookup gives. -/
theorem mem_toList_iff (env : Environment) (name : String) (value : Float) :
    (name, value) ∈ env.toList ↔ env.lookup name = some value :=
  (lookup_eq_some_iff env.nodup_names name value).symm

end Environment

end LatexCalc
