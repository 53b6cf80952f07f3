import LatexCalc.Proofs.Environment
import LatexCalc.Proofs.Text.Bytes
import Mathlib.Data.List.Dedup

/-!
# The text of an environment

Whatever names were defined, in whatever order and however often, an environment is the map that results:
a name has the value of its last definition, the bindings list each defined name once, and the text writes
them in the order of the bytes of their names (`Environment.ofDefinitions_canonical`).

The text depends on the map alone, and not on the order in which bindings are kept. A store that keeps them
in no order (`Environment.Stores`) still keeps each name once, so that to sort its bindings by name leaves
no choice (`Environment.Lists.sortByName_eq`).
-/

namespace LatexCalc

namespace Environment

/-- The environment after definitions, of which the first one in the list was made first. -/
def ofDefinitions (definitions : List (String × Float)) : Environment :=
  definitions.foldl (fun env d => env.define d.1 d.2) empty

/-- Bindings in braces, in the order of the list. -/
def bracedText (bs : List (String × Float)) : String :=
  "\x7b" ++ ", ".intercalate (bs.map fun b => b.1 ++ ": " ++ floatText b.2) ++ "\x7d"

/-- Bindings sorted by the bytes of their names. -/
def sortByName (bs : List (String × Float)) : List (String × Float) :=
  bs.mergeSort fun a b => utf8Bytes a.1 ≤ utf8Bytes b.1

/-- A list of the bindings in any order: each name that has a value is in it once, with the value. -/
structure Lists (env : Environment) (bs : List (String × Float)) : Prop where
  nodup : (bs.map Prod.fst).Nodup
  mem_iff : ∀ name value, (name, value) ∈ bs ↔ env.lookup name = some value

/-- After the definitions `ds`, a store without an order may have the bindings `bs`: a definition takes the
place of the binding of its name, if there is one, and leaves the others in any order. -/
inductive Stores : List (String × Float) → List (String × Float) → Prop
  | empty : Stores [] []
  | define {ds bs bs'} (name : String) (value : Float) (h : Stores ds bs)
      (hbs : bs'.Perm ((name, value) :: bs.filter fun b => b.1 ≠ name)) :
    Stores (ds ++ [(name, value)]) bs'

variable {env env' : Environment} {bs : List (String × Float)}

/-! ## Lists of bindings -/

theorem lists_toList (env : Environment) : env.Lists env.toList where
  nodup := env.nodup_names
  mem_iff := env.mem_toList_iff

/-- A list without repeated names lists the environment in which they have its values. -/
theorem lists_of_lookup (hn : (bs.map Prod.fst).Nodup)
    (h : ∀ name, env.lookup name = bs.lookup name) : env.Lists bs where
  nodup := hn
  mem_iff name value := by rw [h, lookup_eq_some_iff hn]

theorem Lists.perm (h : env.Lists bs) : bs.Perm env.toList := by
  refine (List.perm_ext_iff_of_nodup h.nodup.of_map env.lists_toList.nodup.of_map).2 ?_
  rintro ⟨name, value⟩
  rw [h.mem_iff, env.mem_toList_iff]

/-- The bytes of the names are in strictly ascending order. -/
theorem pairwise_utf8Bytes (env : Environment) :
    env.toList.Pairwise fun a b => utf8Bytes a.1 < utf8Bytes b.1 :=
  env.sorted.imp fun h => (utf8Bytes_lt_iff _ _).2 h

theorem pairwise_sortByName (bs : List (String × Float)) :
    (sortByName bs).Pairwise fun a b => a.1 ≤ b.1 := by
  have htrans (a b c : String × Float) (hab : decide (utf8Bytes a.1 ≤ utf8Bytes b.1))
      (hbc : decide (utf8Bytes b.1 ≤ utf8Bytes c.1)) : decide (utf8Bytes a.1 ≤ utf8Bytes c.1) := by
    simp only [utf8Bytes_le_iff, decide_eq_true_eq] at hab hbc ⊢
    exact hab.trans hbc
  have htotal (a b : String × Float) :
      decide (utf8Bytes a.1 ≤ utf8Bytes b.1) || decide (utf8Bytes b.1 ≤ utf8Bytes a.1) := by
    simpa [utf8Bytes_le_iff] using le_total a.1 b.1
  exact (List.pairwise_mergeSort htrans htotal bs).imp fun h =>
    (utf8Bytes_le_iff _ _).1 (of_decide_eq_true h)

/-- **The bindings, sorted by name, are always the same list**, in whatever order they come. -/
theorem Lists.sortByName_eq (h : env.Lists bs) : sortByName bs = env.toList := by
  have hperm : (sortByName bs).Perm env.toList := (List.mergeSort_perm bs _).trans h.perm
  have hsorted : env.toList.Pairwise fun a b => a.1 ≤ b.1 := env.sorted.imp fun h => le_of_lt h
  refine List.Perm.eq_of_pairwise (fun a b ha hb hab hba => ?_) (pairwise_sortByName bs) hsorted hperm
  -- Two bindings of one name are the same one, so that nothing depends on the order they come in.
  obtain ⟨name, value⟩ := a
  obtain ⟨name', value'⟩ := b
  obtain rfl : name = name' := le_antisymm hab hba
  have hvalue := (env.mem_toList_iff name value).1 (hperm.mem_iff.1 ha)
  rw [(env.mem_toList_iff name value').1 hb] at hvalue
  cases hvalue
  rfl

/-- An environment is known from what names are looked up as. -/
theorem ext_lookup (h : ∀ name, env.lookup name = env'.lookup name) : env = env' := by
  have hlists : env'.Lists env.toList := lists_of_lookup env.nodup_names fun name => (h name).symm
  have heq : env.toList = env'.toList :=
    env.lists_toList.sortByName_eq.symm.trans hlists.sortByName_eq
  cases env
  cases env'
  cases heq
  rfl

/-! ## Stores without an order -/

/-- **A definition keeps the names apart**, in whatever order the bindings are kept. -/
theorem Lists.define (h : env.Lists bs) {bs' : List (String × Float)} (name : String) (value : Float)
    (hbs : bs'.Perm ((name, value) :: bs.filter fun b => b.1 ≠ name)) :
    (env.define name value).Lists bs' where
  nodup := by
    refine (hbs.map Prod.fst).nodup_iff.2 (List.nodup_cons.2 ⟨fun hmem => ?_, ?_⟩)
    · obtain ⟨b, hb, hname⟩ := List.mem_map.1 hmem
      exact of_decide_eq_true (List.mem_filter.1 hb).2 hname
    · exact h.nodup.sublist (List.filter_sublist.map Prod.fst)
  mem_iff key x := by
    rw [hbs.mem_iff, List.mem_cons, List.mem_filter, h.mem_iff, lookup_define, Prod.mk.injEq]
    by_cases hkey : key = name
    · simp [hkey, eq_comm]
    · simp [hkey]

/-- An unordered store lists the environment that comes of the same definitions. -/
theorem Stores.lists {ds : List (String × Float)} (h : Stores ds bs) : (ofDefinitions ds).Lists bs := by
  induction h with
  | empty => exact lists_toList Environment.empty
  | define name value _ hbs ih =>
    rw [ofDefinitions, List.foldl_concat]
    exact ih.define name value hbs

/-! ## Definitions -/

variable (ds : List (String × Float))

/-- A name is looked up as the value of its last definition. -/
theorem lookup_ofDefinitions (name : String) :
    (ofDefinitions ds).lookup name = ds.reverse.lookup name := by
  rw [ofDefinitions, lookup_foldl_define, lookup_empty, Option.or_none]

/-- The names that have a value are those that were defined. -/
theorem mem_names_ofDefinitions (name : String) :
    name ∈ (ofDefinitions ds).toList.map Prod.fst ↔ name ∈ ds.map Prod.fst := by
  have hvalue : name ∈ (ofDefinitions ds).toList.map Prod.fst ↔
      ∃ value, ds.reverse.lookup name = some value := by
    simp [mem_toList_iff, lookup_ofDefinitions]
  rw [hvalue, ← Option.isSome_iff_exists, List.lookup_isSome_iff]
  simp only [List.mem_reverse, beq_iff_eq, List.mem_map, @eq_comm _ name]

/-- Each name that was defined counts once. -/
theorem size_ofDefinitions : (ofDefinitions ds).size = (ds.map Prod.fst).dedup.length := by
  have hperm : ((ofDefinitions ds).toList.map Prod.fst).Perm (ds.map Prod.fst).dedup := by
    refine (List.perm_ext_iff_of_nodup (nodup_names _) (List.nodup_dedup _)).2 fun name => ?_
    rw [List.mem_dedup, mem_names_ofDefinitions]
  rw [size, ← hperm.length_eq, List.length_map]

/-- **An environment is a map, and its text is canonical.** After any definitions in an environment that
was empty, a name is looked up as the value of its last definition, and as none if there was none. The size
is the number of different names that were defined. The bindings list each of these names once, with that
value, and the text writes them in braces with the bytes of their names in strictly ascending order. A store
without an order lists them as well after the same definitions, and however they are listed, there are as
many of them, and sorted by name they are written as the same text. So definitions that leave every name to
be looked up as the same value lead to the same size and the same text, however many there are and in
whatever order. -/
theorem ofDefinitions_canonical :
    (∀ name, (ofDefinitions ds).lookup name = ds.reverse.lookup name) ∧
    (ofDefinitions ds).size = (ds.map Prod.fst).dedup.length ∧
    (ofDefinitions ds).Lists (ofDefinitions ds).toList ∧
    (ofDefinitions ds).toList.Pairwise (fun a b => utf8Bytes a.1 < utf8Bytes b.1) ∧
    (ofDefinitions ds).text = bracedText (ofDefinitions ds).toList ∧
    (∀ bs, Stores ds bs → (ofDefinitions ds).Lists bs) ∧
    (∀ bs, (ofDefinitions ds).Lists bs →
      bs.length = (ofDefinitions ds).size ∧ bracedText (sortByName bs) = (ofDefinitions ds).text) ∧
    ∀ ds', (∀ name, (ofDefinitions ds').lookup name = (ofDefinitions ds).lookup name) →
      (ofDefinitions ds').size = (ofDefinitions ds).size ∧
      (ofDefinitions ds').text = (ofDefinitions ds).text := by
  refine ⟨lookup_ofDefinitions ds, size_ofDefinitions ds, lists_toList _, pairwise_utf8Bytes _, rfl,
    fun bs h => h.lists, fun bs h => ⟨h.perm.length_eq, ?_⟩, fun ds' h => ?_⟩
  · rw [h.sortByName_eq]
    rfl
  · rw [ext_lookup h]
    exact ⟨rfl, rfl⟩

/-- The same variables come of definitions in another order, without the one that is overwritten, and are
written in the same way by a store that keeps them in the order in which they were last defined. -/
theorem ofDefinitions_canonical_overwritten :
    let env := ofDefinitions [("b", 1), ("a", 1.5), ("b", 2)]
    let env' := ofDefinitions [("b", 2), ("a", 1.5)]
    env.size = 2 ∧ env.text = "\x7ba: 1.5, b: 2\x7d" ∧ env'.size = env.size ∧ env'.text = env.text ∧
      bracedText (sortByName [("b", 2), ("a", 1.5)]) = env.text := by
  intro env env'
  have hsame (name : String) : env'.lookup name = env.lookup name := by
    show (ofDefinitions _).lookup name = (ofDefinitions _).lookup name
    rw [lookup_ofDefinitions, lookup_ofDefinitions]
    by_cases h : name = "b" <;> simp [lookup_cons_eq_ite, h]
  have hstores : Stores [("b", 1), ("a", 1.5), ("b", 2)] [("b", 2), ("a", 1.5)] :=
    ((Stores.empty.define "b" 1 (.refl _)).define "a" 1.5 (.refl _)).define "b" 2 (.refl _)
  obtain ⟨-, -, -, -, -, hlists, htext, hcanonical⟩ :=
    ofDefinitions_canonical [("b", 1), ("a", 1.5), ("b", 2)]
  obtain ⟨hsize', htext'⟩ := hcanonical _ hsame
  exact ⟨rfl, by decide +kernel, hsize', htext', (htext _ (hlists _ hstores)).2⟩

end Environment

end LatexCalc
