import Mathlib.Data.List.Basic

/-! # Association lists that keep the order of insertion

A key that is there keeps its place when its value changes, a new key comes last, and erasing a key
keeps the order of the others. `==` is any equivalence of keys.
-/

namespace Saad.General

/-- Keys with their values, in the order in which the keys came in. -/
abbrev AssocList (K V : Type*) := List (K × V)

namespace AssocList

variable {K V : Type*} [BEq K]

/-- The place of the key. -/
def indexOf (key : K) (list : AssocList K V) : Option ℕ :=
  list.findIdx? fun entry => entry.1 == key

def lookup (key : K) : AssocList K V → Option V
  | [] => none
  | (other, value) :: rest => if other == key then some value else lookup key rest

def contains (key : K) (list : AssocList K V) : Bool := (list.lookup key).isSome

/-- Change the value of the key in place, or add the key with `initial` at the end. -/
def upsert (key : K) (initial : V) (change : V → V) : AssocList K V → AssocList K V
  | [] => [(key, initial)]
  | (other, value) :: rest =>
    if other == key then (other, change value) :: rest
    else (other, value) :: upsert key initial change rest

def insert (key : K) (value : V) (list : AssocList K V) : AssocList K V :=
  list.upsert key value fun _ => value

def erase (key : K) : AssocList K V → AssocList K V
  | [] => []
  | (other, value) :: rest => if other == key then rest else (other, value) :: erase key rest

def keys (list : AssocList K V) : List K := list.map Prod.fst

def values (list : AssocList K V) : List V := list.map Prod.snd

section Places

variable {key : K} {list : AssocList K V} {index : ℕ} (initial : V) (change : V → V)

theorem indexOf_cons (other : K) (value : V) (rest : AssocList K V) :
    indexOf key ((other, value) :: rest) =
      if other == key then some 0 else (indexOf key rest).map (· + 1) := by
  rw [indexOf, List.findIdx?_cons, indexOf]

/-- The place of a key in a longer list is 0, or it is one further than in the rest. -/
theorem indexOf_cons_eq_some {other : K} {value : V} {rest : AssocList K V}
    (found : indexOf key ((other, value) :: rest) = some index) :
    ((other == key) = true ∧ index = 0) ∨
      ((other == key) = false ∧ ∃ before, indexOf key rest = some before ∧ index = before + 1) := by
  rw [indexOf_cons] at found
  cases same : other == key with
  | true =>
    rw [same, if_pos rfl, Option.some_inj] at found
    exact .inl ⟨rfl, found.symm⟩
  | false =>
    rw [same, if_neg Bool.false_ne_true, Option.map_eq_some_iff] at found
    obtain ⟨before, found, rfl⟩ := found
    exact .inr ⟨rfl, before, found, rfl⟩

theorem indexOf_cons_eq_none {other : K} {value : V} {rest : AssocList K V}
    (absent : indexOf key ((other, value) :: rest) = none) :
    (other == key) = false ∧ indexOf key rest = none := by
  rw [indexOf_cons] at absent
  cases same : other == key with
  | true => simp [same] at absent
  | false =>
    rw [same, if_neg Bool.false_ne_true, Option.map_eq_none_iff] at absent
    exact ⟨rfl, absent⟩

theorem lookup_eq (key : K) (list : AssocList K V) :
    list.lookup key = (list.indexOf key).bind fun index => list[index]?.map Prod.snd := by
  induction list with
  | nil => rfl
  | cons entry rest ih =>
    obtain ⟨other, value⟩ := entry
    rw [lookup, indexOf_cons]
    cases other == key with
    | true => rfl
    | false =>
      rw [if_neg Bool.false_ne_true, if_neg Bool.false_ne_true, ih]
      cases indexOf key rest <;> rfl

/-- What is found when the values are changed is what was found, changed. -/
theorem lookup_map {W : Type*} (f : V → W) (key : K) (list : AssocList K V) :
    lookup key (list.map fun entry => (entry.1, f entry.2)) = (list.lookup key).map f := by
  induction list with
  | nil => rfl
  | cons entry rest ih =>
    rw [List.map_cons, lookup, lookup, ih]
    split <;> rfl

theorem mem_of_lookup {value : V} (found : list.lookup key = some value) : ∃ other, (other, value) ∈ list := by
  induction list with
  | nil => cases found
  | cons entry rest ih =>
    obtain ⟨other, first⟩ := entry
    rw [lookup] at found
    split at found
    · cases found
      exact ⟨other, List.mem_cons_self⟩
    · obtain ⟨other, member⟩ := ih found
      exact ⟨other, List.mem_cons_of_mem _ member⟩

theorem upsert_of_indexOf_eq_some (found : list.indexOf key = some index) :
    list.upsert key initial change = list.modify index fun entry => (entry.1, change entry.2) := by
  induction list generalizing index with
  | nil => cases found
  | cons entry rest ih =>
    obtain ⟨other, value⟩ := entry
    rw [upsert]
    obtain ⟨same, rfl⟩ | ⟨different, before, later, rfl⟩ := indexOf_cons_eq_some found
    · rw [if_pos same, List.modify_zero_cons]
    · rw [if_neg (by simp [different]), ih later, List.modify_succ_cons]

theorem upsert_of_indexOf_eq_none (absent : list.indexOf key = none) :
    list.upsert key initial change = list ++ [(key, initial)] := by
  induction list with
  | nil => rfl
  | cons entry rest ih =>
    obtain ⟨other, value⟩ := entry
    obtain ⟨different, absent⟩ := indexOf_cons_eq_none absent
    rw [upsert, if_neg (by simp [different]), ih absent, List.cons_append]

theorem insert_of_notMem [LawfulBEq K] (value : V) (absent : key ∉ list.keys) :
    list.insert key value = list ++ [(key, value)] := by
  apply upsert_of_indexOf_eq_none
  rw [indexOf, List.findIdx?_eq_none_iff]
  intro entry member
  rw [beq_eq_false_iff_ne]
  rintro rfl
  exact absent (List.mem_map_of_mem member)

/-- A key that is not there is added behind the others. -/
theorem insert_cases (key : K) (value : V) (list : AssocList K V) :
    (list.insert key value).length = list.length ∨
      list.insert key value = list ++ [(key, value)] := by
  cases found : list.indexOf key with
  | none => exact .inr (upsert_of_indexOf_eq_none _ _ found)
  | some index =>
    left
    rw [insert, upsert_of_indexOf_eq_some _ _ found, List.length_modify]

/-- What is found after an insertion is the new value, or was found before. -/
theorem lookup_insert_cases {other : K} {value found : V} {list : AssocList K V}
    (finds : (list.insert other value).lookup key = some found) :
    found = value ∨ list.lookup key = some found := by
  rw [insert] at finds
  induction list with
  | nil =>
    rw [upsert, lookup] at finds
    split at finds
    · exact .inl (Option.some.inj finds).symm
    · exact .inr finds
  | cons entry rest ih =>
    obtain ⟨first, old⟩ := entry
    rw [upsert] at finds
    rw [lookup]
    split at finds
    · rw [lookup] at finds
      split at finds
      · exact .inl (Option.some.inj finds).symm
      · next different => exact .inr (by rwa [if_neg different])
    · rw [lookup] at finds
      split at finds
      · next same => exact .inr (by rwa [if_pos same])
      · next different =>
        rw [if_neg different]
        exact ih finds

theorem erase_of_indexOf_eq_some (found : list.indexOf key = some index) :
    list.erase key = list.eraseIdx index := by
  induction list generalizing index with
  | nil => cases found
  | cons entry rest ih =>
    obtain ⟨other, value⟩ := entry
    rw [erase]
    obtain ⟨same, rfl⟩ | ⟨different, before, later, rfl⟩ := indexOf_cons_eq_some found
    · rw [if_pos same, List.eraseIdx_cons_zero]
    · rw [if_neg (by simp [different]), ih later, List.eraseIdx_cons_succ]

theorem erase_of_indexOf_eq_none (absent : list.indexOf key = none) : list.erase key = list := by
  induction list with
  | nil => rfl
  | cons entry rest ih =>
    obtain ⟨other, value⟩ := entry
    obtain ⟨different, absent⟩ := indexOf_cons_eq_none absent
    rw [erase, if_neg (by simp [different]), ih absent]

end Places

section Order

variable (key : K) (initial : V) (change : V → V) (list : AssocList K V)

/-- A key that is there keeps its place, and so do all others. -/
theorem keys_upsert (present : list.contains key = true) :
    (list.upsert key initial change).keys = list.keys := by
  induction list with
  | nil => cases present
  | cons entry rest ih =>
    obtain ⟨other, value⟩ := entry
    rw [contains, lookup] at present
    rw [upsert]
    split
    · rfl
    · next different =>
      rw [if_neg different] at present
      exact congrArg (other :: ·) (ih present)

/-- The others keep their order. -/
theorem erase_sublist : (list.erase key).Sublist list := by
  induction list with
  | nil => exact .slnil
  | cons entry rest ih =>
    obtain ⟨other, value⟩ := entry
    rw [erase]
    split
    · exact List.sublist_cons_self _ _
    · exact ih.cons_cons _

end Order

end AssocList

end Saad.General
