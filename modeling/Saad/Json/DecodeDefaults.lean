import Saad.Json.Decode

/-! # Defaults of decoded values

Whether a member that the JSON doesn't have keeps its default depends on where its struct is. The defaults are only set
in the memory of the outermost value, with what the declared values of the members around them say; what `assign`
allocates on the way to a struct, and an optional, is zeroed.
-/

namespace Saad.Json

open General

variable {F L I C : Type}

section Local

variable {layout : Layout F L I C} {types : I → TypeStruct L I C} {options : Options} {v : Value F}
  {items : List (Assigner L I C)} {fields : AssocList Text (Assigner L I C)} {place : List Step} {path : Text}
variable {pairs : List (Text × Value F)} {contents next : Contents Step C}

/-- Nothing but the part at the place is written. -/
def IsLocalAssigner (assign : Assigner L I C) : Prop :=
  ∀ type place path, IsLocal place (assign type place path)

theorem isLocal_element (room : Option ℤ) (elem : Ty L I) (each : ∀ item ∈ items, IsLocalAssigner item) :
    ∀ job ∈ items.mapIdx (fun i item => (Step.element i, fun contents =>
      if room.any fun room : ℤ => room < ((i + 1) * layout.size elem : ℕ) then .error .outside
      else item elem (place ++ [.element i]) (indexPath path i) contents)), IsLocal (place ++ [job.1]) job.2 := by
  intro job member
  obtain ⟨i, inside, rfl⟩ := List.mem_mapIdx.mp member
  intro contents next runs
  dsimp only at runs
  split at runs
  · cases runs
  · exact each _ (List.getElem_mem inside) _ _ _ contents next runs

theorem isLocal_entry (room : ℤ) (size : ℕ) (type : Ty L I) (each : ∀ field ∈ fields, IsLocalAssigner field.2) :
    ∀ job ∈ fields.mapIdx (fun i field => (Step.entry i, fun contents =>
      if room < ((i + 1) * size : ℕ) then .error .outside
      else field.2 type (place ++ [.entry i]) (memberPath path field.1) contents)),
      IsLocal (place ++ [job.1]) job.2 := by
  intro job member
  obtain ⟨i, inside, rfl⟩ := List.mem_mapIdx.mp member
  intro contents next runs
  dsimp only at runs
  split at runs
  · cases runs
  · exact each _ (List.getElem_mem inside) _ _ _ contents next runs

/-- The jobs of a struct are those of the members whose keys are there. -/
theorem mem_memberJobs {i : ℕ} {members : List (StructMember L I C × Text)} {job : Step × Job Step C DecodeFailure} :
    job ∈ memberJobs fields place path i members ↔
      ∃ k member key assign, members[k]? = some (member, key) ∧ key ≠ [] ∧ fields.lookup key = some assign ∧
        job = (.member (i + k), assign member.type (place ++ [.member (i + k)]) (memberPath path key)) := by
  induction members generalizing i with
  | nil => simp [memberJobs]
  | cons first members ih =>
    obtain ⟨member, key⟩ := first
    have later : (∃ k member key assign, members[k]? = some (member, key) ∧ key ≠ [] ∧
        fields.lookup key = some assign ∧
        job = (.member (i + 1 + k), assign member.type (place ++ [.member (i + 1 + k)]) (memberPath path key))) ↔
        ∃ k member' key' assign, ((member, key) :: members)[k + 1]? = some (member', key') ∧ key' ≠ [] ∧
          fields.lookup key' = some assign ∧
          job = (.member (i + (k + 1)), assign member'.type (place ++ [.member (i + (k + 1))]) (memberPath path key')) := by
      simp only [List.getElem?_cons_succ, Nat.add_assoc, Nat.add_comm 1]
    rw [memberJobs]
    split
    · next none =>
      rw [ih, later]
      constructor
      · rintro ⟨k, found⟩
        exact ⟨k + 1, found⟩
      · rintro ⟨k, member', key', assign, here, some_key, found, rfl⟩
        cases k with
        | zero =>
          rw [List.getElem?_cons_zero] at here
          cases here
          rw [if_neg (by simpa using some_key), found] at none
          cases none
        | succ k => exact ⟨k, member', key', assign, here, some_key, found, rfl⟩
    · next assign found =>
      have some_key : key ≠ [] := by
        rintro rfl
        cases found
      rw [if_neg (by simpa using some_key)] at found
      rw [List.mem_cons, ih, later]
      constructor
      · rintro (rfl | ⟨k, found⟩)
        · exact ⟨0, member, key, assign, rfl, some_key, found, rfl⟩
        · exact ⟨k + 1, found⟩
      · rintro ⟨k, member', key', other, here, other_key, finds, rfl⟩
        cases k with
        | zero =>
          rw [List.getElem?_cons_zero] at here
          cases here
          rw [found] at finds
          cases finds
          exact .inl rfl
        | succ k => exact .inr ⟨k, member', key', other, here, other_key, finds, rfl⟩

theorem nodup_memberJobs (i : ℕ) (members : List (StructMember L I C × Text)) :
    ((memberJobs fields place path i members).map Prod.fst).Nodup := by
  induction members generalizing i with
  | nil => exact List.nodup_nil
  | cons first members ih =>
    obtain ⟨member, key⟩ := first
    rw [memberJobs]
    split
    · exact ih (i + 1)
    · rw [List.map_cons, List.nodup_cons]
      refine ⟨?_, ih (i + 1)⟩
      intro again
      obtain ⟨job, later, same⟩ := List.mem_map.mp again
      obtain ⟨k, _, _, _, _, _, _, is⟩ := mem_memberJobs.mp later
      rw [is] at same
      have index := Step.member.inj same
      omega

theorem isLocal_member (i : ℕ) (members : List (StructMember L I C × Text))
    (each : ∀ field ∈ fields, IsLocalAssigner field.2) :
    ∀ job ∈ memberJobs fields place path i members, IsLocal (place ++ [job.1]) job.2 := by
  intro job member
  obtain ⟨k, member, key, assign, -, -, found, rfl⟩ := mem_memberJobs.mp member
  obtain ⟨other, member⟩ := AssocList.mem_of_lookup found
  exact each _ member _ _ _

theorem runs_of_assignStruct {id : I}
    (assigns : assignStruct types options (.object pairs) fields id place path contents = .ok next) :
    ∃ keys, (types id).members.mapM (StructMember.keyOf options) = some keys ∧
      runEach (memberJobs fields place path 0 ((types id).members.zip keys)) contents = .ok next := by
  rw [assignStruct] at assigns
  split at assigns
  · cases assigns
  · next keys named =>
    refine ⟨keys, named, ?_⟩
    obtain ⟨last, runs, rest⟩ := exists_ok_of_bind assigns
    split at rest
    · cases rest
    · cases rest
      exact runs

variable [Zero C]

theorem onlyBelow_assignNull (type : Ty L I) (place : List Step) (contents : Contents Step C) :
    contents.OnlyBelow place (assignNull type place contents) := by
  unfold assignNull
  split
  · exact Contents.onlyBelow_write place 0 contents
  · exact Contents.onlyBelow_write place 0 contents
  · exact .refl place contents

theorem runs_of_assignMapEntries {type : Ty L I}
    (assigns : assignMapEntries layout (.object pairs) fields type place path contents = .ok next) :
    runEach (fields.mapIdx fun i field => (Step.entry i, fun contents =>
      if elementsRoom fields.length (layout.entrySize type) < ((i + 1) * layout.entrySize type : ℕ) then .error .outside
      else field.2 type (place ++ [.entry i]) (memberPath path field.1) contents))
      (contents.write place (layout.keys fields.keys)) = .ok next := by
  rw [assignMapEntries] at assigns
  obtain ⟨last, runs, rest⟩ := exists_ok_of_bind assigns
  split at rest
  · cases rest
    exact runs
  · cases rest

theorem isLocal_assignAs (each : ∀ item ∈ items, IsLocalAssigner item)
    (each_field : ∀ field ∈ fields, IsLocalAssigner field.2) :
    IsLocalAssigner (assignAs layout types options v items fields) := by
  intro type
  induction type with
  | optional type ih =>
    intro place path contents next runs
    rw [assignAs] at runs
    exact (Contents.onlyBelow_write place _ contents).trans (ih _ _ _ _ runs).of_append
  | pointer type ih =>
    intro place path contents next runs
    rw [assignAs] at runs
    split at runs
    · cases runs
    · split at runs
      · cases runs
      · exact (Contents.onlyBelow_write place _ contents).trans (ih _ _ _ _ runs).of_append
  | leaf l =>
    intro place path contents next runs
    rw [assignAs] at runs
    split at runs
    · cases runs
    · cases runs
      exact Contents.onlyBelow_write place _ contents
  | void =>
    intro place path contents next runs
    rw [assignAs] at runs
    cases runs
  | slice elem _ | list elem _ =>
    intro place path contents next runs
    rw [assignAs] at runs
    cases v with
    | array values =>
      exact (Contents.onlyBelow_write place _ contents).trans (runEach_onlyBelow (isLocal_element _ elem each) runs)
    | _ => cases runs
  | map type _ =>
    intro place path contents next runs
    rw [assignAs] at runs
    cases v with
    | object pairs =>
      exact (Contents.onlyBelow_write place _ contents).trans
        (runEach_onlyBelow (isLocal_entry _ _ type each_field) (runs_of_assignMapEntries runs))
    | _ => cases runs
  | fixed count elem _ =>
    intro place path contents next runs
    rw [assignAs] at runs
    cases v with
    | array values =>
      rw [assignFixed] at runs
      split at runs
      · cases runs
      · exact runEach_onlyBelow (isLocal_element _ elem each) runs
    | _ => cases runs
  | struct id =>
    intro place path contents next runs
    rw [assignAs] at runs
    cases v with
    | object pairs =>
      obtain ⟨keys, -, runs⟩ := runs_of_assignStruct runs
      exact runEach_onlyBelow (isLocal_member 0 _ each_field) runs
    | _ => cases runs

/-- Decoding into a part of a value leaves the others alone. -/
theorem isLocal_assign (v : Value F) : IsLocalAssigner (assign layout types options v) := by
  induction v using assign.induct with
  | case1 =>
    intro type place path contents next runs
    rw [assign_null] at runs
    cases runs
    exact onlyBelow_assignNull type place contents
  | case2 items ih =>
    rw [assign_array]
    apply isLocal_assignAs
    · intro sub member
      obtain ⟨item, inside, rfl⟩ := List.mem_map.mp member
      exact ih ⟨item, inside⟩
    · intro field member
      cases member
  | case3 fields ih =>
    rw [assign_object]
    apply isLocal_assignAs
    · intro sub member
      cases member
    · intro sub member
      obtain ⟨field, inside, rfl⟩ := List.mem_map.mp member
      exact ih ⟨field, inside⟩
  | case4 v null array object =>
    rw [assign.eq_4 _ _ _ v null array object]
    apply isLocal_assignAs
    · intro sub member
      cases member
    · intro field member
      cases member

end Local

section Occurrences

/-- Where what is in a part comes from before it is read: from the declarations, from the value that is declared for a
member around it, or it is zeroed. -/
inductive Origin (C : Type) where
  | declared
  | given (value : Contents Step C)
  | zeroed

namespace Origin

variable [Zero C] (types : I → TypeStruct L I C)

/-- The part before it is read. -/
def contents (type : Ty L I) : Origin C → Contents Step C
  | .declared => initial types type
  | .given value => value
  | .zeroed => fun _ => 0

/-- The origin of a member of the struct. -/
def member (member : StructMember L I C) (i : ℕ) : Origin C → Origin C
  | .declared =>
    match member.default with
    | some default => .given default
    | none => .declared
  | .given value => .given fun place => value (.member i :: place)
  | .zeroed => .zeroed

/-- The origin of an element of the fixed array. -/
def element (i : ℕ) : Origin C → Origin C
  | .declared => .declared
  | .given value => .given fun place => value (.element i :: place)
  | .zeroed => .zeroed

end Origin

variable (types : I → TypeStruct L I C) (options : Options)

/-- In a value that is read as the type, the fields are read as the struct `id` at the place. The origins are those of
the value and of the struct. -/
inductive Occurs : Value F → Ty L I → Origin C → List Step → I → AssocList Text (Value F) → Origin C → Prop
  | here {fields : AssocList Text (Value F)} {id : I} {origin : Origin C} :
      Occurs (.object fields) (.struct id) origin [] id fields origin
  | member {fields inner : AssocList Text (Value F)} {id at_id : I} {origin last : Origin C} {i : ℕ}
      {member : StructMember L I C} {key : Text} {v : Value F} {place : List Step}
      (declared : (types id).members[i]? = some member) (named : member.keyOf options = some key) (read : key ≠ [])
      (present : fields.lookup key = some v)
      (occurs : Occurs v member.type (origin.member member i) place at_id inner last) :
      Occurs (.object fields) (.struct id) origin (.member i :: place) at_id inner last
  | fixed {items : List (Value F)} {inner : AssocList Text (Value F)} {at_id : I} {origin last : Origin C} {i count : ℕ}
      {elem : Ty L I} {v : Value F} {place : List Step} (present : items[i]? = some v)
      (occurs : Occurs v elem (origin.element i) place at_id inner last) :
      Occurs (.array items) (.fixed count elem) origin (.element i :: place) at_id inner last
  | slice {items : List (Value F)} {inner : AssocList Text (Value F)} {at_id : I} {origin last : Origin C} {i : ℕ}
      {elem : Ty L I} {v : Value F} {place : List Step} (present : items[i]? = some v)
      (occurs : Occurs v elem .zeroed place at_id inner last) :
      Occurs (.array items) (.slice elem) origin (.element i :: place) at_id inner last
  | list {items : List (Value F)} {inner : AssocList Text (Value F)} {at_id : I} {origin last : Origin C} {i : ℕ}
      {elem : Ty L I} {v : Value F} {place : List Step} (present : items[i]? = some v)
      (occurs : Occurs v elem .zeroed place at_id inner last) :
      Occurs (.array items) (.list elem) origin (.element i :: place) at_id inner last
  | map {fields inner : AssocList Text (Value F)} {at_id : I} {origin last : Origin C} {i : ℕ} {type : Ty L I}
      {key : Text} {v : Value F} {place : List Step} (present : fields[i]? = some (key, v))
      (occurs : Occurs v type .zeroed place at_id inner last) :
      Occurs (.object fields) (.map type) origin (.entry i :: place) at_id inner last
  | optional {v : Value F} {type : Ty L I} {inner : AssocList Text (Value F)} {at_id : I} {origin last : Origin C}
      {place : List Step} (occurs : Occurs v type .zeroed place at_id inner last) :
      Occurs v (.optional type) origin (.item :: place) at_id inner last
  | pointer {v : Value F} {type : Ty L I} {inner : AssocList Text (Value F)} {at_id : I} {origin last : Origin C}
      {place : List Step} (occurs : Occurs v type .zeroed place at_id inner last) :
      Occurs v (.pointer type) origin (.pointee :: place) at_id inner last

variable {types options} in
theorem Occurs.ne_null {v : Value F} {type : Ty L I} {origin last : Origin C} {rel : List Step} {id : I}
    {inner : AssocList Text (Value F)} (occurs : Occurs types options v type origin rel id inner last) :
    v ≠ .null := by
  induction occurs with
  | here | member | fixed | slice | list | map =>
    intro null
    cases null
  | optional _ ih => exact ih
  | pointer _ ih => exact ih

/-- The JSON doesn't have the member, or it is skipped. -/
def StructMember.Absent (member : StructMember L I C) (fields : AssocList Text (Value F)) : Prop :=
  ∃ key, member.keyOf options = some key ∧ (key = [] ∨ fields.lookup key = none)

end Occurrences

section Kept

variable [Zero C] {layout : Layout F L I C} {types : I → TypeStruct L I C} {options : Options} {v : Value F}
  {type : Ty L I} {origin last : Origin C} {place rel : List Step} {path : Text} {id : I}
  {inner : AssocList Text (Value F)} {contents next : Contents Step C}
variable {elem : Ty L I} {i : ℕ} {key : Text} {member : StructMember L I C}

/-- A value that isn't null is read by its type. -/
theorem exists_assignAs (some_ : v ≠ .null) :
    ∃ items fields, assign layout types options v = assignAs layout types options v items fields := by
  induction v using assign.induct with
  | case1 => exact absurd rfl some_
  | case2 items _ => exact ⟨_, _, assign_array items⟩
  | case3 fields _ => exact ⟨_, _, assign_object fields⟩
  | case4 v null array object => exact ⟨_, _, assign.eq_4 _ _ _ v null array object⟩

theorem assign_optional (some_ : v ≠ .null)
    (assigns : assign layout types options v (.optional type) place path contents = .ok next) :
    assign layout types options v type (place ++ [.item]) path (contents.write place layout.present) = .ok next := by
  obtain ⟨items, fields, as⟩ := @exists_assignAs _ _ _ _ _ layout types options v some_
  rw [as, assignAs] at assigns
  rw [as]
  exact assigns

theorem assign_pointer (some_ : v ≠ .null)
    (assigns : assign layout types options v (.pointer type) place path contents = .ok next) :
    assign layout types options v type (place ++ [.pointee]) path (contents.write place layout.address) = .ok next := by
  obtain ⟨items, fields, as⟩ := @exists_assignAs _ _ _ _ _ layout types options v some_
  rw [as, assignAs] at assigns
  rw [as]
  split at assigns
  · cases assigns
  · split at assigns
    · cases assigns
    · exact assigns

/-- What is left below a step that is read. -/
def ReadsBelow (layout : Layout F L I C) (types : I → TypeStruct L I C) (options : Options) (v : Value F) (type : Ty L I)
    (place : List Step) (step : Step) (contents next : Contents Step C) : Prop :=
  ∃ path before after, assign layout types options v type (place ++ [step]) path before = .ok after ∧
    (∀ q, before (place ++ step :: q) = contents (place ++ step :: q)) ∧
    ∀ q, next (place ++ step :: q) = after (place ++ step :: q)

theorem reads_element {room : Option ℤ} {values : List (Value F)}
    (runs : assignElements layout room (values.map (assign layout types options)) elem place path contents = .ok next)
    (present : values[i]? = some v) :
    ReadsBelow layout types options v elem place (.element i) contents next := by
  obtain ⟨inside, rfl⟩ := List.getElem?_eq_some_iff.mp present
  have each : ∀ item ∈ values.map (assign layout types options), IsLocalAssigner item := by
    intro sub member
    obtain ⟨item, -, rfl⟩ := List.mem_map.mp member
    exact isLocal_assign item
  obtain ⟨before, after, ran, found, left⟩ := runEach_job (isLocal_element room elem each)
    (nodup_mapIdx_fst (fun i j same => Step.element.inj same) _ _) runs (List.mem_mapIdx.mpr ⟨i, by rwa [List.length_map], rfl⟩)
  dsimp only at ran
  split at ran
  · cases ran
  · rw [List.getElem_map] at ran
    exact ⟨_, before, after, ran, found, left⟩

theorem isLocal_fields (fields : List (Text × Value F)) :
    ∀ field ∈ fields.map (fun field => (field.1, assign layout types options field.2)),
      IsLocalAssigner field.2 := by
  intro sub member
  obtain ⟨field, -, rfl⟩ := List.mem_map.mp member
  exact isLocal_assign field.2

theorem reads_entry {fields : List (Text × Value F)}
    (assigns : assign layout types options (.object fields) (.map type) place path contents = .ok next)
    (present : fields[i]? = some (key, v)) :
    ReadsBelow layout types options v type place (.entry i) (contents.write place (layout.keys (fields.map Prod.fst))) next := by
  obtain ⟨inside, is⟩ := List.getElem?_eq_some_iff.mp present
  rw [assign_object, assignAs] at assigns
  have runs := runs_of_assignMapEntries assigns
  obtain ⟨before, after, ran, found, left⟩ := runEach_job (isLocal_entry _ _ type (isLocal_fields fields))
    (nodup_mapIdx_fst (fun i j same => Step.entry.inj same) _ _) runs (List.mem_mapIdx.mpr ⟨i, by rwa [List.length_map], rfl⟩)
  dsimp only at ran
  split at ran
  · cases ran
  · rw [List.getElem_map, is] at ran
    refine ⟨_, before, after, ran, ?_, left⟩
    rwa [AssocList.keys, List.map_map] at found

theorem getElem?_of_mapM {α β : Type} {f : α → Option β} {xs : List α} {ys : List β} (each : xs.mapM f = some ys) (i : ℕ) :
    ys[i]? = xs[i]?.bind f := by
  induction xs generalizing ys i with
  | nil =>
    cases each
    rfl
  | cons x xs ih =>
    rw [List.mapM_cons] at each
    obtain ⟨y, first, rest⟩ := Option.bind_eq_some_iff.mp each
    obtain ⟨more, others, same⟩ := Option.bind_eq_some_iff.mp rest
    obtain rfl := Option.some.inj same
    cases i with
    | zero => exact first.symm
    | succ i => exact ih others i

theorem reads_member {fields : List (Text × Value F)}
    (assigns : assign layout types options (.object fields) (.struct id) place path contents = .ok next)
    (declared : (types id).members[i]? = some member) (named : member.keyOf options = some key)
    (read : key ≠ []) (present : AssocList.lookup key fields = some v) :
    ReadsBelow layout types options v member.type place (.member i) contents next := by
  rw [assign_object, assignAs] at assigns
  obtain ⟨keys, all, runs⟩ := runs_of_assignStruct assigns
  have here : ((types id).members.zip keys)[i]? = some (member, key) := by
    rw [List.getElem?_zip_eq_some, getElem?_of_mapM all, declared]
    exact ⟨rfl, named⟩
  have job := @mem_memberJobs _ _ _ (fields.map fun field => (field.1, assign layout types options field.2)) place path
    0 ((types id).members.zip keys) (.member i, assign layout types options v member.type (place ++ [.member i])
      (memberPath path key))
  obtain ⟨before, after, ran, found, left⟩ := runEach_job (isLocal_member 0 _ (isLocal_fields fields))
    (nodup_memberJobs 0 _) runs
    (job.mpr ⟨i, member, key, _, here, read, by rw [AssocList.lookup_map, present]; rfl, by rw [Nat.zero_add]⟩)
  exact ⟨_, before, after, ran, found, left⟩

/-- A member that the JSON doesn't have is left alone. -/
theorem untouched_of_absent {fields : List (Text × Value F)}
    (assigns : assign layout types options (.object fields) (.struct id) place path contents = .ok next)
    (declared : (types id).members[i]? = some member) (absent : member.Absent options fields)
    (q : List Step) :
    next (place ++ .member i :: q) = contents (place ++ .member i :: q) := by
  rw [assign_object, assignAs] at assigns
  obtain ⟨keys, all, runs⟩ := runs_of_assignStruct assigns
  apply runEach_untouched (isLocal_member 0 _ (isLocal_fields fields)) runs
  intro again
  obtain ⟨job, inside, same⟩ := List.mem_map.mp again
  obtain ⟨k, other, key, sub, here, read, found, is⟩ := mem_memberJobs.mp inside
  rw [is] at same
  obtain rfl : k = i := by
    have index := Step.member.inj same
    omega
  obtain ⟨declared_k, named⟩ := List.getElem?_zip_eq_some.mp here
  rw [getElem?_of_mapM all, declared] at named
  obtain ⟨none, key_is, nothing⟩ := absent
  rw [Option.bind_some, key_is] at named
  obtain rfl := Option.some.inj named
  obtain empty | nothing := nothing
  · exact read empty
  · rw [AssocList.lookup_map, nothing] at found
    cases found

theorem Origin.contents_member (origin : Origin C) (declared : (types id).members[i]? = some member)
    (q : List Step) :
    origin.contents types (.struct id) (.member i :: q) = (origin.member member i).contents types member.type q := by
  cases origin with
  | declared =>
    simp only [contents, initial, initialAt, declared, Origin.member]
    cases member.default <;> rfl
  | given value => rfl
  | zeroed => rfl

theorem Origin.contents_element {count : ℕ} (origin : Origin C) (inside : i < count) (q : List Step) :
    origin.contents types (.fixed count elem) (.element i :: q) = (origin.element i).contents types elem q := by
  cases origin with
  | declared =>
    rw [contents, initial, initialAt, if_pos inside]
    rfl
  | given value => rfl
  | zeroed => rfl

/-- How a value is read settles what is below its step. -/
theorem ReadsBelow.settles {step : Step} {value : Contents Step C} {more : List Step} {c : C}
    (reads : ReadsBelow layout types options v type place step contents next)
    (holds : ∀ q, contents (place ++ step :: q) = value q)
    (settle : ∀ {place path} {contents next : Contents Step C},
      assign layout types options v type place path contents = .ok next →
      (∀ q, contents (place ++ q) = value q) → next (place ++ more) = c) :
    next (place ++ step :: more) = c := by
  obtain ⟨path, before, after, ran, found, left⟩ := reads
  have settled := settle ran fun q => by
    rw [List.append_assoc]
    exact (found q).trans (holds q)
  rw [left]
  rwa [List.append_assoc] at settled

theorem write_below (place : List Step) (c : C) (contents : Contents Step C) (step : Step) (q : List Step) :
    contents.write place c (place ++ step :: q) = 0 := by
  have holds := Contents.holds_write place c contents step q
  rwa [List.append_assoc] at holds

/-- What isn't read is where a struct occurs what its origin says. The induction is on the way to the struct. -/
theorem Occurs.absent_kept (occurs : Occurs types options v type origin rel id inner last)
    (assigns : assign layout types options v type place path contents = .ok next)
    (holds : ∀ q, contents (place ++ q) = origin.contents types type q)
    (declared : (types id).members[i]? = some member) (absent : member.Absent options inner)
    (q : List Step) :
    next (place ++ (rel ++ .member i :: q)) = last.contents types (.struct id) (.member i :: q) := by
  induction occurs generalizing place path contents next with
  | here =>
    rw [List.nil_append, untouched_of_absent assigns declared absent, holds]
  | member at_member named read present _ ih =>
    exact (reads_member assigns at_member named read present).settles
      (fun q => (holds _).trans (Origin.contents_member _ at_member q)) fun ran before => ih ran before declared absent
  | fixed present _ ih =>
    rw [assign_array, assignAs, assignFixed] at assigns
    split at assigns
    · cases assigns
    · next room =>
      rw [List.length_map, not_lt] at room
      have inside := (List.getElem?_eq_some_iff.mp present).1
      exact (reads_element assigns present).settles
        (fun q => (holds _).trans (Origin.contents_element _ (Nat.lt_of_lt_of_le inside room) q))
        fun ran before => ih ran before declared absent
  | slice present _ ih | list present _ ih =>
    rw [assign_array, assignAs, assignList] at assigns
    exact (reads_element assigns present).settles (write_below _ _ _ _) fun ran before => ih ran before declared absent
  | map present _ ih =>
    exact (reads_entry assigns present).settles (write_below _ _ _ _) fun ran before => ih ran before declared absent
  | optional occurs ih =>
    have settled := ih (assign_optional occurs.ne_null assigns) (Contents.holds_write _ _ _ _) declared absent
    rwa [List.append_assoc] at settled
  | pointer occurs ih =>
    have settled := ih (assign_pointer occurs.ne_null assigns) (Contents.holds_write _ _ _ _) declared absent
    rwa [List.append_assoc] at settled

end Kept

section Defaults

variable [Zero C] (types : I → TypeStruct L I C) (options : Options)

/-- The default that a struct declares for a member, with those of the structs in it. Without any it is zero. -/
def declaredDefault (member : StructMember L I C) : Contents Step C :=
  member.default.getD (initial types member.type)

/-- Wherever a struct occurs in the decoded value, the members that the JSON doesn't have have their defaults. -/
def KeepsDefaults (root : Value F) (type : Ty L I) (value : Contents Step C) : Prop :=
  ∀ place id fields origin, Occurs types options root type .declared place id fields origin →
    ∀ i member, (types id).members[i]? = some member → member.Absent options fields →
      ∀ q, value (place ++ .member i :: q) = declaredDefault types member q

/-- What is in the struct before it is read is the default of the member. In zeroed memory the default must be zero, and
in a value that is declared for a member around the struct it must be what that value says. -/
def Origin.Keeps (i : ℕ) (member : StructMember L I C) : Origin C → Prop
  | .declared => True
  | .given value => ∀ q, value (.member i :: q) = declaredDefault types member q
  | .zeroed => ∀ q, declaredDefault types member q = 0

/-- Where a struct occurs without a member, the default of the member survives the way there. -/
def DefaultsSurvive (root : Value F) (type : Ty L I) : Prop :=
  ∀ place id fields origin, Occurs types options root type .declared place id fields origin →
    ∀ i member, (types id).members[i]? = some member → member.Absent options fields → origin.Keeps types i member

variable {types options}

theorem Origin.keeps_iff {i : ℕ} {member : StructMember L I C} {id : I} (origin : Origin C)
    (declared : (types id).members[i]? = some member) :
    origin.Keeps types i member ↔
      ∀ q, origin.contents types (.struct id) (.member i :: q) = declaredDefault types member q := by
  cases origin with
  | declared =>
    refine iff_of_true trivial fun q => ?_
    simp only [contents, initial, initialAt, declared, declaredDefault]
    cases member.default <;> rfl
  | given value => rfl
  | zeroed => exact forall_congr' fun q => eq_comm

variable {strtod : Text → F} {layout : Layout F L I C} {text : Text} {root : Value F} {type : Ty L I}
  {value : Contents Step C}

theorem assign_of_decode (reads : parse strtod text = some (.ok root))
    (decodes : decode strtod layout types options text type = some (.ok value)) :
    assign layout types options root type [] [] (initial types type) = .ok value := by
  rw [decode, decodeInto, reads] at decodes
  dsimp only at decodes
  split at decodes
  · cases decodes
  · next assigns =>
    cases decodes
    exact assigns

theorem keeps_defaults_iff (reads : parse strtod text = some (.ok root))
    (decodes : decode strtod layout types options text type = some (.ok value)) :
    KeepsDefaults types options root type value ↔ DefaultsSurvive types options root type := by
  have assigns := assign_of_decode reads decodes
  have kept {place : List Step} {id : I} {fields : AssocList Text (Value F)} {origin : Origin C}
      (occurs : Occurs types options root type .declared place id fields origin) {i : ℕ}
      {member : StructMember L I C} (declared : (types id).members[i]? = some member)
      (absent : member.Absent options fields) (q : List Step) :
      value (place ++ .member i :: q) = origin.contents types (.struct id) (.member i :: q) :=
    occurs.absent_kept assigns (fun q => rfl) declared absent q
  constructor
  · intro keeps place id fields origin occurs i member declared absent
    refine (origin.keeps_iff declared).mpr fun q => ?_
    rw [← kept occurs declared absent]
    exact keeps place id fields origin occurs i member declared absent q
  · intro survive place id fields origin occurs i member declared absent q
    rw [kept occurs declared absent]
    exact (origin.keeps_iff declared).mp (survive place id fields origin occurs i member declared absent) q

/-- A struct with a number that is 8080 if the JSON doesn't have it. -/
def serverTypes : Unit → TypeStruct Unit Unit ℤ := fun _ =>
  { name := asciiBytes "Server"
    members := [{ name := asciiBytes "port", type := .leaf (), default := some fun _ => 8080 }] }

/-- Numbers are read as they are. -/
def serverLayout : Layout ℤ Unit Unit ℤ where
  read _ v path :=
    match v with
    | .number n _ => .ok n
    | v => .error (mismatch path (asciiBytes "a number") v)
  count n := n
  keys texts := texts.length
  address := 1
  present := 1
  size _ := 4
  entrySize _ := 32

/-- The number that the digits say. -/
def readDigits (text : Text) : ℤ := text.foldl (fun n digit => n * 10 + (digit.toNat - 48)) 0

theorem keeps_defaults_outermost : ∃ root value,
    parse readDigits (asciiBytes "\x7b\x7d") = some (.ok root) ∧
      decode readDigits serverLayout serverTypes {} (asciiBytes "\x7b\x7d") (.struct ()) = some (.ok value) ∧
      (KeepsDefaults serverTypes {} root (.struct ()) value ↔ DefaultsSurvive serverTypes {} root (.struct ())) := by
  have reads : parse readDigits (asciiBytes "\x7b\x7d") = some (.ok (.object [])) := rfl
  have decodes : decode readDigits serverLayout serverTypes {} (asciiBytes "\x7b\x7d") (.struct ()) =
      some (.ok (initial serverTypes (.struct ()))) := by
    rw [decode, decodeInto, reads]
    simp only [assign_object]
    rfl
  exact ⟨_, _, reads, decodes, keeps_defaults_iff reads decodes⟩

theorem not_keeps_defaults : ∃ root value,
    parse readDigits (asciiBytes "[\x7b\x7d]") = some (.ok root) ∧
      decode readDigits serverLayout serverTypes {} (asciiBytes "[\x7b\x7d]") (.list (.struct ())) =
        some (.ok value) ∧
      ¬KeepsDefaults serverTypes {} root (.list (.struct ())) value := by
  have reads : parse readDigits (asciiBytes "[\x7b\x7d]") = some (.ok (.array [.object []])) := rfl
  have decodes : decode readDigits serverLayout serverTypes {} (asciiBytes "[\x7b\x7d]") (.list (.struct ())) =
      some (.ok ((initial serverTypes (.list (.struct ()))).write [] 1)) := by
    rw [decode, decodeInto, reads]
    simp only [assign_array, List.map_cons, assign_object]
    rfl
  refine ⟨_, _, reads, decodes, fun keeps => ?_⟩
  have port := keeps [.element 0] () [] .zeroed (.list rfl .here) 0 _ rfl ⟨asciiBytes "port", rfl, .inr rfl⟩ []
  exact absurd port (by decide)

end Defaults

end Saad.Json
