import Saad.General.Places
import Saad.Json.DecodeMap
import Saad.Json.Writer
import Saad.Json.Parse

/-! # Decoding through reflection

`decode` sets the defaults of a value, and `assign` writes what the parsed JSON has into it, by its type. What is behind
a pointer, and the elements of a slice, a list or a map, are places below it: their memory is new each time, so that
nothing else leads there. How a value without places below it is read is any function.
-/

namespace Saad.Json

open General

/-- A step from a value to a part of it. -/
inductive Step where
  | member (i : ℕ)
  | element (i : ℕ)
  /-- The value of an entry of a map. -/
  | entry (i : ℕ)
  /-- The value of an optional. -/
  | item
  /-- What a pointer points to. -/
  | pointee
deriving DecidableEq, Repr

/-- The types. `L` are those that are read as a whole (bools, numbers, strings, enums, times and JSON values), and `I`
names the structs. -/
inductive Ty (L I : Type) where
  | leaf (l : L)
  | void
  | pointer (pointerTo : Ty L I)
  | optional (item : Ty L I)
  | slice (elemType : Ty L I)
  | list (elemType : Ty L I)
  /-- A map with strings as keys. -/
  | map (valueType : Ty L I)
  | fixed (count : ℕ) (elemType : Ty L I)
  | struct (id : I)

def Ty.isVoid {L I : Type} : Ty L I → Bool
  | .void => true
  | _ => false

/-- How a struct member is written and read. -/
structure Field where
  name : Text := []
  skip : Bool := false
  omitEmpty : Bool := false
deriving DecidableEq, Repr

/-- A member of a struct. `default` is the value of the expression that is declared for it. -/
structure StructMember (L I C : Type) where
  name : Text
  type : Ty L I
  field : Option Field := none
  hidden : Bool := false
  default : Option (Contents Step C) := none

structure TypeStruct (L I C : Type) where
  name : Text
  members : List (StructMember L I C)

/-- What is written for a part that has no parts itself, or that has them and something of its own: the number of the
elements, the keys of a map, an address, or that an optional has a value. The sizes are those in memory. -/
structure Layout (F L I C : Type) where
  read : L → Value F → Text → Except Text C
  count : ℕ → C
  keys : List Text → C
  address : C
  present : C
  size : Ty L I → ℕ
  entrySize : Ty L I → ℕ

/-- The message of a failed decode, or the program writes outside of its memory. -/
inductive DecodeFailure where
  | message (text : Text)
  | outside
deriving DecidableEq, Repr

section Paths

def failAt (path message : Text) : Text :=
  if path.length = 0 then message else path ++ asciiBytes ": " ++ message

def indexPath (path : Text) (i : ℕ) : Text := path ++ byteOf '[' :: decimalText i ++ [byteOf ']']

end Paths

variable {F L I C : Type}

/-- How a member is written and read, and if it has a name of its own in the JSON. -/
def StructMember.fieldOf (member : StructMember L I C) : Field × Bool :=
  let field := member.field.getD {}
  let named := member.field.isSome && 0 < field.name.length
  let field := if named then field else { field with name := member.name }
  (if member.hidden then { field with skip := true } else field, named)

/-- The name of a member in the JSON, empty for skipped members. -/
def StructMember.keyOf (options : Options) (member : StructMember L I C) : Option Text :=
  if member.fieldOf.1.skip then some []
  else if member.fieldOf.2 then some member.fieldOf.1.name
  else styleName member.name options.names

section Defaults

variable [Zero C] (types : I → TypeStruct L I C)

/-- What is at a place of a value of the type that is declared without an initializer. -/
def initialAt : List Step → Ty L I → C
  | .member i :: place, .struct id =>
    match (types id).members[i]? with
    | none => 0
    | some member =>
      match member.default with
      | some default => default place
      | none => initialAt place member.type
  | .element i :: place, .fixed count elem => if i < count then initialAt place elem else 0
  | .item :: place, .optional type => initialAt place type
  | _, _ => 0

def initial (type : Ty L I) : Contents Step C := fun place => initialAt types place type

end Defaults

/-- Writes into the part at a place. The path names it in the errors. -/
abbrev Assigner (L I C : Type) := Ty L I → List Step → Text → Job Step C DecodeFailure

section Assign

variable [Zero C] (layout : Layout F L I C) (types : I → TypeStruct L I C) (options : Options)

/-- null leaves the value as it is, but a pointer becomes null and an optional empty. -/
def assignNull (type : Ty L I) (place : List Step) : Contents Step C → Contents Step C :=
  match type with
  | .pointer _ | .optional _ => Contents.write place 0
  | _ => id

/-- The memory for so many elements, and one more. -/
def elementsRoom (count size : ℕ) : ℤ := allocated (int32 (int32 (int32 count + 1) * size))

/-- The loop over the elements of an array. `room` is the memory that was allocated for them. -/
def assignElements (room : Option ℤ) (items : List (Assigner L I C)) (elem : Ty L I) (place : List Step)
    (path : Text) : Job Step C DecodeFailure :=
  runEach (items.mapIdx fun i item => (Step.element i, fun contents =>
    if room.any fun room : ℤ => room < ((i + 1) * layout.size elem : ℕ) then .error .outside
    else item elem (place ++ [.element i]) (indexPath path i) contents))

/-- A slice or a list, whose elements get new memory. -/
def assignList (v : Value F) (items : List (Assigner L I C)) (elem : Ty L I) (place : List Step) (path : Text) :
    Job Step C DecodeFailure := fun contents =>
  match v with
  | .array _ =>
    assignElements layout (some (elementsRoom items.length (layout.size elem))) items elem place path
      (contents.write place (layout.count items.length))
  | v => .error (.message (mismatch path (asciiBytes "an array") v))

/-- A fixed array, whose elements are where they were. -/
def assignFixed (v : Value F) (items : List (Assigner L I C)) (count : ℕ) (elem : Ty L I) (place : List Step)
    (path : Text) : Job Step C DecodeFailure := fun contents =>
  match v with
  | .array _ =>
    if count < items.length then
      .error (.message (failAt path (asciiBytes "The array has " ++ decimalText items.length ++
        asciiBytes " elements, but there is room for " ++ decimalText count)))
    else assignElements layout none items elem place path contents
  | v => .error (.message (mismatch path (asciiBytes "an array") v))

/-- If the table of slots for so many entries has the memory that it needs. -/
def slotsFit (count : ℕ) : Bool :=
  (slotCapacity count).any fun capacity => (capacity * 8 : ℕ) ≤ allocated (int32 (int32 capacity * 8))

/-- The entries of a map, in new memory. The table of their slots needs memory too. -/
def assignMapEntries (v : Value F) (fields : AssocList Text (Assigner L I C)) (type : Ty L I) (place : List Step)
    (path : Text) : Job Step C DecodeFailure := fun contents =>
  match v with
  | .object _ => do
    let room := elementsRoom fields.length (layout.entrySize type)
    let contents ← runEach (fields.mapIdx fun i field => (Step.entry i, fun contents =>
        if room < ((i + 1) * layout.entrySize type : ℕ) then .error .outside
        else field.2 type (place ++ [.entry i]) (memberPath path field.1) contents))
      (contents.write place (layout.keys fields.keys))
    if slotsFit fields.length then return contents else .error .outside
  | v => .error (.message (mismatch path (asciiBytes "an object") v))

/-- The members that the JSON has, with their keys. -/
def memberJobs (fields : AssocList Text (Assigner L I C)) (place : List Step) (path : Text) :
    ℕ → List (StructMember L I C × Text) → List (Step × Job Step C DecodeFailure)
  | _, [] => []
  | i, (member, key) :: members =>
    match if key.length = 0 then none else fields.lookup key with
    | none => memberJobs fields place path (i + 1) members
    | some assign =>
      (.member i, assign member.type (place ++ [.member i]) (memberPath path key)) ::
        memberJobs fields place path (i + 1) members

def assignStruct (v : Value F) (fields : AssocList Text (Assigner L I C)) (id : I) (place : List Step) (path : Text) :
    Job Step C DecodeFailure := fun contents =>
  match v with
  | .object _ =>
    match (types id).members.mapM (StructMember.keyOf options) with
    | none => .error .outside
    | some keys => do
      let contents ← runEach (memberJobs fields place path 0 ((types id).members.zip keys)) contents
      match if options.strict then fields.keys.find? fun key => !keys.contains key else none with
      | some key =>
        .error (.message (failAt path ((types id).name ++ asciiBytes " has no member '" ++ key ++ asciiBytes "'")))
      | none => return contents
  | v => .error (.message (mismatch path (asciiBytes "an object") v))

/-- Reads a value that isn't null, whose items or fields are read with the functions. -/
def assignAs (v : Value F) (items : List (Assigner L I C)) (fields : AssocList Text (Assigner L I C)) : Assigner L I C
  | .optional type, place, path, contents =>
    assignAs v items fields type (place ++ [.item]) path (contents.write place layout.present)
  | .pointer type, place, path, contents =>
    if type.isVoid then .error (.message (failAt path (asciiBytes "Can't read JSON into a *void")))
    else if allocated (int32 (layout.size type)) < layout.size type then .error .outside
    else assignAs v items fields type (place ++ [.pointee]) path (contents.write place layout.address)
  | .leaf l, place, path, contents =>
    match layout.read l v path with
    | .error err => .error (.message err)
    | .ok c => .ok (contents.write place c)
  | .void, _, path, _ => .error (.message (failAt path (asciiBytes "Can't read JSON into a value of type void")))
  | .slice elem, place, path, contents => assignList layout v items elem place path contents
  | .list elem, place, path, contents => assignList layout v items elem place path contents
  | .map type, place, path, contents => assignMapEntries layout v fields type place path contents
  | .fixed count elem, place, path, contents => assignFixed layout v items count elem place path contents
  | .struct id, place, path, contents => assignStruct types options v fields id place path contents

/-- Reads the value into the part at the place, which is of the type. -/
def assign : Value F → Assigner L I C
  | .null => fun type place _ contents => .ok (assignNull type place contents)
  | .array items =>
    assignAs layout types options (.array items) (items.attach.map fun item => assign item.1) []
  | .object fields =>
    assignAs layout types options (.object fields) [] (fields.attach.map fun field => (field.1.1, assign field.1.2))
  | v => assignAs layout types options v [] []
termination_by v => sizeOf v
decreasing_by
  · have smaller := List.sizeOf_lt_of_mem item.2
    simp only [Value.array.sizeOf_spec]
    omega
  · have smaller := List.sizeOf_lt_of_mem field.2
    have part : sizeOf field.1.2 < sizeOf field.1 := by
      cases field.1
      simp only [Prod.mk.sizeOf_spec]
      omega
    simp only [Value.object.sizeOf_spec]
    omega

end Assign

/-- What `decode` and `decodeInto` tell when the JSON can't be read. -/
inductive DecodeError where
  | parse (err : ParseError)
  | assign (failure : DecodeFailure)
deriving DecidableEq, Repr

section Decode

variable [Zero C] (strtod : Text → F) (layout : Layout F L I C) (types : I → TypeStruct L I C) (options : Options)

/-- Reads the text into a value that exists. -/
def decodeInto (text : Text) (type : Ty L I) (value : Contents Step C) :
    Option (Except DecodeError (Contents Step C)) :=
  match parse strtod text with
  | none => none
  | some (.error err) => some (.error (.parse err))
  | some (.ok root) =>
    match assign layout types options root type [] [] value with
    | .error failure => some (.error (.assign failure))
    | .ok value => some (.ok value)

def decode (text : Text) (type : Ty L I) : Option (Except DecodeError (Contents Step C)) :=
  decodeInto strtod layout types options text type (initial types type)

end Decode

section Reads

variable [Zero C] {layout : Layout F L I C} {types : I → TypeStruct L I C} {options : Options}

theorem assign_null (type : Ty L I) (place : List Step) (path : Text) (contents : Contents Step C) :
    assign layout types options .null type place path contents = .ok (assignNull type place contents) := by
  rw [assign]

theorem assign_array (items : List (Value F)) : assign layout types options (.array items) =
    assignAs layout types options (.array items) (items.map (assign layout types options)) [] := by
  rw [assign, List.attach_map_val]

theorem assign_object (fields : List (Text × Value F)) : assign layout types options (.object fields) =
    assignAs layout types options (.object fields) []
      (fields.map fun field => (field.1, assign layout types options field.2)) := by
  rw [assign]
  congr 1
  exact List.attach_map_val (f := fun field : Text × Value F => (field.1, assign layout types options field.2))

end Reads

end Saad.Json
