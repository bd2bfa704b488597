import MiniProgram.Json.Decode
import MiniProgram.Proofs.Outcome

/-!
# Records that are read from objects

The fields of a record are looked up in an object by their keys, so it does not matter in which
order its entries stand. If the keys are distinct, and every entry passes the check of its field,
then all that is found are the entries (`openFields_eq_ok_iff`), each under its key (`required_eq`).
-/

namespace MiniProgram.Json.Decode

variable {shape : Shape} {other : Check} {entries : List (String × Value)} {entry : String × Value}
  {fields : Fields}

/-- The trees of the values of entries. -/
def nodes (entries : List (String × Value)) : List (String × Node) :=
  entries.map fun entry => (entry.1, Node.ofValue entry.2)

/-- An entry that is a field of a record. -/
def isField (shape : Shape) (entry : String × Value) : Bool :=
  (shape.lookup entry.1).isSome

/-- The check of an entry, which is `other` if it is no field. -/
def accepts (shape : Shape) (other : Check) (entry : String × Value) : Except Fault Unit :=
  (shape.lookup entry.1).getD other (Node.ofValue entry.2)

/-- What is found in an object with some entries. -/
def found (shape : Shape) (entries : List (String × Value)) : Fields where
  known := nodes (entries.filter (isField shape))
  others := nodes (entries.filter fun entry => !isField shape entry)
  missing := .missingField

/-- A text is read back from its tree. -/
theorem string_ofValue (text : String) : string (Node.ofValue (.string text)) = .ok text := by
  rw [Node.ofValue, string, String.ofList_toList]

section Entry

variable {known others : List (String × Node)} {key : String} {value : Value}
  {rest : List (String × Value)}

/-- Reading an object goes past an entry that is no field, if its node is accepted. -/
theorem objectFields_cons_other (h : shape.lookup key = none) :
    objectFields shape other known others (Node.ofEntries ((key, value) :: rest)) =
      other (Node.ofValue value) >>= fun _ => objectFields shape other known
        ((key, Node.ofValue value) :: others) (Node.ofEntries rest) := by
  have hkey : string (.string (some key.toList)) = .ok key := string_ofValue key
  rw [Node.ofEntries, objectFields, hkey]
  simp only [bind, Except.bind, h]

/-- Reading an object takes an entry that is a field for the first time, if its node passes the
check. -/
theorem objectFields_cons_field {check : Check} (h : shape.lookup key = some check)
    (hnew : ∀ earlier ∈ known, earlier.1 ≠ key) :
    objectFields shape other known others (Node.ofEntries ((key, value) :: rest)) =
      check (Node.ofValue value) >>= fun _ => objectFields shape other
        ((key, Node.ofValue value) :: known) others (Node.ofEntries rest) := by
  have hkey : string (.string (some key.toList)) = .ok key := string_ofValue key
  have hfresh : ¬ (known.any fun earlier => earlier.1 == key) = true := by
    rw [List.any_eq_true]
    rintro ⟨earlier, hearlier, hsame⟩
    exact hnew earlier hearlier (beq_iff_eq.1 hsame)
  rw [Node.ofEntries, objectFields, hkey]
  simp only [bind, Except.bind, h, if_neg hfresh]

/-- An entry that is no field is found among the others. -/
theorem found_cons_other (h : shape.lookup key = none) :
    found shape ((key, value) :: rest) = ⟨(found shape rest).known,
      (key, Node.ofValue value) :: (found shape rest).others, .missingField⟩ := by
  have hother : isField shape (key, value) = false := by rw [isField, h, Option.isSome_none]
  simp [found, nodes, hother]

/-- An entry that is a field is found among the known ones. -/
theorem found_cons_field {check : Check} (h : shape.lookup key = some check) :
    found shape ((key, value) :: rest) = ⟨(key, Node.ofValue value) :: (found shape rest).known,
      (found shape rest).others, .missingField⟩ := by
  have hfield : isField shape (key, value) = true := by rw [isField, h, Option.isSome_some]
  simp [found, nodes, hfield]

end Entry

/-- Going through entries finds all of them behind those found before, if they pass their checks. -/
theorem objectFields_eq_ok_iff {known others : List (String × Node)}
    (hnodup : (entries.map Prod.fst).Nodup)
    (hnew : ∀ entry ∈ entries, ∀ earlier ∈ known, earlier.1 ≠ entry.1) :
    objectFields shape other known others (Node.ofEntries entries) = .ok fields ↔
      (∀ entry ∈ entries, accepts shape other entry = .ok ()) ∧
        fields = ⟨known.reverse ++ (found shape entries).known,
          others.reverse ++ (found shape entries).others, .missingField⟩ := by
  induction entries generalizing known others with
  | nil => simp [Node.ofEntries, objectFields, found, nodes, eq_comm]
  | cons entry rest ih =>
      obtain ⟨key, value⟩ := entry
      obtain ⟨hkey, hrest⟩ := List.nodup_cons.1 hnodup
      obtain ⟨hfirst, hnew⟩ := List.forall_mem_cons.1 hnew
      rw [List.forall_mem_cons, and_assoc, accepts]
      cases hlookup : shape.lookup key with
      | none =>
          rw [objectFields_cons_other hlookup, found_cons_other hlookup, except_bind_eq_ok_iff,
            Option.getD_none]
          simp only [ih hrest hnew, List.reverse_cons, List.append_assoc, List.singleton_append]
          exact ⟨fun ⟨_, hcheck, h⟩ => ⟨hcheck, h⟩, fun ⟨hcheck, h⟩ => ⟨(), hcheck, h⟩⟩
      | some check =>
          have hnext : ∀ entry ∈ rest, ∀ earlier ∈ (key, Node.ofValue value) :: known,
              earlier.1 ≠ entry.1 := by
            intro entry hentry
            refine List.forall_mem_cons.2 ⟨fun hsame => hkey ?_, hnew entry hentry⟩
            exact List.mem_map.2 ⟨entry, hentry, hsame.symm⟩
          rw [objectFields_cons_field hlookup hfirst, found_cons_field hlookup,
            except_bind_eq_ok_iff, Option.getD_some]
          simp only [ih hrest hnext, List.reverse_cons, List.append_assoc, List.singleton_append]
          exact ⟨fun ⟨_, hcheck, h⟩ => ⟨hcheck, h⟩, fun ⟨hcheck, h⟩ => ⟨(), hcheck, h⟩⟩

/-- Only the entries that are no fields are checked by `other`. -/
theorem objectFields_congr {other' : Check} {known others : List (String × Node)}
    (h : ∀ entry ∈ entries, isField shape entry = false →
      other (Node.ofValue entry.2) = other' (Node.ofValue entry.2)) :
    objectFields shape other known others (Node.ofEntries entries) =
      objectFields shape other' known others (Node.ofEntries entries) := by
  induction entries generalizing known others with
  | nil => rw [Node.ofEntries, objectFields, objectFields]
  | cons entry rest ih =>
      obtain ⟨key, value⟩ := entry
      obtain ⟨hfirst, hrest⟩ := List.forall_mem_cons.1 h
      cases hlookup : shape.lookup key with
      | none =>
          have hother : isField shape (key, value) = false := by
            rw [isField, hlookup, Option.isSome_none]
          rw [objectFields_cons_other hlookup, objectFields_cons_other hlookup, hfirst hother]
          simp only [ih hrest]
      | some check =>
          have hkey : string (.string (some key.toList)) = .ok key := string_ofValue key
          rw [Node.ofEntries, objectFields, objectFields, hkey]
          simp only [bind, Except.bind, hlookup, ih hrest]

/-- Reading a record finds the entries of an object if they pass their checks. -/
theorem openFields_eq_ok_iff (hnodup : (entries.map Prod.fst).Nodup) :
    openFields shape other (Node.ofValue (.object entries)) = .ok fields ↔
      (∀ entry ∈ entries, accepts shape other entry = .ok ()) ∧ fields = found shape entries := by
  rw [Node.ofValue, openFields, objectFields_eq_ok_iff hnodup (by simp)]
  rfl

/-- An object whose keys are different is read as a record exactly if each entry is accepted, and
then what is found is what its entries hold. -/
theorem fields_eq_ok_iff (hnodup : (entries.map Prod.fst).Nodup) :
    Decode.fields shape (Node.ofValue (.object entries)) = .ok fields ↔
      (∀ entry ∈ entries, accepts shape skipped entry = .ok ()) ∧ fields = found shape entries := by
  rw [Node.ofValue, Decode.fields, objectFields_eq_ok_iff hnodup (by simp)]
  rfl

section Names

variable {β : Type} {name : String} {items : List (String × β)} {item : β}

/-- A lookup succeeds for the names in the list. -/
theorem isSome_lookup_iff : (items.lookup name).isSome = true ↔ name ∈ items.map Prod.fst := by
  rw [Option.isSome_iff_ne_none, ne_eq, List.lookup_eq_none_iff, List.mem_map]
  simp only [bne_iff_ne, ne_eq, not_forall, exists_prop, Decidable.not_not]
  exact exists_congr fun field => and_congr_right fun _ => eq_comm

/-- What is looked up is in the list. -/
theorem mem_of_lookup (h : items.lookup name = some item) : (name, item) ∈ items := by
  obtain ⟨front, rest, rfl, -⟩ := List.lookup_eq_some_iff.1 h
  simp

/-- What is in a list with different names is looked up by its name. -/
theorem lookup_eq_some_of_mem (hnodup : (items.map Prod.fst).Nodup) (hmem : (name, item) ∈ items) :
    items.lookup name = some item := by
  obtain ⟨front, rest, rfl⟩ := List.append_of_mem hmem
  refine List.lookup_eq_some_iff.2 ⟨front, rest, rfl, fun earlier hearlier => ?_⟩
  rw [List.map_append, List.nodup_append] at hnodup
  have hne := hnodup.2.2 earlier.1 (List.mem_map_of_mem hearlier) name (by simp)
  exact bne_iff_ne.2 hne.symm

end Names

/-- An entry is a field if its key is the name of one. -/
theorem isField_iff : isField shape entry = true ↔ entry.1 ∈ shape.map Prod.fst :=
  isSome_lookup_iff

/-- An entry that is no field is accepted by the check for the others. -/
theorem accepts_of_not_mem (h : entry.1 ∉ shape.map Prod.fst) :
    accepts shape other entry = other (Node.ofValue entry.2) := by
  have hnone : shape.lookup entry.1 = none :=
    Option.not_isSome_iff_eq_none.1 fun hsome => h (isField_iff.1 hsome)
  rw [accepts, hnone, Option.getD_none]

section Lookup

variable {α : Type} {key : String} {value : Value} {decoder : Decoder α}

/-- A field of an object with different keys is found under its name. -/
theorem lookup_found (hnodup : (entries.map Prod.fst).Nodup) (hfield : key ∈ shape.map Prod.fst)
    (hmem : (key, value) ∈ entries) :
    (found shape entries).known.lookup key = some (Node.ofValue value) := by
  have hkeys : (found shape entries).known.map Prod.fst =
      (entries.filter (isField shape)).map Prod.fst := by
    simp [found, nodes]
  refine lookup_eq_some_of_mem ?_ ?_
  · rw [hkeys]
    exact hnodup.sublist (List.filter_sublist.map Prod.fst)
  · exact List.mem_map.2 ⟨(key, value), List.mem_filter.2 ⟨hmem, isField_iff.2 hfield⟩, rfl⟩

/-- A field is decoded from the value of its entry. -/
theorem required_eq (hnodup : (entries.map Prod.fst).Nodup) (hfield : key ∈ shape.map Prod.fst)
    (hmem : (key, value) ∈ entries) :
    (found shape entries).required key decoder = decoder (Node.ofValue value) := by
  rw [Fields.required, lookup_found hnodup hfield hmem]

/-- An optional field that is there is decoded. -/
theorem optional_eq {default : α} (hnodup : (entries.map Prod.fst).Nodup)
    (hfield : key ∈ shape.map Prod.fst) (hmem : (key, value) ∈ entries) :
    (found shape entries).optional key decoder default = decoder (Node.ofValue value) := by
  rw [Fields.optional, lookup_found hnodup hfield hmem]

/-- An optional field that is not there has the default. -/
theorem optional_eq_default {default : α} (h : key ∉ entries.map Prod.fst) :
    (found shape entries).optional key decoder default = .ok default := by
  have hnone : (found shape entries).known.lookup key = none := by
    refine List.lookup_eq_none_iff.2 fun node hnode => bne_iff_ne.2 ?_
    obtain ⟨entry, hentry, rfl⟩ := List.mem_map.1 hnode
    rintro rfl
    exact h (List.mem_map_of_mem (List.mem_filter.1 hentry).1)
  rw [Fields.optional, hnone]

/-- A field that is the entry at some place is decoded from it. -/
theorem required_at {result : α} (hnodup : (entries.map Prod.fst).Nodup)
    (hfield : key ∈ shape.map Prod.fst) (place : Nat) (hentry : entries[place]? = some (key, value))
    (hvalue : decoder (Node.ofValue value) = .ok result) :
    (found shape entries).required key decoder = .ok result := by
  rw [required_eq hnodup hfield (List.mem_of_getElem? hentry), hvalue]

/-- An optional field is read off the entry at any place. -/
theorem optional_at {default result : α} (hnodup : (entries.map Prod.fst).Nodup)
    (hfield : key ∈ shape.map Prod.fst) (place : Nat) (hentry : entries[place]? = some (key, value))
    (hvalue : decoder (Node.ofValue value) = .ok result) :
    (found shape entries).optional key decoder default = .ok result := by
  rw [optional_eq hnodup hfield (List.mem_of_getElem? hentry), hvalue]

/-- A field passes its check if it can be decoded. -/
theorem accepts_of_decodes {result : α} (hcheck : shape.lookup key = some (check decoder))
    (h : decoder (Node.ofValue value) = .ok result) :
    accepts shape other (key, value) = .ok () := by
  rw [accepts, hcheck, Option.getD_some, check, h]
  rfl

end Lookup

end MiniProgram.Json.Decode
