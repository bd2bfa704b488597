import MiniProgram.Proofs.Json.Record
import Mathlib.Data.List.Nodup

/-!
# Which trees are records

What it takes for a tree to be a record, without the order in which a decoder goes through it. A
field holds the nodes under its name (`Node.held`). A record is read if every field that must be
there holds one node that can be read, and every other one does or holds none. `exists_fields` and
`lookup_fields` tie this to the decoder, for trees that denote a value. Such trees have no broken
leaf, and all their keys are texts.
-/

namespace MiniProgram.Json

namespace Node

/-- A tree that denotes a value, however deep it nests. -/
def Denotes (node : Node) : Prop :=
  ∃ depth, (node.value? depth).isSome = true

/-- The nodes that entries hold under a name. -/
def under (name : String) (entries : List (Node × Node)) : List Node :=
  (entries.filter fun entry => entry.1.text? == some name).map Prod.snd

/-- What a record holds in a field, where `names` are the names of its fields. An array holds them
in their order. -/
def held (names : List String) (name : String) : Node → List Node
  | .object entries => under name entries
  | .array items => items[names.idxOf name]?.toList
  | _ => []

/-- A tree that can be a record: an object, or an array that is no longer than the record. -/
def IsRecord (names : List String) : Node → Prop
  | .object _ => True
  | .array items => items.length ≤ names.length
  | _ => False

section Denoting

variable {depth : Nat} {node : Node} {items : List Node} {entries : List (Node × Node)}

/-- Items that denote values together denote values one by one. -/
theorem denotes_of_items? (h : (items? depth items).isSome = true) :
    ∀ item ∈ items, item.Denotes := by
  induction items with
  | nil => nofun
  | cons item rest ih =>
      simp only [items?, Option.isSome_iff_exists, bind, Option.bind_eq_some_iff] at h
      obtain ⟨_, value, hvalue, values, hvalues, -⟩ := h
      refine List.forall_mem_cons.2 ⟨⟨depth, ?_⟩, ih ?_⟩
      · rw [hvalue, Option.isSome_some]
      · rw [hvalues, Option.isSome_some]

/-- Entries that denote values together have keys with a text and nodes that denote values. -/
theorem denotes_of_entries? (h : (entries? depth entries).isSome = true) :
    ∀ entry ∈ entries, (∃ name, entry.1.text? = some name) ∧ entry.2.Denotes := by
  induction entries with
  | nil => nofun
  | cons entry rest ih =>
      obtain ⟨key, node⟩ := entry
      simp only [entries?, Option.isSome_iff_exists, bind, Option.bind_eq_some_iff] at h
      obtain ⟨_, name, hname, value, hvalue, values, hvalues, -⟩ := h
      refine List.forall_mem_cons.2 ⟨⟨⟨name, hname⟩, depth, ?_⟩, ih ?_⟩
      · rw [hvalue, Option.isSome_some]
      · rw [hvalues, Option.isSome_some]

/-- An array that denotes a value has items that do. -/
theorem Denotes.item (h : (Node.array items).Denotes) : ∀ item ∈ items, item.Denotes := by
  obtain ⟨depth, h⟩ := h
  rw [value?] at h
  split at h
  · cases h
  · exact denotes_of_items? (by rwa [Option.isSome_map] at h)

/-- An object that denotes a value has keys with a text and nodes that denote values. -/
theorem Denotes.entry (h : (Node.object entries).Denotes) :
    ∀ entry ∈ entries, (∃ name, entry.1.text? = some name) ∧ entry.2.Denotes := by
  obtain ⟨depth, h⟩ := h
  rw [value?] at h
  split at h
  · cases h
  · exact denotes_of_entries? (by rwa [Option.isSome_map] at h)

/-- What a record holds denotes a value if the record does. -/
theorem Denotes.held (h : node.Denotes) {names : List String} {name : String} :
    ∀ item ∈ node.held names name, item.Denotes := by
  intro item hitem
  cases node with
  | object entries =>
      obtain ⟨entry, hentry, rfl⟩ := List.mem_map.1 hitem
      exact (h.entry entry (List.mem_filter.1 hentry).1).2
  | array items => exact h.item item (List.mem_of_getElem? (Option.mem_toList.1 hitem))
  | null | bool | number | string | broken => cases hitem

/-- The tree of a text has no broken leaf. -/
theorem isWhole_of_text? {name : String} (h : node.text? = some name) : node.isWhole = true := by
  cases node with
  | string => rfl
  | null | bool | number | array | object | broken => cases h

mutual
/-- A tree that denotes a value has no broken leaf. -/
theorem isWhole_of_denotes (node : Node) (h : node.Denotes) : node.isWhole = true := by
  cases node with
  | null | bool | number | string => rfl
  | array items => exact areWhole_of_denotes items h.item
  | object entries => exact haveWholeEntries_of_denotes entries h.entry
  | broken => obtain ⟨_, h⟩ := h; cases h

/-- Items that denote values have no broken leaf. -/
theorem areWhole_of_denotes (items : List Node) (h : ∀ item ∈ items, item.Denotes) :
    areWhole items = true := by
  match items with
  | [] => rfl
  | item :: rest =>
      obtain ⟨hitem, hrest⟩ := List.forall_mem_cons.1 h
      rw [areWhole, isWhole_of_denotes item hitem, areWhole_of_denotes rest hrest, Bool.and_self]

/-- Entries that denote values have no broken leaf. -/
theorem haveWholeEntries_of_denotes (entries : List (Node × Node))
    (h : ∀ entry ∈ entries, (∃ name, entry.1.text? = some name) ∧ entry.2.Denotes) :
    haveWholeEntries entries = true := by
  match entries with
  | [] => rfl
  | (key, node) :: rest =>
      obtain ⟨⟨⟨name, hname⟩, hnode⟩, hrest⟩ := List.forall_mem_cons.1 h
      rw [haveWholeEntries, isWhole_of_text? hname, isWhole_of_denotes node hnode,
        haveWholeEntries_of_denotes rest hrest, Bool.and_self, Bool.and_self]
end

end Denoting

end Node

namespace Decode

section Finding

variable {shape : Shape} {entries : List (Node × Node)} {items : List Node} {name : String}
  {found : Fields} {known others : List (String × Node)} {node : Node}

section Objects

/-- The entries that are fields of a record. -/
def fieldEntries (shape : Shape) (entries : List (Node × Node)) : List (String × Node) :=
  entries.filterMap fun entry => entry.1.text?.bind fun name =>
    (shape.lookup name).map fun _ => (name, entry.2)

/-- The entries that are fields are called by names of fields. -/
theorem mem_names_of_mem_fieldEntries (h : (name, node) ∈ fieldEntries shape entries) :
    name ∈ shape.map Prod.fst := by
  obtain ⟨entry, -, hentry⟩ := List.mem_filterMap.1 h
  obtain ⟨other, -, hother⟩ := Option.bind_eq_some_iff.1 hentry
  obtain ⟨check, hcheck, hsame⟩ := Option.map_eq_some_iff.1 hother
  obtain ⟨rfl, -⟩ := Prod.mk.inj hsame
  exact isSome_lookup_iff.1 (by rw [hcheck, Option.isSome_some])

/-- A key is its text. -/
theorem string_of_text? {key : Node} (h : key.text? = some name) : string key = .ok name := by
  cases key with
  | string content =>
      cases content with
      | none => cases h
      | some content => cases h; rfl
  | null | bool | number | array | object | broken => cases h

/-- A tree that denotes a value may be skipped. -/
theorem skipped_of_denotes (h : node.Denotes) : skipped node = .ok () := by
  rw [skipped, if_pos (Node.isWhole_of_denotes node h)]

/-- An entry that is no field is passed over. -/
theorem fieldEntries_cons_other {key : Node} {rest : List (Node × Node)}
    (hkey : key.text? = some name) (h : shape.lookup name = none) :
    fieldEntries shape ((key, node) :: rest) = fieldEntries shape rest := by
  simp [fieldEntries, hkey, h]

/-- An entry that is a field is listed. -/
theorem fieldEntries_cons_field {key : Node} {rest : List (Node × Node)} {check : Check}
    (hkey : key.text? = some name) (h : shape.lookup name = some check) :
    fieldEntries shape ((key, node) :: rest) = (name, node) :: fieldEntries shape rest := by
  simp [fieldEntries, hkey, h]

/-- Going through entries finds each field once, behind the fields that were found before. -/
theorem objectFields_ok (h : objectFields shape skipped known others entries = .ok found)
    (hkeys : ∀ entry ∈ entries, ∃ name, entry.1.text? = some name)
    (hknown : (known.reverse.map Prod.fst).Nodup) :
    found.known = known.reverse ++ fieldEntries shape entries ∧
      ((known.reverse ++ fieldEntries shape entries).map Prod.fst).Nodup := by
  induction entries generalizing known others with
  | nil =>
      cases h
      simpa [fieldEntries] using hknown
  | cons entry rest ih =>
      obtain ⟨key, node⟩ := entry
      obtain ⟨⟨name, hname⟩, hrest⟩ := List.forall_mem_cons.1 hkeys
      rw [objectFields, string_of_text? hname] at h
      cases hlookup : shape.lookup name with
      | none =>
          simp only [bind, Except.bind, hlookup] at h
          split at h
          · cases h
          · rw [fieldEntries_cons_other hname hlookup]
            exact ih h hrest hknown
      | some check =>
          simp only [bind, Except.bind, hlookup] at h
          split at h
          · cases h
          · next hnew =>
              split at h
              · cases h
              · -- a name that is new keeps the names distinct
                have hnext : (((name, node) :: known).reverse.map Prod.fst).Nodup := by
                  simp only [List.any_eq_true, beq_iff_eq, not_exists, not_and] at hnew
                  simp only [List.map_reverse, List.nodup_reverse] at hknown ⊢
                  refine List.nodup_cons.2 ⟨fun hmem => ?_, hknown⟩
                  obtain ⟨entry, hentry, hsame⟩ := List.mem_map.1 hmem
                  exact hnew entry hentry hsame
                rw [fieldEntries_cons_field hname hlookup]
                simpa using ih h hrest hnext

/-- Entries can be gone through if no field is found twice and all pass their checks. -/
theorem exists_objectFields
    (hentries : ∀ entry ∈ entries, (∃ name, entry.1.text? = some name) ∧ entry.2.Denotes)
    (hnodup : ((known.reverse ++ fieldEntries shape entries).map Prod.fst).Nodup)
    (hchecks : ∀ entry ∈ fieldEntries shape entries, ∀ check ∈ shape.lookup entry.1,
      check entry.2 = .ok ()) :
    ∃ found, objectFields shape skipped known others entries = .ok found := by
  induction entries generalizing known others with
  | nil => exact ⟨_, rfl⟩
  | cons entry rest ih =>
      obtain ⟨key, node⟩ := entry
      obtain ⟨⟨⟨name, hname⟩, hnode⟩, hrest⟩ := List.forall_mem_cons.1 hentries
      rw [objectFields, string_of_text? hname]
      cases hlookup : shape.lookup name with
      | none =>
          rw [fieldEntries_cons_other hname hlookup] at hnodup hchecks
          simp only [bind, Except.bind, hlookup, skipped_of_denotes hnode]
          exact ih hrest hnodup hchecks
      | some check =>
          rw [fieldEntries_cons_field hname hlookup] at hnodup hchecks
          obtain ⟨hcheck, hchecks⟩ := List.forall_mem_cons.1 hchecks
          have hnew : ¬ (known.any fun entry => entry.1 == name) = true := by
            rw [List.any_eq_true]
            rintro ⟨entry, hentry, hsame⟩
            rw [List.map_append, List.nodup_append] at hnodup
            refine hnodup.2.2 entry.1 (List.mem_map_of_mem (List.mem_reverse.2 hentry)) name
              (by simp) (beq_iff_eq.1 hsame)
          simp only [bind, Except.bind, hlookup, if_neg hnew, hcheck check hlookup]
          exact ih hrest (by simpa using hnodup) hchecks

/-- Among entries with distinct names the first one of a name is the only one. -/
theorem toList_lookup {β : Type} {fields : List (String × β)} (h : (fields.map Prod.fst).Nodup) :
    (fields.lookup name).toList = (fields.filter fun field => field.1 == name).map Prod.snd := by
  induction fields with
  | nil => rfl
  | cons field rest ih =>
      obtain ⟨key, value⟩ := field
      obtain ⟨hkey, hrest⟩ := List.nodup_cons.1 h
      by_cases hsame : key = name
      · subst hsame
        have hothers : rest.filter (fun field => field.1 == key) = [] := by
          refine List.filter_eq_nil_iff.2 fun field hfield heq => hkey ?_
          exact List.mem_map.2 ⟨field, hfield, beq_iff_eq.1 heq⟩
        simp [hothers]
      · have hne : (name == key) = false := by simpa using Ne.symm hsame
        simp [List.lookup_cons, hne, hsame, ih hrest]

/-- The entries of a field are what the object holds under its name. -/
theorem filter_fieldEntries (h : name ∈ shape.map Prod.fst) :
    ((fieldEntries shape entries).filter fun field => field.1 == name).map Prod.snd =
      Node.under name entries := by
  obtain ⟨check, hcheck⟩ := Option.isSome_iff_exists.1 (isSome_lookup_iff.2 h)
  induction entries with
  | nil => rfl
  | cons entry rest ih =>
      obtain ⟨key, node⟩ := entry
      cases hkey : key.text? with
      | none => simpa [fieldEntries, Node.under, hkey] using ih
      | some other =>
          by_cases hsame : other = name
          · subst hsame
            rw [fieldEntries_cons_field hkey hcheck]
            simpa [Node.under, hkey] using ih
          · have hunder : Node.under name ((key, node) :: rest) = Node.under name rest := by
              simp [Node.under, hkey, hsame]
            rw [hunder, ← ih]
            cases hlookup : shape.lookup other with
            | none => rw [fieldEntries_cons_other hkey hlookup]
            | some other' => simp [fieldEntries_cons_field hkey hlookup, hsame]

/-- No field is found twice if the object holds at most one node in each. -/
theorem nodup_fieldEntries
    (h : ∀ name ∈ shape.map Prod.fst, (Node.under name entries).length ≤ 1) :
    ((fieldEntries shape entries).map Prod.fst).Nodup := by
  refine List.nodup_iff_count_le_one.2 fun name => ?_
  by_cases hname : name ∈ shape.map Prod.fst
  · have hcount : ((fieldEntries shape entries).map Prod.fst).count name =
        (Node.under name entries).length := by
      rw [← filter_fieldEntries hname, List.length_map, List.count_eq_countP, List.countP_map,
        List.countP_eq_length_filter]
      rfl
    exact hcount ▸ h name hname
  · have hnot : name ∉ (fieldEntries shape entries).map Prod.fst := by
      intro hmem
      obtain ⟨⟨_, node⟩, hfield, rfl⟩ := List.mem_map.1 hmem
      exact hname (mem_names_of_mem_fieldEntries hfield)
    rw [List.count_eq_zero_of_not_mem hnot]
    exact Nat.zero_le 1

end Objects

section Arrays

/-- An array is read as a record only if it is no longer than the record, and then its items are the
first fields in order. -/
theorem arrayFields_ok (h : arrayFields known shape items = .ok found) :
    items.length ≤ shape.length ∧
      found.known = known.reverse ++ (shape.map Prod.fst).zip items := by
  induction shape generalizing known items with
  | nil =>
      cases items with
      | nil => cases h; simp
      | cons => cases h
  | cons field shape ih =>
      obtain ⟨name, check⟩ := field
      cases items with
      | nil => cases h; simp
      | cons item rest =>
          simp only [arrayFields, bind, Except.bind] at h
          split at h
          · cases h
          · obtain ⟨hlength, hfound⟩ := ih h
            exact ⟨Nat.succ_le_succ hlength, by simp [hfound]⟩

/-- An array that is no longer than the record, and whose items pass the checks of their fields, is
read as a record. -/
theorem exists_arrayFields (hlength : items.length ≤ shape.length)
    (hchecks : ∀ pair ∈ shape.zip items, pair.1.2 pair.2 = .ok ()) :
    ∃ found, arrayFields known shape items = .ok found := by
  induction shape generalizing known items with
  | nil =>
      obtain rfl : items = [] := List.eq_nil_of_length_eq_zero (Nat.le_zero.1 hlength)
      exact ⟨_, rfl⟩
  | cons field shape ih =>
      obtain ⟨name, check⟩ := field
      cases items with
      | nil => exact ⟨_, rfl⟩
      | cons item rest =>
          obtain ⟨hcheck, hchecks⟩ := List.forall_mem_cons.1 hchecks
          have hitem : check item = .ok () := hcheck
          rw [arrayFields, hitem]
          exact ih (Nat.le_of_succ_le_succ hlength) hchecks

/-- A field of an array is the item at the place of its name. -/
theorem lookup_zip {names : List String} (h : name ∈ names) :
    (names.zip items).lookup name = items[names.idxOf name]? := by
  induction names generalizing items with
  | nil => cases h
  | cons first names ih =>
      cases items with
      | nil => rfl
      | cons item rest =>
          by_cases hsame : first = name
          · subst hsame
            simp
          · have hne : (name == first) = false := by simpa using Ne.symm hsame
            have hmem : name ∈ names := (List.mem_cons.1 h).resolve_left (Ne.symm hsame)
            rw [List.zip_cons_cons, List.lookup_cons, hne]
            show (names.zip rest).lookup name = _
            rw [ih hmem, List.idxOf_cons_ne names hsame, List.getElem?_cons_succ]

end Arrays

section Records

variable {α : Type} {decoder : Decoder α} {value default : α} {reads : Node → α → Prop}

/-- What is read as a record can be one. -/
theorem isRecord_of_fields (h : fields shape node = .ok found) :
    node.IsRecord (shape.map Prod.fst) := by
  cases node with
  | object entries => trivial
  | array items =>
      rw [Node.IsRecord, List.length_map]
      exact (arrayFields_ok h).1
  | null | bool | number | string | broken => cases h

/-- Where the fields of a record are found, a field is looked up to what the record holds in it. -/
theorem lookup_fields (h : fields shape node = .ok found) (hnode : node.Denotes)
    (hname : name ∈ shape.map Prod.fst) :
    (found.known.lookup name).toList = node.held (shape.map Prod.fst) name := by
  cases node with
  | object entries =>
      have hkeys : ∀ entry ∈ entries, ∃ name, entry.1.text? = some name :=
        fun entry hentry => (hnode.entry entry hentry).1
      obtain ⟨hknown, hnodup⟩ := objectFields_ok h hkeys List.nodup_nil
      rw [List.reverse_nil, List.nil_append] at hknown hnodup
      rw [hknown, toList_lookup hnodup, filter_fieldEntries hname, Node.held]
  | array items =>
      have hknown := (arrayFields_ok h).2
      rw [List.reverse_nil, List.nil_append] at hknown
      rw [hknown, lookup_zip hname, Node.held]
  | null | bool | number | string | broken => cases h

/-- A field is looked up to the one node that the record holds in it, or it holds none there. -/
theorem lookup_fields_cases (h : fields shape node = .ok found) (hnode : node.Denotes)
    (hname : name ∈ shape.map Prod.fst) :
    found.known.lookup name = none ∧ node.held (shape.map Prod.fst) name = [] ∨
      ∃ item, found.known.lookup name = some item ∧
        node.held (shape.map Prod.fst) name = [item] ∧ item.Denotes := by
  have hheld : ∀ item ∈ node.held (shape.map Prod.fst) name, item.Denotes := hnode.held
  rw [← lookup_fields h hnode hname] at hheld ⊢
  cases hlookup : found.known.lookup name with
  | none => exact .inl ⟨rfl, rfl⟩
  | some item =>
      rw [hlookup] at hheld
      exact .inr ⟨item, rfl, rfl, hheld item (List.mem_singleton_self _)⟩

/-- A field that holds at most one node, which passes its check. -/
def Passes (check : Check) (nodes : List Node) : Prop :=
  nodes.length ≤ 1 ∧ ∀ node ∈ nodes, check node = .ok ()

/-- The fields of a record are found if all of them pass. -/
theorem exists_fields (hnode : node.Denotes) (hnames : (shape.map Prod.fst).Nodup)
    (hrecord : node.IsRecord (shape.map Prod.fst))
    (hfields : ∀ field ∈ shape, Passes field.2 (node.held (shape.map Prod.fst) field.1)) :
    ∃ found, fields shape node = .ok found := by
  cases node with
  | object entries =>
      refine exists_objectFields hnode.entry ?_ ?_
      · rw [List.reverse_nil, List.nil_append]
        refine nodup_fieldEntries fun name hname => ?_
        obtain ⟨field, hfield, rfl⟩ := List.mem_map.1 hname
        exact (hfields field hfield).1
      · intro entry hentry check hcheck
        have hfield : (entry.1, check) ∈ shape := mem_of_lookup hcheck
        refine (hfields _ hfield).2 entry.2 ?_
        rw [Node.held, ← filter_fieldEntries (List.mem_map_of_mem hfield)]
        exact List.mem_map.2 ⟨entry, List.mem_filter.2 ⟨hentry, beq_self_eq_true _⟩, rfl⟩
  | array items =>
      rw [Node.IsRecord, List.length_map] at hrecord
      refine exists_arrayFields hrecord fun pair hpair => ?_
      -- an item stands at the place of its field, and names are distinct, so it is held there
      obtain ⟨place, hplace⟩ := List.mem_iff_getElem?.1 hpair
      obtain ⟨hfield, hitem⟩ := List.getElem?_zip_eq_some.1 hplace
      refine (hfields pair.1 (List.mem_of_getElem? hfield)).2 pair.2 ?_
      have hkey : (shape.map Prod.fst)[place]? = some pair.1.1 := by simp [hfield]
      obtain ⟨hlt, hkey⟩ := List.getElem?_eq_some_iff.1 hkey
      rw [Node.held, ← hkey, hnames.idxOf_getElem place hlt]
      exact Option.mem_toList.2 hitem
  | null | bool | number | string | broken => exact hrecord.elim

/-- There is one node, and a value is read from it. -/
def One (reads : Node → α → Prop) (nodes : List Node) (value : α) : Prop :=
  ∃ node, nodes = [node] ∧ reads node value

/-- There is one node, and a value is read from it. Or there is none, and the value is the
default. -/
def OneOrNone (default : α) (reads : Node → α → Prop) (nodes : List Node) (value : α) : Prop :=
  nodes = [] ∧ value = default ∨ One reads nodes value

/-- A decoder of trees that denote values, which reads what a relation says. -/
def Follows (decoder : Decoder α) (reads : Node → α → Prop) : Prop :=
  ∀ node, node.Denotes → ∀ value, decoder node = .ok value ↔ reads node value

section Field

variable (hfollows : Follows decoder reads) (hnode : node.Denotes)

include hfollows hnode

/-- A required field is read if it is there once and its value is read. -/
theorem required_eq_ok_iff (hfound : fields shape node = .ok found)
    (hname : name ∈ shape.map Prod.fst) :
    found.required name decoder = .ok value ↔
      One reads (node.held (shape.map Prod.fst) name) value := by
  rw [Fields.required]
  rcases lookup_fields_cases hfound hnode hname with
    ⟨hlookup, hheld⟩ | ⟨item, hlookup, hheld, hitem⟩
  · simp [hlookup, hheld, One]
  · simpa [hlookup, hheld, One] using hfollows item hitem value

/-- An optional field is read if it is not there, with the default, or there once and its value is
read. -/
theorem optional_eq_ok_iff (hfound : fields shape node = .ok found)
    (hname : name ∈ shape.map Prod.fst) :
    found.optional name decoder default = .ok value ↔
      OneOrNone default reads (node.held (shape.map Prod.fst) name) value := by
  rw [Fields.optional]
  rcases lookup_fields_cases hfound hnode hname with
    ⟨hlookup, hheld⟩ | ⟨item, hlookup, hheld, hitem⟩
  · simp [hlookup, hheld, OneOrNone, One, eq_comm]
  · simpa [hlookup, hheld, OneOrNone, One] using hfollows item hitem value

/-- A field from which a value is read passes its check. -/
theorem One.passes {names : List String} (h : One reads (node.held names name) value) :
    Passes (check decoder) (node.held names name) := by
  have hheld : ∀ item ∈ node.held names name, item.Denotes := hnode.held
  obtain ⟨item, hitem, hreads⟩ := h
  rw [hitem] at hheld ⊢
  have hdenotes := hheld item (List.mem_singleton_self _)
  refine ⟨Nat.le_refl 1, List.forall_mem_singleton.2 ?_⟩
  rw [check, (hfollows item hdenotes value).2 hreads]
  rfl

/-- So does an optional field. -/
theorem OneOrNone.passes {names : List String}
    (h : OneOrNone default reads (node.held names name) value) :
    Passes (check decoder) (node.held names name) := by
  rcases h with ⟨hnone, -⟩ | h
  · rw [hnone]
    exact ⟨Nat.zero_le 1, nofun⟩
  · exact h.passes hfollows hnode

end Field

/-- A record is read if its tree can be one, and what is said of its fields holds. -/
theorem fields_bind_eq_ok_iff {rest : Fields → Except Fault α} {holds : Prop}
    (hnode : node.Denotes) (hnames : (shape.map Prod.fst).Nodup)
    (hrest : ∀ found, fields shape node = .ok found → (rest found = .ok value ↔ holds))
    (hpasses : holds →
      ∀ field ∈ shape, Passes field.2 (node.held (shape.map Prod.fst) field.1)) :
    fields shape node >>= rest = .ok value ↔ node.IsRecord (shape.map Prod.fst) ∧ holds := by
  rw [except_bind_eq_ok_iff]
  constructor
  · rintro ⟨found, hfound, h⟩
    exact ⟨isRecord_of_fields hfound, (hrest found hfound).1 h⟩
  · rintro ⟨hrecord, h⟩
    obtain ⟨found, hfound⟩ := exists_fields hnode hnames hrecord (hpasses h)
    exact ⟨found, hfound, (hrest found hfound).2 h⟩

end Records

end Finding

section Readings

variable {α : Type} {decoder : Decoder α} {reads : Node → α → Prop}

/-- The tree of a text. -/
def IsText (node : Node) (text : String) : Prop :=
  node = .string (some text.toList)

/-- A text is read from the tree of a text only. -/
theorem string_eq_ok_iff {node : Node} {text : String} :
    string node = .ok text ↔ IsText node text := by
  cases node with
  | string content =>
      cases content with
      | none => simp [string, IsText]
      | some content =>
          have hsame : String.ofList content = text ↔ content = text.toList :=
            ⟨fun h => by rw [← h, String.toList_ofList], fun h => by rw [h, String.ofList_toList]⟩
          simpa [string, IsText] using hsame
  | null | bool | number | array | object | broken => simp [string, IsText]

/-- Reading a text follows its relation. -/
theorem follows_string : Follows string IsText :=
  fun _ _ _ => string_eq_ok_iff

/-- The tree of a truth value. -/
def IsFlag (node : Node) (flag : Bool) : Prop :=
  node = .bool flag

/-- Reading a truth value follows its relation. -/
theorem follows_boolean : Follows boolean IsFlag := by
  intro node _ flag
  cases node <;> simp [boolean, IsFlag]

/-- The tree of a natural number below a limit. -/
def IsNatural (limit : Nat) (node : Node) (value : Nat) : Prop :=
  ∃ numeral, node = .number numeral ∧ numeral.number? = some (.natural value) ∧ value < limit

/-- Reading a natural number follows its relation: the number is written without a fraction or an
exponent, and is below the limit. -/
theorem follows_natural (limit : Nat) : Follows (natural limit) (IsNatural limit) := by
  intro node _ value
  cases node with
  | number numeral =>
      rw [natural]
      cases hnumber : numeral.number? with
      | none => simp [IsNatural, hnumber]
      | some number =>
          cases number with
          | natural found =>
              by_cases hlimit : found < limit
              · simpa [IsNatural, hnumber, hlimit] using fun h => h ▸ hlimit
              · simpa [IsNatural, hnumber, hlimit] using fun h => h ▸ Nat.le_of_not_lt hlimit
          | minus found => simp [IsNatural, hnumber]
          | float found => simp [IsNatural, hnumber]
  | null | bool | string | array | object | broken => simp [natural, IsNatural]

/-- Null stands for no value, and any other tree for the value that is read from it. -/
def NullOr (reads : Node → α → Prop) (node : Node) (value : Option α) : Prop :=
  node = .null ∧ value = none ∨ node ≠ .null ∧ ∃ read, value = some read ∧ reads node read

/-- Reading a value or null follows the relation with null if reading the value follows its own. -/
theorem Follows.nullable (h : Follows decoder reads) :
    Follows (Decode.nullable decoder) (NullOr reads) := by
  intro node hnode value
  by_cases hnull : node = .null
  · subst hnull
    simp [Decode.nullable, NullOr, eq_comm]
  · have hvalue : Decode.nullable decoder node = (decoder node).map some := by
      cases node with
      | null => exact absurd rfl hnull
      | bool | number | string | array | object | broken => rfl
    rw [hvalue, NullOr]
    simp only [hnull, false_and, false_or, ne_eq, not_false_eq_true, true_and, ← h node hnode]
    cases decoder node with
    | error fault => simp [Except.map]
    | ok read => simp [Except.map, eq_comm]

/-- The tree of an array, whose items are read one by one. -/
def IsList (reads : Node → α → Prop) (node : Node) (values : List α) : Prop :=
  ∃ items, node = .array items ∧ List.Forall₂ reads items values

/-- Reading an array follows the relation for each item. -/
theorem Follows.list (h : Follows decoder reads) :
    Follows (Decode.list decoder) (IsList reads) := by
  intro node hnode values
  cases node with
  | array items =>
      simp only [Decode.list, mapM_eq_ok_iff, IsList, Node.array.injEq, exists_eq_left']
      exact forall₂_congr_left fun item hitem => h item (hnode.item item hitem)
  | null | bool | number | string | object | broken => simp [Decode.list, IsList]

/-- The tree of an object, whose keys are any texts and whose values are read one by one. -/
def IsEntries (reads : Node → α → Prop) (node : Node) (values : List (String × α)) : Prop :=
  ∃ entries, node = .object entries ∧
    List.Forall₂ (fun entry value => IsText entry.1 value.1 ∧ reads entry.2 value.2) entries values

/-- Reading an object follows the relation for each entry. -/
theorem Follows.entries (h : Follows decoder reads) :
    Follows (Decode.entries decoder) (IsEntries reads) := by
  intro node hnode values
  cases node with
  | object entries =>
      simp only [Decode.entries, mapM_eq_ok_iff, IsEntries, Node.object.injEq, exists_eq_left']
      refine forall₂_congr_left fun entry hentry value => ?_
      have hvalue := (hnode.entry entry hentry).2
      simp only [except_bind_eq_ok_iff, string_eq_ok_iff, h entry.2 hvalue, pure, Except.pure,
        Except.ok.injEq]
      constructor
      · rintro ⟨key, hkey, read, hread, rfl⟩
        exact ⟨hkey, hread⟩
      · rintro ⟨hkey, hread⟩
        exact ⟨_, hkey, _, hread, rfl⟩
  | null | bool | number | string | array | broken => simp [Decode.entries, IsEntries]

/-- What is read from any tree: its value, with sorted objects. -/
def IsAny (depth : Nat) (node : Node) (value : Value) : Prop :=
  ∃ found, node.value? depth = some found ∧ value = found.sorted

/-- Reading any tree follows its relation. -/
theorem follows_any (depth : Nat) : Follows (any depth) (IsAny depth) := by
  intro node _ value
  rw [any, IsAny]
  cases node.value? depth with
  | none => simp
  | some found => simp [eq_comm]

end Readings

end Decode

end MiniProgram.Json
