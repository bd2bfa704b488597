import MiniProgram.Options
import MiniProgram.Proofs.Json.Record
import MiniProgram.Proofs.Table

/-!
# The options that a compiler is given

Read `merge_object` first: the object of merged options holds every key once, the run wins under its
own keys, and decoding and merging again change nothing.

An object in memory is decoded by `ofObject`, which passes values on as they are. `decode` reads a
syntax tree, in which numbers are text. A floating point number may be read as one of its
neighbours, and a value may be nested too deeply, so here the options come back exactly if every
value that is passed on reads back as it is (`decode_toJson_merge_iff`). Then both decoders agree on
every object (`decode_eq_ofObject`).
-/

namespace MiniProgram

open Json

namespace Platform

/-- The extension of stylesheets is read back from its object. -/
theorem decodeExtension_ofValue (cssExtension : String) :
    decodeExtension (Node.ofValue (.object [("css", .string cssExtension)])) =
      .ok cssExtension := by
  have hnodup : ([("css", Value.string cssExtension)].map Prod.fst).Nodup := by simp
  have hcss := Decode.string_ofValue cssExtension
  rw [decodeExtension, except_bind_eq_ok_iff]
  refine ⟨_, (Decode.fields_eq_ok_iff hnodup).2 ⟨?_, rfl⟩, ?_⟩
  · rw [List.forall_mem_singleton]
    exact Decode.accepts_of_decodes rfl hcss
  · rw [Decode.required_eq hnodup (by simp) (List.mem_singleton_self _), hcss]

/-- The record of a platform is decoded to the platform. -/
theorem decode_ofValue (platform : Platform) :
    decode (Node.ofValue platform.toJson) = .ok platform := by
  obtain ⟨name, kind, cssExtension⟩ := platform
  have hname := Decode.string_ofValue name
  have hextension := decodeExtension_ofValue cssExtension
  cases kind with
  | none =>
      have hnodup : ([("name", Value.string name),
          ("extension", .object [("css", .string cssExtension)])].map Prod.fst).Nodup := by simp
      rw [decode, except_bind_eq_ok_iff]
      refine ⟨_, (Decode.fields_eq_ok_iff hnodup).2 ⟨?_, rfl⟩, ?_⟩
      · simp only [List.forall_mem_cons, List.not_mem_nil, false_imp_iff, implies_true, and_true]
        exact ⟨Decode.accepts_of_decodes rfl hname, Decode.accepts_of_decodes rfl hextension⟩
      · rw [Decode.required_eq hnodup (by simp) (.head _), hname,
          Decode.optional_eq_default (by simp),
          Decode.required_eq hnodup (by simp) (.tail _ (.head _)), hextension]
        rfl
  | some kind =>
      have hkind : Decode.nullable Decode.string (Node.ofValue (.string kind)) =
          .ok (some kind) := by
        show (Decode.string (Node.ofValue (.string kind))).map some = _
        rw [Decode.string_ofValue]
        rfl
      have hnodup : ([("name", Value.string name), ("type", .string kind),
          ("extension", .object [("css", .string cssExtension)])].map Prod.fst).Nodup := by simp
      rw [decode, except_bind_eq_ok_iff]
      refine ⟨_, (Decode.fields_eq_ok_iff hnodup).2 ⟨?_, rfl⟩, ?_⟩
      · simp only [List.forall_mem_cons, List.not_mem_nil, false_imp_iff, implies_true, and_true]
        exact ⟨Decode.accepts_of_decodes rfl hname, Decode.accepts_of_decodes rfl hkind,
          Decode.accepts_of_decodes rfl hextension⟩
      · rw [Decode.required_eq hnodup (by simp) (.head _), hname,
          Decode.optional_eq hnodup (by simp) (.tail _ (.head _)), hkind,
          Decode.required_eq hnodup (by simp) (.tail _ (.tail _ (.head _))), hextension]
        rfl

end Platform

/-- A path is read back from its text. -/
theorem Path.decode_ofValue (path : Path) :
    decode (Node.ofValue (.string path.text)) = .ok path := by
  rw [decode, Decode.string_ofValue]
  rfl

/-- What a run says under each of its keys. -/
def RunOptions.entries (run : RunOptions) : List (String × Value) := [
  ("resourcePath", .string run.resourcePath.text),
  ("outputPath", .string run.outputPath.text),
  ("sourcePath", .string run.sourcePath.text),
  ("platform", run.platform.toJson),
  ("type", .string "app"),
  ("sourceFileName", .string run.resourcePath.text),
  ("disableCopyNpm", .bool run.disableCopyNpm),
  ("turnOffSourceMap", .bool run.turnOffSourceMap)]

namespace CompilerOptions

variable {base : BaseOptions} {run : RunOptions} {entries : List (String × Value)}
  {options : CompilerOptions}

/-- The keys that a run overrides are those of the fields that are read and of those that are
written. -/
theorem runKeys_eq : runKeys = shape.map Prod.fst := rfl

/-- What a run writes has the keys that a run overrides. -/
theorem map_fst_entries (run : RunOptions) : run.entries.map Prod.fst = runKeys := rfl

/-- The entries of an object that are passed on. -/
def others (entries : List (String × Value)) : List (String × Value) :=
  entries.filter fun entry => !runKeys.contains entry.1

/-- Merged options are written as the entries of the run, and behind them those that are passed on.
-/
theorem toJson_merge (base : BaseOptions) (run : RunOptions) :
    (merge base run).toJson = .object (run.entries ++ others base) := rfl

section Decoding

/-- What decoding makes of a passed-on entry. -/
def passOn (entry : String × Value) : Except Fault (String × Value) :=
  (decodeExtra (Node.ofValue entry.2)).map (entry.1, ·)

/-- Passing an entry on keeps its key and decodes its value. -/
theorem passOn_eq_ok_iff {entry result : String × Value} :
    passOn entry = .ok result ↔
      entry.1 = result.1 ∧ decodeExtra (Node.ofValue entry.2) = .ok result.2 := by
  obtain ⟨key, value⟩ := result
  rw [passOn]
  cases decodeExtra (Node.ofValue entry.2) with
  | error fault => simp [Except.map]
  | ok found => simp [Except.map]

/-- The fields of the options are the keys that a run overrides. -/
theorem isField_shape (entry : String × Value) :
    Decode.isField shape entry = runKeys.contains entry.1 := by
  rw [Bool.eq_iff_iff, Decode.isField_iff, ← runKeys_eq, List.contains_iff_mem]

/-- Decoding what is no field is passing on what is found there. -/
theorem mapM_others_found (entries : List (String × Value)) :
    (Decode.found shape entries).others.mapM
      (fun entry => (decodeExtra entry.2).map ((entry.1, ·))) = (others entries).mapM passOn := by
  simp only [Decode.found, Decode.nodes, List.mapM_map, isField_shape]
  rfl

/-- Entries are passed on as they are if their values read back. -/
theorem mapM_passOn_eq_self_iff :
    (others entries).mapM passOn = .ok (others entries) ↔
      ∀ entry ∈ others entries, decodeExtra (Node.ofValue entry.2) = .ok entry.2 := by
  rw [mapM_eq_ok_iff, List.forall₂_same]
  simp only [passOn_eq_ok_iff, true_and]

/-- If the values that are passed on read back, then an object in memory is decoded like its syntax
tree. -/
theorem decode_eq_ofObject {object : Table Value} (hobject : object.keys.Pairwise (· < ·))
    (hreads : ∀ entry ∈ others object, decodeExtra (Node.ofValue entry.2) = .ok entry.2) :
    decode (Node.ofValue (.object object)) = ofObject object := by
  have hnodup : (object.map Prod.fst).Nodup := hobject.imp ne_of_lt
  -- what reads back passes its check, so checking less finds the same fields
  have hchecks :
      Decode.openFields shape (Decode.check decodeExtra) (Node.ofValue (.object object)) =
        Decode.openFields shape (fun _ => .ok ()) (Node.ofValue (.object object)) := by
    rw [Node.ofValue, Decode.openFields, Decode.openFields]
    refine Decode.objectFields_congr fun entry hentry hother => ?_
    have hmem : entry ∈ others object :=
      List.mem_filter.2 ⟨hentry, by rw [← isField_shape, hother, Bool.not_false]⟩
    rw [Decode.check, hreads entry hmem]
    rfl
  rw [decode, ofObject, hchecks]
  cases hfields : Decode.openFields shape (fun _ => .ok ()) (Node.ofValue (.object object)) with
  | error fault => rfl
  | ok fields =>
      obtain ⟨-, rfl⟩ := (Decode.openFields_eq_ok_iff hnodup).1 hfields
      have hsorted : (Table.keys (others object)).Pairwise (· < ·) :=
        hobject.sublist (List.filter_sublist.map Prod.fst)
      simp only [bind, Except.bind]
      cases ofFields (Decode.found shape object) with
      | error fault => rfl
      | ok options =>
          simp only [mapM_others_found, mapM_passOn_eq_self_iff.2 hreads,
            Table.ofEntries_eq_self hsorted]
          rfl

/-- A truth value is read back. -/
theorem decode_boolean (flag : Bool) : Decode.boolean (Node.ofValue (.bool flag)) = .ok flag := rfl

/-- The type of the artifact is read back. -/
theorem decode_type :
    Decode.variants Artifact.named (Node.ofValue (.string "app")) = .ok .app := rfl

/-- The entries of a run pass the checks of their fields. -/
theorem accepts_entries (run : RunOptions) (other : Decode.Check) :
    ∀ entry ∈ run.entries, Decode.accepts shape other entry = .ok () := by
  simp only [RunOptions.entries, List.forall_mem_cons, List.not_mem_nil, false_imp_iff,
    implies_true, and_true]
  refine ⟨?_, ?_, ?_, ?_, ?_, ?_, ?_, ?_⟩
  · exact Decode.accepts_of_decodes rfl (Path.decode_ofValue _)
  · exact Decode.accepts_of_decodes rfl (Path.decode_ofValue _)
  · exact Decode.accepts_of_decodes rfl (Path.decode_ofValue _)
  · exact Decode.accepts_of_decodes rfl (Platform.decode_ofValue _)
  · exact Decode.accepts_of_decodes rfl decode_type
  · exact Decode.accepts_of_decodes rfl (Path.decode_ofValue _)
  · exact Decode.accepts_of_decodes rfl (decode_boolean _)
  · exact Decode.accepts_of_decodes rfl (decode_boolean _)

variable (hnodup : (entries.map Prod.fst).Nodup) (hrun : ∀ entry ∈ run.entries, entry ∈ entries)

include hnodup hrun

/-- A field of an object that holds the entries of a run is decoded from the entry of the run. -/
theorem required_of_run {α : Type} {decoder : Decoder α} {key : String} {value : Value} {result : α}
    (place : Nat) (hentry : run.entries[place]? = some (key, value))
    (hvalue : decoder (Node.ofValue value) = .ok result) :
    (Decode.found shape entries).required key decoder = .ok result := by
  have hmem : (key, value) ∈ run.entries := List.mem_of_getElem? hentry
  have hfield : key ∈ shape.map Prod.fst := by
    rw [← runKeys_eq, ← map_fst_entries run]
    exact List.mem_map_of_mem hmem
  rw [Decode.required_eq hnodup hfield (hrun _ hmem), hvalue]

/-- What an object holds under the key of a run is the entry of the run. -/
theorem mem_entries_of_mem_runKeys {entry : String × Value} (hentry : entry ∈ entries)
    (hkey : entry.1 ∈ runKeys) : entry ∈ run.entries := by
  rw [← map_fst_entries run] at hkey
  obtain ⟨own, hown, hsame⟩ := List.mem_map.1 hkey
  obtain ⟨key, value⟩ := own
  obtain ⟨key', value'⟩ := entry
  obtain rfl : key = key' := hsame
  have hlookup := Decode.lookup_eq_some_of_mem hnodup hentry
  rw [Decode.lookup_eq_some_of_mem hnodup (hrun _ hown)] at hlookup
  exact Option.some.inj hlookup ▸ hown

/-- The record of the fields that are found says what the run says. -/
theorem ofFields_found : ofFields (Decode.found shape entries) = .ok (merge [] run) := by
  rw [ofFields, required_of_run hnodup hrun 0 rfl (Path.decode_ofValue _),
    required_of_run hnodup hrun 1 rfl (Path.decode_ofValue _),
    required_of_run hnodup hrun 2 rfl (Path.decode_ofValue _),
    required_of_run hnodup hrun 3 rfl (Platform.decode_ofValue _),
    required_of_run hnodup hrun 4 rfl decode_type,
    required_of_run hnodup hrun 5 rfl (Path.decode_ofValue _),
    required_of_run hnodup hrun 6 rfl (decode_boolean _),
    required_of_run hnodup hrun 7 rfl (decode_boolean _)]
  rfl

/-- Such an object passes its checks if its other entries pass theirs. -/
theorem accepts_of_run {other : Decode.Check}
    (hothers : ∀ entry ∈ others entries, other (Node.ofValue entry.2) = .ok ()) :
    ∀ entry ∈ entries, Decode.accepts shape other entry = .ok () := by
  intro entry hentry
  by_cases hkey : entry.1 ∈ runKeys
  · exact accepts_entries run _ entry (mem_entries_of_mem_runKeys hnodup hrun hentry hkey)
  · rw [Decode.accepts_of_not_mem (runKeys_eq ▸ hkey)]
    exact hothers entry (List.mem_filter.2 ⟨hentry, by simpa using hkey⟩)

/-- Decoding such an object gives back what the run says, and passes the other entries on if all of
them can be decoded. -/
theorem decode_eq_ok_iff :
    decode (Node.ofValue (.object entries)) = .ok options ↔
      ∃ passed, (others entries).mapM passOn = .ok passed ∧
        options = { merge [] run with extra := Table.ofEntries passed } := by
  rw [decode, except_bind_eq_ok_iff]
  simp only [Decode.openFields_eq_ok_iff hnodup, and_assoc, exists_and_left, exists_eq_left]
  rw [ofFields_found hnodup hrun]
  rw [mapM_others_found]
  show _ ∧ ((others entries).mapM passOn >>= fun passed =>
    .ok { merge [] run with extra := Table.ofEntries passed }) = .ok options ↔ _
  rw [except_bind_eq_ok_iff]
  constructor
  · rintro ⟨-, passed, hpassed, hoptions⟩
    exact ⟨passed, hpassed, (Except.ok.inj hoptions).symm⟩
  · rintro ⟨passed, hpassed, rfl⟩
    refine ⟨accepts_of_run hnodup hrun fun entry hentry => ?_, passed, hpassed, rfl⟩
    obtain ⟨result, hresult⟩ := exists_of_mem_mapM hpassed hentry
    rw [Decode.check, (passOn_eq_ok_iff.1 hresult).2]
    rfl

/-- An object in memory is decoded to what the run says, and the other entries are passed on. -/
theorem ofObject_eq_ok : ofObject entries = .ok { merge [] run with extra := others entries } := by
  rw [ofObject, except_bind_eq_ok_iff]
  refine ⟨_, (Decode.openFields_eq_ok_iff hnodup).2
    ⟨accepts_of_run hnodup hrun fun _ _ => rfl, rfl⟩, ?_⟩
  rw [ofFields_found hnodup hrun]
  rfl

end Decoding

section Merging

/-- Nothing that a run writes is passed on, and what was passed on once is again. -/
theorem others_entries_append (run : RunOptions) (base : BaseOptions) :
    others (run.entries ++ others base) = others base := by
  have hown : others run.entries = [] := rfl
  have hothers : others (others base) = others base := by simp [others, List.filter_filter]
  rw [others, List.filter_append]
  exact (congrArg₂ (· ++ ·) hown hothers).trans (List.nil_append _)

/-- A run overrides no key that is passed on. -/
theorem nodup_entries (hbase : base.keys.Pairwise (· < ·)) (run : RunOptions) :
    ((run.entries ++ others base).map Prod.fst).Nodup := by
  rw [List.map_append, map_fst_entries, List.nodup_append]
  refine ⟨by decide, ?_, ?_⟩
  · have hkeys : (base.map Prod.fst).Nodup := hbase.imp ne_of_lt
    exact hkeys.sublist (List.filter_sublist.map Prod.fst)
  · rintro key hkey other hother rfl
    obtain ⟨entry, hentry, rfl⟩ := List.mem_map.1 hother
    have hnot := (List.mem_filter.1 hentry).2
    simp [hkey] at hnot

/-- So it is in a table, whose entries are in the order of their keys. -/
theorem others_object (hbase : base.keys.Pairwise (· < ·)) (run : RunOptions) :
    others (Table.ofEntries (run.entries ++ others base)) = others base := by
  have hnodup := nodup_entries hbase run
  refine Table.eq_of_mem_iff ?_ ?_ fun entry => ?_
  · exact (Table.keys_ofEntries _).1.sublist (List.filter_sublist.map Prod.fst)
  · exact hbase.sublist (List.filter_sublist.map Prod.fst)
  · rw [others, List.mem_filter, Table.mem_ofEntries hnodup]
    exact List.mem_filter.symm.trans
      (iff_of_eq (congrArg (entry ∈ ·) (others_entries_append run base)))

/-- Decoding the object in memory gives the options back. -/
theorem ofObject_object (hbase : base.keys.Pairwise (· < ·)) (run : RunOptions) :
    ofObject (Table.ofEntries (run.entries ++ others base)) = .ok (merge base run) := by
  have hnodup := nodup_entries hbase run
  have hkeys : ((Table.ofEntries (run.entries ++ others base)).map Prod.fst).Nodup :=
    (Table.keys_ofEntries _).1.imp ne_of_lt
  have hrun : ∀ entry ∈ run.entries, entry ∈ Table.ofEntries (run.entries ++ others base) :=
    fun entry hentry => (Table.mem_ofEntries hnodup).2 (List.mem_append_left _ hentry)
  rw [ofObject_eq_ok hkeys hrun, others_object hbase]
  rfl

/-- Decoding the syntax tree of the object gives the options back exactly if every entry that is
passed on reads back as it is. -/
theorem decode_toJson_merge_iff (hbase : base.keys.Pairwise (· < ·)) (run : RunOptions) :
    decode (Node.ofValue (merge base run).toJson) = .ok (merge base run) ↔
      ∀ entry ∈ others base, decodeExtra (Node.ofValue entry.2) = .ok entry.2 := by
  have hsorted : (others base).Pairwise fun a b => a.1 < b.1 :=
    (List.pairwise_map.1 hbase).sublist List.filter_sublist
  rw [toJson_merge, ← mapM_passOn_eq_self_iff, decode_eq_ok_iff (nodup_entries hbase run)
    fun entry hentry => List.mem_append_left _ hentry]
  rw [others_entries_append]
  constructor
  · rintro ⟨passed, hpassed, hmerged⟩
    -- what is passed on keeps its keys, so it is a table, and nothing of it is overwritten
    have hkeys : (others base).map Prod.fst = passed.map Prod.fst := by
      have hall := (mapM_eq_ok_iff.1 hpassed).imp fun _ _ h => (passOn_eq_ok_iff.1 h).1
      rw [← List.forall₂_eq_eq_eq, List.forall₂_map_left_iff, List.forall₂_map_right_iff]
      exact hall
    have hpassedKeys : (Table.keys passed).Pairwise (· < ·) := by
      rw [Table.keys, ← hkeys]
      exact List.pairwise_map.2 hsorted
    have hextra : others base = Table.ofEntries passed := congrArg CompilerOptions.extra hmerged
    rw [Table.ofEntries_eq_self hpassedKeys] at hextra
    rwa [← hextra] at hpassed
  · intro hpassed
    refine ⟨others base, hpassed, ?_⟩
    rw [Table.ofEntries_eq_self (List.pairwise_map.2 hsorted)]
    rfl

/-- The object of merged options holds every key once: those of the run with what the run says, and
the other ones of the base as they are. In memory it is decoded to the same options, and merging it
with the same run gives the same options. Read from its syntax tree it gives the same options
exactly if every entry that is passed on reads back as it is. -/
theorem merge_object (hbase : base.keys.Pairwise (· < ·)) (run : RunOptions) :
    ∃ entries, (merge base run).toJson = .object entries ∧
      (entries.map Prod.fst).Nodup ∧
      (∀ key, key ∈ entries.map Prod.fst ↔ key ∈ runKeys ∨ key ∈ base.keys ∧ key ∉ runKeys) ∧
      (∀ entry, entry ∈ entries ↔ entry ∈ run.entries ∨ entry ∈ base ∧ entry.1 ∉ runKeys) ∧
      ofObject (Table.ofEntries entries) = .ok (merge base run) ∧
      merge (Table.ofEntries entries) run = merge base run ∧
      (decode (Node.ofValue (.object entries)) = .ok (merge base run) ↔
        ∀ entry ∈ base, entry.1 ∉ runKeys → decodeExtra (Node.ofValue entry.2) = .ok entry.2) := by
  have hothers : ∀ entry, entry ∈ others base ↔ entry ∈ base ∧ entry.1 ∉ runKeys := by
    intro entry
    rw [others, List.mem_filter, Bool.not_eq_true', ← Bool.not_eq_true, List.contains_iff_mem]
  refine ⟨run.entries ++ others base, toJson_merge base run, nodup_entries hbase run, ?_, ?_,
    ofObject_object hbase run, ?_, ?_⟩
  · intro key
    rw [List.map_append, List.mem_append, map_fst_entries]
    simp only [List.mem_map, hothers, Table.keys]
    grind
  · intro entry
    rw [List.mem_append, hothers]
  · show { merge [] run with extra := others (Table.ofEntries (run.entries ++ others base)) } = _
    rw [others_object hbase]
    rfl
  · rw [← toJson_merge, decode_toJson_merge_iff hbase]
    simp only [hothers, and_imp]

/-- Base options that a run overrides in part. -/
def componentBase : BaseOptions :=
  [("constantDir", .array [.string "src/constants"]), ("type", .string "component")]

/-- A run on a known platform. -/
def appRun : RunOptions where
  resourcePath := ⟨"/proj/src/app.js"⟩
  outputPath := ⟨"/proj/dist"⟩
  sourcePath := ⟨"/proj/src"⟩
  platform := ⟨"Alibaba MiniApp", some "ali", ".acss"⟩
  disableCopyNpm := true
  turnOffSourceMap := false

/-- The kind is the one of the run, and the other option is passed on and reads back. -/
theorem merge_object_component :
    componentBase.keys.Pairwise (· < ·) ∧
      ∃ entries, (merge componentBase appRun).toJson = .object entries ∧
        ("type", .string "app") ∈ entries ∧
        ("constantDir", .array [.string "src/constants"]) ∈ entries ∧
        ofObject (Table.ofEntries entries) = .ok (merge componentBase appRun) ∧
        decode (Node.ofValue (.object entries)) = .ok (merge componentBase appRun) ∧
        merge (Table.ofEntries entries) appRun = merge componentBase appRun := by
  have hbase : componentBase.keys.Pairwise (· < ·) := by decide
  obtain ⟨entries, hjson, -, -, hentries, hobject, hmerge, hdecode⟩ := merge_object hbase appRun
  refine ⟨hbase, entries, hjson, (hentries _).2 (.inl ?_), (hentries _).2 (.inr ⟨.head _, ?_⟩),
    hobject, hdecode.2 ?_, hmerge⟩
  · exact .tail _ (.tail _ (.tail _ (.tail _ (.head _))))
  · decide
  · simp only [componentBase, List.forall_mem_cons]
    refine ⟨fun _ => rfl, fun hkey => absurd (by decide) hkey, by simp⟩

end Merging

end CompilerOptions

end MiniProgram
