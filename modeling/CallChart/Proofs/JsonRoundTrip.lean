import CallChart.Json.Codec
import CallChart.Proofs.JsonWriter
import Mathlib.Data.List.Forall2

/-! What is printed in JSON is read back. A manifest is also read from other texts than the printed one: members may
stand in any order, those that have their default value may be left out, and there may be others that mean nothing. -/
namespace CallChart

namespace Json

/-! ### Records -/

section Records

variable {names : List String} {fields members : List (String × Json)}

/-- Members of an object: some fields, in any order, and others that are not among the names of the fields. -/
def Rearranged (names : List String) (fields members : List (String × Json)) : Prop :=
  ∃ extra, (∀ m ∈ extra, m.1 ∉ names) ∧ members.Perm (fields ++ extra)

theorem Rearranged.refl (names : List String) (fields : List (String × Json)) : Rearranged names fields fields :=
  ⟨[], ⟨fun _ h => (by cases h), .of_eq (List.append_nil fields).symm⟩⟩

theorem lookup_eq_some_iff (hkeys : (fields.map Prod.fst).Nodup) {name : String} {j : Json} :
    fields.lookup name = some j ↔ (name, j) ∈ fields := by
  induction fields with
  | nil => exact iff_of_false (fun h => by cases h) (fun h => by cases h)
  | cons m fields ih =>
    obtain ⟨key, value⟩ := m
    obtain ⟨hkey, hrest⟩ := List.nodup_cons.mp hkeys
    rw [List.lookup_cons, List.mem_cons, Prod.mk.injEq]
    by_cases hname : name = key
    · subst hname
      have hnot : (name, j) ∉ fields := fun h => hkey (List.mem_map.mpr ⟨(name, j), h, rfl⟩)
      rw [beq_self_eq_true, or_iff_left hnot, Option.some.injEq, and_iff_right rfl, eq_comm]
    · rw [beq_eq_false_iff_ne.mpr hname, or_iff_right fun h => hname h.1]
      exact ih hrest

theorem hasRepeated_eq_false_iff : hasRepeated names = false ↔ names.Nodup := by
  induction names with
  | nil => simp [hasRepeated]
  | cons name names ih =>
    rw [hasRepeated, Bool.or_eq_false_iff, ih, List.nodup_cons, List.contains_eq_mem, decide_eq_false_iff_not]

theorem members?_ofMembers (names : List String) (members : List (String × Json)) :
    members? names (members.map fun m => (some m.1, m.2)) = some (members.filter fun m => names.contains m.1) := by
  induction members with
  | nil => rfl
  | cons m members ih =>
    rw [List.map_cons, members?, ih, List.filter_cons]
    rfl

/-- What is found in an object with these fields. -/
structure Fields.Holds (found : Fields) (fields : List (String × Json)) : Prop where
  byName : found.byName = true
  find : ∀ {name j}, found.find? name = some j ↔ (name, j) ∈ fields

/-- A record finds the fields that are there, whatever stands between them. -/
theorem exists_fields (h : Rearranged names fields members) (hkeys : (fields.map Prod.fst).Sublist names)
    (hnames : names.Nodup) : ∃ found, (ofMembers members).fields? names = some found ∧ found.Holds fields := by
  obtain ⟨extra, hextra, hperm⟩ := h
  have hfound : (members.filter fun m => names.contains m.1).Perm fields := by
    have hfields : (fields.filter fun m => names.contains m.1) = fields :=
      List.filter_eq_self.mpr fun m hm => List.contains_iff_mem.mpr (hkeys.mem (List.mem_map_of_mem hm))
    have hnone : (extra.filter fun m => names.contains m.1) = [] :=
      List.filter_eq_nil_iff.mpr fun m hm hname => hextra m hm (List.contains_iff_mem.mp hname)
    have hfiltered := hperm.filter fun m => names.contains m.1
    rwa [List.filter_append, hfields, hnone, List.append_nil] at hfiltered
  have hnodup := (hfound.map Prod.fst).symm.nodup (hkeys.nodup hnames)
  refine ⟨⟨true, _⟩, ?_, rfl, fun {name j} => (lookup_eq_some_iff hnodup).trans hfound.mem_iff⟩
  rw [ofMembers, fields?, members?_ofMembers, Option.bind_some, hasRepeated_eq_false_iff.mpr hnodup]
  rfl

section Found

variable {α : Type} {found : Fields} {name : String} {j : Json}

theorem Fields.Holds.required (h : found.Holds fields) (hj : (name, j) ∈ fields) (read : Json → Option α) :
    found.required name read = read j := by
  rw [Fields.required, h.find.mpr hj, Option.bind_some]

theorem Fields.Holds.nullable (h : found.Holds fields) (hj : (name, j) ∈ fields) (read : Json → Option α) :
    found.nullable name read = orNull? read j := by
  rw [Fields.nullable, h.find.mpr hj]

/-- A field that may be left out is read, or has its default value. -/
theorem Fields.Holds.defaulted (h : found.Holds fields) {read : Json → Option α} {default a : α}
    (hread : ∀ j, (name, j) ∈ fields → read j = some a) (hdefault : (∀ j, (name, j) ∉ fields) → default = a) :
    found.defaulted name read default = some a := by
  rw [Fields.defaulted]
  split
  · next j hj => exact hread j (h.find.mp hj)
  · next hnone =>
    rw [hdefault fun j hj => by rw [h.find.mpr hj] at hnone; cases hnone]

end Found

end Records

theorem natBelow?_ofNat {bound n : Nat} (h : n < bound) : (ofNat n).natBelow? bound = some n := by
  rw [ofNat, natBelow?, if_pos, Int.toNat_natCast]
  rw [Bool.and_eq_true, decide_eq_true_eq, decide_eq_true_eq]
  exact ⟨Int.natCast_nonneg n, Int.ofNat_lt.mpr h⟩

theorem list?_of_forall₂ {α : Type} {read : Json → Option α} {as : List α} {js : List Json}
    (h : List.Forall₂ (fun a j => read j = some a) as js) : list? read (.array js) = some as := by
  rw [list?]
  induction h with
  | nil => rfl
  | cons hread _ ih =>
    rw [List.mapM_cons, hread, ih]
    rfl

theorem list?_map {α : Type} {read : Json → Option α} {form : α → Json} (h : ∀ a, read (form a) = some a)
    (as : List α) : list? read (.array (as.map form)) = some as :=
  list?_of_forall₂ (List.forall₂_map_right_iff.mpr (List.forall₂_same.mpr fun a _ => h a))

end Json

/-! ### Codecs -/

open JsonCodec

/-- A form in JSON that can be read. -/
class LawfulJsonCodec (α : Type) [JsonCodec α] : Prop where
  decode_encode : ∀ a : α, decode (encode a) = some a

export LawfulJsonCodec (decode_encode)

theorem read_print {α : Type} [JsonCodec α] [LawfulJsonCodec α] (a : α) : Json.read? (Json.print a) = some a := by
  rw [Json.read?, Json.print, Json.parse_compact, Option.bind_some, decode_encode]

theorem orNull?_encodeLine (line : Option UInt32) : Json.orNull? line? (encodeLine line) = some line := by
  cases line with
  | none => rfl
  | some n =>
    have hbound : (Json.ofNat n.toNat).natBelow? (Nat.pow 2 32) = some n.toNat := Json.natBelow?_ofNat n.toNat_lt
    have hpresent : Json.orNull? line? (encodeLine (some n)) = (line? (.ofNat n.toNat)).map some := rfl
    rw [hpresent]
    simp only [line?, hbound, Option.map_some, UInt32.ofNat_toNat]

instance : LawfulJsonCodec NodeId where
  decode_encode id := by
    change ((Json.ofNat id.value.toNat).natBelow? (Nat.pow 2 64)).map (fun n => (⟨UInt64.ofNat n⟩ : NodeId)) = some id
    rw [Json.natBelow?_ofNat id.value.toNat_lt, Option.map_some, UInt64.ofNat_toNat]

instance : LawfulJsonCodec EdgeId where
  decode_encode id := by
    obtain ⟨found, hfound, hholds⟩ := Json.exists_fields
      (.refl ["source", "target"] [("source", encode id.source), ("target", encode id.target)]) (.refl _) (by decide)
    have hsource : found.required "source" decode = some id.source :=
      (hholds.required (by simp) decode).trans (decode_encode id.source)
    have htarget : found.required "target" decode = some id.target :=
      (hholds.required (by simp) decode).trans (decode_encode id.target)
    change (Json.fields? _ (Json.ofMembers _)).bind _ = _
    rw [hfound, Option.bind_some, hsource, htarget]
    rfl

instance : LawfulJsonCodec Edge where
  decode_encode e := by
    obtain ⟨found, hfound, hholds⟩ := Json.exists_fields (.refl ["id", "source", "target"]
      [("id", encode e.id), ("source", encode e.source), ("target", encode e.target)]) (.refl _) (by decide)
    have hid : found.required "id" decode = some e.id :=
      (hholds.required (by simp) decode).trans (decode_encode e.id)
    have hsource : found.required "source" decode = some e.source :=
      (hholds.required (by simp) decode).trans (decode_encode e.source)
    have htarget : found.required "target" decode = some e.target :=
      (hholds.required (by simp) decode).trans (decode_encode e.target)
    change (Json.fields? _ (Json.ofMembers _)).bind _ = _
    rw [hfound, Option.bind_some, hid, hsource, htarget]
    rfl

instance : LawfulJsonCodec SourceFunction where
  decode_encode f := by
    obtain ⟨found, hfound, hholds⟩ := Json.exists_fields (.refl ["qualified_name", "name", "file_path", "line"]
      [("qualified_name", .ofString f.qualifiedName), ("name", .ofString f.name),
        ("file_path", .ofString f.file.text), ("line", encodeLine f.line)]) (.refl _) (by decide)
    have hqualified : found.required "qualified_name" Json.text? = some f.qualifiedName :=
      hholds.required (j := .ofString f.qualifiedName) (by simp) _
    have hname : found.required "name" Json.text? = some f.name := hholds.required (j := .ofString f.name) (by simp) _
    have hfile : found.required "file_path" path? = some f.file :=
      hholds.required (j := .ofString f.file.text) (by simp) _
    have hline : found.nullable "line" line? = some f.line :=
      (hholds.nullable (by simp) line?).trans (orNull?_encodeLine f.line)
    change (Json.fields? _ (Json.ofMembers _)).bind _ = _
    rw [hfound, Option.bind_some, hqualified, hname, hfile, hline]
    rfl

instance : LawfulJsonCodec Scope where
  decode_encode
    | .project includeTests => by
      obtain ⟨found, hfound, hholds⟩ := Json.exists_fields
        (.refl ["include_tests"] [("include_tests", .bool includeTests)]) (.refl _) (by decide)
      have hinclude : found.required "include_tests" Json.bool? = some includeTests :=
        hholds.required (j := .bool includeTests) (by simp) _
      have hdecode : decode (encode (Scope.project includeTests)) =
          (Json.fields? ["include_tests"] (.ofMembers [("include_tests", .bool includeTests)])).bind fun fields =>
            (fields.required "include_tests" Json.bool?).map Scope.project := rfl
      rw [hdecode, hfound, Option.bind_some, hinclude]
      rfl
    | .module name => rfl
    | .directory path => rfl

instance : LawfulJsonCodec Direction where
  decode_encode d := by
    cases d <;> rfl

/-! ### Manifests -/

namespace FunctionEntry

def fieldNames : List String := ["name", "qualified_name", "file", "line", "module", "test", "calls"]

def fields (e : FunctionEntry) : List (String × Json) :=
  [("name", .ofString e.name), ("qualified_name", .ofString e.qualifiedName), ("file", .ofString e.file.text),
    ("line", encodeLine e.line), ("module", .ofString e.module), ("test", .bool e.test),
    ("calls", .array (e.calls.map .ofString))]

/-- What a field that is left out stands for. -/
def defaults : List (String × Json) :=
  [("line", .null), ("module", .ofString ""), ("test", .bool false), ("calls", .array [])]

/-- An object for an entry. It has the fields in any order, and may lack some that have their default values; any other
members mean nothing. -/
def Form (e : FunctionEntry) (j : Json) : Prop :=
  ∃ kept members, kept.Sublist e.fields ∧ (∀ m ∈ e.fields, m ∉ kept → m ∈ defaults) ∧
    Json.Rearranged fieldNames kept members ∧ j = .ofMembers members

variable {e : FunctionEntry} {j : Json}

theorem form_encode (e : FunctionEntry) : e.Form (encode e) :=
  ⟨e.fields, e.fields, .refl _, fun _ hm hnot => absurd hm hnot, .refl _ _, rfl⟩

theorem nodup_keys (e : FunctionEntry) : (e.fields.map Prod.fst).Nodup := by
  have hnodup : fieldNames.Nodup := by decide
  exact hnodup

section Found

variable {kept : List (String × Json)} {found : Json.Fields} {name : String} {v : Json} {α : Type}

theorem required_of_kept (hholds : found.Holds kept) (hleft : ∀ m ∈ e.fields, m ∉ kept → m ∈ defaults)
    (hv : (name, v) ∈ e.fields) (hname : name ∉ defaults.map Prod.fst) (read : Json → Option α) :
    found.required name read = read v := by
  refine hholds.required (Classical.byContradiction fun hnot => hname ?_) read
  exact List.mem_map.mpr ⟨(name, v), hleft _ hv hnot, rfl⟩

theorem defaulted_of_kept (hholds : found.Holds kept) (hkept : kept.Sublist e.fields)
    (hleft : ∀ m ∈ e.fields, m ∉ kept → m ∈ defaults) (hv : (name, v) ∈ e.fields) {read : Json → Option α}
    {default a : α} (hread : read v = some a) (hdefault : (name, v) ∈ defaults → default = a) :
    found.defaulted name read default = some a := by
  refine hholds.defaulted (fun j hj => ?_) fun hnone => hdefault (hleft _ hv (hnone v))
  have hsame : some v = some j := ((Json.lookup_eq_some_iff e.nodup_keys).mpr hv).symm.trans
    ((Json.lookup_eq_some_iff e.nodup_keys).mpr (hkept.mem hj))
  rw [← Option.some.inj hsame, hread]

end Found

/-- However an entry is written, it is read as that entry. -/
theorem Form.decode (h : e.Form j) : JsonCodec.decode j = some e := by
  obtain ⟨kept, members, hkept, hleft, hmembers, rfl⟩ := h
  have hkeys : (kept.map Prod.fst).Sublist fieldNames := hkept.map Prod.fst
  obtain ⟨found, hfound, hholds⟩ := Json.exists_fields hmembers hkeys (by decide)
  have hname : found.required "name" Json.text? = some e.name :=
    required_of_kept (v := .ofString e.name) hholds hleft (by simp [fields]) (by decide) _
  have hqualified : found.required "qualified_name" Json.text? = some e.qualifiedName :=
    required_of_kept (v := .ofString e.qualifiedName) hholds hleft (by simp [fields]) (by decide) _
  have hfile : found.required "file" path? = some e.file :=
    required_of_kept (v := .ofString e.file.text) hholds hleft (by simp [fields]) (by decide) _
  have hline : found.defaulted "line" (Json.orNull? line?) none = some e.line := by
    have hread := orNull?_encodeLine e.line
    refine defaulted_of_kept hholds hkept hleft (by simp [fields]) hread fun hdefault => ?_
    cases hline : e.line with
    | none => rfl
    | some n => simp [defaults, hline, encodeLine, Json.ofNat] at hdefault
  have hmodule : found.defaulted "module" Json.text? "" = some e.module := by
    refine defaulted_of_kept (v := .ofString e.module) hholds hkept hleft (by simp [fields]) rfl fun hdefault => ?_
    have hempty : e.module = "" := by simpa [defaults, Json.ofString] using hdefault
    exact hempty.symm
  have htest : found.defaulted "test" Json.bool? false = some e.test := by
    refine defaulted_of_kept (v := .bool e.test) hholds hkept hleft (by simp [fields]) rfl fun hdefault => ?_
    have hunmarked : e.test = false := by simpa [defaults] using hdefault
    exact hunmarked.symm
  have hcalls : found.defaulted "calls" (Json.list? Json.text?) [] = some e.calls := by
    have htext (s : String) : Json.text? (.ofString s) = some s := rfl
    have hread := Json.list?_map htext e.calls
    refine defaulted_of_kept hholds hkept hleft (by simp [fields]) hread fun hdefault => ?_
    have hnone : e.calls = [] := by simpa [defaults] using hdefault
    exact hnone.symm
  change (Json.fields? fieldNames (Json.ofMembers _)).bind _ = _
  rw [hfound, Option.bind_some, hname, hqualified, hfile, hline, hmodule, htest, hcalls]
  rfl

end FunctionEntry

namespace Manifest

/-- An object for a manifest: an entry for each function, and other members that mean nothing. -/
def Form (m : Manifest) (j : Json) : Prop :=
  ∃ js members, List.Forall₂ FunctionEntry.Form m.functions js ∧
    Json.Rearranged ["functions"] [("functions", .array js)] members ∧ j = .ofMembers members

theorem form_encode (m : Manifest) : m.Form (encode m) := by
  refine ⟨m.functions.map encode, _, ?_, .refl _ _, rfl⟩
  exact List.forall₂_map_right_iff.mpr (List.forall₂_same.mpr fun e _ => e.form_encode)

theorem Form.decode {m : Manifest} {j : Json} (h : m.Form j) : JsonCodec.decode j = some m := by
  obtain ⟨js, members, hentries, hmembers, rfl⟩ := h
  obtain ⟨found, hfound, hholds⟩ := Json.exists_fields hmembers (.refl _) (by decide)
  have hfunctions : found.required "functions" (Json.list? JsonCodec.decode) = some m.functions := by
    rw [hholds.required (j := .array js) List.mem_cons_self]
    exact Json.list?_of_forall₂ (hentries.imp fun _ _ => FunctionEntry.Form.decode)
  change (Json.fields? _ (Json.ofMembers _)).bind _ = _
  rw [hfound, Option.bind_some, hfunctions]
  rfl

end Manifest

instance : LawfulJsonCodec FunctionEntry where
  decode_encode e := e.form_encode.decode

instance : LawfulJsonCodec Manifest where
  decode_encode m := m.form_encode.decode

/-! ### A sparse manifest -/

section Sparse

def sparseManifest : Manifest := ⟨[⟨"é", "m::é", ⟨"src/a.rs"⟩, none, "", false, ["m::b"]⟩]⟩

def sparseEntry : Json := .object
  [(some "x", .integer 0), (some "calls", .array [.text (some "m::b")]), (some "file", .text (some "src/a.rs")),
    (some "qualified_name", .text (some "m::é")), (some "name", .text (some "é"))]

def sparseForm : Json :=
  .object [(some "v", .array [.real, .object [(none, .null)]]), (some "functions", .array [sparseEntry])]

/-- A text that holds no more of its entry than it has to, and much that means nothing. -/
def sparseText : String :=
  " \x7b\"v\": [-1.5e3, \x7b\"\\ud800\": null\x7d], \"functions\" :\n[\x7b\"x\": 0, \"calls\": [\"m::b\"],\t\"file\":
    \"src\\/a.rs\", \"qualified_name\": \"m::é\", \"name\": \"\\u00e9\"\x7d]\x7d"

theorem spells_sparseText : Json.Spells (.element sparseForm) sparseText.toList := by
  have hcompact : (Json.parse sparseText).map Json.compact = some sparseForm.compact := by decide +kernel
  obtain ⟨j, hparse, hsame⟩ := Option.map_eq_some_iff.mp hcompact
  rw [Json.compact_injective hsame] at hparse
  exact Json.parse_eq_some.mp hparse

theorem form_sparseForm : sparseManifest.Form sparseForm := by
  let kept : List (String × Json) :=
    [("name", .ofString "é"), ("qualified_name", .ofString "m::é"), ("file", .ofString "src/a.rs"),
      ("calls", .array [.ofString "m::b"])]
  let others : List (String × Json) := [("x", .ofNat 0)]
  refine ⟨[sparseEntry], _, .cons ?_ .nil, ⟨[("v", .array [.real, .object [(none, .null)]])], ?_, .swap _ _ _⟩, rfl⟩
  · refine ⟨kept, _, ?_, ?_, ⟨others, ?_, List.reverse_perm (kept ++ others)⟩, rfl⟩
    · exact .cons_cons _ (.cons_cons _ (.cons_cons _ (.cons _ (.cons _ (.cons _ (.cons_cons _ .slnil))))))
    · simp [FunctionEntry.fields, FunctionEntry.defaults, kept, encodeLine]
    · simp [FunctionEntry.fieldNames, others]
  · simp

end Sparse

/-- Everything that has a form in JSON is read back from the text that is printed of it, and a manifest from every text
of one of its forms. -/
theorem Json.read_back :
    (∀ scope : Scope, Json.read? (Json.print scope) = some scope) ∧
      (∀ direction : Direction, Json.read? (Json.print direction) = some direction) ∧
      (∀ f : SourceFunction, Json.read? (Json.print f) = some f) ∧
      (∀ e : FunctionEntry, Json.read? (Json.print e) = some e) ∧
      (∀ m : Manifest, Json.read? (Json.print m) = some m) ∧
      (∀ id : NodeId, Json.read? (Json.print id) = some id) ∧
      (∀ id : EdgeId, Json.read? (Json.print id) = some id) ∧
      (∀ e : Edge, Json.read? (Json.print e) = some e) ∧
      ∀ (m : Manifest) (j : Json) (text : String), m.Form j → Json.Spells (.element j) text.toList →
        Json.read? text = some m ∧ (Json.read? text : Option Manifest) = Json.read? (Json.print m) := by
  refine ⟨read_print, read_print, read_print, read_print, read_print, read_print, read_print, read_print, ?_⟩
  intro m j text hform htext
  have hread : Json.read? text = some m := by
    rw [Json.read?, Json.parse_eq_some.mpr htext, Option.bind_some, hform.decode]
  exact ⟨hread, hread.trans (read_print m).symm⟩

theorem sparse_manifest_read : Json.read? sparseText = some sparseManifest := by
  obtain ⟨-, -, -, -, -, -, -, -, hread⟩ := Json.read_back
  exact (hread sparseManifest sparseForm sparseText form_sparseForm spells_sparseText).1

end CallChart
