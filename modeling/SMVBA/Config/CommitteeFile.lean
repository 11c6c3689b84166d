import Mathlib.Data.Finset.Range
import Mathlib.Data.List.AList
import SMVBA.Consensus.Config
import SMVBA.Library.Numerals

/-!
# The committee file

`GenerateSmapleCommittee` writes a committee to a JSON file, and `GenCommitteeFromFile` reads one
when a node starts. Both go through untyped maps: ids through `Itoa` and `Atoi`, keys through
hexadecimal, and each field of a record through a type assertion that panics when the field is not
there. The writer has no `mempool_addr`, and the reader asserts that it is a string, so that reading
what was written panics (`committee_file_iff`). The benchmark writes the field, and what it writes
is read back (`roundTrips_benchmarkRecord`).
-/

namespace SMVBA

/-! ## Authorities -/

/-- A `core.Authority`. -/
structure Authority where
  name : List UInt8
  id : NodeID
  addr : String
  mempoolAddr : String
  deriving DecidableEq, Repr, Inhabited

/-- The map `Committee.Authorities`. Every authority is there under its own id. -/
structure Authorities where
  map : AList fun _ : NodeID => Authority
  id_eq : ∀ {id a}, map.lookup id = some a → a.id = id

namespace Authorities

/-- No authorities. -/
def empty : Authorities where
  map := ∅
  id_eq h := by simp at h

/-- `committee.Authorities[id] = a`, where `id` is the id of `a`. -/
def set (c : Authorities) (a : Authority) : Authorities where
  map := c.map.insert a.id a
  id_eq := by
    intro id a' h
    by_cases hid : id = a.id
    · subst hid
      rw [AList.lookup_insert] at h
      rw [← Option.some.inj h]
    · rw [AList.lookup_insert_ne hid] at h
      exact c.id_eq h

/-- `committee.Authorities[id]`. -/
def lookup (c : Authorities) (id : NodeID) : Option Authority := c.map.lookup id

/-- The authorities, in the order in which they are listed. -/
def values (c : Authorities) : List Authority := c.map.entries.map Sigma.snd

variable {c : Authorities} {a : Authority} {id : NodeID}

@[simp]
theorem lookup_empty : empty.lookup id = none := AList.lookup_empty id

theorem lookup_set : (c.set a).lookup a.id = some a := AList.lookup_insert c.map

theorem lookup_set_of_ne (h : id ≠ a.id) : (c.set a).lookup id = c.lookup id :=
  AList.lookup_insert_ne h

theorem mem_values_iff : a ∈ c.values ↔ c.lookup a.id = some a := by
  have hentry : ∀ id, c.map.lookup id = some a ↔ ⟨id, a⟩ ∈ c.map.entries := fun id =>
    AList.mem_lookup_iff
  constructor
  · intro hm
    obtain ⟨⟨id, a'⟩, he, rfl⟩ := List.mem_map.mp hm
    have hlookup := (hentry id).mpr he
    rw [c.id_eq hlookup]
    exact hlookup
  · intro hlookup
    exact List.mem_map.mpr ⟨⟨a.id, a⟩, (hentry a.id).mp hlookup, rfl⟩

/-- No id is listed twice. -/
theorem nodup_values : (c.values.map Authority.id).Nodup := by
  have hkeys : c.values.map Authority.id = c.map.keys := by
    unfold values AList.keys List.keys
    rw [List.map_map]
    refine List.map_congr_left fun e he => ?_
    exact c.id_eq (AList.mem_lookup_iff.mpr he)
  rw [hkeys]
  exact c.map.nodupKeys

/-- What is set for different ids stays. -/
theorem lookup_foldl_set {as : List Authority} (hnodup : (as.map Authority.id).Nodup) :
    (∀ a ∈ as, (as.foldl set c).lookup a.id = some a) ∧
      ∀ id ∉ as.map Authority.id, (as.foldl set c).lookup id = c.lookup id := by
  induction as generalizing c with
  | nil => simp
  | cons b as ih =>
    obtain ⟨hb, hnodup⟩ := List.nodup_cons.mp hnodup
    obtain ⟨hmem, hother⟩ := ih (c := c.set b) hnodup
    refine ⟨fun a ha => ?_, fun id hid => ?_⟩
    · rcases List.mem_cons.mp ha with rfl | ha
      · rw [List.foldl_cons, hother a.id hb, lookup_set]
      · exact hmem a ha
    · rw [List.map_cons, List.mem_cons, not_or] at hid
      rw [List.foldl_cons, hother id hid.2, lookup_set_of_ne hid.1]

/-- A map is built again from its values, in any order. -/
theorem lookup_foldl_values {as : List Authority} (h : as.Perm c.values) (id : NodeID) :
    (as.foldl set empty).lookup id = c.lookup id := by
  have hnodup : (as.map Authority.id).Nodup := (h.map _).nodup_iff.mpr nodup_values
  obtain ⟨hmem, hother⟩ := lookup_foldl_set (c := empty) hnodup
  cases hlookup : c.lookup id with
  | some a =>
    obtain rfl := c.id_eq hlookup
    exact hmem a (h.mem_iff.mpr (mem_values_iff.mpr hlookup))
  | none =>
    rw [hother id, lookup_empty]
    intro hid
    obtain ⟨a, ha, rfl⟩ := List.mem_map.mp hid
    rw [mem_values_iff.mp (h.mem_iff.mp ha)] at hlookup
    cases hlookup

end Authorities

/-! ## Text -/

/-- `strconv.Itoa`. -/
def itoa (x : ℤ) : String := x.repr

/-- `strconv.Atoi` without its error: what is not a numeral is zero, and what does not fit into an
`int` is the closest number that does. -/
def atoi (s : String) : ℤ :=
  match Numerals.decimal? s.toList with
  | some x => max minInt64 (min maxInt64 x)
  | none => 0

/-- `crypto.EncodePublicKey`, as a string. -/
def encodePublicKey (key : List UInt8) : String := String.ofList (Numerals.hexEncode key)

/-- `crypto.DecodePublicKey` without its error: the key is empty when there is one. -/
def decodePublicKey (s : String) : List UInt8 := (Numerals.hexDecode s.toList).getD []

/-- The ids that an `int` can hold. -/
def IsInt (x : ℤ) : Prop := minInt64 ≤ x ∧ x ≤ maxInt64

theorem atoi_itoa {x : ℤ} (h : IsInt x) : atoi (itoa x) = x := by
  unfold atoi itoa
  rw [Numerals.decimal?_repr]
  dsimp only
  rw [min_eq_right h.2, max_eq_right h.1]

theorem itoa_injective : Function.Injective itoa := by
  intro x y h
  have hsame := congrArg (fun s : String => Numerals.decimal? s.toList) h
  simp only [itoa, Numerals.decimal?_repr] at hsame
  exact Option.some.inj hsame

theorem decodePublicKey_encodePublicKey (key : List UInt8) :
    decodePublicKey (encodePublicKey key) = key := by
  unfold decodePublicKey encodePublicKey
  rw [String.toList_ofList, Numerals.hexDecode_hexEncode, Option.getD_some]

/-! ## JSON files -/

/-- A JSON value, as `encoding/json` decodes it into an `interface{}`. An object is a Go map: its
fields have different keys, and no order. Numbers are integers here. They are decoded as `float64`,
but the reader of a committee looks at none. -/
inductive Json where
  | null
  | bool (b : Bool)
  | number (x : ℤ)
  | string (s : String)
  | array (items : List Json)
  | object (fields : List (String × Json))

/-- The keys of every object in a value are different. -/
inductive Json.KeysDiffer : Json → Prop
  | null : KeysDiffer .null
  | bool (b : Bool) : KeysDiffer (.bool b)
  | number (x : ℤ) : KeysDiffer (.number x)
  | string (s : String) : KeysDiffer (.string s)
  | array {items : List Json} (hitems : ∀ v ∈ items, KeysDiffer v) : KeysDiffer (.array items)
  | object {fields : List (String × Json)} (hkeys : (fields.map Prod.fst).Nodup)
      (hvalues : ∀ e ∈ fields, KeysDiffer e.2) : KeysDiffer (.object fields)

/-- How the reader fails. -/
inductive FileErr where
  | panic
  | decode
  deriving DecidableEq, Repr

/-- Files of JSON values. `savetoFile` opens an existing file without truncating it, and what a
longer file had stays behind the value. `Decode` reads the first value. -/
structure JsonFiles (F : Type*) where
  savetoFile : Option F → Json → F
  decode : F → Option Json
  /-- `encoding/json` round-trips. -/
  decode_savetoFile : ∀ old v, v.KeysDiffer → decode (savetoFile old v) = some v

/-- The order in which a loop ranges over the map of a file. -/
structure Ranging where
  order : List (String × Json) → List (String × Json)
  perm : ∀ fields, (order fields).Perm fields

variable {F : Type*} (J : JsonFiles F) (R : Ranging)

/-- `readFromFile`. It panics when there is no file, and `null` decodes to a map without keys. -/
def readFromFile : Option F → Except FileErr (List (String × Json))
  | none => .error .panic
  | some file =>
    match J.decode file with
    | some (.object fields) => .ok fields
    | some .null => .ok []
    | _ => .error .decode

namespace Json

/-- `v.(map[string]interface{})`. -/
def asMap : Json → Except FileErr (List (String × Json))
  | .object fields => .ok fields
  | _ => .error .panic

/-- `v.(string)`. -/
def asString : Json → Except FileErr String
  | .string s => .ok s
  | _ => .error .panic

/-- `info[key]`, which is `nil` for a key that is not there. -/
def get (info : List (String × Json)) (key : String) : Json := (info.lookup key).getD .null

end Json

/-- The body of the loop of `GenCommitteeFromFile`, up to the assignment. -/
def readAuthority (e : String × Json) : Except FileErr Authority := do
  let info ← e.2.asMap
  let name ← (Json.get info "name").asString
  let addr ← (Json.get info "addr").asString
  let mempoolAddr ← (Json.get info "mempool_addr").asString
  return ⟨decodePublicKey name, atoi e.1, addr, mempoolAddr⟩

/-- The loop of `GenCommitteeFromFile`. -/
def readAuthorities (data : List (String × Json)) : Except FileErr Authorities :=
  data.foldlM (fun c e => do return c.set (← readAuthority e)) .empty

/-- `GenCommitteeFromFile`. -/
def genCommitteeFromFile (file : Option F) : Except FileErr Authorities := do
  let data ← readFromFile J file
  readAuthorities (R.order data)

/-! ## Writing a committee -/

/-- The record of `GenerateSmapleCommittee`. -/
def sampleRecord (a : Authority) : Json :=
  .object [("name", .string (encodePublicKey a.name)), ("node_id", .number a.id),
    ("addr", .string a.addr)]

/-- The record of `Committee._build_consensus` in the benchmark. -/
def benchmarkRecord (a : Authority) : Json :=
  .object [("name", .string (encodePublicKey a.name)), ("addr", .string a.addr),
    ("node_id", .number a.id), ("mempool_addr", .string a.mempoolAddr)]

/-- The map of a committee, with a record for each id. -/
def committeeData (record : Authority → Json) (c : Authorities) : Json :=
  .object (c.values.map fun a => (itoa a.id, record a))

theorem keysDiffer_sampleRecord (a : Authority) : (sampleRecord a).KeysDiffer := by
  refine .object (by simp) fun e he => ?_
  simp only [List.mem_cons, List.not_mem_nil, or_false] at he
  rcases he with rfl | rfl | rfl <;> constructor

theorem keysDiffer_benchmarkRecord (a : Authority) : (benchmarkRecord a).KeysDiffer := by
  refine .object (by simp) fun e he => ?_
  simp only [List.mem_cons, List.not_mem_nil, or_false] at he
  rcases he with rfl | rfl | rfl | rfl <;> constructor

/-- The ids of a committee are different, and so are the numerals. -/
theorem keysDiffer_committeeData {record : Authority → Json} (h : ∀ a, (record a).KeysDiffer)
    (c : Authorities) : (committeeData record c).KeysDiffer := by
  refine .object ?_ fun e he => ?_
  · have hids : (c.values.map Authority.id).Nodup := c.nodup_values
    have hkeys := hids.map itoa_injective
    rw [List.map_map] at hkeys ⊢
    exact hkeys
  · obtain ⟨a, -, rfl⟩ := List.mem_map.mp he
    exact h a

/-- `127.0.0.1` with a port. -/
def localAddr (port : ℕ) : String := "127.0.0.1:" ++ port.repr

/-- `DefaultPort`. -/
def defaultPort : ℕ := 9000

/-- An authority of `GenDefaultCommittee`. -/
def defaultAuthority (n : ℕ) (pubKey : ℕ → List UInt8) (i : ℕ) : Authority where
  name := pubKey i
  id := i
  addr := localAddr (defaultPort + i)
  mempoolAddr := localAddr (defaultPort + n + i)

/-- The committee of `GenDefaultCommittee`, with the keys that `GenED25519Keys` returns. -/
def genDefaultCommittee (n : ℕ) (pubKey : ℕ → List UInt8) : Authorities :=
  (List.range n).foldl (fun c i => c.set (defaultAuthority n pubKey i)) .empty

/-- The committee is written over what the file had, with a record for each id, and what is read
from the file is a committee with the same authorities. -/
def RoundTrips (record : Authority → Json) (old : Option F) (c : Authorities) : Prop :=
  ∃ c', genCommitteeFromFile J R (some (J.savetoFile old (committeeData record c))) = .ok c' ∧
    ∀ id, c'.lookup id = c.lookup id

/-! ## Reading it back -/

section Reading

variable {e : String × Json} {data : List (String × Json)} {c : Authorities}

/-- The call fails in no other way than with a panic. -/
def OnlyPanics {α : Type} (r : Except FileErr α) : Prop := ∀ err, r = .error err → err = .panic

theorem OnlyPanics.bind {α β : Type} {r : Except FileErr α} {f : α → Except FileErr β}
    (hr : OnlyPanics r) (hf : ∀ a, OnlyPanics (f a)) : OnlyPanics (r >>= f) := by
  intro err h
  cases r with
  | error _ =>
    cases h
    exact hr err rfl
  | ok a => exact hf a err h

theorem Json.onlyPanics_asString (v : Json) : OnlyPanics v.asString := by
  intro err h
  cases v <;> cases h <;> rfl

theorem Json.onlyPanics_asMap (v : Json) : OnlyPanics v.asMap := by
  intro err h
  cases v <;> cases h <;> rfl

/-- A record that cannot be read ends in a panic. -/
theorem onlyPanics_readAuthority (e : String × Json) : OnlyPanics (readAuthority e) := by
  refine (Json.onlyPanics_asMap _).bind fun info => ?_
  refine (Json.onlyPanics_asString _).bind fun name => ?_
  refine (Json.onlyPanics_asString _).bind fun addr => ?_
  refine (Json.onlyPanics_asString _).bind fun mempoolAddr => ?_
  intro err h
  cases h

/-- One record that cannot be read is enough. -/
theorem foldlM_panic (he : e ∈ data) (hpanic : readAuthority e = .error .panic) :
    data.foldlM (fun c e => do return Authorities.set c (← readAuthority e)) c =
      .error .panic := by
  induction data generalizing c with
  | nil => cases he
  | cons b data ih =>
    rw [List.foldlM_cons]
    cases hb : readAuthority b with
    | error err =>
      rw [onlyPanics_readAuthority b err hb]
      rfl
    | ok a =>
      have hne : e ≠ b := by
        rintro rfl
        rw [hpanic] at hb
        cases hb
      exact ih ((List.mem_cons.mp he).resolve_left hne)

/-- Records that can all be read are set one after the other. -/
theorem foldlM_ok {read : String × Json → Authority}
    (hread : ∀ e ∈ data, readAuthority e = .ok (read e)) :
    data.foldlM (fun c e => do return Authorities.set c (← readAuthority e)) c =
      .ok ((data.map read).foldl Authorities.set c) := by
  induction data generalizing c with
  | nil => rfl
  | cons b data ih =>
    rw [List.foldlM_cons, hread b List.mem_cons_self]
    exact ih fun e he => hread e (List.mem_cons_of_mem b he)

end Reading

/-- What was saved is there when it is read. -/
theorem genCommitteeFromFile_savetoFile (old : Option F) {record : Authority → Json}
    (hrecord : ∀ a, (record a).KeysDiffer) (c : Authorities) :
    genCommitteeFromFile J R (some (J.savetoFile old (committeeData record c))) =
      readAuthorities (R.order (c.values.map fun a => (itoa a.id, record a))) := by
  have hfile : readFromFile J (some (J.savetoFile old (committeeData record c))) =
      .ok (c.values.map fun a => (itoa a.id, record a)) := by
    simp only [readFromFile, J.decode_savetoFile old _ (keysDiffer_committeeData hrecord c)]
    rfl
  rw [genCommitteeFromFile, hfile]
  rfl

/-- A committee is read back when each record is, in whatever order. -/
theorem roundTrips_of_read (old : Option F) {record : Authority → Json}
    (hrecord : ∀ a, (record a).KeysDiffer) {c : Authorities}
    (hread : ∀ a ∈ c.values, readAuthority (itoa a.id, record a) = .ok a) :
    RoundTrips J R record old c := by
  let field (a : Authority) : String × Json := (itoa a.id, record a)
  let read (e : String × Json) : Authority := (readAuthority e).toOption.getD default
  have hok : ∀ e ∈ R.order (c.values.map field), readAuthority e = .ok (read e) := by
    intro e he
    obtain ⟨a, ha, rfl⟩ := List.mem_map.mp ((R.perm _).mem_iff.mp he)
    have hfield : readAuthority (field a) = .ok a := hread a ha
    simp only [read, hfield]
    rfl
  have hvalues : ((c.values.map field).map read) = c.values := by
    rw [List.map_map]
    refine (List.map_congr_left fun a ha => ?_).trans (List.map_id _)
    have hfield : readAuthority (field a) = .ok a := hread a ha
    simp only [read, Function.comp_apply, hfield]
    rfl
  have hsaved := genCommitteeFromFile_savetoFile J R old hrecord c
  refine ⟨_, hsaved.trans (foldlM_ok hok), fun id => ?_⟩
  refine Authorities.lookup_foldl_values ?_ id
  have hperm := (R.perm (c.values.map field)).map read
  rwa [hvalues] at hperm

/-- What the benchmark writes is read back, whatever the keys and addresses are, if the ids are
numbers that an `int` can hold. -/
theorem roundTrips_benchmarkRecord (old : Option F) {c : Authorities}
    (hint : ∀ a ∈ c.values, IsInt a.id) : RoundTrips J R benchmarkRecord old c := by
  refine roundTrips_of_read J R old keysDiffer_benchmarkRecord fun a ha => ?_
  have hid := atoi_itoa (hint a ha)
  have hname := decodePublicKey_encodePublicKey a.name
  show Except.ok (Authority.mk _ _ _ _) = _
  rw [hid, hname]

/-- A record without `mempool_addr` makes the reader panic. -/
theorem readAuthority_sampleRecord (a : Authority) :
    readAuthority (itoa a.id, sampleRecord a) = .error .panic := rfl

/-- A committee that is written in the records of `GenerateSmapleCommittee` is read back if and only
if it is empty. The reader panics on every other one. -/
theorem committee_file_iff (old : Option F) (c : Authorities) :
    (RoundTrips J R sampleRecord old c ↔ c.values = []) ∧
      (c.values ≠ [] →
        genCommitteeFromFile J R (some (J.savetoFile old (committeeData sampleRecord c))) =
          .error .panic) := by
  have hpanics : c.values ≠ [] →
      genCommitteeFromFile J R (some (J.savetoFile old (committeeData sampleRecord c))) =
        .error .panic := by
    intro hne
    obtain ⟨a, ha⟩ := List.exists_mem_of_ne_nil _ hne
    rw [genCommitteeFromFile_savetoFile J R old keysDiffer_sampleRecord]
    refine foldlM_panic ?_ (readAuthority_sampleRecord a)
    exact (R.perm _).mem_iff.mpr (List.mem_map_of_mem ha)
  have hempty : c.values = [] → RoundTrips J R sampleRecord old c := fun hnil =>
    roundTrips_of_read J R old keysDiffer_sampleRecord (by simp [hnil])
  refine ⟨⟨fun hround => ?_, hempty⟩, hpanics⟩
  by_contra hne
  obtain ⟨c', hread, -⟩ := hround
  rw [hpanics hne] at hread
  cases hread

/-- Files that hold the values themselves. -/
def plainFiles : JsonFiles Json where
  savetoFile _ v := v
  decode := some
  decode_savetoFile _ _ _ := rfl

/-- A loop that ranges over the fields as they are listed. -/
def inOrder : Ranging where
  order := id
  perm := List.Perm.refl

/-- The four authorities that `GenerateSmapleCommittee` writes are not read back. -/
theorem sample_committee_panics :
    (genDefaultCommittee 4 fun i => [UInt8.ofNat i]).values.map (fun a => (a.id, a.addr)) =
        [(3, "127.0.0.1:9003"), (2, "127.0.0.1:9002"), (1, "127.0.0.1:9001"),
          (0, "127.0.0.1:9000")] ∧
      genCommitteeFromFile plainFiles inOrder (some (plainFiles.savetoFile none
        (committeeData sampleRecord (genDefaultCommittee 4 fun i => [UInt8.ofNat i])))) =
          .error .panic ∧
      ¬ RoundTrips plainFiles inOrder sampleRecord none
        (genDefaultCommittee 4 fun i => [UInt8.ofNat i]) := by
  have hpanic : genCommitteeFromFile plainFiles inOrder (some (plainFiles.savetoFile none
      (committeeData sampleRecord (genDefaultCommittee 4 fun i => [UInt8.ofNat i])))) =
        .error .panic := rfl
  refine ⟨by decide, hpanic, ?_⟩
  rintro ⟨c', hread, -⟩
  rw [hpanic] at hread
  cases hread

/-! ## The committee of a node -/

namespace Authorities

variable {c c' : Authorities} {id : NodeID}

/-- The ids of the authorities. -/
def ids (c : Authorities) : Finset NodeID := c.map.keys.toFinset

/-- The committee that the consensus code computes with. -/
def committee (c : Authorities) (h : NONE ∉ c.ids) : Committee := ⟨c.ids, h⟩

theorem mem_ids_iff : id ∈ c.ids ↔ c.lookup id ≠ none := by
  unfold ids lookup
  rw [List.mem_toFinset, ← AList.mem_keys, ← AList.lookup_isSome, Option.isSome_iff_ne_none]

theorem ids_eq_of_lookup (h : ∀ id, c'.lookup id = c.lookup id) : c'.ids = c.ids := by
  ext id
  rw [mem_ids_iff, mem_ids_iff, h id]

end Authorities

section Default

variable {n : ℕ} {pubKey : ℕ → List UInt8}

/-- The ids `0, ..., n - 1`. -/
def firstIds (n : ℕ) : Finset NodeID := (Finset.range n).map ⟨Int.ofNat, fun _ _ => Int.ofNat.inj⟩

theorem mem_firstIds_iff {id : ℤ} : id ∈ firstIds n ↔ 0 ≤ id ∧ id < n := by
  unfold firstIds
  rw [Finset.mem_map]
  constructor
  · rintro ⟨i, hi, rfl⟩
    have hlt := Finset.mem_range.mp hi
    exact ⟨Int.natCast_nonneg i, Int.ofNat_lt.mpr hlt⟩
  · rintro ⟨h0, hlt⟩
    obtain ⟨i, rfl⟩ := Int.eq_ofNat_of_zero_le h0
    exact ⟨i, Finset.mem_range.mpr (Int.ofNat_lt.mp hlt), rfl⟩

theorem ids_genDefaultCommittee : (genDefaultCommittee n pubKey).ids = firstIds n := by
  have hids : ((List.range n).map (defaultAuthority n pubKey)).map Authority.id =
      (List.range n).map Int.ofNat := by
    rw [List.map_map]
    rfl
  have hnodup : ((List.range n).map Int.ofNat).Nodup :=
    List.nodup_range.map fun _ _ => Int.ofNat.inj
  have hbuilt : genDefaultCommittee n pubKey =
      ((List.range n).map (defaultAuthority n pubKey)).foldl Authorities.set .empty :=
    List.foldl_map.symm
  obtain ⟨hmem, hother⟩ := Authorities.lookup_foldl_set (c := .empty) (hids ▸ hnodup)
  ext id
  rw [Authorities.mem_ids_iff, hbuilt]
  constructor
  · intro hne
    by_contra hout
    refine hne ((hother id fun hid => hout ?_).trans Authorities.lookup_empty)
    rw [hids] at hid
    obtain ⟨i, hi, rfl⟩ := List.mem_map.mp hid
    exact Finset.mem_map_of_mem _ (Finset.mem_range.mpr (List.mem_range.mp hi))
  · intro hid
    obtain ⟨i, hi, rfl⟩ := Finset.mem_map.mp hid
    have hrange := List.mem_range.mpr (Finset.mem_range.mp hi)
    have hlookup := hmem _ (List.mem_map_of_mem hrange)
    rw [show (⟨Int.ofNat, fun _ _ => Int.ofNat.inj⟩ : ℕ ↪ NodeID) i =
      (defaultAuthority n pubKey i).id from rfl, hlookup]
    exact Option.some_ne_none _

/-- A node that reads the file of the benchmark runs with the committee of the ids `0, ..., n - 1`.
-/
theorem benchmark_committee (hn : (n : ℤ) ≤ maxInt64) (old : Option F) :
    ∃ c', genCommitteeFromFile J R (some (J.savetoFile old
        (committeeData benchmarkRecord (genDefaultCommittee n pubKey)))) = .ok c' ∧
      ∃ h : NONE ∉ c'.ids, (c'.committee h).authorities = firstIds n ∧
        (c'.committee h).size = n := by
  have hint : ∀ a ∈ (genDefaultCommittee n pubKey).values, IsInt a.id := by
    intro a ha
    have hid : a.id ∈ (genDefaultCommittee n pubKey).ids := by
      rw [Authorities.mem_ids_iff, Authorities.mem_values_iff.mp ha]
      exact Option.some_ne_none a
    rw [ids_genDefaultCommittee, mem_firstIds_iff] at hid
    unfold IsInt minInt64
    omega
  obtain ⟨c', hread, hsame⟩ := roundTrips_benchmarkRecord J R old hint
  have hids : c'.ids = firstIds n :=
    (Authorities.ids_eq_of_lookup hsame).trans ids_genDefaultCommittee
  have hnone : NONE ∉ c'.ids := by
    rw [hids, mem_firstIds_iff]
    exact fun h => absurd h.1 (by decide)
  refine ⟨c', hread, hnone, hids, ?_⟩
  calc (c'.committee hnone).size = (firstIds n).card := congrArg Finset.card hids
    _ = (Finset.range n).card := Finset.card_map _
    _ = n := Finset.card_range n

end Default

end SMVBA
