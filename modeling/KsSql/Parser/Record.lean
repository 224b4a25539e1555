import KsSql.Parser.Ast
import KsSql.Storage.Node
import KsSql.Util.HashMap

/-!
# Rows, records and keys

What the engine stores: `Record` of `storage/btree.rs`, whose value is the encoding of a row or of
the catalogue, and the plain row keys that index entries hold. The encodings are lossless, so the
values are kept decoded; `Data` says what a stored byte string is the encoding of, and `ByteLen Data`
how long the string is. What the decoders make of a byte string that was written as something else is
left to the runtime (`Runtime.decodeRecord` and `Runtime.decodeRow` of the engine).

A row of table `t` is stored under `t`, a colon and sixteen hexadecimal digits (`rowKey`), an index
entry under the text of `indexKey`, and the catalogue under `schemasKey`.
-/

namespace KsSql

/-- A row: the text of each column. -/
abbrev Row := HashMap Bytes Bytes

/-- `TableSchema` -/
structure TableSchema where
  name : Bytes
  columns : List Bytes
  autoIncrementCol : Option Bytes
  nextId : Nat
  deriving DecidableEq

/-- `IndexSchema` -/
structure IndexSchema where
  name : Bytes
  tableName : Bytes
  column : Bytes
  deriving DecidableEq

/-- What the value of a record is the encoding of. -/
inductive Payload
  | row (columns : Row)
  | schemas (tables : HashMap Bytes TableSchema)
  deriving DecidableEq

/-- `Record` -/
structure Record where
  value : Payload
  version : Nat
  isDeleted : Bool
  timestamp : Int
  deriving DecidableEq

/-- What a stored byte string is: the encoding of a record, or a row key as an index entry
holds it. -/
inductive Data
  | record (r : Record)
  | raw (key : Bytes)
  deriving DecidableEq

/-- The record that a byte string encodes, if it is one. -/
def Data.record? : Data → Option Record
  | .record r => some r
  | .raw _ => none

theorem Data.record?_eq_some {data : Data} {r : Record} : data.record? = some r ↔ data = .record r := by
  rcases data with r' | key
  · rw [record?, Option.some_inj, record.injEq]
  · exact iff_of_false nofun nofun

/-! ### Lengths of encodings -/

/-- The encoded length of a byte string. -/
def bytesSize (b : Bytes) : Nat := 8 + b.length

/-- The encoded length of a table's schema. -/
def TableSchema.size (s : TableSchema) : Nat :=
  bytesSize s.name + (8 + (s.columns.map bytesSize).sum) +
    (1 + (s.autoIncrementCol.map bytesSize).getD 0) + 8

/-- The encoded length of the value of a record. -/
def Payload.size : Payload → Nat
  | .row columns => 8 + (columns.toList.map fun c ↦ bytesSize c.1 + bytesSize c.2).sum
  | .schemas tables => 8 + (tables.toList.map fun t ↦ bytesSize t.1 + t.2.size).sum

instance : ByteLen Data where
  byteLen
    | .record r => 8 + r.value.size + 8 + 1 + 8
    | .raw key => key.length

/-! ### Keys -/

/-- A hexadecimal digit, in lower case. -/
def hexDigit (d : Nat) : UInt8 := UInt8.ofNat (if d < 10 then 48 + d else 87 + d)

/-- `{:016x}`: the sixteen hexadecimal digits of a 64-bit number. -/
def hex16 (id : UInt64) : Bytes :=
  (List.range 16).map fun i ↦ hexDigit (id.toNat / 16 ^ (15 - i) % 16)

/-- What the keys of a table's rows start with. -/
def tablePrefix (tableName : Bytes) : Bytes := tableName ++ bytes ":"

/-- The key of a row. -/
def rowKey (tableName : Bytes) (id : UInt64) : Bytes := tablePrefix tableName ++ hex16 id

/-- The key of an index entry. -/
def indexKey (tableName column value : Bytes) : Bytes :=
  bytes "idx:" ++ tableName ++ bytes ":" ++ column ++ bytes ":" ++ value

/-- The key of the catalogue. -/
def schemasKey : Bytes := bytes "__schemas__"

/-- The column under which a scanned row carries its own key. -/
def keyColumn : Bytes := bytes "__key__"

theorem length_hex16 (id : UInt64) : (hex16 id).length = 16 := by
  rw [hex16, List.length_map, List.length_range]

theorem hexDigit_injective {a b : Nat} (ha : a < 16) (hb : b < 16) (h : hexDigit a = hexDigit b) :
    a = b := by
  have hall : ∀ a < 16, ∀ b < 16, hexDigit a = hexDigit b → a = b := by decide
  exact hall a ha b hb h

/-- Numbers with the same lowest hexadecimal digits agree modulo a power of sixteen. -/
theorem mod_eq_of_digits {a b : Nat} : ∀ n : Nat,
    (∀ i < n, a / 16 ^ i % 16 = b / 16 ^ i % 16) → a % 16 ^ n = b % 16 ^ n
  | 0, _ => by rw [Nat.pow_zero, Nat.mod_one, Nat.mod_one]
  | n + 1, h => by
    have ih := mod_eq_of_digits n fun i hi ↦ h i (Nat.lt_succ_of_lt hi)
    rw [Nat.pow_succ, Nat.mod_mul, Nat.mod_mul, ih, h n (Nat.lt_succ_self n)]

/-- Different numbers have different digits. -/
theorem hex16_injective {a b : UInt64} (h : hex16 a = hex16 b) : a = b := by
  have hdigit : ∀ i < 16, a.toNat / 16 ^ i % 16 = b.toNat / 16 ^ i % 16 := by
    intro i hi
    have hat := congrArg (fun l : Bytes ↦ l[15 - i]?) h
    simp only [hex16, List.getElem?_map, List.getElem?_range (show 15 - i < 16 by omega),
      Option.map_some, Option.some.injEq] at hat
    rw [show 15 - (15 - i) = i by omega] at hat
    exact hexDigit_injective (Nat.mod_lt _ (by decide)) (Nat.mod_lt _ (by decide)) hat
  have hmod := mod_eq_of_digits 16 hdigit
  rw [show 16 ^ 16 = 2 ^ 64 by decide, Nat.mod_eq_of_lt a.toNat_lt,
    Nat.mod_eq_of_lt b.toNat_lt] at hmod
  exact UInt64.toNat_inj.1 hmod

/-- The key of a row determines its table and its id. -/
theorem rowKey_injective {t t' : Bytes} {id id' : UInt64} (h : rowKey t id = rowKey t' id') :
    t = t' ∧ id = id' := by
  obtain ⟨hpre, hid⟩ := List.append_inj' h (by rw [length_hex16, length_hex16])
  exact ⟨List.append_cancel_right hpre, hex16_injective hid⟩

/-- The catalogue is not stored under the key of a row. -/
theorem rowKey_ne_schemasKey (t : Bytes) (id : UInt64) : rowKey t id ≠ schemasKey := by
  intro h
  have hcolon : (58 : UInt8) ∈ rowKey t id :=
    List.mem_append_left _ (List.mem_append_right _ (by decide))
  rw [h] at hcolon
  exact absurd hcolon (by decide)

/-- Nor under that of an index entry. -/
theorem indexKey_ne_schemasKey (t column value : Bytes) : indexKey t column value ≠ schemasKey := by
  intro h
  have hcolon : (58 : UInt8) ∈ indexKey t column value :=
    List.mem_append_left _ (List.mem_append_right _ (by decide))
  rw [h] at hcolon
  exact absurd hcolon (by decide)

end KsSql
