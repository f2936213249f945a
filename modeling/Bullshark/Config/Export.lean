import Bullshark.Crypto.KeyText
import Bullshark.Machinery.Json

/-!
# Config/Export — a key pair written to a file and read back

`Export::export` opens the file for writing but does not truncate it: where the old content is
longer than the new text, its end stays.  `Import::import` reads the whole file and takes nothing
but whitespace after the value.  So what was exported is imported exactly when all that stayed is
whitespace (`importFile_exportFile_iff`); `config.py`, which writes the same files, opens them so
that they are truncated.
-/

namespace Bullshark

/-- What the code calls of `serde_json`, on records whose fields are texts. -/
class SerdeJson where
  /-- `to_string_pretty` on the names and the values of the fields. -/
  toStringPretty : List (List UInt8 × List UInt8) → List UInt8
  /-- The deserializer of a record with fields of these names: the values, and what follows. -/
  readStruct : List (List UInt8) → List UInt8 → Option (List (List UInt8) × List UInt8)
  readStruct_toStringPretty : ∀ fields rest, Json.AllPrintable fields →
    (fields.map Prod.fst).Nodup →
      readStruct (fields.map Prod.fst) (toStringPretty fields ++ rest)
        = some (fields.map Prod.snd, rest)

/-- The content of a file; `none` where there is none. -/
abbrev File := Option (List UInt8)

/-- Write from the start of a file opened with `create` and `write`: what is beyond stays. -/
def File.write (old : File) (data : List UInt8) : File :=
  some (data ++ (old.getD []).drop data.length)

structure KeyPair where
  /-- The node's public key (and identifier). -/
  name : PublicKey
  /-- The node's secret key. -/
  secret : SecretKey
  deriving DecidableEq

namespace KeyPair

/-- The names of the fields, `name` and `secret`. -/
def fieldNames : List (List UInt8) :=
  [[110, 97, 109, 101], [115, 101, 99, 114, 101, 116]]

example : fieldNames = ["name", "secret"].map
    fun name => name.toList.map fun c => UInt8.ofNat c.toNat := by decide

section Files

variable [Base64] [SerdeJson]

/-- The fields with their texts. -/
def fields (keyPair : KeyPair) : List (List UInt8 × List UInt8) :=
  fieldNames.zip [keyPair.name.encodeBase64, keyPair.secret.encodeBase64]

/-- What `export` writes, with the line feed. -/
def text (keyPair : KeyPair) : List UInt8 := SerdeJson.toStringPretty keyPair.fields ++ [10]

/-- `Export::export`, where nothing fails. -/
def exportFile (keyPair : KeyPair) (old : File) : File := old.write keyPair.text

/-- The key pair of the two texts; `none` is an error. -/
def ofTexts (name secret : List UInt8) : Except SlicePanic (Option KeyPair) := do
  let .ok name ← PublicKey.readBase64 name | return none
  let .ok secret ← SecretKey.readBase64 secret | return none
  return some ⟨name, secret⟩

/-- `KeyPair::deserialize` on the front of the data. -/
def deserialize (data : List UInt8) : Except SlicePanic (Option (KeyPair × List UInt8)) :=
  match SerdeJson.readStruct fieldNames data with
  | some ([name, secret], rest) =>
    (ofTexts name secret).map fun keyPair => keyPair.map fun keyPair => (keyPair, rest)
  | _ => .ok none

/-- `serde_json::from_slice`: nothing but whitespace may follow the value. -/
def fromSlice (data : List UInt8) : Except SlicePanic (Option KeyPair) := do
  match ← deserialize data with
  | some (keyPair, rest) => return if rest.all Json.isWhitespace then some keyPair else none
  | none => return none

/-- `Import::import`; `none` is `ConfigError::ImportError`. -/
def importFile (file : File) : Except SlicePanic (Option KeyPair) :=
  match file with
  | none => .ok none
  | some data => fromSlice data

omit [SerdeJson] in
/-- The texts of a key pair are printable. -/
theorem allPrintable_fields (hprint : ∀ bytes, Json.Printable (Base64.encode bytes))
    (keyPair : KeyPair) : Json.AllPrintable keyPair.fields := by
  have hnames : ∀ name ∈ fieldNames, Json.Printable name := by decide
  intro field hfield
  refine ⟨hnames _ (List.of_mem_zip hfield).1, ?_⟩
  have hvalue := (List.of_mem_zip hfield).2
  simp only [List.mem_cons, List.not_mem_nil, or_false] at hvalue
  rcases hvalue with hvalue | hvalue
  · exact hvalue ▸ hprint _
  · exact hvalue ▸ hprint _

omit [SerdeJson] in
theorem ofTexts_encodeBase64 (keyPair : KeyPair) :
    ofTexts keyPair.name.encodeBase64 keyPair.secret.encodeBase64 = .ok (some keyPair) := by
  rw [ofTexts, PublicKey.readBase64_encodeBase64, SecretKey.readBase64_encodeBase64]
  rfl

/-- The front of what was written is the key pair. -/
theorem deserialize_toStringPretty (hprint : ∀ bytes, Json.Printable (Base64.encode bytes))
    (keyPair : KeyPair) (rest : List UInt8) :
    deserialize (SerdeJson.toStringPretty keyPair.fields ++ rest) = .ok (some (keyPair, rest)) := by
  have hread : SerdeJson.readStruct fieldNames (SerdeJson.toStringPretty keyPair.fields ++ rest)
      = some ([keyPair.name.encodeBase64, keyPair.secret.encodeBase64], rest) :=
    SerdeJson.readStruct_toStringPretty keyPair.fields rest (allPrintable_fields hprint keyPair)
      (show fieldNames.Nodup by decide)
  rw [deserialize, hread]
  change (ofTexts keyPair.name.encodeBase64 keyPair.secret.encodeBase64).map _ = _
  rw [ofTexts_encodeBase64]
  rfl

/-- **What was exported is imported** exactly when the old content has nothing but whitespace
beyond the new text. -/
theorem importFile_exportFile_iff (hprint : ∀ bytes, Json.Printable (Base64.encode bytes))
    (keyPair : KeyPair) (old : File) :
    importFile (keyPair.exportFile old) = .ok (some keyPair) ↔
      ∀ c ∈ (old.getD []).drop keyPair.text.length, Json.isWhitespace c = true := by
  have hsplit : keyPair.text ++ (old.getD []).drop keyPair.text.length
      = SerdeJson.toStringPretty keyPair.fields
        ++ 10 :: (old.getD []).drop keyPair.text.length := by
    rw [text, List.append_assoc, List.singleton_append]
  have himport : importFile (keyPair.exportFile old)
      = .ok (if (10 :: (old.getD []).drop keyPair.text.length).all Json.isWhitespace
        then some keyPair else none) := by
    rw [exportFile, File.write, importFile, fromSlice, hsplit, deserialize_toStringPretty hprint]
    rfl
  rw [himport, Except.ok.injEq, List.all_cons, show Json.isWhitespace 10 = true by decide,
    Bool.true_and, ← List.all_eq_true]
  by_cases hall : ((old.getD []).drop keyPair.text.length).all Json.isWhitespace = true
  · simp [hall]
  · simp [hall]

end Files

end KeyPair

/-! ## Over the file of another program -/

namespace KeyPair.Reprinted

open Sample

scoped instance serdeJson : SerdeJson where
  toStringPretty := Json.pretty
  readStruct := Json.readStruct
  readStruct_toStringPretty _ rest h hnodup := Json.readStruct_pretty h hnodup rest

theorem printable_sextetChar : ∀ n < 64, 32 ≤ sextetChar n ∧ sextetChar n < 127 := by decide

/-- The alphabet is printable. -/
theorem printable_encode64 (bytes : List UInt8) : Json.Printable (encode64 bytes) := by
  fun_induction encode64 bytes with
  | case1 => exact fun _ h => (by cases h)
  | case2 a =>
    have ha := a.toNat_lt
    exact List.forall_mem_cons.mpr ⟨printable_sextetChar _ (by omega), List.forall_mem_cons.mpr
      ⟨printable_sextetChar _ (by omega), by simp⟩⟩
  | case3 a b =>
    have ha := a.toNat_lt
    have hb := b.toNat_lt
    exact List.forall_mem_cons.mpr ⟨printable_sextetChar _ (by omega), List.forall_mem_cons.mpr
      ⟨printable_sextetChar _ (by omega), List.forall_mem_cons.mpr
        ⟨printable_sextetChar _ (by omega), by simp⟩⟩⟩
  | case4 a b c l ih =>
    have ha := a.toNat_lt
    have hb := b.toNat_lt
    have hc := c.toNat_lt
    exact List.forall_mem_cons.mpr ⟨printable_sextetChar _ (by omega), List.forall_mem_cons.mpr
      ⟨printable_sextetChar _ (by omega), List.forall_mem_cons.mpr
        ⟨printable_sextetChar _ (by omega), List.forall_mem_cons.mpr
          ⟨printable_sextetChar _ (by omega), ih⟩⟩⟩⟩

def old : KeyPair := ⟨key 1, ⟨1⟩⟩

def new : KeyPair := ⟨key 2, ⟨2⟩⟩

/-- The file of a key pair as `Key.print` of `config.py` writes it: four spaces, no line feed. -/
def printed (keyPair : KeyPair) : List UInt8 :=
  123 :: List.intercalate [44] (keyPair.fields.map fun field =>
    [10, 32, 32, 32, 32] ++ Json.member field) ++ [10, 125]

/-- The file of a key pair as `export` leaves it, with a space and a line feed after it. -/
def padded : List UInt8 := old.text ++ [32, 10]

set_option maxRecDepth 100000 in
theorem evaluated_padded : padded.drop new.text.length = [32, 10] ∧
    importFile (some padded) = .ok (some old) := by
  decide +kernel

/-- Over a file that is longer, by whitespace, the key pair is read back. -/
theorem imports_over_padded : importFile (some padded) = .ok (some old) ∧
    importFile (new.exportFile (some padded)) = .ok (some new) := by
  obtain ⟨hrest, hold⟩ := evaluated_padded
  refine ⟨hold, (importFile_exportFile_iff printable_encode64 new (some padded)).mpr ?_⟩
  rw [Option.getD_some, hrest]
  exact List.forall_mem_cons.mpr ⟨by decide, List.forall_mem_singleton.mpr (by decide)⟩

set_option maxRecDepth 100000 in
/-- **Over the file as the scripts print it, the key pair is not read back**: its last three
characters stay. -/
theorem rejects_reprinted : (printed old).drop new.text.length = [34, 10, 125] ∧
    importFile (some (printed old)) = .ok (some old) ∧
    importFile (new.exportFile (some (printed old))) = .ok none := by
  decide +kernel

end KeyPair.Reprinted

end Bullshark
