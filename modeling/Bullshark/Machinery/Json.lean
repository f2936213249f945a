import Mathlib.Data.List.Nodup
import Mathlib.Data.UInt

/-!
# Machinery/Json — objects of strings, written indented and read from the front

The part of JSON that a record of texts needs.  `Json.pretty` writes an object over several lines,
two spaces in front of each member; `Json.readObject` reads one from the front, with any whitespace
between its parts, and leaves the rest.  **What was written is read back whatever follows it**
(`readObject_pretty`), as long as no name or value holds a control character.
-/

namespace Json

/-- The texts here: no control characters, and all of ASCII. -/
def Printable (text : List UInt8) : Prop := ∀ c ∈ text, 32 ≤ c ∧ c < 127

instance (text : List UInt8) : Decidable (Printable text) :=
  List.decidableBAll (fun c => 32 ≤ c ∧ c < 127) text

/-- Space, line feed, tabulator, carriage return. -/
def isWhitespace (c : UInt8) : Bool := decide (c = 32 ∨ c = 10 ∨ c = 9 ∨ c = 13)

def skipWhitespace (data : List UInt8) : List UInt8 := data.dropWhile isWhitespace

/-! ## Strings -/

/-- `"` and `\` stand behind a `\`. -/
def escape : List UInt8 → List UInt8
  | [] => []
  | c :: text => if c = 34 ∨ c = 92 then 92 :: c :: escape text else c :: escape text

/-- A string with its quotes. -/
def quoted (text : List UInt8) : List UInt8 := 34 :: (escape text ++ [34])

/-- Read up to the closing quote; `escaped` says that a `\` stands in front. -/
def readString : Bool → List UInt8 → Option (List UInt8 × List UInt8)
  | _, [] => none
  | true, c :: data =>
    if c = 34 ∨ c = 92 then (readString false data).map fun x => (c :: x.1, x.2) else none
  | false, c :: data =>
    if c = 34 then some ([], data)
    else if c = 92 then readString true data
    else if c < 32 then none
    else (readString false data).map fun x => (c :: x.1, x.2)

/-- Read a string, after whitespace. -/
def readQuoted (data : List UInt8) : Option (List UInt8 × List UInt8) :=
  match skipWhitespace data with
  | 34 :: data => readString false data
  | _ => none

theorem readString_escape : ∀ {text : List UInt8}, Printable text → ∀ rest,
    readString false (escape text ++ 34 :: rest) = some (text, rest)
  | [], _, rest => by rw [escape, List.nil_append, readString, if_pos rfl]
  | c :: text, h, rest => by
      obtain ⟨hc, htext⟩ := List.forall_mem_cons.mp h
      have ih := readString_escape htext rest
      by_cases hescape : c = 34 ∨ c = 92
      · rw [escape, if_pos hescape, List.cons_append, List.cons_append, readString,
          if_neg (by decide), if_pos rfl, readString, if_pos hescape, ih, Option.map_some]
      · have hcontrol : ¬ c < 32 := UInt8.not_lt.mpr hc.1
        obtain ⟨hquote, hslash⟩ := not_or.mp hescape
        rw [escape, if_neg hescape, List.cons_append, readString, if_neg hquote, if_neg hslash,
          if_neg hcontrol, ih, Option.map_some]

theorem readQuoted_quoted {text : List UInt8} (h : Printable text) (rest : List UInt8) :
    readQuoted (quoted text ++ rest) = some (text, rest) := by
  have hread := readString_escape h rest
  rw [quoted, List.cons_append, List.append_assoc]
  exact hread

/-! ## Objects -/

/-- `"name": "value"`. -/
def member (field : List UInt8 × List UInt8) : List UInt8 :=
  quoted field.1 ++ [58, 32] ++ quoted field.2

/-- A new line and two spaces. -/
def indent : List UInt8 := [10, 32, 32]

/-- What follows a member: the others, and the brace. -/
def members : List (List UInt8 × List UInt8) → List UInt8
  | [] => [10, 125]
  | field :: fields => 44 :: (indent ++ member field ++ members fields)

/-- An object over several lines. -/
def pretty : List (List UInt8 × List UInt8) → List UInt8
  | [] => [123, 125]
  | field :: fields => 123 :: (indent ++ member field ++ members fields)

/-- Read a member. -/
def readMember (data : List UInt8) : Option ((List UInt8 × List UInt8) × List UInt8) :=
  (readQuoted data).bind fun name =>
    match skipWhitespace name.2 with
    | 58 :: data => (readQuoted data).map fun value => ((name.1, value.1), value.2)
    | _ => none

/-- Read a member and the ones after it, up to the brace. -/
def readMembers : ℕ → List UInt8 → Option (List (List UInt8 × List UInt8) × List UInt8)
  | 0, _ => none
  | fuel + 1, data =>
    (readMember data).bind fun field =>
      match skipWhitespace field.2 with
      | 44 :: data => (readMembers fuel data).map fun x => (field.1 :: x.1, x.2)
      | 125 :: data => some ([field.1], data)
      | _ => none

/-- Read an object of strings. -/
def readObject (data : List UInt8) : Option (List (List UInt8 × List UInt8) × List UInt8) :=
  match skipWhitespace data with
  | 123 :: data =>
    match skipWhitespace data with
    | 125 :: data => some ([], data)
    | _ => readMembers data.length data
  | _ => none

/-! ## What was written -/

variable {fields : List (List UInt8 × List UInt8)}

/-- All names and values are printable. -/
def AllPrintable (fields : List (List UInt8 × List UInt8)) : Prop :=
  ∀ field ∈ fields, Printable field.1 ∧ Printable field.2

/-- The fuel is enough: every member takes a character. -/
theorem length_lt_members : ∀ fields, fields.length < (members fields).length
  | [] => by decide
  | field :: fields => by
      have hrest := length_lt_members fields
      rw [members]
      simp only [List.length_cons, List.length_append]
      omega

theorem readMember_member {field : List UInt8 × List UInt8}
    (h : Printable field.1 ∧ Printable field.2) (rest : List UInt8) :
    readMember (indent ++ (member field ++ rest)) = some (field, rest) := by
  have hname : readQuoted (indent ++ (member field ++ rest))
      = some (field.1, 58 :: 32 :: (quoted field.2 ++ rest)) := by
    rw [member, List.append_assoc, List.append_assoc]
    exact readQuoted_quoted h.1 _
  have hvalue : readQuoted (32 :: (quoted field.2 ++ rest)) = some (field.2, rest) :=
    readQuoted_quoted h.2 _
  rw [readMember, hname]
  change (readQuoted (32 :: (quoted field.2 ++ rest))).map _ = _
  rw [hvalue]
  rfl

theorem readMembers_members : ∀ {fields : List (List UInt8 × List UInt8)}
    {field : List UInt8 × List UInt8} {fuel : ℕ}, AllPrintable (field :: fields) →
      fields.length < fuel → ∀ rest,
        readMembers fuel (indent ++ (member field ++ (members fields ++ rest)))
          = some (field :: fields, rest)
  | _, _, 0, _, hfuel, _ => by omega
  | [], field, fuel + 1, h, _, rest => by
      rw [readMembers, readMember_member (h field List.mem_cons_self)]
      rfl
  | field' :: fields, field, fuel + 1, h, hfuel, rest => by
      obtain ⟨hfield, hfields⟩ := List.forall_mem_cons.mp h
      have hless : fields.length < fuel := by simpa using hfuel
      have ih := readMembers_members hfields hless rest
      rw [readMembers, readMember_member hfield]
      change (readMembers fuel (indent ++ member field' ++ members fields ++ rest)).map _ = _
      rw [List.append_assoc, List.append_assoc, ih]
      rfl

/-- **What was written is read back, whatever follows.** -/
theorem readObject_pretty (h : AllPrintable fields) (rest : List UInt8) :
    readObject (pretty fields ++ rest) = some (fields, rest) := by
  rcases fields with _ | ⟨field, fields⟩
  · rfl
  · have hfuel : fields.length < (indent ++ member field ++ members fields ++ rest).length := by
      have := length_lt_members fields
      simp only [List.length_append]
      omega
    have hread := readMembers_members h hfuel rest
    rw [← List.append_assoc, ← List.append_assoc] at hread
    exact hread

/-! ## Records -/

/-- The value of a field that stands there once. -/
def valueOf (fields : List (List UInt8 × List UInt8)) (name : List UInt8) :
    Option (List UInt8) :=
  match fields.filter fun field => decide (field.1 = name) with
  | [field] => some field.2
  | _ => none

/-- Read a record with these fields, as an object that may have others. -/
def readStruct (names : List (List UInt8)) (data : List UInt8) :
    Option (List (List UInt8) × List UInt8) :=
  (readObject data).bind fun x => (names.mapM (valueOf x.1)).map fun values => (values, x.2)

theorem valueOf_of_mem (hnodup : (fields.map Prod.fst).Nodup)
    {field : List UInt8 × List UInt8} (h : field ∈ fields) :
    valueOf fields field.1 = some field.2 := by
  have hone : (fields.filter fun x => decide (x.1 = field.1)).Perm [field] := by
    refine (List.perm_ext_iff_of_nodup (hnodup.of_map.filter _)
      (List.nodup_singleton field)).mpr fun x => ?_
    rw [List.mem_filter, decide_eq_true_eq, List.mem_singleton]
    constructor
    · rintro ⟨hx, hname⟩
      exact List.inj_on_of_nodup_map hnodup hx h hname
    · rintro rfl
      exact ⟨h, rfl⟩
  rw [valueOf, List.perm_singleton.mp hone]

theorem readStruct_pretty (h : AllPrintable fields) (hnodup : (fields.map Prod.fst).Nodup)
    (rest : List UInt8) :
    readStruct (fields.map Prod.fst) (pretty fields ++ rest)
      = some (fields.map Prod.snd, rest) := by
  have hvalues : ∀ l ⊆ fields,
      (l.map Prod.fst).mapM (valueOf fields) = some (l.map Prod.snd) := by
    intro l
    induction l with
    | nil => exact fun _ => rfl
    | cons field l ih =>
      intro hsub
      obtain ⟨hfield, hsub⟩ := List.cons_subset.mp hsub
      rw [List.map_cons, List.mapM_cons, valueOf_of_mem hnodup hfield, ih hsub]
      rfl
  rw [readStruct, readObject_pretty h, Option.bind_some, hvalues fields (List.Subset.refl _)]
  rfl

end Json
