import Bullshark.Machinery.Bytes

/-!
# Machinery/Codec — byte formats that are read back from the front

A `Codec` writes a value and reads one from the front of a byte string.  Whatever follows what was
written is left over, so formats can be put one after the other: numbers of a fixed width, byte
arrays, pairs, alternatives, enumerations, and sequences behind their length.  A value `fits` where
its lengths and numbers do not exceed their width; only then is it read back.

A value followed by nothing is not read as a longer one (`decode_seq_eq_none`).
-/

namespace Bytes

/-- The number that these bytes spell, least significant first. -/
def ofLeBytes : List UInt8 → ℕ
  | [] => 0
  | b :: l => b.toNat + 256 * ofLeBytes l

/-- The number that these bytes spell, most significant first. -/
def ofBeBytes (l : List UInt8) : ℕ := ofLeBytes l.reverse

theorem ofLeBytes_leBytes : ∀ {k n : ℕ}, n < 256 ^ k → ofLeBytes (leBytes k n) = n
  | 0, n, h => by simp at h; rw [h]; rfl
  | k + 1, n, h => by
      rw [leBytes, ofLeBytes, ofLeBytes_leBytes (by rw [pow_succ] at h; omega)]
      simp only [UInt8.toNat_ofNat']
      omega

theorem ofBeBytes_beBytes {k n : ℕ} (h : n < 256 ^ k) : ofBeBytes (beBytes k n) = n := by
  rw [ofBeBytes, beBytes, List.reverse_reverse, ofLeBytes_leBytes h]

theorem ofLeBytes_lt : ∀ l : List UInt8, ofLeBytes l < 256 ^ l.length
  | [] => by simp [ofLeBytes]
  | b :: l => by
      have hb := b.toNat_lt
      have hl := ofLeBytes_lt l
      rw [ofLeBytes, List.length_cons, pow_succ]
      omega

theorem leBytes_ofLeBytes : ∀ l : List UInt8, leBytes l.length (ofLeBytes l) = l
  | [] => rfl
  | b :: l => by
      have hb := b.toNat_lt
      rw [List.length_cons, ofLeBytes, leBytes,
        show (b.toNat + 256 * ofLeBytes l) % 256 = b.toNat by omega,
        show (b.toNat + 256 * ofLeBytes l) / 256 = ofLeBytes l by omega, leBytes_ofLeBytes l,
        UInt8.ofNat_toNat]

theorem ofBeBytes_lt (l : List UInt8) : ofBeBytes l < 256 ^ l.length := by
  have hlt := ofLeBytes_lt l.reverse
  rwa [List.length_reverse] at hlt

/-- **Bytes are those of the number they spell.** -/
theorem beBytes_ofBeBytes (l : List UInt8) : beBytes l.length (ofBeBytes l) = l := by
  rw [beBytes, ofBeBytes, ← List.length_reverse, leBytes_ofLeBytes, List.reverse_reverse]

end Bytes

/-- A byte format. -/
structure Codec (α : Type*) where
  encode : α → List UInt8
  /-- Read a value from the front. -/
  decode : List UInt8 → Option (α × List UInt8)
  /-- The value can be written. -/
  fits : α → Prop
  decode_append : ∀ a rest, fits a → decode (encode a ++ rest) = some (a, rest)

namespace Codec

variable {α β : Type*}

/-- **What was written is read back.** -/
theorem decode_encode (c : Codec α) {a : α} (h : c.fits a) :
    c.decode (c.encode a) = some (a, []) := by
  have := c.decode_append a [] h
  rwa [List.append_nil] at this

/-- One byte. -/
def byte : Codec UInt8 where
  encode b := [b]
  decode
    | [] => none
    | b :: l => some (b, l)
  fits _ := True
  decode_append _ _ _ := rfl

/-- A byte array of a fixed length. -/
def array (w : ℕ) : Codec (List UInt8) where
  encode l := l
  decode l := if w ≤ l.length then some (l.take w, l.drop w) else none
  fits l := l.length = w
  decode_append l rest h := by
    rw [if_pos (by simp [h]), List.take_left' h, List.drop_left' h]

/-- The values of `β`, written as those of `α`. -/
def map (c : Codec α) (f : β → α) (g : α → Option β) (h : ∀ b, c.fits (f b) → g (f b) = some b) :
    Codec β where
  encode b := c.encode (f b)
  decode l := (c.decode l).bind fun r => (g r.1).map fun b => (b, r.2)
  fits b := c.fits (f b)
  decode_append b rest hb := by
    rw [c.decode_append _ _ hb, Option.bind_some, h b hb]
    rfl

theorem decode_map (c : Codec α) {f : β → α} {g : α → Option β}
    {h : ∀ b, c.fits (f b) → g (f b) = some b} (l : List UInt8) :
    (c.map f g h).decode l = (c.decode l).bind fun r => (g r.1).map fun b => (b, r.2) := rfl

/-- One value after the other. -/
def seq (c : Codec α) (d : Codec β) : Codec (α × β) where
  encode x := c.encode x.1 ++ d.encode x.2
  decode l := (c.decode l).bind fun r => (d.decode r.2).map fun s => ((r.1, s.1), s.2)
  fits x := c.fits x.1 ∧ d.fits x.2
  decode_append x rest h := by
    rw [List.append_assoc, c.decode_append _ _ h.1, Option.bind_some, d.decode_append _ _ h.2]
    rfl

/-- **A first value alone is not read as a pair**, where the second is not read from nothing. -/
theorem decode_seq_eq_none (c : Codec α) (d : Codec β) (hd : d.decode [] = none) {a : α}
    (ha : c.fits a) : (c.seq d).decode (c.encode a) = none := by
  change (c.decode (c.encode a)).bind _ = none
  rw [c.decode_encode ha, Option.bind_some, hd]
  rfl

/-- A number in `w` bytes, least significant first. -/
def number (w : ℕ) : Codec ℕ where
  encode n := Bytes.leBytes w n
  decode l := if w ≤ l.length then some (Bytes.ofLeBytes (l.take w), l.drop w) else none
  fits n := n < 256 ^ w
  decode_append n rest h := by
    have hlen := Bytes.length_leBytes w n
    rw [if_pos (by simp), List.take_left' hlen, List.drop_left' hlen, Bytes.ofLeBytes_leBytes h]

/-- Read `n` values. -/
def times (c : Codec α) : ℕ → List UInt8 → Option (List α × List UInt8)
  | 0, l => some ([], l)
  | n + 1, l => (c.decode l).bind fun r => (times c n r.2).map fun s => (r.1 :: s.1, s.2)

theorem times_flatMap (c : Codec α) : ∀ (l : List α) (rest : List UInt8), (∀ a ∈ l, c.fits a) →
    c.times l.length (l.flatMap c.encode ++ rest) = some (l, rest)
  | [], rest, _ => rfl
  | a :: l, rest, h => by
      obtain ⟨ha, hl⟩ := List.forall_mem_cons.mp h
      rw [List.flatMap_cons, List.append_assoc, List.length_cons, times, c.decode_append _ _ ha,
        Option.bind_some, times_flatMap c l rest hl]
      rfl

/-- A sequence behind its length, a `u64`. -/
def vec (c : Codec α) : Codec (List α) where
  encode l := (number 8).encode l.length ++ l.flatMap c.encode
  decode bytes := ((number 8).decode bytes).bind fun r => c.times r.1 r.2
  fits l := l.length < 256 ^ 8 ∧ ∀ a ∈ l, c.fits a
  decode_append l rest h := by
    rw [List.append_assoc, (number 8).decode_append _ _ h.1, Option.bind_some,
      c.times_flatMap l rest h.2]

/-- A value of one of two kinds, behind the number of its kind, a `u32`. -/
def either (c : Codec α) (d : Codec β) : Codec (α ⊕ β) where
  encode
    | .inl a => (number 4).encode 0 ++ c.encode a
    | .inr b => (number 4).encode 1 ++ d.encode b
  decode bytes := ((number 4).decode bytes).bind fun r =>
    match r.1 with
    | 0 => (c.decode r.2).map fun s => (.inl s.1, s.2)
    | 1 => (d.decode r.2).map fun s => (.inr s.1, s.2)
    | _ => none
  fits
    | .inl a => c.fits a
    | .inr b => d.fits b
  decode_append
    | .inl a, rest, h => by
      have htag : 0 < 256 ^ 4 := by decide
      rw [List.append_assoc, (number 4).decode_append _ _ htag, Option.bind_some,
        c.decode_append _ _ h]
      rfl
    | .inr b, rest, h => by
      have htag : 1 < 256 ^ 4 := by decide
      rw [List.append_assoc, (number 4).decode_append _ _ htag, Option.bind_some,
        d.decode_append _ _ h]
      rfl

/-- A sequence is not read from nothing. -/
theorem decode_vec_nil (c : Codec α) : c.vec.decode [] = none := rfl

/-! ## Enumerations -/

/-- One variant of `α`, written as its fields. -/
def variant (c : Codec β) (make : β → α) (fields : α → Option β)
    (h : ∀ a b, fields a = some b → make b = a) : Codec α where
  encode a := (fields a).elim [] c.encode
  decode l := (c.decode l).map fun r => (make r.1, r.2)
  fits a := ∃ b ∈ fields a, c.fits b
  decode_append a rest ha := by
    obtain ⟨b, hb, hfits⟩ := ha
    rw [hb, Option.elim_some, c.decode_append _ _ hfits, Option.map_some, h a b hb]

/-- No variant. -/
def fail : Codec α where
  encode _ := []
  decode _ := none
  fits _ := False
  decode_append _ _ h := h.elim

/-- A value behind the number of its variant, a `u32`. -/
def enum (variantOf : α → ℕ) (variants : ℕ → Codec α) : Codec α where
  encode a := (number 4).encode (variantOf a) ++ (variants (variantOf a)).encode a
  decode bytes := ((number 4).decode bytes).bind fun r => (variants r.1).decode r.2
  fits a := variantOf a < 256 ^ 4 ∧ (variants (variantOf a)).fits a
  decode_append a rest h := by
    rw [List.append_assoc, (number 4).decode_append _ _ h.1, Option.bind_some,
      (variants _).decode_append _ _ h.2]

end Codec
