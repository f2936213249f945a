import Bullshark.Primary.Verify
import Bullshark.Primary.Wire

/-!
# Primary/Sample — an executable instance of the primitives, and signed messages

A polynomial hash and a signature that spells out what it signs: enough to run the model on concrete
messages.  The last section is the standard base64 alphabet.
-/

namespace Bullshark

namespace Sample

/-- A polynomial hash of a byte string. -/
def polyHash (bytes : List UInt8) : ℕ :=
  bytes.foldl (fun acc b => (acc * 257 + b.toNat + 1) % (2 ^ 256 - 189)) 0

/-- The signature of `key` on a digest. -/
def sign (digest : Digest) (key : PublicKey) : Signature := ⟨digest.val, key.val⟩

/-- The primitives of the sample: every byte string parses, and a signature is checked by
comparing it with the one expected. -/
scoped instance crypto : Crypto where
  sha512 bytes := BitVec.ofNat 512 (polyHash bytes * 2 ^ 256)
  signatureFromBytes _ := true
  publicKeyFromBytes _ := true
  verifyStrict key digest s := decide (s = sign digest key)
  verifyOne key digest s := decide (s = sign digest key)
  verifyBatch ms ss ks := (ms.zip (ss.zip ks)).all fun t => decide (t.2.1 = sign t.1 t.2.2)
  verifyBatch_eq l := by
    have hzip : (l.map (·.1)).zip ((l.map (·.2.1)).zip (l.map (·.2.2))) = l := by
      induction l with
      | nil => rfl
      | cons t l ih => simpa using ih
    rw [hzip]

def key (n : ℕ) : PublicKey := ⟨BitVec.ofNat 256 n⟩

/-- An authority with no workers. -/
def authority (stake : Stake) : Authority :=
  let address : SocketAddr := ⟨.v4 0, 0⟩
  ⟨stake, ⟨address, address⟩, ∅⟩

/-- Three authorities, `key 1` to `key 3`. -/
def committee3 (a b c : Stake) : Committee :=
  ⟨⟨[(key 1, authority a), (key 2, authority b), (key 3, authority c)], by
    simp only [List.map]; decide⟩⟩

/-- Four authorities of stake one, `key 1` to `key 4`. -/
def committee4 : Committee :=
  ⟨⟨[(key 1, authority 1), (key 2, authority 1), (key 3, authority 1), (key 4, authority 1)],
    by decide⟩⟩

/-- An authority with one worker. -/
def staffed (stake : Stake) : Authority :=
  let address : SocketAddr := ⟨.v4 0, 0⟩
  { authority stake with workers := AList.singleton 0 ⟨address, address, address⟩ }

/-- Two authorities with a worker each; all the stake is with `key 1`. -/
def committee2 : Committee :=
  ⟨⟨[(key 1, staffed 1), (key 2, staffed 0)], by simp only [List.map]; decide⟩⟩

/-- A header with the given id and its author's signature on it. -/
def signed (h : Header) (id : Digest) : Header := { h with id, signature := sign id h.author }

/-- A header with its id and its author's signature. -/
def header (author : PublicKey) (round : UInt64) (payload : BTreeMap Digest WorkerId)
    (parents : List Digest) : Header :=
  let unsigned : Header := ⟨author, round, payload, BTreeSet.collect parents, default, default⟩
  signed unsigned unsigned.digest

/-- A certificate on a header without payload, with the votes of the whole committee. -/
def certificate (committee : Committee) (author : PublicKey) (round : UInt64)
    (parents : List Certificate) : Certificate :=
  let uncertified : Certificate :=
    ⟨header author round .empty (parents.map Certificate.digest), []⟩
  { uncertified with
    votes := committee.authorities.keys.map fun k => (k, sign uncertified.digest k) }

/-- One authority with all the stake. -/
def committee1 : Committee := ⟨⟨[(key 1, authority 1)], by decide⟩⟩

/-- The certificates of an authority on its own, each on the one before. -/
def chain : ℕ → Certificate
  | 0 => Certificate.genesisOf (key 1)
  | n + 1 => certificate committee1 (key 1) (UInt64.ofNat (n + 1)) [chain n]

/-! ## Base64 -/

/-- The character of a six-bit number in the standard alphabet. -/
def sextetChar (n : ℕ) : UInt8 :=
  if n < 26 then UInt8.ofNat (65 + n)
  else if n < 52 then UInt8.ofNat (71 + n)
  else if n < 62 then UInt8.ofNat (n - 4)
  else if n = 62 then 43
  else 47

/-- The number of a character. -/
def charSextet (c : UInt8) : Option ℕ := (List.range 64).find? fun n => decide (sextetChar n = c)

theorem charSextet_sextetChar : ∀ n < 64, charSextet (sextetChar n) = some n := by decide

theorem sextetChar_ne_pad : ∀ n < 64, sextetChar n ≠ 61 := by decide

/-- Four characters for three bytes; the last group is padded with `=`. -/
def encode64 : List UInt8 → List UInt8
  | [] => []
  | [a] => [sextetChar (a.toNat / 4), sextetChar (a.toNat % 4 * 16), 61, 61]
  | [a, b] => [sextetChar (a.toNat / 4), sextetChar (a.toNat % 4 * 16 + b.toNat / 16),
      sextetChar (b.toNat % 16 * 4), 61]
  | a :: b :: c :: l => sextetChar (a.toNat / 4) :: sextetChar (a.toNat % 4 * 16 + b.toNat / 16)
      :: sextetChar (b.toNat % 16 * 4 + c.toNat / 64) :: sextetChar (c.toNat % 64) :: encode64 l

/-- The bytes of a padded text. -/
def decode64 : List UInt8 → Option (List UInt8)
  | [] => some []
  | [_] => none
  | [_, _] => none
  | [_, _, _] => none
  | w :: x :: y :: z :: l =>
    (charSextet w).bind fun i => (charSextet x).bind fun j =>
      if y = 61 then
        if z = 61 ∧ l = [] ∧ j % 16 = 0 then some [UInt8.ofNat (i * 4 + j / 16)] else none
      else (charSextet y).bind fun k =>
        if z = 61 then
          if l = [] ∧ k % 4 = 0 then
            some [UInt8.ofNat (i * 4 + j / 16), UInt8.ofNat (j % 16 * 16 + k / 4)]
          else none
        else (charSextet z).bind fun m => (decode64 l).map fun rest =>
          UInt8.ofNat (i * 4 + j / 16) :: UInt8.ofNat (j % 16 * 16 + k / 4)
            :: UInt8.ofNat (k % 4 * 64 + m) :: rest

theorem ofNat_eq_of_toNat {n : ℕ} {b : UInt8} (h : n = b.toNat) : UInt8.ofNat n = b := by
  rw [h, UInt8.ofNat_toNat]

theorem decode64_encode64 (bytes : List UInt8) : decode64 (encode64 bytes) = some bytes := by
  fun_induction encode64 bytes with
  | case1 => rfl
  | case2 a =>
    have ha := a.toNat_lt
    rw [decode64, charSextet_sextetChar _ (by omega), Option.bind_some,
      charSextet_sextetChar _ (by omega), Option.bind_some, if_pos rfl,
      if_pos ⟨rfl, rfl, by omega⟩, ofNat_eq_of_toNat (b := a) (by omega)]
  | case3 a b =>
    have ha := a.toNat_lt
    have hb := b.toNat_lt
    rw [decode64, charSextet_sextetChar _ (by omega), Option.bind_some,
      charSextet_sextetChar _ (by omega), Option.bind_some,
      if_neg (sextetChar_ne_pad _ (by omega)), charSextet_sextetChar _ (by omega),
      Option.bind_some, if_pos rfl, if_pos ⟨rfl, by omega⟩,
      ofNat_eq_of_toNat (b := a) (by omega), ofNat_eq_of_toNat (b := b) (by omega)]
  | case4 a b c l ih =>
    have ha := a.toNat_lt
    have hb := b.toNat_lt
    have hc := c.toNat_lt
    rw [decode64, charSextet_sextetChar _ (by omega), Option.bind_some,
      charSextet_sextetChar _ (by omega), Option.bind_some,
      if_neg (sextetChar_ne_pad _ (by omega)), charSextet_sextetChar _ (by omega),
      Option.bind_some, if_neg (sextetChar_ne_pad _ (by omega)),
      charSextet_sextetChar _ (by omega), Option.bind_some, ih, Option.map_some,
      ofNat_eq_of_toNat (b := a) (by omega), ofNat_eq_of_toNat (b := b) (by omega),
      ofNat_eq_of_toNat (b := c) (by omega)]

example : encode64 [77, 97, 110, 102] = [84, 87, 70, 117, 90, 103, 61, 61] := by decide

theorem charSextet_eq_some {c : UInt8} {n : ℕ} (h : charSextet c = some n) :
    n < 64 ∧ sextetChar n = c := by
  rw [charSextet] at h
  have hfound := List.find?_some h
  exact ⟨List.mem_range.mp (List.mem_of_find?_eq_some h), of_decide_eq_true hfound⟩

theorem toNat_ofNat {n : ℕ} (h : n < 256) : (UInt8.ofNat n).toNat = n :=
  UInt8.toNat_ofNat_of_lt h

/-- **Only the text of the bytes is read as them.** -/
theorem encode64_of_decode64 {text : List UInt8} : ∀ {bytes : List UInt8},
    decode64 text = some bytes → encode64 bytes = text := by
  fun_induction decode64 text with
  | case1 =>
    intro bytes h
    cases h
    rfl
  | case2 => exact fun h => (by cases h)
  | case3 => exact fun h => (by cases h)
  | case4 => exact fun h => (by cases h)
  | case5 w x y z l ih =>
    intro bytes h
    obtain ⟨i, hw, htail⟩ := Option.bind_eq_some_iff.mp h
    obtain ⟨j, hx, hgroup⟩ := Option.bind_eq_some_iff.mp htail
    obtain ⟨hi, rfl⟩ := charSextet_eq_some hw
    obtain ⟨hj, rfl⟩ := charSextet_eq_some hx
    by_cases hy : y = 61
    · -- one byte is left
      rw [if_pos hy] at hgroup
      obtain ⟨⟨hz, hl, hmod⟩, hbytes⟩ := Option.ite_none_right_eq_some.mp hgroup
      cases hbytes
      rw [encode64, toNat_ofNat (by omega), show (i * 4 + j / 16) / 4 = i by omega,
        show (i * 4 + j / 16) % 4 * 16 = j by omega, hy, hz, hl]
    rw [if_neg hy] at hgroup
    obtain ⟨k, hchar, hlast⟩ := Option.bind_eq_some_iff.mp hgroup
    obtain ⟨hk, rfl⟩ := charSextet_eq_some hchar
    by_cases hz : z = 61
    · -- two bytes are left
      rw [if_pos hz] at hlast
      obtain ⟨⟨hl, hmod⟩, hbytes⟩ := Option.ite_none_right_eq_some.mp hlast
      cases hbytes
      rw [encode64, toNat_ofNat (by omega), toNat_ofNat (by omega),
        show (i * 4 + j / 16) / 4 = i by omega,
        show (i * 4 + j / 16) % 4 * 16 + (j % 16 * 16 + k / 4) / 16 = j by omega,
        show (j % 16 * 16 + k / 4) % 16 * 4 = k by omega, hz, hl]
    · rw [if_neg hz] at hlast
      obtain ⟨m, hchar, hrest⟩ := Option.bind_eq_some_iff.mp hlast
      obtain ⟨hm, rfl⟩ := charSextet_eq_some hchar
      obtain ⟨rest, hl, rfl⟩ := Option.map_eq_some_iff.mp hrest
      rw [encode64, toNat_ofNat (by omega), toNat_ofNat (by omega), toNat_ofNat (by omega),
        show (i * 4 + j / 16) / 4 = i by omega,
        show (i * 4 + j / 16) % 4 * 16 + (j % 16 * 16 + k / 4) / 16 = j by omega,
        show (j % 16 * 16 + k / 4) % 16 * 4 + (k % 4 * 64 + m) / 64 = k by omega,
        show (k % 4 * 64 + m) % 64 = m by omega, ih hl]

theorem length_encode64 (bytes : List UInt8) :
    (encode64 bytes).length = (bytes.length + 2) / 3 * 4 := by
  fun_induction encode64 bytes with
  | case1 => rfl
  | case2 a => simp
  | case3 a b => simp
  | case4 a b c l ih =>
    simp only [List.length_cons, ih]
    omega

scoped instance base64 : Base64 where
  encode := encode64
  decode := decode64
  decode_encode := decode64_encode64
  length_encode := length_encode64

end Sample

end Bullshark
