import Bullshark.Primary.Sample

/-!
# Primary/HeaderDigest — what the header digest binds

`Header::digest` feeds the payload entries, 36 bytes each, and then the parents, 32 bytes each, to
the hasher, with nothing in between.  Eight entries take the room of nine parents, so a header may
be read in two ways: `Resplit` is when it is.  Apart from that the bytes determine the header
(`hasherBytes_binds_iff`).
-/

namespace Bullshark

namespace Header

/-! ## The bytes of a header -/

theorem length_entryBytes (e : Digest × WorkerId) : (entryBytes e).length = 36 := by
  rw [entryBytes, List.length_append, Digest.length_toBytes, Bytes.length_leBytes]

theorem entryBytes_injective : Function.Injective entryBytes := by
  rintro ⟨d, w⟩ ⟨d', w'⟩ h
  obtain ⟨hd, hw⟩ := List.append_inj h (by rw [Digest.length_toBytes, Digest.length_toBytes])
  have hnat : w.toNat = w'.toNat := Bytes.leBytes_inj w.toNat_lt w'.toNat_lt hw
  exact Prod.ext (Digest.toBytes_injective hd) (UInt32.toNat_inj.mp hnat)

/-- The two headers agree on everything the digest is meant to bind. -/
def SameContent (h₁ h₂ : Header) : Prop :=
  h₁.author = h₂.author ∧ h₁.rawRound = h₂.rawRound ∧ h₁.payload = h₂.payload ∧
    h₁.parents = h₂.parents

/-- `h₁` is `h₂` with some of the first parents read as further payload entries. -/
def Resplit (h₁ h₂ : Header) : Prop :=
  h₁.author = h₂.author ∧ h₁.rawRound = h₂.rawRound ∧
    ∃ (surplus : List (Digest × WorkerId)) (front : List Digest), surplus ≠ [] ∧
      h₁.payload.entries = h₂.payload.entries ++ surplus ∧
      h₂.parents.elems = front ++ h₁.parents.elems ∧
      surplus.flatMap entryBytes = front.flatMap Digest.toBytes

theorem Resplit.hasherBytes_eq {h₁ h₂ : Header} (h : Resplit h₁ h₂) :
    h₁.hasherBytes = h₂.hasherBytes := by
  obtain ⟨hauthor, hround, surplus, front, -, hpayload, hparents, hbytes⟩ := h
  simp only [hasherBytes, hauthor, hround, hpayload, hparents, List.flatMap_append, hbytes,
    List.append_assoc]

theorem Resplit.not_sameContent {h₁ h₂ : Header} (h : Resplit h₁ h₂) : ¬ SameContent h₁ h₂ := by
  rintro ⟨-, -, hpayload, -⟩
  obtain ⟨-, -, surplus, -, hne, hentries, -, -⟩ := h
  rw [hpayload] at hentries
  exact hne (List.append_right_eq_self.mp hentries.symm)

theorem SameContent.symm {h₁ h₂ : Header} (h : SameContent h₁ h₂) : SameContent h₂ h₁ :=
  ⟨h.1.symm, h.2.1.symm, h.2.2.1.symm, h.2.2.2.symm⟩

/-- The fixed-width part of the bytes determines the author and the round. -/
theorem fixed_of_hasherBytes_eq {h₁ h₂ : Header} (h : h₁.hasherBytes = h₂.hasherBytes) :
    h₁.author = h₂.author ∧ h₁.rawRound = h₂.rawRound ∧
      h₁.payload.entries.flatMap entryBytes ++ h₁.parents.elems.flatMap Digest.toBytes
        = h₂.payload.entries.flatMap entryBytes ++ h₂.parents.elems.flatMap Digest.toBytes := by
  obtain ⟨hauthor, hrest⟩ := List.append_inj h
    (by rw [PublicKey.length_toBytes, PublicKey.length_toBytes])
  obtain ⟨hround, hbody⟩ := List.append_inj hrest
    (by rw [Bytes.length_leBytes, Bytes.length_leBytes])
  have hnat := Bytes.leBytes_inj h₁.rawRound.toNat_lt h₂.rawRound.toNat_lt hround
  exact ⟨PublicKey.toBytes_injective hauthor, UInt64.toNat_inj.mp hnat, hbody⟩

/-- **Headers with the same bytes have the same content, or one is a re-split of the other.** -/
theorem sameContent_or_resplit {h₁ h₂ : Header} (h : h₁.hasherBytes = h₂.hasherBytes)
    (hlen : h₂.payload.entries.length ≤ h₁.payload.entries.length) :
    SameContent h₁ h₂ ∨ Resplit h₁ h₂ := by
  obtain ⟨hauthor, hround, hbody⟩ := fixed_of_hasherBytes_eq h
  obtain ⟨surplus, front, hpayload, hparents, hbytes⟩ := Bytes.exists_resplit length_entryBytes
    entryBytes_injective Digest.length_toBytes Digest.toBytes_injective (by decide) hlen hbody
  by_cases hne : surplus = []
  · subst hne
    have hfront : front = [] := by
      refine (Bytes.flatMap_inj Digest.length_toBytes Digest.toBytes_injective (by decide) ?_).symm
      exact hbytes
    subst hfront
    refine Or.inl ⟨hauthor, hround, ?_, ?_⟩
    · exact BTreeMap.ext (hpayload.trans (List.append_nil _))
    · exact BTreeSet.ext hparents.symm
  · exact Or.inr ⟨hauthor, hround, surplus, front, hne, hpayload, hparents, hbytes⟩

section

variable [Crypto]

/-- The bytes fed to the hasher bind the content, and so does the id of valid headers, unless the
hash has a collision on these two byte strings. -/
def DigestBinds (committee : Committee) (h₁ h₂ : Header) : Prop :=
  (h₁.hasherBytes = h₂.hasherBytes → SameContent h₁ h₂) ∧
    ((Digest.hash h₁.hasherBytes = Digest.hash h₂.hasherBytes →
        h₁.hasherBytes = h₂.hasherBytes) →
      h₁.verify committee = .ok () → h₂.verify committee = .ok () → h₁.id = h₂.id →
        SameContent h₁ h₂)

/-- **The digest binds two headers apart exactly when neither is a re-split of the other.** -/
theorem digestBinds_iff (committee : Committee) (h₁ h₂ : Header) :
    DigestBinds committee h₁ h₂ ↔ ¬ Resplit h₁ h₂ ∧ ¬ Resplit h₂ h₁ := by
  constructor
  · rintro ⟨hbinds, -⟩
    exact ⟨fun h => h.not_sameContent (hbinds h.hasherBytes_eq),
      fun h => h.not_sameContent (hbinds h.hasherBytes_eq.symm).symm⟩
  · rintro ⟨hnot, hnot'⟩
    have hbinds : h₁.hasherBytes = h₂.hasherBytes → SameContent h₁ h₂ := by
      intro h
      rcases le_total h₂.payload.entries.length h₁.payload.entries.length with hlen | hlen
      · exact (sameContent_or_resplit h hlen).resolve_right hnot
      · exact ((sameContent_or_resplit h.symm hlen).resolve_right hnot').symm
    refine ⟨hbinds, fun hfree hv₁ hv₂ hid => hbinds (hfree ?_)⟩
    have hd₁ := (verify_eq_ok_iff.mp hv₁).1
    have hd₂ := (verify_eq_ok_iff.mp hv₂).1
    exact hd₁.trans (hid.trans hd₂.symm)

end

/-! ## Eight batches or nine parents

The same 288 bytes as eight payload entries, each of worker 0, and as nine parents. -/

namespace TwoReadings

open Sample

def body (k : ℕ) : ℕ := if k < 4 ∨ 32 ≤ k % 36 then 0 else k / 2 + 1

/-- The 32 bytes from position `k` on. -/
def digestAt (k : ℕ) : Digest :=
  ⟨BitVec.ofNat 256 ((List.range 32).foldl (fun acc i => acc * 256 + body (k + i)) 0)⟩

set_option maxRecDepth 100000 in
/-- The body as eight payload entries. -/
def batches : Header :=
  let unsigned : Header := ⟨key 1, 1, ⟨(List.range 8).map fun j => (digestAt (36 * j), 0),
    by decide +kernel⟩, .empty, default, default⟩
  signed unsigned unsigned.digest

set_option maxRecDepth 100000 in
/-- The body as nine parents. -/
def parents9 : Header :=
  let unsigned : Header := ⟨key 1, 1, .empty, ⟨(List.range 9).map fun i => digestAt (32 * i),
    by decide +kernel⟩, default, default⟩
  signed unsigned unsigned.digest

/-- One authority, with a worker 0. -/
def committee : Committee :=
  let address : SocketAddr := ⟨.v4 0, 0⟩
  ⟨⟨[(key 1, { authority 1 with workers := AList.insert 0 ⟨address, address, address⟩ ∅ })],
    List.pairwise_singleton _ _⟩⟩

set_option maxRecDepth 100000 in
/-- **Two valid headers with one id and different content.** -/
theorem digest_not_binding :
    batches.verify committee = .ok () ∧ parents9.verify committee = .ok () ∧
      batches.id = parents9.id ∧ batches.hasherBytes = parents9.hasherBytes ∧
      ¬ SameContent batches parents9 := by
  refine ⟨by decide +kernel, by decide +kernel, by decide +kernel, by decide +kernel, ?_⟩
  rintro ⟨-, -, hpayload, -⟩
  exact absurd (congrArg (fun m => m.entries.length) hpayload) (by decide +kernel)

end TwoReadings

end Header

end Bullshark
