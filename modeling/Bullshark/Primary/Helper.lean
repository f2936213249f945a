import Bullshark.Primary.Validated
import Bullshark.Primary.Wire

/-!
# Primary/Helper — answering the requests of other primaries

The `Helper` of `helper.rs` reads what other primaries ask for straight from the store, as bytes
under the 32 bytes of a digest, and deserializes it as a certificate.  `process_header` stores
headers under 32 bytes too.  A request for the id of a stored header kills the task
(`header_asked`); any other request is answered, with certificates of the digests asked for
(`helper_answers_iff`).
-/

namespace Bullshark

/-! ## The store as bytes -/

/-- `digest.to_vec()`, or `[digest.as_ref(), &worker_id.to_le_bytes()].concat()`. -/
def StoreKey.toBytes : StoreKey → List UInt8
  | .digest d => d.toBytes
  | .batch d w => d.toBytes ++ Bytes.leBytes 4 w.toNat

/-- Keys of the two kinds differ in length. -/
theorem StoreKey.toBytes_injective : Function.Injective StoreKey.toBytes := by
  rintro (d | ⟨d, w⟩) (d' | ⟨d', w'⟩) h
  · exact congrArg _ (Digest.toBytes_injective h)
  · have := congrArg List.length h
    simp [toBytes] at this
  · have := congrArg List.length h
    simp [toBytes] at this
  · obtain ⟨hd, hw⟩ := List.append_inj h (by simp)
    have hnat := Bytes.leBytes_inj (UInt32.toNat_lt w) (UInt32.toNat_lt w') hw
    rw [Digest.toBytes_injective hd, UInt32.toNat_inj.mp hnat]

section

variable [Base64]

/-- The bytes written for a value. -/
def StoreValue.toBytes : StoreValue → List UInt8
  | .header h => Header.codec.encode h
  | .certificate c => Certificate.codec.encode c
  | .empty => []

/-- The collections of the value are no longer than memory allows: their lengths are `u64`s. -/
def StoreValue.Fits : StoreValue → Prop
  | .header h => Header.codec.fits h
  | .certificate c => Certificate.codec.fits c
  | .empty => True

instance : ∀ v : StoreValue, Decidable v.Fits
  | .header _ => decidable_of_iff' _ Header.fits_codec_iff
  | .certificate _ => decidable_of_iff' (_ ∧ _)
      (Certificate.fits_codec_iff.trans (and_congr_left' Header.fits_codec_iff))
  | .empty => inferInstanceAs (Decidable True)

namespace Store

/-- `Store::read`. -/
def readBytes (store : Store) (key : List UInt8) : Option (List UInt8) :=
  (store.entries.find? fun e => decide (e.1.toBytes = key)).map fun e => e.2.toBytes

/-- All the values stored fit. -/
def Fits (store : Store) : Prop := ∀ k v, store.lookup k = some v → v.Fits

instance (store : Store) : Decidable store.Fits :=
  decidable_of_iff (∀ e ∈ store.entries, e.2.Fits)
    ⟨fun h k v hv => h ⟨k, v⟩ (AList.mem_lookup_iff.mp hv),
      fun h e he => h e.1 e.2 (AList.mem_lookup_iff.mpr he)⟩

variable {store : Store}

/-- **Reading the bytes of a key reads the value under it.** -/
theorem readBytes_toBytes (k : StoreKey) :
    store.readBytes k.toBytes = (store.lookup k).map StoreValue.toBytes := by
  rw [readBytes]
  cases hfind : store.entries.find? fun e => decide (e.1.toBytes = k.toBytes) with
  | none =>
    cases hk : store.lookup k with
    | none => rfl
    | some v =>
      have hmem := AList.mem_lookup_iff.mp hk
      exact absurd (List.find?_eq_none.mp hfind _ hmem) (by simp)
  | some e =>
    have hkey : e.1 = k := StoreKey.toBytes_injective (by simpa using List.find?_some hfind)
    have hmem := List.mem_of_find?_eq_some hfind
    obtain ⟨k', v⟩ := e
    obtain rfl : k' = k := hkey
    have hlookup : store.lookup k' = some v := AList.mem_lookup_iff.mpr hmem
    rw [hlookup]
    rfl

end Store

/-! ## The replies -/

namespace Helper

/-- How the task can die. -/
inductive Panic
  /-- `expect("Failed to deserialize our own certificate")`. -/
  | deserialize
  deriving DecidableEq

/-- The loop over the digests of a request: what is sent, and whether the task dies. -/
def replies (store : Store) (address : SocketAddr) :
    List Digest → List (SocketAddr × Certificate) × Option Panic
  | [] => ([], none)
  | digest :: digests =>
    match store.readBytes digest.toBytes with
    | none => replies store address digests
    | some data =>
      match Certificate.codec.decode data with
      | none => ([], some .deserialize)
      | some (certificate, _) =>
        ((address, certificate) :: (replies store address digests).1,
          (replies store address digests).2)

/-- A turn of `Helper::run`: the answer to one request. -/
def answer (committee : Committee) (store : Store) (digests : List Digest) (origin : PublicKey) :
    List (SocketAddr × Certificate) × Option Panic :=
  -- Get the requestors address.
  match committee.primary origin with
  | .error _ => ([], none)
  | .ok x => replies store x.primaryToPrimary digests

end Helper

namespace Core

/-- The stores that the tasks of a primary can write: `process_header`, `process_certificate` and
the `PayloadReceiver`, in any order. -/
inductive Written [Crypto] (core : Core) : Store → Prop
  | empty : Written core ∅
  | header {store : Store} {h : Header} (hw : Written core store)
      (haccepts : core.Accepts store h) : Written core (store.insert (.digest h.id) (.header h))
  | certificate {store : Store} {c : Certificate} (hw : Written core store) :
      Written core (store.insert (.digest c.digest) (.certificate c))
  | batch {store : Store} (d : Digest) (w : WorkerId) (hw : Written core store) :
      Written core (store.insert (.batch d w) .empty)

/-- Some of these digests is the key of a header. -/
def AsksHeader (store : Store) (digests : List Digest) : Prop :=
  ∃ d ∈ digests, ∃ h, store.lookup (.digest d) = some (.header h)

/-- What is stored under these digests, as bytes, deserializes as certificates of the digests. -/
def Certifies [Crypto] (store : Store) (digests : List Digest) : Prop :=
  ∀ d ∈ digests, ∀ data, store.readBytes d.toBytes = some data →
    ∃ c rest, Certificate.codec.decode data = some (c, rest) ∧ c.digest = d

section Replies

variable {store : Store} {digests : List Digest} {address : SocketAddr}

/-- **Where no header is asked for, every digest stored is answered** with its certificate. -/
theorem replies_of_not_asksHeader (hfits : store.Fits)
    (hne : ∀ d, store.lookup (.digest d) ≠ some .empty) (h : ¬ AsksHeader store digests) :
    Helper.replies store address digests
      = (digests.filterMap fun d => (certificateAt store d).map fun c => (address, c), none) := by
  induction digests with
  | nil => rfl
  | cons d digests ih =>
    have hrest := ih fun ⟨d', hd', hh⟩ => h ⟨d', List.mem_cons_of_mem _ hd', hh⟩
    have hread := store.readBytes_toBytes (.digest d)
    rw [StoreKey.toBytes] at hread
    rw [Helper.replies, hread, List.filterMap_cons, certificateAt]
    cases hv : store.lookup (.digest d) with
    | none => exact hrest
    | some v =>
      cases v with
      | header x => exact absurd ⟨d, List.mem_cons_self, x, hv⟩ h
      | empty => exact absurd hv (hne d)
      | certificate c =>
        have hdecode : Certificate.codec.decode (StoreValue.certificate c).toBytes = some (c, []) :=
          Certificate.codec.decode_encode (hfits _ _ hv)
        simp only [Option.map_some, hdecode, hrest, Option.bind_some]

/-- **A header asked for kills the task**, whatever is asked for besides. -/
theorem replies_of_asksHeader (hfits : store.Fits) (h : AsksHeader store digests) :
    (Helper.replies store address digests).2 ≠ none := by
  induction digests with
  | nil =>
    obtain ⟨d, hd, -⟩ := h
    cases hd
  | cons d digests ih =>
    have hread := store.readBytes_toBytes (.digest d)
    rw [StoreKey.toBytes] at hread
    rw [Helper.replies, hread]
    cases hv : store.lookup (.digest d) with
    | none =>
      obtain ⟨d', hd', x, hx⟩ := h
      rcases List.mem_cons.mp hd' with rfl | hd'
      · rw [hv] at hx
        cases hx
      · exact ih ⟨d', hd', x, hx⟩
    | some v =>
      rw [Option.map_some]
      dsimp only
      cases hdecode : Certificate.codec.decode v.toBytes with
      | none => simp
      | some r =>
        obtain ⟨d', hd', x, hx⟩ := h
        rcases List.mem_cons.mp hd' with rfl | hd'
        · rw [hv] at hx
          cases hx
          have hnone := Certificate.decode_header (hfits _ _ hv)
          rw [StoreValue.toBytes, hnone] at hdecode
          cases hdecode
        · exact ih ⟨d', hd', x, hx⟩

end Replies

section

variable [Crypto] {core : Core} {store : Store} {digests : List Digest}

omit [Base64] in
/-- Certificates are stored under their digests, and nothing empty under a digest. -/
theorem Written.keyed (h : core.Written store) :
    Keyed store ∧ ∀ d, store.lookup (.digest d) ≠ some .empty := by
  induction h with
  | empty => exact ⟨fun d c hc => (by cases hc), fun d hd => (by cases hd)⟩
  | header _ _ ih =>
    refine ⟨fun d c hc => ?_, fun d hd => ?_⟩
    · rw [AList.lookup_insert_eq] at hc
      split at hc
      · cases hc
      · exact ih.1 d c hc
    · rw [AList.lookup_insert_eq] at hd
      split at hd
      · cases hd
      · exact ih.2 d hd
  | certificate _ ih =>
    refine ⟨fun d c hc => ?_, fun d hd => ?_⟩
    · rw [AList.lookup_insert_eq] at hc
      split at hc
      · next hk =>
        cases hk
        cases hc
        rfl
      · exact ih.1 d c hc
    · rw [AList.lookup_insert_eq] at hd
      split at hd
      · cases hd
      · exact ih.2 d hd
  | batch d' w _ ih =>
    refine ⟨fun d c hc => ih.1 d c ?_, fun d hd => ih.2 d ?_⟩
    · rwa [AList.lookup_insert_eq, if_neg (by simp)] at hc
    · rwa [AList.lookup_insert_eq, if_neg (by simp)] at hd

/-- **What is stored under the digests asked for certifies them**, exactly where no header is asked
for. -/
theorem certifies_iff (h : core.Written store) (hfits : store.Fits) :
    Certifies store digests ↔ ¬ AsksHeader store digests := by
  obtain ⟨hkeyed, hne⟩ := h.keyed
  constructor
  · rintro hcert ⟨d, hd, x, hx⟩
    obtain ⟨c, rest, hdecode, -⟩ := hcert d hd (StoreValue.header x).toBytes (by
      have hread := store.readBytes_toBytes (.digest d)
      rwa [hx] at hread)
    have hnone := Certificate.decode_header (hfits _ _ hx)
    rw [StoreValue.toBytes, hnone] at hdecode
    cases hdecode
  · intro hask d hd data hdata
    have hread := store.readBytes_toBytes (.digest d)
    rw [StoreKey.toBytes, hdata] at hread
    cases hv : store.lookup (.digest d) with
    | none =>
      rw [hv] at hread
      cases hread
    | some v =>
      rw [hv] at hread
      cases v with
      | header x => exact absurd ⟨d, hd, x, hv⟩ hask
      | empty => exact absurd hv (hne d)
      | certificate c =>
        cases hread
        exact ⟨c, [], Certificate.codec.decode_encode (hfits _ _ hv), hkeyed d c hv⟩

/-- **A request is answered without a panic exactly where it asks for no stored header**, or comes
from outside the committee; and what is stored under the digests asked for then are certificates of
these digests. -/
theorem helper_answers_iff (core : Core) {store : Store} (h : core.Written store)
    (hfits : store.Fits) (digests : List Digest) (origin : PublicKey) :
    ((Helper.answer core.committee store digests origin).2 = none ↔
      (∀ x, core.committee.primary origin ≠ .ok x) ∨ ¬ AsksHeader store digests) ∧
    (Certifies store digests ↔ ¬ AsksHeader store digests) := by
  refine ⟨?_, certifies_iff h hfits⟩
  rw [Helper.answer]
  cases hx : core.committee.primary origin with
  | error e => simp
  | ok x =>
    constructor
    · exact fun hnone => Or.inr fun hask => replies_of_asksHeader hfits hask hnone
    · rintro (hunknown | hask)
      · exact absurd rfl (hunknown x)
      · exact congrArg Prod.snd (replies_of_not_asksHeader hfits h.keyed.2 hask)

omit [Base64] in
/-- **Every store of a run of the core is written**, also the one a panic leaves behind. -/
theorem written_of_run (core : Core) (is : List Event) :
    ∃ s, core.Written s.store ∧ ∀ s', core.machine.state is = .ok s' → s' = s := by
  have hinv : core.Invariant (fun _ _ => True) (fun _ s _ => core.Written s.store) :=
    { init := .empty
      mono := fun _ h => h
      cleanUp := fun {_ s _} h => by rwa [(State.cleanUp_eq s _).1]
      batch := fun d w h => .batch d w h
      committed := fun _ h => h
      propose := fun _ _ h => h
      effect := fun _ _ _ _ h hE => by
        cases hE with
        | storeHeader _ hacc => exact .header h hacc
        | accept _ => exact .certificate h
        | _ => exact h }
  exact hinv.run fun _ _ _ => trivial

end

end Core

end

namespace Core.HeaderAsked

open Sample

/-- The core of the first of four authorities. -/
def core : Core := ⟨key 1, committee4, 50, fun digest => sign digest (key 1)⟩

/-- The header of another authority for round one. -/
def proposal : Header :=
  header (key 2) 1 .empty ((Certificate.genesis committee4).map Certificate.digest)

def c1 : Certificate := certificate committee4 (key 2) 1 (Certificate.genesis committee4)

set_option maxRecDepth 100000 in
theorem evaluated : core.AdmissibleRun [.header proposal] ∧
    (core.machine.state [.header proposal]).toOption.map
      (fun s => Helper.answer committee4 s.store [proposal.id] (key 2))
        = some ([], some .deserialize) ∧
    (core.machine.state [.certificate c1]).toOption.map
      (fun s => (decide s.store.Fits, s.store.lookup (.digest c1.digest)))
        = some (true, some (.certificate c1)) := by
  decide +kernel

/-- **A request for the id of a stored header kills the helper**: it votes for a valid header, and
its author asks for it. -/
theorem header_asked : core.AdmissibleRun [.header proposal] ∧
    ∃ s, core.machine.state [.header proposal] = .ok s ∧
      Helper.answer committee4 s.store [proposal.id] (key 2) = ([], some .deserialize) := by
  obtain ⟨hadmissible, hanswer, -⟩ := evaluated
  exact ⟨hadmissible, Except.exists_of_map_toOption hanswer⟩

theorem certificate_answered : ∃ s, core.machine.state [.certificate c1] = .ok s ∧
    s.store.lookup (.digest c1.digest) = some (.certificate c1) ∧
    (Helper.answer committee4 s.store [c1.digest] (key 2)).2 = none ∧
    Certifies s.store [c1.digest] := by
  obtain ⟨-, -, hstored⟩ := evaluated
  obtain ⟨s, hs, hstored⟩ := Except.exists_of_map_toOption hstored
  obtain ⟨hfits, hlookup⟩ := Prod.ext_iff.mp hstored
  obtain ⟨s', hwritten, hsame⟩ := written_of_run core [.certificate c1]
  obtain rfl := hsame s hs
  obtain ⟨hanswer, hcertifies⟩ := helper_answers_iff core hwritten (of_decide_eq_true hfits)
    [c1.digest] (key 2)
  have hask : ¬ AsksHeader s.store [c1.digest] := by
    rintro ⟨d, hd, x, hx⟩
    rw [List.mem_singleton.mp hd] at hx
    exact absurd (hlookup.symm.trans hx) (by simp)
  exact ⟨s, hs, hlookup, hanswer.mpr (Or.inr hask), hcertifies.mpr hask⟩

end Core.HeaderAsked

end Bullshark
