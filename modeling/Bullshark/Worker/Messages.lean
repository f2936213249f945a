import Bullshark.Primary.Wire

/-!
# Worker/Messages — what workers send, and its bytes

A worker sends batches and requests for batches to other workers, digests to its primary.  A batch
travels, is hashed and is stored as the bytes `bincode::serialize` made of it once; everywhere else
they are only looked at (`deserialize_serialize`).
-/

namespace Bullshark

namespace Worker

abbrev Transaction := List UInt8

abbrev Batch := List Transaction

/-- Indicates a serialized `WorkerMessage::Batch` message. -/
abbrev SerializedBatchMessage := List UInt8

/-- The message exchanged between workers. -/
inductive WorkerMessage
  | batch (batch : Batch)
  | batchRequest (missing : List Digest) (origin : PublicKey)
  deriving DecidableEq

/-- The messages sent by the workers to their primary. -/
inductive WorkerPrimaryMessage
  /-- The worker indicates it sealed a new batch. -/
  | ourBatch (digest : Digest) (id : WorkerId)
  /-- The worker indicates it received a batch's digest from another authority. -/
  | othersBatch (digest : Digest) (id : WorkerId)
  deriving DecidableEq

/-- The messages sent by the primary to its workers. -/
inductive PrimaryWorkerMessage
  /-- The primary indicates that the worker need to sync the target missing batches. -/
  | synchronize (digests : List Digest) (target : PublicKey)
  /-- The primary indicates a round update. -/
  | cleanup (round : UInt64)
  /-- Pause or resume local batch production for a proposer round. -/
  | batchSilent (round : UInt64) (silent : Bool)
  deriving DecidableEq

namespace WorkerMessage

variable [Base64]

/-- `bincode` at a message between workers. -/
def codec : Codec WorkerMessage :=
  ((Codec.vec (Codec.vec Codec.byte)).either ((Codec.vec Digest.codec).seq PublicKey.codec)).map
    (fun
      | .batch txs => .inl txs
      | .batchRequest missing origin => .inr (missing, origin))
    (fun
      | .inl txs => some (.batch txs)
      | .inr request => some (.batchRequest request.1 request.2))
    fun
      | .batch _, _ => rfl
      | .batchRequest _ _, _ => rfl

/-- The lengths are those of a `Vec`. -/
def Fits : WorkerMessage → Prop
  | .batch txs => txs.length < 256 ^ 8 ∧ ∀ tx ∈ txs, tx.length < 256 ^ 8
  | .batchRequest missing _ => missing.length < 256 ^ 8

instance : ∀ m : WorkerMessage, Decidable m.Fits
  | .batch txs => inferInstanceAs (Decidable (_ < _ ∧ ∀ tx ∈ txs, _ < _))
  | .batchRequest _ _ => inferInstanceAs (Decidable (_ < _))

theorem fits_codec {m : WorkerMessage} (h : m.Fits) : codec.fits m := by
  cases m with
  | batch txs => exact ⟨h.1, fun tx htx => ⟨h.2 tx htx, fun _ _ => trivial⟩⟩
  | batchRequest missing origin => exact ⟨⟨h, fun d _ => d.fits_codec⟩, origin.fits_codec⟩

/-- `bincode::serialize`; a message made of `Vec`s always fits. -/
def serialize (m : WorkerMessage) : Option (List UInt8) :=
  if m.Fits then some (codec.encode m) else none

/-- `bincode::deserialize`, which leaves trailing bytes alone. -/
def deserialize (bytes : List UInt8) : Option WorkerMessage := (codec.decode bytes).map Prod.fst

/-- **What was serialized is deserialized.** -/
theorem deserialize_serialize {m : WorkerMessage} {bytes : List UInt8}
    (h : m.serialize = some bytes) : deserialize bytes = some m := by
  rw [serialize, Option.ite_none_right_eq_some] at h
  obtain ⟨hfits, ⟨⟩⟩ := h
  rw [deserialize, codec.decode_encode (fits_codec hfits)]
  rfl

end WorkerMessage

/-! ## Between a worker and its primary -/

namespace WorkerPrimaryMessage

/-- The number of the variant. -/
def variantOf : WorkerPrimaryMessage → ℕ
  | .ourBatch _ _ => 0
  | .othersBatch _ _ => 1

/-- The batch the message is about, and the worker that has it. -/
def entry : WorkerPrimaryMessage → Digest × WorkerId
  | .ourBatch digest id => (digest, id)
  | .othersBatch digest id => (digest, id)

/-- `bincode` at a message of a worker to its primary. -/
def codec : Codec WorkerPrimaryMessage :=
  Codec.enum variantOf fun
    | 0 => (Digest.codec.seq WorkerId.codec).variant (fun e => .ourBatch e.1 e.2)
        (fun | .ourBatch digest id => some (digest, id) | _ => none)
        (fun a _ h => by cases a <;> cases h; rfl)
    | 1 => (Digest.codec.seq WorkerId.codec).variant (fun e => .othersBatch e.1 e.2)
        (fun | .othersBatch digest id => some (digest, id) | _ => none)
        (fun a _ h => by cases a <;> cases h; rfl)
    | _ => .fail

theorem fits_codec (m : WorkerPrimaryMessage) : codec.fits m := by
  have hvariant : m.variantOf < 256 ^ 4 := by cases m <;> simp [variantOf]
  refine ⟨hvariant, ?_⟩
  cases m with
  | ourBatch digest id => exact ⟨(digest, id), rfl, digest.fits_codec, WorkerId.fits_codec id⟩
  | othersBatch digest id => exact ⟨(digest, id), rfl, digest.fits_codec, WorkerId.fits_codec id⟩

/-- `bincode::serialize`. -/
def serialize (m : WorkerPrimaryMessage) : List UInt8 := codec.encode m

/-- `bincode::deserialize`. -/
def deserialize (bytes : List UInt8) : Option WorkerPrimaryMessage :=
  (codec.decode bytes).map Prod.fst

/-- **What a worker reports is what its primary reads.** -/
theorem deserialize_serialize (m : WorkerPrimaryMessage) : deserialize m.serialize = some m := by
  rw [deserialize, serialize, codec.decode_encode m.fits_codec]
  rfl

end WorkerPrimaryMessage

end Worker

end Bullshark
