import Bullshark.Primary.Verify

/-!
# Primary/Synchronizer — what the store has of a header and of a certificate

The store of a primary and the questions the `Synchronizer` asks it (`synchronizer.rs`).  A key of
the store is a digest (32 bytes) or a digest with a worker id (36 bytes), so the two kinds never
clash; headers and certificates share the first kind.  A value is kept as the message it
serializes: the bytes of a header end where those of a certificate go on with the votes, so reading
one back as a certificate fails.
-/

namespace Bullshark

/-- A key of the store. -/
inductive StoreKey
  | digest (digest : Digest)
  | batch (digest : Digest) (workerId : WorkerId)
  deriving DecidableEq

/-- A value of the store. -/
inductive StoreValue
  | header (header : Header)
  | certificate (certificate : Certificate)
  /-- `Vec::default()`, written for a batch. -/
  | empty
  deriving DecidableEq

/-- The persistent storage. -/
abbrev Store := HashMap StoreKey StoreValue

/-- `bincode::deserialize` at a certificate. -/
def StoreValue.deserialize : StoreValue → Except DagError Certificate
  | .certificate c => .ok c
  | _ => .error .serializationError

namespace Synchronizer

/-- The payload entries of a header whose batches are not stored; none are looked up for a header of
our own. -/
def missingBatches (name : PublicKey) (store : Store) (header : Header) : List (Digest × WorkerId) :=
  if header.author = name then []
  else header.payload.entries.filter fun e => (store.lookup (.batch e.1 e.2)).isNone

variable [Crypto]

/-- The genesis certificate of this digest. -/
def genesis (committee : Committee) (digest : Digest) : Option Certificate :=
  (Certificate.genesis committee).find? fun x => decide (x.digest = digest)

/-- One turn of the loop of `get_parents`: the digests missing and the parents found so far. -/
def findParent (committee : Committee) (store : Store) (acc : List Digest × List Certificate)
    (digest : Digest) : Except DagError (List Digest × List Certificate) :=
  match genesis committee digest with
  | some certificate => .ok (acc.1, acc.2 ++ [certificate])
  | none =>
    match store.lookup (.digest digest) with
    | none => .ok (acc.1 ++ [digest], acc.2)
    | some value =>
      match value.deserialize with
      | .ok certificate => .ok (acc.1, acc.2 ++ [certificate])
      | .error e => .error e

/-- The loop of `get_parents`. -/
def findParents (committee : Committee) (store : Store) (header : Header) :
    Except DagError (List Digest × List Certificate) :=
  header.parents.elems.foldlM (findParent committee store) ([], [])

/-- A digest stands for a genesis certificate or is in the store. -/
def has (committee : Committee) (store : Store) (digest : Digest) : Bool :=
  (genesis committee digest).isSome || (store.lookup (.digest digest)).isSome

/-- The check of `deliver_certificate`: every parent is a genesis certificate or in the store. -/
def hasAncestors (committee : Committee) (store : Store) (certificate : Certificate) : Bool :=
  certificate.header.parents.elems.all (has committee store)

/-! ## What the loop finds -/

/-- The store, or the genesis, has `c` under this digest. -/
def Found (committee : Committee) (store : Store) (digest : Digest) (c : Certificate) : Prop :=
  genesis committee digest = some c ∨
    (genesis committee digest = none ∧ store.lookup (.digest digest) = some (.certificate c))

variable {committee : Committee} {store : Store}

theorem foldlM_findParent {digests : List Digest} :
    ∀ {acc acc' : List Digest × List Certificate},
      digests.foldlM (findParent committee store) acc = .ok acc' →
        ∃ missing parents, acc' = (acc.1 ++ missing, acc.2 ++ parents) ∧
          (∀ d ∈ missing, d ∈ digests ∧ has committee store d = false) ∧
          (missing = [] → List.Forall₂ (Found committee store) digests parents) := by
  induction digests with
  | nil =>
    intro acc acc' h
    cases h
    exact ⟨[], [], by simp, by simp, fun _ => .nil⟩
  | cons d digests ih =>
    intro acc acc' h
    obtain ⟨acc₁, hd, hrest⟩ := Except.bind_eq_ok_iff.mp h
    obtain ⟨missing, parents, rfl, hmissing, hparents⟩ := ih hrest
    have hmissing' : ∀ x ∈ missing, x ∈ d :: digests ∧ has committee store x = false :=
      fun x hx => ⟨List.mem_cons_of_mem _ (hmissing x hx).1, (hmissing x hx).2⟩
    cases hg : genesis committee d with
    | some c =>
      simp only [findParent, hg] at hd
      cases hd
      exact ⟨missing, c :: parents, by simp, hmissing',
        fun hnil => .cons (Or.inl hg) (hparents hnil)⟩
    | none =>
      cases hs : store.lookup (.digest d) with
      | none =>
        simp only [findParent, hg, hs] at hd
        cases hd
        refine ⟨d :: missing, parents, by simp, ?_, fun hnil => by cases hnil⟩
        exact List.forall_mem_cons.mpr ⟨⟨List.mem_cons_self, by simp [has, hg, hs]⟩, hmissing'⟩
      | some value =>
        cases value with
        | certificate c =>
          simp only [findParent, hg, hs, StoreValue.deserialize] at hd
          cases hd
          exact ⟨missing, c :: parents, by simp, hmissing',
            fun hnil => .cons (Or.inr ⟨hg, hs⟩) (hparents hnil)⟩
        | header _ =>
          simp only [findParent, hg, hs, StoreValue.deserialize] at hd
          cases hd
        | empty =>
          simp only [findParent, hg, hs, StoreValue.deserialize] at hd
          cases hd

/-- A digest looked for is there, or reported missing. -/
theorem findParent_covers {acc acc' : List Digest × List Certificate} {d : Digest}
    (h : findParent committee store acc d = .ok acc') :
    acc.1 ⊆ acc'.1 ∧ (d ∈ acc'.1 ∨ has committee store d = true) := by
  rw [findParent] at h
  split at h
  · next c hg =>
    cases h
    exact ⟨List.Subset.refl _, Or.inr (by simp [has, hg])⟩
  · split at h
    · cases h
      exact ⟨List.subset_append_left _ _, Or.inl (by simp)⟩
    · next value hs =>
      split at h
      · cases h
        exact ⟨List.Subset.refl _, Or.inr (by simp [has, hs])⟩
      · cases h

/-- **What `get_parents` does not report missing is there.** -/
theorem mem_missing_or_has {header : Header} {missing : List Digest} {parents : List Certificate}
    (h : findParents committee store header = .ok (missing, parents)) :
    ∀ d ∈ header.parents.elems, d ∈ missing ∨ has committee store d = true := by
  have key : ∀ (digests : List Digest) (acc acc' : List Digest × List Certificate),
      digests.foldlM (findParent committee store) acc = .ok acc' →
        acc.1 ⊆ acc'.1 ∧ ∀ d ∈ digests, d ∈ acc'.1 ∨ has committee store d = true := by
    intro digests
    induction digests with
    | nil =>
      rintro acc acc' h
      cases h
      exact ⟨List.Subset.refl _, by simp⟩
    | cons d digests ih =>
      intro acc acc' h
      obtain ⟨acc₁, hd, hrest⟩ := Except.bind_eq_ok_iff.mp h
      obtain ⟨hsub, hall⟩ := ih acc₁ acc' hrest
      obtain ⟨hsub₁, hd⟩ := findParent_covers hd
      exact ⟨List.Subset.trans hsub₁ hsub,
        List.forall_mem_cons.mpr ⟨hd.imp_left fun hd => hsub hd, hall⟩⟩
  exact (key _ _ _ h).2

/-- What is there stays there. -/
theorem has_insert {d : Digest} (h : has committee store d = true) (key : StoreKey)
    (value : StoreValue) : has committee (store.insert key value) d = true := by
  rw [has, Bool.or_eq_true] at h ⊢
  refine h.imp_right fun h => ?_
  rw [AList.lookup_insert_eq]
  split
  · rfl
  · exact h

/-- **What `get_parents` reports missing is missing**, and where nothing is, it finds one certificate
for each parent. -/
theorem findParents_eq_ok {header : Header} {missing : List Digest} {parents : List Certificate}
    (h : findParents committee store header = .ok (missing, parents)) :
    (∀ d ∈ missing, d ∈ header.parents ∧ has committee store d = false) ∧
      (missing = [] → List.Forall₂ (Found committee store) header.parents.elems parents) := by
  obtain ⟨missing', parents', heq, hm, hp⟩ := foldlM_findParent h
  simp only [List.nil_append, Prod.mk.injEq] at heq
  obtain ⟨rfl, rfl⟩ := heq
  exact ⟨hm, hp⟩

end Synchronizer

end Bullshark
