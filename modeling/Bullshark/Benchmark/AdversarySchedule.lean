import Bullshark.Config.Committee
import Bullshark.Machinery.Fallible
import Bullshark.Primary.Adversary
import Bullshark.Primary.Sample

/-!
# Benchmark/AdversarySchedule — the clients are silent when their authorities are

`adversary_schedule.py` computes, ahead of a run, the slots in which the client of each authority
stays silent: it sorts the candidates of a round by score and keeps the first ones.  The primary
decides the same question for itself alone, by counting the candidates that come before it
(`Adversary.selected`).

Python compares byte strings, Rust arrays; both compare them from the left (`le_iff_ints`), and
sorting and slicing is counting (`List.mem_take_insertionSort_iff`).  `schedules_coincide` puts the
two programs side by side.
-/

namespace Bullshark

namespace Benchmark

/-- The exceptions `build_client_schedules` raises. -/
inductive PyError
  | valueError (message : String)
  | overflowError
  | zeroDivisionError
  | keyError (name : String)
  /-- `binascii.Error`, of `b64decode`. -/
  | binasciiError
  deriving DecidableEq

/-- What `build_client_schedules` takes from outside: base64, the division of floats, and the two
environment variables. -/
structure Environ where
  b64decode : String → Except PyError (List UInt8)
  /-- `ceil(a / b)`. -/
  ceilDiv : ℤ → ℤ → Except PyError ℤ
  /-- `BULLSHARK_CLIENT_DURING_SILENCE`, in lower case. -/
  mode : String
  /-- `BULLSHARK_ADVERSARY_SEED`. -/
  seed : ℤ

/-- `n.to_bytes(8, 'little')`. -/
def toBytes (n : ℤ) : Except PyError (List UInt8) :=
  if 0 ≤ n ∧ n < 2 ^ 64 then .ok (Bytes.leBytes 8 n.toNat) else .error .overflowError

/-- `DOMAIN`. -/
def domain : List UInt8 := "narwhal-dynamic-adversary-v1".toList.map fun c => UInt8.ofNat c.toNat

/-- `sha512(payload).digest()`. -/
def sha512 [Crypto] (payload : List UInt8) : List UInt8 :=
  Bytes.beBytes 64 (Crypto.sha512 payload).toNat

/-- `_score`. -/
def score [Crypto] (authority : List UInt8) (roundNumber : ℕ) (seed : ℤ) :
    Except PyError (List UInt8) := do
  let payload := domain ++ (← toBytes seed) ++ (← toBytes roundNumber) ++ [0] ++ authority
  return (sha512 payload).take 32

/-- `(_score(key, round_number, seed), key)`, beside the key; tuples and byte strings compare
lexicographically. -/
def keyed [Crypto] (roundNumber : ℕ) (seed : ℤ) (key : List UInt8) :
    Except PyError ((List ℕ ×ₗ List ℕ) × List UInt8) := do
  return (toLex (Bytes.ints (← score key roundNumber seed), Bytes.ints key), key)

/-- `sorted(candidates, key=lambda key: (_score(key, round_number, seed), key))`. -/
def sortedByScore [Crypto] (candidates : List (List UInt8)) (roundNumber : ℕ) (seed : ℤ) :
    Except PyError (List (List UInt8)) := do
  let keys ← candidates.mapM (keyed roundNumber seed)
  return (keys.insertionSort fun a b => a.1 ≤ b.1).map Prod.snd

/-- The authorities `selected` for a round; `ordered` are all of them. -/
def selected [Crypto] (ordered : List (List UInt8)) (faults : ℤ) (seed : ℤ) (roundNumber : ℕ) :
    Except PyError (List (List UInt8)) :=
  match ordered[roundNumber % ordered.length]? with
  | none => .error .zeroDivisionError
  | some steady => do
    let candidates := ordered.filter fun key => decide (key ≠ steady)
    if faults > 0 then
      return steady :: (← sortedByScore candidates roundNumber seed).take (faults - 1).toNat
    else return []

/-- `schedules[name].append('1' if silent else '0')`. -/
def appendSlot (mode : String) (selected : List (List UInt8))
    (schedules : HashMap String (List Char)) (authority : String × List UInt8) :
    Except PyError (HashMap String (List Char)) :=
  let silent := decide (mode = "pause") && decide (authority.2 ∈ selected)
  match schedules.lookup authority.1 with
  | none => .error (.keyError authority.1)
  | some bits => .ok (schedules.insert authority.1 (bits ++ [if silent then '1' else '0']))

/-- One turn of the loop over the rounds. -/
def appendRound [Crypto] (env : Environ) (authorities : List (String × List UInt8))
    (ordered : List (List UInt8)) (faults : ℤ) (schedules : HashMap String (List Char))
    (roundNumber : ℕ) : Except PyError (HashMap String (List Char)) := do
  let selected ← selected ordered faults env.seed roundNumber
  authorities.foldlM (appendSlot env.mode selected) schedules

/-- `sorted` on byte strings. -/
def sortedBytes (keys : List (List UInt8)) : List (List UInt8) :=
  keys.insertionSort fun a b => Bytes.ints a ≤ Bytes.ints b

/-- `build_client_schedules`. -/
def buildClientSchedules [Crypto] (env : Environ) (names : List String)
    (faults duration slotMs : ℤ) : Except PyError (HashMap String String) := do
  if env.mode ≠ "send" ∧ env.mode ≠ "pause" then
    throw (.valueError "BULLSHARK_CLIENT_DURING_SILENCE must be send or pause")
  if env.seed < 0 ∨ env.seed > 2 ^ 64 - 1 then
    throw (.valueError "BULLSHARK_ADVERSARY_SEED must be an unsigned 64-bit integer")
  if slotMs ≤ 0 then
    throw (.valueError "BULLSHARK_CLIENT_SILENCE_SLOT_MS must be positive")
  let authorities ← names.mapM fun name => do return (name, ← env.b64decode name)
  if authorities.any fun x => decide (x.2.length ≠ 32) then
    throw (.valueError "Invalid authority public key")
  let ordered := sortedBytes (authorities.map Prod.snd)
  let faults := min (max faults 0) ordered.length
  let slots ← env.ceilDiv (duration * 1000 + 5000) slotMs
  let schedules : HashMap String (List Char) := AList.collect (names.map fun name => (name, []))
  let schedules ← (List.range' 1 slots.toNat).foldlM
    (appendRound env authorities ordered faults) schedules
  return AList.collect (schedules.entries.map fun e => (e.1, String.ofList e.2))

/-! ## Bytes and keys compare alike -/

theorem ints_toBytes_lt_iff {d d' : Digest} :
    Bytes.ints d.toBytes < Bytes.ints d'.toBytes ↔ d < d' :=
  Bytes.ints_beBytes_lt_iff d.val.isLt d'.val.isLt

theorem lt_iff_ints {k k' : PublicKey} : Bytes.ints k.toBytes < Bytes.ints k'.toBytes ↔ k < k' :=
  Bytes.ints_beBytes_lt_iff k.val.isLt k'.val.isLt

theorem le_iff_ints {k k' : PublicKey} : Bytes.ints k.toBytes ≤ Bytes.ints k'.toBytes ↔ k ≤ k' := by
  rw [← not_lt, lt_iff_ints, not_lt]

/-- The keys of a committee, sorted as byte strings, are in the order of the committee. -/
theorem sortedBytes_keys {committee : Committee} {keys : List PublicKey}
    (hperm : keys.Perm committee.authorities.keys) :
    sortedBytes (keys.map PublicKey.toBytes)
      = committee.authorities.keys.map PublicKey.toBytes := by
  have hmap : (keys.insertionSort (· ≤ ·)).map PublicKey.toBytes
      = sortedBytes (keys.map PublicKey.toBytes) :=
    List.map_insertionSort _ _ PublicKey.toBytes keys fun _ _ _ _ => le_iff_ints.symm
  have hsort : keys.insertionSort (· ≤ ·) = committee.authorities.keys :=
    ((List.perm_insertionSort (· ≤ ·) keys).trans hperm).eq_of_sortedLE
      List.sortedLE_insertionSort committee.authorities.sorted.sortedLT.sortedLE
  rw [← hmap, hsort]

section Rounds

variable [Crypto]

omit [Crypto] in
theorem toBytes_natCast {n : ℕ} (h : n < 2 ^ 64) : toBytes n = .ok (Bytes.leBytes 8 n) := by
  rw [toBytes, if_pos ⟨Int.natCast_nonneg n, by exact_mod_cast h⟩, Int.toNat_natCast]

/-- The first half of the hash, as bytes. -/
theorem take_sha512 (payload : List UInt8) :
    (sha512 payload).take 32 = (Digest.hash payload).toBytes := by
  rw [sha512, Bytes.take_beBytes 32 32, Digest.toBytes, Digest.hash, BitVec.extractLsb'_toNat,
    Nat.shiftRight_eq_div_pow, Bytes.beBytes, Bytes.beBytes, ← Bytes.leBytes_mod]
  norm_num

/-- **The score is that of the primary**, while the round fits 64 bits. -/
theorem score_eq (k : PublicKey) {roundNumber : ℕ} (h : roundNumber < 2 ^ 64) (seed : UInt64) :
    score k.toBytes roundNumber seed.toNat
      = .ok (Adversary.score k (UInt64.ofNat roundNumber) seed).toBytes := by
  have hbytes : Adversary.scoreBytes k (UInt64.ofNat roundNumber) seed = domain
      ++ (Bytes.leBytes 8 seed.toNat ++ (Bytes.leBytes 8 (UInt64.ofNat roundNumber).toNat
        ++ (0 :: k.toBytes))) := rfl
  rw [UInt64.toNat_ofNat', Nat.mod_eq_of_lt h] at hbytes
  rw [score, toBytes_natCast seed.toNat_lt, toBytes_natCast h, Adversary.score, ← take_sha512,
    hbytes]
  simp only [bind, Except.bind, pure, Except.pure, List.append_assoc, List.singleton_append]

/-- What Python sorts a candidate by. -/
def scored (roundNumber seed : UInt64) (k : PublicKey) : (List ℕ ×ₗ List ℕ) × List UInt8 :=
  (toLex (Bytes.ints (Adversary.score k roundNumber seed).toBytes, Bytes.ints k.toBytes), k.toBytes)

theorem keyed_eq (k : PublicKey) {roundNumber : ℕ} (h : roundNumber < 2 ^ 64) (seed : UInt64) :
    keyed roundNumber seed.toNat k.toBytes = .ok (scored (UInt64.ofNat roundNumber) seed k) := by
  rw [keyed, score_eq k h seed]
  simp only [bind, Except.bind, pure, Except.pure, scored]

theorem mapM_keyed (candidates : List PublicKey) {roundNumber : ℕ} (h : roundNumber < 2 ^ 64)
    (seed : UInt64) :
    (candidates.map PublicKey.toBytes).mapM (keyed roundNumber seed.toNat)
      = .ok (candidates.map (scored (UInt64.ofNat roundNumber) seed)) := by
  have hkeys : candidates.mapM (fun k => keyed roundNumber seed.toNat k.toBytes)
      = .ok (candidates.map (scored (UInt64.ofNat roundNumber) seed)) :=
    Except.mapM_eq_ok fun k _ => keyed_eq k h seed
  rw [List.mapM_map]
  exact hkeys

/-- The two orders of the candidates agree. -/
theorem scored_le_iff (roundNumber seed : UInt64) (a b : PublicKey) :
    toLex (Adversary.score a roundNumber seed, a) ≤ toLex (Adversary.score b roundNumber seed, b) ↔
      (scored roundNumber seed a).1 ≤ (scored roundNumber seed b).1 := by
  rw [scored, scored, Prod.Lex.toLex_le_toLex, Prod.Lex.toLex_le_toLex, ints_toBytes_lt_iff,
    le_iff_ints]
  refine or_congr_right (and_congr_left fun _ => ?_)
  exact ⟨fun h => congrArg (fun d => Bytes.ints d.toBytes) h,
    fun h => Digest.toBytes_injective (Bytes.ints_injective h)⟩

/-- Python's sort of the candidates, as a sort of keys. -/
theorem sortedByScore_eq (candidates : List PublicKey) {roundNumber : ℕ}
    (h : roundNumber < 2 ^ 64) (seed : UInt64) :
    sortedByScore (candidates.map PublicKey.toBytes) roundNumber seed.toNat
      = .ok ((candidates.insertionSort fun a b =>
          toLex (Adversary.score a (UInt64.ofNat roundNumber) seed, a)
            ≤ toLex (Adversary.score b (UInt64.ofNat roundNumber) seed, b)).map
          PublicKey.toBytes) := by
  have hsort := List.map_insertionSort _ (fun a b => a.1 ≤ b.1)
    (scored (UInt64.ofNat roundNumber) seed) candidates
    fun a _ b _ => scored_le_iff (UInt64.ofNat roundNumber) seed a b
  have hfirst : Prod.snd ∘ scored (UInt64.ofNat roundNumber) seed = PublicKey.toBytes :=
    funext fun _ => rfl
  rw [sortedByScore, mapM_keyed candidates h seed]
  simp only [bind, Except.bind, pure, Except.pure]
  rw [← hsort, List.map_map, hfirst]

/-! ## The authorities selected in a round -/

variable {committee : Committee} {faults : ℕ} {roundNumber : ℕ}

omit [Crypto] in
/-- The steady leader of a round, in the sorted list of the byte strings. -/
theorem getElem?_steady (committee : Committee) (roundNumber : ℕ) :
    (committee.authorities.keys.map PublicKey.toBytes)[roundNumber %
        (committee.authorities.keys.map PublicKey.toBytes).length]?
      = (committee.leader roundNumber).map PublicKey.toBytes := by
  rw [List.getElem?_map, List.length_map, Committee.leader, Committee.size, BTreeMap.keys,
    List.length_map]

omit [Crypto] in
theorem filter_ne_steady (keys : List PublicKey) (steady : PublicKey) :
    ((keys.map PublicKey.toBytes).filter fun key => decide (key ≠ steady.toBytes))
      = (keys.filter fun candidate => decide (candidate ≠ steady)).map PublicKey.toBytes := by
  rw [List.filter_map]
  refine congrArg _ (List.filter_congr fun k _ => ?_)
  exact decide_eq_decide.mpr (not_congr PublicKey.toBytes_injective.eq_iff)

/-- The clamped fault counts agree. -/
def clamped (committee : Committee) (faults : ℕ) : ℕ := min faults committee.authorities.keys.length

/-- What `selected` returns, where the round fits 64 bits. -/
theorem selected_eq (h : roundNumber < 2 ^ 64) (seed : UInt64) {steady : PublicKey}
    (hsteady : committee.leader roundNumber = some steady) :
    selected (committee.authorities.keys.map PublicKey.toBytes) (clamped committee faults)
        seed.toNat roundNumber
      = .ok (if 0 < clamped committee faults then
          steady.toBytes :: (((committee.authorities.keys.filter fun candidate =>
            decide (candidate ≠ steady)).insertionSort fun a b =>
              toLex (Adversary.score a (UInt64.ofNat roundNumber) seed, a)
                ≤ toLex (Adversary.score b (UInt64.ofNat roundNumber) seed, b)).map
            PublicKey.toBytes).take (clamped committee faults - 1) else []) := by
  rw [selected, getElem?_steady, hsteady]
  simp only [Option.map_some, filter_ne_steady, sortedByScore_eq _ h seed]
  by_cases hpos : 0 < clamped committee faults
  · have htoNat : ((clamped committee faults : ℤ) - 1).toNat = clamped committee faults - 1 := by
      omega
    rw [if_pos (by omega), if_pos hpos]
    simp only [bind, Except.bind, pure, Except.pure, htoNat]
  · rw [if_neg (by omega), if_neg hpos]
    simp only [pure, Except.pure]

/-- **The client program selects whom the primaries select.** -/
theorem mem_selected_iff (h : roundNumber < 2 ^ 64) (seed : UInt64) {steady k : PublicKey}
    (hsteady : committee.leader roundNumber = some steady) (hk : k ∈ committee.authorities.keys)
    {keys : List (List UInt8)}
    (hkeys : selected (committee.authorities.keys.map PublicKey.toBytes)
      (clamped committee faults) seed.toNat roundNumber = .ok keys) :
    k.toBytes ∈ keys ↔ Adversary.selected k committee.authorities.keys (UInt64.ofNat roundNumber)
      faults seed steady = true := by
  rw [selected_eq h seed hsteady] at hkeys
  obtain rfl := Except.ok.inj hkeys
  have hclamp : min faults committee.authorities.keys.length = clamped committee faults := rfl
  rw [Adversary.selected, Adversary.selectedBy, hclamp]
  by_cases hpos : 0 < clamped committee faults
  · rw [if_pos hpos, if_neg (by omega), List.mem_cons, PublicKey.toBytes_injective.eq_iff,
      ← List.map_take, List.mem_map_of_injective PublicKey.toBytes_injective]
    by_cases hleader : k = steady
    · simp [hleader]
    · have hinj : Function.Injective fun candidate : PublicKey =>
          toLex (Adversary.score candidate (UInt64.ofNat roundNumber) seed, candidate) :=
        fun a b hab => congrArg Prod.snd (toLex.injective hab)
      have hmem : k ∈ committee.authorities.keys.filter fun candidate =>
          decide (candidate ≠ steady) := List.mem_filter.mpr ⟨hk, by simpa using hleader⟩
      have hnodup := committee.authorities.nodup_keys.filter fun candidate =>
        decide (candidate ≠ steady)
      rw [or_iff_right hleader, if_neg hleader, List.mem_take_insertionSort_iff hinj hnodup hmem]
      by_cases hslots : clamped committee faults - 1 = 0
      · simp [hslots]
      · rw [if_neg hslots, decide_eq_true_eq, Adversary.rank]
  · rw [if_neg hpos, if_pos (by omega)]
    simp

end Rounds

/-! ## The bits of a round -/

variable {encode : PublicKey → String}

/-- The bit of an authority in a round. -/
def bit (mode : String) (selected : List (List UInt8)) (k : PublicKey) : Char :=
  if decide (mode = "pause") && decide (k.toBytes ∈ selected) then '1' else '0'

/-- Every authority of the list has one more bit, and no other schedule changes. -/
theorem foldlM_appendSlot {all : List PublicKey} (hencode : Set.InjOn encode {k | k ∈ all})
    (mode : String) (selected : List (List UInt8)) (bits : PublicKey → List Char) :
    ∀ {keys : List PublicKey} {schedules : HashMap String (List Char)}, keys ⊆ all → keys.Nodup →
      (∀ k ∈ keys, schedules.lookup (encode k) = some (bits k)) →
      ∃ schedules', (keys.map fun k => (encode k, k.toBytes)).foldlM (appendSlot mode selected)
          schedules = .ok schedules' ∧
        ∀ k ∈ all, schedules'.lookup (encode k)
          = if k ∈ keys then some (bits k ++ [bit mode selected k])
            else schedules.lookup (encode k)
  | [], schedules, _, _, _ => ⟨schedules, rfl, fun k _ => by simp⟩
  | k :: keys, schedules, hall, hnodup, hbits => by
      obtain ⟨hk, hnodup⟩ := List.nodup_cons.mp hnodup
      obtain ⟨hkall, hall⟩ := List.cons_subset.mp hall
      have hstep : appendSlot mode selected schedules (encode k, k.toBytes)
          = .ok (schedules.insert (encode k) (bits k ++ [bit mode selected k])) := by
        rw [appendSlot, hbits k List.mem_cons_self]
        rfl
      have hlookup : ∀ k' ∈ all, (schedules.insert (encode k)
          (bits k ++ [bit mode selected k])).lookup (encode k')
            = if k' = k then some (bits k ++ [bit mode selected k])
              else schedules.lookup (encode k') := by
        intro k' hk'
        simp only [AList.lookup_insert_eq, hencode.eq_iff hk' hkall]
      have hothers : ∀ k' ∈ keys, (schedules.insert (encode k)
          (bits k ++ [bit mode selected k])).lookup (encode k') = some (bits k') := by
        intro k' hk'
        have hne : k' ≠ k := fun h => hk (h ▸ hk')
        rw [hlookup k' (hall hk'), if_neg hne, hbits k' (List.mem_cons_of_mem _ hk')]
      obtain ⟨schedules', hrest, hresult⟩ :=
        foldlM_appendSlot hencode mode selected bits hall hnodup hothers
      refine ⟨schedules', ?_, fun k' hk' => ?_⟩
      · rw [List.map_cons, List.foldlM_cons, hstep]
        exact hrest
      · rw [hresult k' hk', hlookup k' hk']
        by_cases hmem : k' ∈ keys
        · simp [hmem]
        · by_cases hkk : k' = k
          · subst hkk
            simp [hmem]
          · simp [hmem, hkk]

/-! ## The schedules -/

variable [Crypto] {committee : Committee} {env : Environ} {faults : ℕ} {seed : UInt64}
  {keys : List PublicKey}

/-- After `m` rounds, each authority has `m` bits, one for each round it was selected in. -/
def Scheduled (committee : Committee) (encode : PublicKey → String) (keys : List PublicKey)
    (faults : ℕ) (seed : UInt64) (m : ℕ) (schedules : HashMap String (List Char)) : Prop :=
  ∃ bits : PublicKey → List Char, ∀ k ∈ keys,
    schedules.lookup (encode k) = some (bits k) ∧ (bits k).length = m ∧
      ∀ r : UInt64, 1 ≤ r.toNat → r.toNat ≤ m → ∀ steady,
        committee.leader r.toNat = some steady →
          ((bits k)[r.toNat - 1]? = some '1' ↔
            Adversary.selected k committee.authorities.keys r faults seed steady = true)

/-- **A turn of the loop appends the bits of its round.** -/
theorem Scheduled.of_appendRound (hencode : Set.InjOn encode {k | k ∈ keys})
    (hmode : env.mode = "pause")
    (hperm : keys.Perm committee.authorities.keys) (hseed : env.seed = seed.toNat) {m : ℕ}
    {schedules schedules' : HashMap String (List Char)}
    (h : Scheduled committee encode keys faults seed m schedules)
    (hround : appendRound env (keys.map fun k => (encode k, k.toBytes))
      (committee.authorities.keys.map PublicKey.toBytes) (clamped committee faults) schedules
        (1 + m) = .ok schedules') :
    Scheduled committee encode keys faults seed (m + 1) schedules' := by
  obtain ⟨bits, hbits⟩ := h
  obtain ⟨chosen, hchosen, hfold⟩ := Except.bind_eq_ok_iff.mp hround
  have hnodup : keys.Nodup := hperm.nodup_iff.mpr committee.authorities.nodup_keys
  obtain ⟨result, hok, hlookup⟩ := foldlM_appendSlot hencode env.mode chosen bits
    (List.Subset.refl keys) hnodup
    fun k hk => (hbits k hk).1
  obtain rfl := Except.ok.inj (hok.symm.trans hfold)
  refine ⟨fun k => bits k ++ [bit env.mode chosen k], fun k hk => ?_⟩
  obtain ⟨-, hlength, hbefore⟩ := hbits k hk
  refine ⟨by rw [hlookup k hk, if_pos hk], by simp [hlength], fun r hone hr steady hsteady => ?_⟩
  by_cases hlast : r.toNat ≤ m
  · rw [List.getElem?_append_left (by omega)]
    exact hbefore r hone hlast steady hsteady
  · -- the round of this turn
    have hrm : r.toNat = 1 + m := by omega
    have hlt : 1 + m < 2 ^ 64 := hrm ▸ r.toNat_lt
    have hr64 : UInt64.ofNat (1 + m) = r := by rw [← hrm, UInt64.ofNat_toNat]
    rw [hseed] at hchosen
    have hmem := mem_selected_iff hlt seed (hrm ▸ hsteady) (hperm.mem_iff.mp hk) hchosen
    rw [List.getElem?_append_right (by omega), show r.toNat - 1 - (bits k).length = 0 by omega,
      ← hr64, ← hmem, bit, hmode]
    by_cases hin : k.toBytes ∈ chosen
    · simp [hin]
    · simp [hin]

/-- The turn of a round that fits 64 bits succeeds. -/
theorem Scheduled.exists_appendRound (hencode : Set.InjOn encode {k | k ∈ keys})
    (hperm : keys.Perm committee.authorities.keys) (hseed : env.seed = seed.toNat)
    (hne : keys ≠ []) {m : ℕ} {schedules : HashMap String (List Char)}
    (h : Scheduled committee encode keys faults seed m schedules) {roundNumber : ℕ}
    (hlt : roundNumber < 2 ^ 64) :
    ∃ schedules', appendRound env (keys.map fun k => (encode k, k.toBytes))
      (committee.authorities.keys.map PublicKey.toBytes) (clamped committee faults) schedules
        roundNumber = .ok schedules' := by
  obtain ⟨bits, hbits⟩ := h
  obtain ⟨k, hk⟩ := List.exists_mem_of_ne_nil _ hne
  obtain ⟨steady, hsteady⟩ := Option.isSome_iff_exists.mp
    (committee.isSome_leader (hperm.mem_iff.mp hk) roundNumber)
  have hnodup : keys.Nodup := hperm.nodup_iff.mpr committee.authorities.nodup_keys
  obtain ⟨schedules', hok, -⟩ := foldlM_appendSlot hencode env.mode _ bits (List.Subset.refl keys)
    hnodup fun k hk => (hbits k hk).1
  refine ⟨schedules', ?_⟩
  rw [appendRound, hseed, selected_eq hlt seed hsteady]
  exact hok

/-- The schedules start empty. -/
theorem scheduled_zero (hencode : Set.InjOn encode {k | k ∈ keys}) (hnodup : keys.Nodup) :
    Scheduled committee encode keys faults seed 0
      (AList.collect ((keys.map encode).map fun name => (name, ([] : List Char)))) := by
  refine ⟨fun _ => [], fun k hk => ⟨?_, rfl, fun r hone hr => by omega⟩⟩
  have hnames :
      (((keys.map encode).map fun name => (name, ([] : List Char))).map Prod.fst).Nodup := by
    rw [List.map_map]
    exact (List.map_id _).symm ▸ hnodup.map_on fun k hk k' hk' h => hencode hk hk' h
  rw [AList.lookup_collect_eq_some_iff hnames]
  exact List.mem_map.mpr ⟨encode k, List.mem_map_of_mem hk, rfl⟩

omit [Crypto] in
/-- `{name: ''.join(bits) for name, bits in schedules.items()}`. -/
theorem lookup_join (schedules : HashMap String (List Char)) {name : String} {bits : List Char}
    (h : schedules.lookup name = some bits) :
    (AList.collect (schedules.entries.map fun e => (e.1, String.ofList e.2))).lookup name
      = some (String.ofList bits) := by
  have hnames : ((schedules.entries.map fun e => (e.1, String.ofList e.2)).map Prod.fst).Nodup := by
    rw [List.map_map]
    exact schedules.nodupKeys
  rw [AList.lookup_collect_eq_some_iff hnames]
  exact List.mem_map.mpr ⟨⟨name, bits⟩, AList.mem_lookup_iff.mp h, rfl⟩

/-- The program on the names of a committee, once its inputs are checked and sorted. -/
theorem buildClientSchedules_eq (hmode : env.mode = "pause")
    (hperm : keys.Perm committee.authorities.keys) (hseed : env.seed = seed.toNat)
    (hdecode : ∀ k ∈ keys, env.b64decode (encode k) = .ok k.toBytes) {duration slotMs slots : ℤ}
    (hpos : 0 < slotMs) (hslots : env.ceilDiv (duration * 1000 + 5000) slotMs = .ok slots) :
    buildClientSchedules env (keys.map encode) faults duration slotMs
      = ((List.range' 1 slots.toNat).foldlM (appendRound env
          (keys.map fun k => (encode k, k.toBytes)) (committee.authorities.keys.map PublicKey.toBytes)
          (clamped committee faults))
          (AList.collect ((keys.map encode).map fun name => (name, ([] : List Char))))).bind
        fun schedules => .ok (AList.collect (schedules.entries.map fun e =>
          (e.1, String.ofList e.2))) := by
  have hauthorities : (keys.map encode).mapM (fun name => do return (name, ← env.b64decode name))
      = (.ok (keys.map fun k => (encode k, k.toBytes)) :
        Except PyError (List (String × List UInt8))) := by
    have hkeys : keys.mapM (fun k => do return (encode k, ← env.b64decode (encode k)))
        = (.ok (keys.map fun k => (encode k, k.toBytes)) :
          Except PyError (List (String × List UInt8))) :=
      Except.mapM_eq_ok fun k hk => by rw [hdecode k hk]; rfl
    rw [List.mapM_map]
    exact hkeys
  have hbound : ¬ (env.seed < 0 ∨ env.seed > 2 ^ 64 - 1) := by
    have := seed.toNat_lt
    rw [hseed]
    omega
  have hlength : ((keys.map fun k => (encode k, k.toBytes)).any
      fun x => decide (x.2.length ≠ 32)) = false := by simp
  have hraw : (keys.map fun k => (encode k, k.toBytes)).map Prod.snd
      = keys.map PublicKey.toBytes := by
    rw [List.map_map]
    rfl
  have hfaults : min (max (faults : ℤ) 0)
      ((committee.authorities.keys.map PublicKey.toBytes).length : ℤ)
        = clamped committee faults := by
    rw [clamped, List.length_map]
    omega
  rw [buildClientSchedules, if_neg (by simp [hmode]), if_neg hbound, if_neg (not_le.mpr hpos),
    hauthorities]
  simp only [bind, Except.bind, hlength, hraw, sortedBytes_keys hperm, hslots, hfaults]
  rfl

/-- **The Rust and the Python schedules coincide.**  For the keys of a committee in any order, any
fault count and any 64-bit seed, in pause mode: the program returns, and the bit at index `r - 1` of
an authority's schedule is `1` exactly when the authority is selected in round `r`, for every round
of the horizon. -/
theorem schedules_coincide (committee : Committee) {keys : List PublicKey}
    (hperm : keys.Perm committee.authorities.keys) {env : Environ} (encode : PublicKey → String)
    (hdecode : ∀ k ∈ keys, env.b64decode (encode k) = .ok k.toBytes) (faults : ℕ) (seed : UInt64)
    (hmode : env.mode = "pause") (hseed : env.seed = seed.toNat) {duration slotMs slots : ℤ}
    (hpos : 0 < slotMs) (hslots : env.ceilDiv (duration * 1000 + 5000) slotMs = .ok slots) :
    (keys ≠ [] → slots < 2 ^ 64 → ∃ schedules,
      buildClientSchedules env (keys.map encode) faults duration slotMs = .ok schedules) ∧
    ∀ schedules, buildClientSchedules env (keys.map encode) faults duration slotMs = .ok schedules →
      ∀ k ∈ keys, ∃ bits, schedules.lookup (encode k) = some bits ∧ bits.length = slots.toNat ∧
        ∀ r : UInt64, 1 ≤ r.toNat → r.toNat ≤ bits.length →
          ∃ steady, committee.leader r.toNat = some steady ∧
            (bits.toList[r.toNat - 1]? = some '1' ↔
              Adversary.selected k committee.authorities.keys r faults seed steady = true) := by
  have hencode : Set.InjOn encode {k | k ∈ keys} := by
    intro k hk k' hk' h
    have heq := (hdecode k hk).symm.trans (h ▸ hdecode k' hk')
    exact PublicKey.toBytes_injective (Except.ok.inj heq)
  have hnodup : keys.Nodup := hperm.nodup_iff.mpr committee.authorities.nodup_keys
  have hzero : Scheduled committee encode keys faults seed 0
      (AList.collect ((keys.map encode).map fun name => (name, []))) := scheduled_zero hencode hnodup
  rw [buildClientSchedules_eq hmode hperm hseed hdecode hpos hslots]
  constructor
  · intro hne hlt
    obtain ⟨rounds, hrounds, -⟩ := Except.foldlM_range'_exists_ok (n := slots.toNat) hzero
      fun m schedules hm h => by
        obtain ⟨schedules', hok⟩ := h.exists_appendRound hencode hperm hseed hne
          (show 1 + m < 2 ^ 64 by omega)
        exact ⟨schedules', hok, h.of_appendRound hencode hmode hperm hseed hok⟩
    exact ⟨_, Except.bind_eq_ok_iff.mpr ⟨rounds, hrounds, rfl⟩⟩
  · intro schedules hschedules k hk
    obtain ⟨rounds, hrounds, hjoin⟩ := Except.bind_eq_ok_iff.mp hschedules
    obtain rfl := Except.ok.inj hjoin
    obtain ⟨bits, hbits⟩ := Except.foldlM_range'_induct hzero
      (fun m schedules schedules' h => h.of_appendRound hencode hmode hperm hseed) hrounds
    obtain ⟨hlookup, hlength, hall⟩ := hbits k hk
    refine ⟨String.ofList (bits k), lookup_join rounds hlookup, by simp [hlength], ?_⟩
    intro r hone hr
    obtain ⟨steady, hsteady⟩ := Option.isSome_iff_exists.mp
      (committee.isSome_leader (hperm.mem_iff.mp hk) r.toNat)
    refine ⟨steady, hsteady, ?_⟩
    rw [String.toList_ofList]
    exact hall r hone (by simpa [hlength] using hr) steady hsteady

end Benchmark

/-! ## Four authorities, two faults -/

namespace Benchmark.TwoFaults

open Sample

/-- The keys `1` to `4` in base64. -/
def encode (k : PublicKey) : String :=
  "AAAAAAAAAAAAAAAAAAAAAAAAAAAAAAAAAAAAAAAAAA" ++
    (if k = key 1 then "E=" else if k = key 2 then "I=" else if k = key 3 then "M=" else "Q=")

def env : Environ where
  b64decode name :=
    match committee4.authorities.keys.find? fun k => decide (encode k = name) with
    | some k => .ok k.toBytes
    | none => .error .binasciiError
  ceilDiv a b := .ok (-(-a / b))
  mode := "pause"
  seed := 7

def names : List PublicKey := [key 3, key 1, key 4, key 2]

theorem decodes : (∀ k ∈ names, env.b64decode (encode k) = .ok k.toBytes) ∧
    names.Perm committee4.authorities.keys ∧
    env.ceilDiv (1 * 1000 + 5000) 2000 = .ok 3 := by
  decide +kernel

theorem schedules_coincide_twoFaults : ∃ schedules,
    buildClientSchedules env (names.map encode) 2 1 2000 = .ok schedules ∧
      ∀ k ∈ names, ∃ bits, schedules.lookup (encode k) = some bits ∧ bits.length = 3 ∧
        ∀ r : UInt64, 1 ≤ r.toNat → r.toNat ≤ bits.length →
          ∃ steady, committee4.leader r.toNat = some steady ∧
            (bits.toList[r.toNat - 1]? = some '1' ↔
              Adversary.selected k committee4.authorities.keys r 2 7 steady = true) := by
  obtain ⟨hdecode, hperm, hslots⟩ := decodes
  obtain ⟨hreturns, hbits⟩ := schedules_coincide committee4 hperm encode hdecode 2 7 rfl
    (by decide) (by decide) hslots
  obtain ⟨schedules, hok⟩ := hreturns (by decide) (by decide)
  exact ⟨schedules, hok, hbits schedules hok⟩

end Benchmark.TwoFaults

end Bullshark
