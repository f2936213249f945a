import Bullshark.Benchmark.AdversarySchedule

/-!
# Benchmark/AdversaryPlacement — which keys the scripts put last

`place_adversaries_last` of `config.py` moves one key to the first of the places left to the
adversaries.  It is to be the steady leader: the script sorts the names and takes the one at `2`
modulo their number.  A name is the base64 text of a key, and Python compares texts by their
characters, while the node, and `adversary_schedule.py`, sort the bytes of the keys.  The alphabet
of base64 is not in the order of the characters, so the key at that place is the leader of the node
exactly when as many keys cross it in the one direction as in the other
(`placeAdversariesLast_iff`).
-/

namespace Bullshark

namespace Benchmark

/-- `Key`; a text is its characters, all of them ASCII. -/
structure Key where
  name : List UInt8
  secret : List UInt8
  deriving DecidableEq

/-- The exceptions `place_adversaries_last` can raise. -/
inductive PlacementError
  | assertionError
  | zeroDivisionError
  | keyError (name : List UInt8)
  deriving DecidableEq

/-- The loop that fills `generated_tail`, with its `break`. -/
def generateTail (steadyLeader : List UInt8) (faults : ℤ) :
    List (List UInt8) → List Key → List (List UInt8)
  | generatedTail, [] => generatedTail
  | generatedTail, key :: keys =>
    if key.name ≠ steadyLeader then
      let generatedTail := generatedTail ++ [key.name]
      if generatedTail.length = faults - 1 then generatedTail
      else generateTail steadyLeader faults generatedTail keys
    else generateTail steadyLeader faults generatedTail keys

/-- `by_name[name]`. -/
def getByName (byName : HashMap (List UInt8) Key) (name : List UInt8) :
    Except PlacementError Key :=
  match byName.lookup name with
  | some key => .ok key
  | none => .error (.keyError name)

/-- `place_adversaries_last`. -/
def placeAdversariesLast (keys : List Key) (faults : ℤ) : Except PlacementError (List Key) :=
  if ¬ (0 ≤ faults ∧ faults < keys.length) then .error .assertionError
  else if faults = 0 then .ok keys
  else
    let byName : HashMap (List UInt8) Key := AList.collect (keys.map fun key => (key.name, key))
    let sortedNames := sortedBytes byName.keys
    match sortedNames[2 % sortedNames.length]? with
    | none => .error .zeroDivisionError
    | some steadyLeader =>
      let generatedTail :=
        if faults > 1 then generateTail steadyLeader faults [] keys.reverse else []
      let unavailable := steadyLeader :: generatedTail.reverse
      let available := keys.filter fun key => !unavailable.contains key.name
      (unavailable.mapM (getByName byName)).map fun last => available ++ last

/-! ## The places -/

/-- **The tail is the names of the last keys that do not lead.** -/
theorem generateTail_eq {steadyLeader : List UInt8} {faults : ℤ} :
    ∀ {generatedTail : List (List UInt8)} {keys : List Key}, generatedTail.length < faults - 1 →
      generateTail steadyLeader faults generatedTail keys = generatedTail ++
        (((keys.filter fun key => decide (key.name ≠ steadyLeader)).take
          ((faults - 1).toNat - generatedTail.length)).map Key.name)
  | generatedTail, [], _ => by simp [generateTail]
  | generatedTail, key :: keys, hlt => by
      rw [generateTail]
      by_cases hkey : key.name = steadyLeader
      · rw [if_neg (by simpa using hkey), generateTail_eq hlt, List.filter_cons_of_neg (by simpa)]
      · obtain ⟨k, hk⟩ : ∃ k, (faults - 1).toNat - generatedTail.length = k + 1 :=
          ⟨(faults - 1).toNat - generatedTail.length - 1, by omega⟩
        rw [if_pos hkey, List.filter_cons_of_pos (by simpa), hk, List.take_succ_cons,
          List.map_cons]
        by_cases hfull : ((generatedTail ++ [key.name]).length : ℤ) = faults - 1
        · rw [List.length_append, List.length_singleton] at hfull
          have hzero : k = 0 := by omega
          rw [if_pos (by simpa using hfull), hzero, List.take_zero, List.map_nil]
        · rw [List.length_append, List.length_singleton] at hfull
          rw [if_neg (by simpa using hfull), generateTail_eq (by simp; omega),
            List.append_assoc, List.singleton_append, List.length_append, List.length_singleton,
            show (faults - 1).toNat - (generatedTail.length + 1) = k by omega]

/-- Leaving out what stands from the `m`-th place on keeps what stands before it. -/
theorem filter_notMem_drop {α β : Type*} [DecidableEq β] {f : α → β} {l : List α}
    (hnodup : (l.map f).Nodup) (m : ℕ) :
    (l.filter fun x => decide (f x ∉ (l.drop m).map f)) = l.take m := by
  have hdisjoint : ∀ x ∈ l.take m, f x ∉ (l.drop m).map f := by
    rw [← List.take_append_drop m l, List.map_append, List.nodup_append] at hnodup
    exact fun x hx hmem => hnodup.2.2 _ (List.mem_map_of_mem hx) _ hmem rfl
  have hkept : ((l.take m).filter fun x => decide (f x ∉ (l.drop m).map f)) = l.take m :=
    List.filter_eq_self.mpr fun x hx => decide_eq_true (hdisjoint x hx)
  have hdropped : ((l.drop m).filter fun x => decide (f x ∉ (l.drop m).map f)) = [] :=
    List.filter_eq_nil_iff.mpr fun x hx => by
      rw [decide_eq_true_eq, not_not]
      exact List.mem_map_of_mem hx
  calc (l.filter fun x => decide (f x ∉ (l.drop m).map f))
      = (l.take m ++ l.drop m).filter fun x => decide (f x ∉ (l.drop m).map f) := by
        rw [List.take_append_drop]
    _ = l.take m := by rw [List.filter_append, hkept, hdropped, List.append_nil]

/-- Sorting does not depend on the order given. -/
theorem sortedBytes_congr {l l' : List (List UInt8)} (h : l.Perm l') :
    sortedBytes l = sortedBytes l' := by
  have hmap : ∀ l, (sortedBytes l).map Bytes.ints = (l.map Bytes.ints).insertionSort (· ≤ ·) :=
    fun l => List.map_insertionSort _ _ Bytes.ints l fun _ _ _ _ => Iff.rfl
  refine List.map_injective_iff.mpr Bytes.ints_injective ?_
  rw [hmap, hmap]
  exact (((List.perm_insertionSort _ _).trans (h.map _)).trans
    (List.perm_insertionSort _ _).symm).eq_of_sortedLE
      List.sortedLE_insertionSort List.sortedLE_insertionSort

section Placed

variable {keys : List Key} {faults : ℤ} {leader : Key}

/-- The keys of another name. -/
def others (keys : List Key) (steadyLeader : List UInt8) : List Key :=
  keys.filter fun key => decide (key.name ≠ steadyLeader)

/-- Where names are distinct, one key has that of the leader. -/
theorem perm_cons_others (hnodup : (keys.map Key.name).Nodup) (hleader : leader ∈ keys) :
    (leader :: others keys leader.name).Perm keys := by
  have hnotin : leader ∉ others keys leader.name := fun h => by
    simp [others] at h
  refine (List.perm_ext_iff_of_nodup
    (List.nodup_cons.mpr ⟨hnotin, hnodup.of_map.filter _⟩) hnodup.of_map).mpr fun key => ?_
  rw [List.mem_cons, others, List.mem_filter, decide_eq_true_eq]
  constructor
  · rintro (rfl | ⟨hkey, -⟩)
    · exact hleader
    · exact hkey
  · intro hkey
    by_cases hname : key.name = leader.name
    · exact Or.inl (List.inj_on_of_nodup_map hnodup hkey hleader hname)
    · exact Or.inr ⟨hkey, hname⟩

/-- The names left to the adversaries after the leader's are those of the last other keys. -/
theorem reverse_generatedTail (hfaults : 1 ≤ faults)
    (hlength : (others keys leader.name).length + 1 = keys.length) :
    (if faults > 1 then generateTail leader.name faults [] keys.reverse else []).reverse
      = ((others keys leader.name).drop (keys.length - faults.toNat)).map Key.name := by
  by_cases hone : faults > 1
  · have hcount : (others keys leader.name).length - (faults - 1).toNat
        = keys.length - faults.toNat := by omega
    rw [if_pos hone, generateTail_eq (by simpa using by omega), List.nil_append,
      List.filter_reverse, List.length_nil, Nat.sub_zero]
    change (((others keys leader.name).reverse.take (faults - 1).toNat).map Key.name).reverse = _
    rw [List.take_reverse, List.map_reverse, List.reverse_reverse, hcount]
  · rw [if_neg hone, List.drop_eq_nil_of_le (by omega)]
    rfl

theorem fst_named (keys : List Key) :
    (keys.map fun key => (key.name, key)).map Prod.fst = keys.map Key.name := by
  rw [List.map_map]
  rfl

theorem getByName_collect (hnodup : (keys.map Key.name).Nodup) {key : Key} (hkey : key ∈ keys) :
    getByName (AList.collect (keys.map fun key => (key.name, key))) key.name = .ok key := by
  have hlookup : (AList.collect (keys.map fun key => (key.name, key))).lookup key.name
      = some key :=
    (AList.lookup_collect_eq_some_iff (by rwa [fst_named])).mpr (List.mem_map_of_mem hkey)
  rw [getByName, hlookup]

theorem insertIdx_eq_take_append_drop {α : Type*} {x : α} :
    ∀ {m : ℕ} {l : List α}, m ≤ l.length → l.insertIdx m x = l.take m ++ x :: l.drop m
  | 0, _, _ => rfl
  | _ + 1, [], h => by simp at h
  | _ + 1, y :: _, h => congrArg (y :: ·) (insertIdx_eq_take_append_drop (by simpa using h))

/-- **The leader's key moves to the first of the last `faults` places.** -/
theorem placeAdversariesLast_eq (hnodup : (keys.map Key.name).Nodup) (hfaults : 1 ≤ faults)
    (hlt : faults < keys.length) (hleader : leader ∈ keys)
    (hsteady : (sortedBytes (keys.map Key.name))[2 % keys.length]? = some leader.name) :
    placeAdversariesLast keys faults
      = .ok ((others keys leader.name).insertIdx (keys.length - faults.toNat) leader) := by
  have hlength : (others keys leader.name).length + 1 = keys.length :=
    (perm_cons_others hnodup hleader).length_eq
  have hsorted : sortedBytes (AList.collect (keys.map fun key => (key.name, key))).keys
      = sortedBytes (keys.map Key.name) :=
    sortedBytes_congr (by
      have hperm := AList.perm_keys_collect (l := keys.map fun key => (key.name, key))
        (by rwa [fst_named])
      rwa [fst_named] at hperm)
  have hcount : (sortedBytes (keys.map Key.name)).length = keys.length := by
    rw [sortedBytes, List.length_insertionSort, List.length_map]
  have hother : ∀ key ∈ others keys leader.name, key ∈ keys := fun key hkey =>
    List.mem_of_mem_filter hkey
  have hlast : ((leader :: (others keys leader.name).drop (keys.length - faults.toNat)).map
      Key.name).mapM (getByName (AList.collect (keys.map fun key => (key.name, key))))
        = .ok (leader :: (others keys leader.name).drop (keys.length - faults.toNat)) := by
    rw [List.mapM_map]
    refine (Except.mapM_eq_ok (g := id) fun key hkey => ?_).trans (by rw [List.map_id])
    rcases List.mem_cons.mp hkey with rfl | hkey
    · exact getByName_collect hnodup hleader
    · exact getByName_collect hnodup (hother key (List.mem_of_mem_drop hkey))
  have havailable : (keys.filter fun key => decide (key.name ∉ (leader ::
      (others keys leader.name).drop (keys.length - faults.toNat)).map Key.name))
        = (others keys leader.name).take (keys.length - faults.toNat) := by
    have hothers : ((others keys leader.name).map Key.name).Nodup :=
      hnodup.sublist (List.filter_sublist.map Key.name)
    rw [← filter_notMem_drop hothers]
    conv_rhs => enter [2]; rw [others]
    rw [List.filter_filter]
    refine List.filter_congr fun key _ => ?_
    rw [← Bool.decide_and, decide_eq_decide, List.map_cons, List.mem_cons, not_or]
    exact and_comm
  rw [placeAdversariesLast, if_neg (by omega), if_neg (by omega)]
  simp only [hsorted, hcount, hsteady, reverse_generatedTail hfaults hlength, List.contains_eq_mem,
    ← decide_not]
  rw [← List.map_cons, havailable, hlast, insertIdx_eq_take_append_drop (by omega)]
  rfl

end Placed

/-! ## The steady leader -/

/-- The keys above `leader` whose name comes before its name. -/
def movedUp [Base64] (keys : List PublicKey) (leader : PublicKey) : List PublicKey :=
  keys.filter fun k => decide (Bytes.ints k.encodeBase64 < Bytes.ints leader.encodeBase64 ∧
    leader < k)

/-- The keys below `leader` whose name comes after its name. -/
def movedDown [Base64] (keys : List PublicKey) (leader : PublicKey) : List PublicKey :=
  keys.filter fun k => decide (k < leader ∧
    Bytes.ints leader.encodeBase64 < Bytes.ints k.encodeBase64)

section Leader

variable [Base64] {committee : Committee} {keys : List Key} {pks : List PublicKey} {faults : ℤ}

/-- A text tells the key. -/
theorem encodeBase64_injective : Function.Injective PublicKey.encodeBase64 := fun k k' h => by
  have hdecode := congrArg PublicKey.decodeBase64 h
  rw [PublicKey.decodeBase64_encodeBase64, PublicKey.decodeBase64_encodeBase64] at hdecode
  exact Option.some.inj hdecode

omit [Base64] in
/-- The leader of a round is the key with as many keys below it. -/
theorem leader_eq_some_iff (hperm : pks.Perm committee.authorities.keys) {k : PublicKey}
    (hk : k ∈ pks) (seed : ℕ) : committee.leader seed = some k ↔
      (pks.filter fun y => decide (y < k)).length = seed % pks.length := by
  have hsort : pks.insertionSort (· ≤ ·) = committee.authorities.keys :=
    ((List.perm_insertionSort (· ≤ ·) pks).trans hperm).eq_of_sortedLE
      List.sortedLE_insertionSort committee.authorities.sorted.sortedLT.sortedLE
  have hsize : committee.size = pks.length := by
    rw [Committee.size, hperm.length_eq, BTreeMap.keys, List.length_map]
  rw [Committee.leader, hsize, ← hsort]
  exact List.getElem?_insertionSort_iff Function.injective_id
    (hperm.nodup_iff.mpr committee.authorities.nodup_keys) hk

/-- The script takes the key with as many names before its name. -/
theorem steady_eq_some_iff (hnodup : pks.Nodup) {k : PublicKey} (hk : k ∈ pks) :
    (sortedBytes (pks.map PublicKey.encodeBase64))[2 % pks.length]? = some k.encodeBase64 ↔
      (pks.filter fun y => decide (Bytes.ints y.encodeBase64 < Bytes.ints k.encodeBase64)).length
        = 2 % pks.length := by
  rw [sortedBytes, List.getElem?_insertionSort_iff Bytes.ints_injective
    (hnodup.map encodeBase64_injective) (List.mem_map_of_mem hk), List.filter_map, List.length_map]
  refine Eq.congr (congrArg List.length (List.filter_congr fun y _ => ?_)) rfl
  exact decide_eq_decide.mpr Iff.rfl

omit [Base64] in
/-- There is a key at the place of the leader. -/
theorem exists_steady (hne : keys ≠ []) : ∃ key ∈ keys,
    (sortedBytes (keys.map Key.name))[2 % keys.length]? = some key.name := by
  have hlt : 2 % keys.length < (sortedBytes (keys.map Key.name)).length := by
    rw [sortedBytes, List.length_insertionSort, List.length_map]
    exact Nat.mod_lt _ (List.length_pos_of_ne_nil hne)
  have hmem := (List.perm_insertionSort _ _).mem_iff.mp (List.getElem_mem hlt)
  obtain ⟨key, hkey, hname⟩ := List.mem_map.mp hmem
  exact ⟨key, hkey, (List.getElem?_eq_getElem hlt).trans (congrArg some hname.symm)⟩

omit [Base64] in
/-- **What the script does with the key it takes**: the keys are permuted, those before the last
`faults` places keep their order, and the key is at the first of these. -/
theorem placed_spec (hkeys : (keys.map Key.name).Nodup) {key : Key} (hkey : key ∈ keys)
    (hfaults : 1 ≤ faults) (hlt : faults < keys.length) :
    ((others keys key.name).insertIdx (keys.length - faults.toNat) key).Perm keys ∧
      (((others keys key.name).insertIdx (keys.length - faults.toNat) key).take
        (keys.length - faults.toNat)).Sublist keys ∧
      ((others keys key.name).insertIdx (keys.length - faults.toNat) key)[
        keys.length - faults.toNat]? = some key := by
  have hothers := perm_cons_others hkeys hkey
  have hplace : keys.length - faults.toNat ≤ (others keys key.name).length := by
    have hlength := hothers.length_eq
    rw [List.length_cons] at hlength
    omega
  refine ⟨(List.perm_insertIdx _ _ hplace).trans hothers, ?_, ?_⟩
  · rw [List.take_insertIdx_eq_take_of_le _ _ _ _ le_rfl]
    exact (List.take_sublist _ _).trans List.filter_sublist
  · rw [List.getElem?_insertIdx_self, if_pos hplace]

/-- **As many keys move before the leader as move after it** exactly when it has as many names
before its own as keys below it. -/
theorem length_movedUp_eq_iff (leader : PublicKey) :
    (movedUp pks leader).length = (movedDown pks leader).length ↔
      (pks.filter fun y => decide (Bytes.ints y.encodeBase64
        < Bytes.ints leader.encodeBase64)).length
        = (pks.filter fun y => decide (y < leader)).length := by
  have hcross := List.rank_eq_rank_iff (g := id)
    (Bytes.ints_injective.comp encodeBase64_injective) Function.injective_id leader pks
  simp only [Function.comp_apply, id_eq] at hcross
  rw [movedUp, movedDown]
  convert hcross.symm

/-- **The key at the first of the last `faults` places is the leader of the node** exactly when as
many keys above the leader move before it as keys below it move after it. -/
theorem placeAdversariesLast_iff (hnames : keys.map Key.name = pks.map PublicKey.encodeBase64)
    (hnodup : pks.Nodup) (hperm : pks.Perm committee.authorities.keys) (hfaults : 1 ≤ faults)
    (hlt : faults < keys.length) :
    (∃ placed, placeAdversariesLast keys faults = .ok placed ∧ placed.Perm keys ∧
      (placed.take (keys.length - faults.toNat)).Sublist keys ∧
      (placed[keys.length - faults.toNat]?).map Key.name
        = (committee.leader 2).map PublicKey.encodeBase64) ↔
      ∀ leader ∈ committee.leader 2,
        (movedUp pks leader).length = (movedDown pks leader).length := by
  have hcount : keys.length = pks.length := by
    simpa using congrArg List.length hnames
  have hkeys : (keys.map Key.name).Nodup := hnames ▸ hnodup.map encodeBase64_injective
  -- the leader of the node
  obtain ⟨k, hk⟩ : ∃ k, k ∈ pks := List.exists_mem_of_length_pos (by omega)
  obtain ⟨leader, hleader⟩ := Option.isSome_iff_exists.mp
    (committee.isSome_leader (hperm.mem_iff.mp hk) 2)
  have hmem : leader ∈ pks := hperm.mem_iff.mpr (List.mem_of_getElem? hleader)
  have hrank := (leader_eq_some_iff hperm hmem 2).mp hleader
  -- the key of the script
  obtain ⟨key, hkey, hname⟩ := exists_steady (List.ne_nil_of_length_pos (by omega) : keys ≠ [])
  have hplaced := placeAdversariesLast_eq hkeys hfaults hlt hkey hname
  obtain ⟨hpermuted, hsublist, hat⟩ := placed_spec hkeys hkey hfaults hlt
  have hsame : (movedUp pks leader).length = (movedDown pks leader).length ↔
      key.name = leader.encodeBase64 := by
    have hsteady := steady_eq_some_iff hnodup hmem
    rw [← hnames, ← hcount, hname, hcount, Option.some_inj, ← hrank] at hsteady
    rw [length_movedUp_eq_iff, hsteady]
  rw [hleader]
  simp only [Option.mem_some, forall_eq', Option.map_some]
  rw [hsame]
  constructor
  · rintro ⟨placed, hok, -, -, hatname⟩
    obtain rfl := Except.ok.inj (hplaced.symm.trans hok)
    rw [hat, Option.map_some] at hatname
    exact Option.some.inj hatname
  · intro heq
    exact ⟨_, hplaced, hpermuted, hsublist, by rw [hat, Option.map_some, heq]⟩

end Leader

end Benchmark

/-! ## Keys whose texts are in another order -/

namespace Benchmark.TextOrder

open Sample

/-- The file of a key. -/
def file (k : PublicKey) : Key := ⟨k.encodeBase64, []⟩

def low : List PublicKey := [key 3, key 1, key 2]

/-- The text of `key 1` ends in `AAE=` and that of `key 2` in `AAI=`, but that of `key 13` in
`AA0=`, and `0` comes before the letters. -/
def spread : List PublicKey := [key 1, key 13, key 2]

def committee : Committee :=
  ⟨⟨[(key 1, authority 1), (key 2, authority 1), (key 13, authority 1)], by decide⟩⟩

set_option maxRecDepth 100000 in
theorem placed_low : (committee3 1 1 1).leader 2 = some (key 3) ∧
    (movedUp low (key 3)).length = (movedDown low (key 3)).length := by
  decide +kernel

/-- Where the texts are in the order of the bytes, the leader stands at its place. -/
theorem leader_low : ∃ placed, placeAdversariesLast (low.map file) 1 = .ok placed ∧
    placed.Perm (low.map file) ∧
    (placed.take ((low.map file).length - (1 : ℤ).toNat)).Sublist (low.map file) ∧
    (placed[(low.map file).length - (1 : ℤ).toNat]?).map Key.name
      = ((committee3 1 1 1).leader 2).map PublicKey.encodeBase64 :=
  (placeAdversariesLast_iff (List.map_map.trans (List.map_congr_left fun _ _ => rfl)) (by decide)
    (by decide) le_rfl (by decide)).mpr fun leader hleader => by
      obtain rfl := Option.some.inj (placed_low.1.symm.trans hleader)
      exact placed_low.2

set_option maxRecDepth 100000 in
theorem placed_spread : placeAdversariesLast (spread.map file) 1
      = .ok [file (key 1), file (key 13), file (key 2)] ∧
    committee.leader 2 = some (key 13) ∧ (key 2).encodeBase64 ≠ (key 13).encodeBase64 := by
  decide +kernel

/-- **The key at the first of the last places need not be the leader of the node.** -/
theorem not_leader_spread : (spread.map file).map Key.name = spread.map PublicKey.encodeBase64 ∧
    spread.Nodup ∧ spread.Perm committee.authorities.keys ∧
    ¬ ∃ placed, placeAdversariesLast (spread.map file) 1 = .ok placed ∧
      placed.Perm (spread.map file) ∧
      (placed.take ((spread.map file).length - (1 : ℤ).toNat)).Sublist (spread.map file) ∧
      (placed[(spread.map file).length - (1 : ℤ).toNat]?).map Key.name
        = (committee.leader 2).map PublicKey.encodeBase64 := by
  obtain ⟨hplaced, hleader, hne⟩ := placed_spread
  refine ⟨List.map_map.trans (List.map_congr_left fun _ _ => rfl), by decide, by decide, ?_⟩
  rintro ⟨placed, hok, -, -, hat⟩
  obtain rfl := Except.ok.inj (hplaced.symm.trans hok)
  rw [hleader] at hat
  exact hne (Option.some.inj hat)

end Benchmark.TextOrder

end Bullshark
