import Mathlib.Data.List.AList
import Mathlib.Data.List.Dedup
import Mathlib.Data.List.Sort
import Mathlib.Order.Lattice

/-!
# Machinery/Collections — hash maps, ordered maps and ordered sets

A hash map is a finite list of entries with distinct keys: Mathlib's `AList`, to which this file
adds the two operations Rust's maps have and `AList` lacks, `values` and `retain`.  The order of
its entries carries no meaning; every lemma is stated through `lookup`.

An ordered map or set is a list sorted strictly by key, so its iteration order is the key order.
-/

theorem List.getElem?_append_of_some {α : Type*} {l l' : List α} {n : ℕ} {x : α}
    (h : l[n]? = some x) : (l ++ l')[n]? = some x := by
  obtain ⟨hlt, -⟩ := List.getElem?_eq_some_iff.mp h
  rw [List.getElem?_append_left hlt, h]

/-- Selecting the entries of one kind: those `mk` makes. -/
theorem List.mem_filterMap_iff_mem {α β : Type*} {f : α → Option β} {mk : β → α}
    (h : ∀ a b, f a = some b ↔ a = mk b) {l : List α} {b : β} : b ∈ l.filterMap f ↔ mk b ∈ l := by
  simp only [List.mem_filterMap, h, exists_eq_right]

/-- **The first `k` of a sorted list are those with fewer than `k` before them.** -/
theorem List.mem_take_iff_of_pairwise_lt {α : Type*} [LinearOrder α] : ∀ {l : List α} {k : ℕ} {x : α},
    l.Pairwise (· < ·) → x ∈ l →
      (x ∈ l.take k ↔ (l.filter fun y => decide (y < x)).length < k)
  | _, 0, _, _, _ => by simp
  | a :: l, k + 1, x, h, hx => by
      obtain ⟨ha, hl⟩ := List.pairwise_cons.mp h
      rw [List.take_succ_cons]
      rcases List.mem_cons.mp hx with rfl | hmem
      · have hnone : (l.filter fun y => decide (y < x)) = [] :=
          List.filter_eq_nil_iff.mpr fun y hy => by simpa using (ha y hy).le
        simp [hnone]
      · have hlt := ha x hmem
        rw [List.mem_cons, or_iff_right hlt.ne', List.filter_cons_of_pos (by simpa using hlt),
          List.length_cons, List.mem_take_iff_of_pairwise_lt hl hmem]
        omega

/-- **Sorting by a key and keeping the first `k` selects those with fewer than `k` keys below
theirs.** -/
theorem List.mem_take_insertionSort_iff {α β : Type*} [LinearOrder β] {key : α → β}
    (hkey : Function.Injective key) {l : List α} (hnodup : l.Nodup) {k : ℕ} {x : α} (hx : x ∈ l) :
    x ∈ (l.insertionSort fun a b => key a ≤ key b).take k ↔
      (l.filter fun y => decide (key y < key x)).length < k := by
  have hmap : (l.insertionSort fun a b => key a ≤ key b).map key
      = (l.map key).insertionSort (· ≤ ·) :=
    List.map_insertionSort _ _ key l fun _ _ _ _ => Iff.rfl
  have hsorted : ((l.map key).insertionSort (· ≤ ·)).Pairwise (· < ·) := by
    have hle := List.pairwise_insertionSort (· ≤ ·) (l.map key)
    have hne : ((l.map key).insertionSort (· ≤ ·)).Pairwise (· ≠ ·) :=
      ((List.perm_insertionSort (· ≤ ·) (l.map key)).nodup_iff).mpr (hnodup.map hkey)
    exact (hle.and hne).imp fun h => lt_of_le_of_ne h.1 h.2
  have hmem : key x ∈ (l.map key).insertionSort (· ≤ ·) :=
    (List.mem_insertionSort (· ≤ ·)).mpr (List.mem_map_of_mem hx)
  have hcount : (((l.map key).insertionSort (· ≤ ·)).filter fun y => decide (y < key x)).length
      = (l.filter fun y => decide (key y < key x)).length := by
    rw [((List.perm_insertionSort (· ≤ ·) (l.map key)).filter _).length_eq, List.filter_map,
      List.length_map]
    rfl
  rw [← List.mem_map_of_injective hkey, List.map_take, hmap,
    List.mem_take_iff_of_pairwise_lt hsorted hmem, hcount]

/-- **Sorting by a key puts each element where the number of keys below its own says.** -/
theorem List.getElem?_insertionSort_iff {α β : Type*} [LinearOrder β] {key : α → β}
    (hkey : Function.Injective key) {l : List α} (hnodup : l.Nodup) {j : ℕ} {x : α} (hx : x ∈ l) :
    (l.insertionSort fun a b => key a ≤ key b)[j]? = some x ↔
      (l.filter fun y => decide (key y < key x)).length = j := by
  have htake := fun k => List.mem_take_insertionSort_iff hkey hnodup (k := k) hx
  have hsucc := List.take_add_one (l := l.insertionSort fun a b => key a ≤ key b) (i := j)
  constructor
  · intro hget
    have hnd : ((l.insertionSort fun a b => key a ≤ key b).take (j + 1)).Nodup :=
      ((List.perm_insertionSort _ l).nodup_iff.mpr hnodup).sublist (List.take_sublist _ _)
    rw [hsucc, hget, Option.toList_some, List.nodup_append] at hnd
    have hbefore : ¬ (l.filter fun y => decide (key y < key x)).length < j := fun h =>
      hnd.2.2 x ((htake j).mpr h) x (by simp) rfl
    have hupto := (htake (j + 1)).mp (by simp [hsucc, hget])
    omega
  · intro hrank
    have hmem := (htake (j + 1)).mpr (by omega)
    have hnot : x ∉ (l.insertionSort fun a b => key a ≤ key b).take j := fun h => by
      have := (htake j).mp h
      omega
    rw [hsucc, List.mem_append, or_iff_right hnot] at hmem
    exact Option.mem_toList.mp hmem

/-- The elements below `x` under one key, as another key splits them. -/
theorem List.length_filter_lt_split {α β γ : Type*} [LinearOrder β] [LinearOrder γ] {f : α → β}
    {g : α → γ} (hg : Function.Injective g) (x : α) (l : List α) :
    (l.filter fun y => decide (f y < f x)).length
      = (l.filter fun y => decide (f y < f x ∧ g y < g x)).length
        + (l.filter fun y => decide (f y < f x ∧ g x < g y)).length := by
  induction l with
  | nil => rfl
  | cons y l ih =>
    rcases lt_trichotomy (g y) (g x) with hlt | heq | hgt
    · by_cases hf : f y < f x
      · simp only [List.filter_cons, hf, hlt, hlt.not_gt, and_true, and_false, decide_true,
          decide_false, if_true, List.length_cons, ih]
        simp only [Bool.false_eq_true, if_false]
        omega
      · simpa [List.filter_cons, hf] using ih
    · simpa [List.filter_cons, hg heq] using ih
    · by_cases hf : f y < f x
      · simp only [List.filter_cons, hf, hgt, hgt.not_gt, and_true, and_false, decide_true,
          decide_false, if_true, List.length_cons, ih]
        simp only [Bool.false_eq_true, if_false]
        omega
      · simpa [List.filter_cons, hf] using ih

/-- **Two keys rank an element alike where as many elements cross it one way as the other.** -/
theorem List.rank_eq_rank_iff {α β γ : Type*} [LinearOrder β] [LinearOrder γ] {f : α → β}
    {g : α → γ} (hf : Function.Injective f) (hg : Function.Injective g) (x : α) (l : List α) :
    (l.filter fun y => decide (f y < f x)).length = (l.filter fun y => decide (g y < g x)).length ↔
      (l.filter fun y => decide (f y < f x ∧ g x < g y)).length
        = (l.filter fun y => decide (g y < g x ∧ f x < f y)).length := by
  have hcomm : (fun y => decide (g y < g x ∧ f y < f x))
      = fun y => decide (f y < f x ∧ g y < g x) := funext fun y => decide_eq_decide.mpr and_comm
  rw [List.length_filter_lt_split hg x l, List.length_filter_lt_split (f := g) hf x l, hcomm]
  omega

/-- **As many elements have fewer than `k` keys below theirs as sorting and keeping `k` leaves.** -/
theorem List.length_filter_rank_lt {α β : Type*} [LinearOrder β] {key : α → β}
    (hkey : Function.Injective key) {l : List α} (hnodup : l.Nodup) (k : ℕ) :
    (l.filter fun x => decide ((l.filter fun y => decide (key y < key x)).length < k)).length
      = min k l.length := by
  have hsorted : (l.insertionSort fun a b => key a ≤ key b).Perm l := List.perm_insertionSort _ l
  have hmem : ∀ x, x ∈ l.filter (fun x =>
      decide ((l.filter fun y => decide (key y < key x)).length < k)) ↔
        x ∈ (l.insertionSort fun a b => key a ≤ key b).take k := by
    intro x
    rw [List.mem_filter, decide_eq_true_eq]
    constructor
    · rintro ⟨hx, hrank⟩
      exact (List.mem_take_insertionSort_iff hkey hnodup hx).mpr hrank
    · intro hx
      have hxl : x ∈ l := hsorted.subset (List.mem_of_mem_take hx)
      exact ⟨hxl, (List.mem_take_insertionSort_iff hkey hnodup hxl).mp hx⟩
  have hperm := (List.perm_ext_iff_of_nodup (hnodup.filter _)
    ((hsorted.nodup_iff.mpr hnodup).sublist (List.take_sublist k _))).mpr hmem
  rw [hperm.length_eq, List.length_take, List.length_insertionSort]

/-- A hash map with keys `K` and values `V`. -/
abbrev HashMap (K V : Type*) := AList (fun _ : K => V)

namespace AList

variable {K V : Type*}

/-- The values of the map, in the iteration order of its entries. -/
def values (m : HashMap K V) : List V := m.entries.map Sigma.snd

/-- `HashMap::retain`: `f` drops the entry (`none`) or keeps it, possibly with a new value. -/
def retain (m : HashMap K V) (f : K → V → Option V) : HashMap K V where
  entries := m.entries.filterMap fun e => (f e.1 e.2).map fun v => ⟨e.1, v⟩
  nodupKeys := by
    have hsub : ∀ l : List (Σ _ : K, V),
        (l.filterMap fun e => (f e.1 e.2).map fun v => (⟨e.1, v⟩ : Σ _ : K, V)).keys.Sublist
          l.keys := by
      intro l
      induction l with
      | nil => simp
      | cons e l ih =>
        rw [List.filterMap_cons]
        cases hf : f e.1 e.2 with
        | none => exact ih.cons _
        | some v => exact ih.cons_cons _
    exact (hsub m.entries).nodup m.nodupKeys

section Lookup

variable [DecidableEq K]

/-- `Iterator::collect` into a map. -/
def collect (l : List (K × V)) : HashMap K V := l.foldl (fun m e => m.insert e.1 e.2) ∅

/-- **A value of the map is a value some key looks up to.** -/
theorem mem_values {m : HashMap K V} {v : V} : v ∈ m.values ↔ ∃ k, m.lookup k = some v := by
  constructor
  · intro h
    obtain ⟨⟨k, w⟩, he, rfl⟩ := List.mem_map.mp h
    exact ⟨k, AList.mem_lookup_iff.mpr he⟩
  · rintro ⟨k, hk⟩
    exact List.mem_map.mpr ⟨⟨k, v⟩, AList.mem_lookup_iff.mp hk, rfl⟩

/-- `retain` acts on each key on its own. -/
theorem lookup_retain (m : HashMap K V) (f : K → V → Option V) (k : K) :
    (m.retain f).lookup k = (m.lookup k).bind (f k) := by
  ext v
  rw [Option.bind_eq_some_iff, ← Option.mem_def, AList.mem_lookup_iff]
  constructor
  · intro h
    obtain ⟨⟨k', w⟩, he, hw⟩ := List.mem_filterMap.mp h
    obtain ⟨v', hv', heq⟩ := Option.map_eq_some_iff.mp hw
    cases heq
    exact ⟨w, AList.mem_lookup_iff.mpr he, hv'⟩
  · rintro ⟨w, hw, hv⟩
    exact List.mem_filterMap.mpr ⟨⟨k, w⟩, AList.mem_lookup_iff.mp hw, by simp [hv]⟩

theorem lookup_insert_eq (m : HashMap K V) (k k' : K) (v : V) :
    (m.insert k v).lookup k' = if k' = k then some v else m.lookup k' := by
  split
  · next h => subst h; exact AList.lookup_insert m
  · next h => exact AList.lookup_insert_ne h

/-- Removing some keys one after the other. -/
theorem lookup_foldl_erase (l : List K) (m : HashMap K V) (k : K) :
    (l.foldl (fun m x => m.erase x) m).lookup k = if k ∈ l then none else m.lookup k := by
  induction l generalizing m with
  | nil => simp
  | cons x l ih =>
    rw [List.foldl_cons, ih]
    by_cases hx : k = x
    · subst hx
      simp
    · simp [hx, AList.lookup_erase_ne hx]

/-- A map collected from entries with distinct keys holds those entries. -/
theorem lookup_collect_eq_some_iff {l : List (K × V)} (hnd : (l.map Prod.fst).Nodup) {k : K}
    {v : V} : (collect l).lookup k = some v ↔ (k, v) ∈ l := by
  have key : ∀ (l : List (K × V)) (m : HashMap K V), (l.map Prod.fst).Nodup →
      ((l.foldl (fun m e => m.insert e.1 e.2) m).lookup k = some v ↔
        (k, v) ∈ l ∨ (k ∉ l.map Prod.fst ∧ m.lookup k = some v)) := by
    intro l
    induction l with
    | nil => simp
    | cons e l ih =>
      intro m hnd
      obtain ⟨hne, hnd'⟩ := List.nodup_cons.mp hnd
      rw [List.foldl_cons, ih _ hnd', lookup_insert_eq]
      by_cases hk : k = e.1
      · subst hk
        have hnot : (e.1, v) ∉ l := fun h => hne (List.mem_map.mpr ⟨_, h, rfl⟩)
        simp [hnot, hne, Prod.ext_iff, eq_comm]
      · simp [hk, Prod.ext_iff]
  rw [collect, key l ∅ hnd]
  simp

/-- The keys of a map collected from entries with distinct keys are those keys. -/
theorem perm_keys_collect {l : List (K × V)} (hnd : (l.map Prod.fst).Nodup) :
    (collect l).keys.Perm (l.map Prod.fst) := by
  refine (List.perm_ext_iff_of_nodup (AList.keys_nodup _) hnd).mpr fun k => ?_
  rw [← AList.mem_keys, ← AList.lookup_isSome, Option.isSome_iff_exists, List.mem_map]
  constructor
  · rintro ⟨v, hv⟩
    exact ⟨_, (lookup_collect_eq_some_iff hnd).mp hv, rfl⟩
  · rintro ⟨⟨k, v⟩, he, rfl⟩
    exact ⟨v, (lookup_collect_eq_some_iff hnd).mpr he⟩

theorem values_eq_nil_iff {m : HashMap K V} : m.values = [] ↔ ∀ k, m.lookup k = none := by
  rw [List.eq_nil_iff_forall_not_mem]
  constructor
  · intro h k
    by_contra hk
    obtain ⟨v, hv⟩ := Option.ne_none_iff_exists'.mp hk
    exact h v (mem_values.mpr ⟨k, hv⟩)
  · intro h v hv
    obtain ⟨k, hk⟩ := mem_values.mp hv
    simp [h k] at hk

end Lookup

/-! ### Applying a function to the values -/

section MapValues

variable {W : Type*}

/-- The map with `g` applied to every value. -/
def mapValues (g : V → W) (m : HashMap K V) : HashMap K W where
  entries := m.entries.map fun e => ⟨e.1, g e.2⟩
  nodupKeys := List.NodupKeys.map₂ (fun _ => g) m.entries m.nodupKeys

theorem entries_mapValues (g : V → W) (m : HashMap K V) :
    (m.mapValues g).entries = m.entries.map fun e => ⟨e.1, g e.2⟩ := rfl

theorem values_mapValues (g : V → W) (m : HashMap K V) : (m.mapValues g).values = m.values.map g := by
  rw [values, values, entries_mapValues, List.map_map, List.map_map]
  rfl

theorem entries_retain (m : HashMap K V) (f : K → V → Option V) : (m.retain f).entries
    = m.entries.filterMap fun e => (f e.1 e.2).map fun v => (⟨e.1, v⟩ : Σ _ : K, V) := rfl

theorem retain_mapValues {g : V → W} {f : K → V → Option V} {f' : K → W → Option W}
    (h : ∀ k v, f' k (g v) = (f k v).map g) (m : HashMap K V) :
    (m.mapValues g).retain f' = (m.retain f).mapValues g := by
  refine AList.ext ?_
  rw [entries_retain, entries_mapValues, entries_mapValues, entries_retain, List.filterMap_map,
    List.map_filterMap]
  refine List.filterMap_congr fun e _ => ?_
  simp only [Function.comp, h, Option.map_map]
  rfl

variable [DecidableEq K]

theorem lookup_mapValues (g : V → W) (m : HashMap K V) (k : K) :
    (m.mapValues g).lookup k = (m.lookup k).map g :=
  List.dlookup_map₂ (l := m.entries) (f := fun _ => g) k

theorem insert_mapValues (g : V → W) (m : HashMap K V) (k : K) (v : V) :
    (m.insert k v).mapValues g = (m.mapValues g).insert k (g v) := by
  refine AList.ext ?_
  rw [entries_mapValues, AList.entries_insert, AList.entries_insert, entries_mapValues,
    List.map_cons, List.kerase, List.kerase, List.eraseP_map]
  rfl

theorem collect_mapValues (g : V → W) (l : List (K × V)) :
    (collect l).mapValues g = collect (l.map fun e => (e.1, g e.2)) := by
  have key : ∀ (l : List (K × V)) (m : HashMap K V),
      (l.foldl (fun m e => m.insert e.1 e.2) m).mapValues g
        = (l.map fun e => (e.1, g e.2)).foldl (fun m e => m.insert e.1 e.2) (m.mapValues g) := by
    intro l
    induction l with
    | nil => exact fun m => rfl
    | cons e l ih =>
      intro m
      rw [List.foldl_cons, ih, insert_mapValues]
      rfl
  exact key l ∅

end MapValues

end AList

/-- A map iterated in key order. -/
@[ext] structure BTreeMap (K V : Type*) [LT K] where
  entries : List (K × V)
  sorted : (entries.map Prod.fst).Pairwise (· < ·)
  deriving DecidableEq

namespace BTreeMap

variable {K V : Type*}

def keys [LT K] (m : BTreeMap K V) : List K := m.entries.map Prod.fst

def values [LT K] (m : BTreeMap K V) : List V := m.entries.map Prod.snd

/-- The value stored under `k`. -/
def get [LT K] [DecidableEq K] (m : BTreeMap K V) (k : K) : Option V :=
  (m.entries.find? fun e => decide (e.1 = k)).map Prod.snd

/-- The empty map. -/
def empty [LT K] : BTreeMap K V := ⟨[], List.Pairwise.nil⟩

theorem nodup_keys [Preorder K] (m : BTreeMap K V) : m.keys.Nodup :=
  m.sorted.imp fun h => ne_of_lt h

theorem get_eq_some_of_mem [Preorder K] [DecidableEq K] {m : BTreeMap K V} {k : K} {v : V}
    (h : (k, v) ∈ m.entries) : m.get k = some v := by
  have key : ∀ l : List (K × V), (l.map Prod.fst).Nodup → (k, v) ∈ l →
      (l.find? fun e => decide (e.1 = k)) = some (k, v) := by
    intro l
    induction l with
    | nil => intro _ h; cases h
    | cons e l ih =>
      intro hnd hmem
      obtain ⟨hne, hnd'⟩ := List.nodup_cons.mp hnd
      rcases List.mem_cons.mp hmem with rfl | hmem
      · simp
      · have : e.1 ≠ k := fun he => hne (he ▸ List.mem_map.mpr ⟨(k, v), hmem, rfl⟩)
        rw [List.find?_cons_of_neg (by simpa using this)]
        exact ih hnd' hmem
  rw [get, key m.entries m.nodup_keys h]
  rfl

theorem get_eq_none_iff [LT K] [DecidableEq K] {m : BTreeMap K V} {k : K} :
    m.get k = none ↔ k ∉ m.keys := by
  rw [get, Option.map_eq_none_iff, List.find?_eq_none, keys, List.mem_map]
  constructor
  · rintro h ⟨e, he, rfl⟩
    exact h e he (by simp)
  · intro h e he hk
    exact h ⟨e, he, by simpa using hk⟩

section Collect

variable [LinearOrder K]

/-- The entries of a map once `v` is put under `k`. -/
def insertEntry (k : K) (v : V) : List (K × V) → List (K × V)
  | [] => [(k, v)]
  | e :: l =>
    if k < e.1 then (k, v) :: e :: l
    else if k = e.1 then (k, v) :: l
    else e :: insertEntry k v l

theorem mem_insertEntry {k x : K} {v : V} : ∀ {l : List (K × V)},
    x ∈ (insertEntry k v l).map Prod.fst ↔ x = k ∨ x ∈ l.map Prod.fst
  | [] => by simp [insertEntry]
  | e :: l => by
      rw [insertEntry]
      split
      · simp
      · split
        · next hk => simp [hk]
        · rw [List.map_cons, List.mem_cons, mem_insertEntry, List.map_cons, List.mem_cons]
          exact or_left_comm

theorem sorted_insertEntry {k : K} {v : V} : ∀ {l : List (K × V)},
    (l.map Prod.fst).Pairwise (· < ·) → ((insertEntry k v l).map Prod.fst).Pairwise (· < ·)
  | [], _ => by simp [insertEntry]
  | e :: l, h => by
      obtain ⟨he, hl⟩ := List.pairwise_cons.mp h
      rw [insertEntry]
      split
      · next hk => exact List.pairwise_cons.mpr ⟨List.forall_mem_cons.mpr
          ⟨hk, fun x hx => hk.trans (he x hx)⟩, h⟩
      · next hk =>
        split
        · next hke => exact List.pairwise_cons.mpr ⟨fun x hx => hke ▸ he x hx, hl⟩
        · next hke =>
          refine List.pairwise_cons.mpr ⟨fun x hx => ?_, sorted_insertEntry hl⟩
          rcases mem_insertEntry.mp hx with rfl | hx
          · exact lt_of_le_of_ne (not_lt.mp hk) (Ne.symm hke)
          · exact he x hx

/-- `BTreeMap::insert`. -/
def insert (m : BTreeMap K V) (k : K) (v : V) : BTreeMap K V :=
  ⟨insertEntry k v m.entries, sorted_insertEntry m.sorted⟩

/-- `Iterator::collect` into an ordered map. -/
def collect (l : List (K × V)) : BTreeMap K V := l.foldl (fun m e => m.insert e.1 e.2) empty

/-- **A map is collected with the keys given.** -/
theorem mem_keys_collect {l : List (K × V)} {k : K} :
    k ∈ (collect l).keys ↔ k ∈ l.map Prod.fst := by
  have key : ∀ (l : List (K × V)) (m : BTreeMap K V),
      k ∈ (l.foldl (fun m e => m.insert e.1 e.2) m).keys ↔ k ∈ m.keys ∨ k ∈ l.map Prod.fst := by
    intro l
    induction l with
    | nil => exact fun m => by simp
    | cons e l ih =>
      intro m
      have hinsert : k ∈ (m.insert e.1 e.2).keys ↔ k = e.1 ∨ k ∈ m.keys := mem_insertEntry
      rw [List.foldl_cons, ih, hinsert, List.map_cons, List.mem_cons, or_assoc, or_left_comm]
  rw [collect, key l empty]
  simp [keys, empty]

/-- What is put under a key may replace what was there. -/
theorem subperm_insertEntry {k : K} {v : V} : ∀ {l : List (K × V)},
    (insertEntry k v l).Subperm ((k, v) :: l)
  | [] => .refl _
  | x :: l => by
      rw [insertEntry]
      split
      · exact .refl _
      · split
        · exact (List.subperm_cons _).mpr (List.sublist_cons_self x l).subperm
        · exact ((List.subperm_cons x).mpr subperm_insertEntry).trans (List.Perm.swap _ _ _).subperm

/-- **A map is collected of the entries given**, each at most as often as it was given. -/
theorem subperm_collect (l : List (K × V)) : (collect l).entries.Subperm l := by
  have key : ∀ (l : List (K × V)) (m : BTreeMap K V),
      (l.foldl (fun m e => m.insert e.1 e.2) m).entries.Subperm (l ++ m.entries) := by
    intro l
    induction l with
    | nil => exact fun m => .refl _
    | cons x l ih =>
      intro m
      refine (ih _).trans ?_
      exact ((List.subperm_append_left l).mpr subperm_insertEntry).trans
        List.perm_middle.subperm
  have hl := key l empty
  rwa [show l ++ empty.entries = l from List.append_nil l] at hl

/-- An entry above all others goes to the end. -/
theorem insertEntry_of_forall_lt {k : K} {v : V} : ∀ {l : List (K × V)}, (∀ e ∈ l, e.1 < k) →
    insertEntry k v l = l ++ [(k, v)]
  | [], _ => rfl
  | e :: l, h => by
      obtain ⟨he, hl⟩ := List.forall_mem_cons.mp h
      rw [insertEntry, if_neg he.not_gt, if_neg he.ne', insertEntry_of_forall_lt hl]
      rfl

/-- **A map is collected from its own entries.** -/
theorem collect_entries (m : BTreeMap K V) : collect m.entries = m := by
  have key : ∀ (l : List (K × V)) (acc : BTreeMap K V),
      ((acc.entries ++ l).map Prod.fst).Pairwise (· < ·) →
      (l.foldl (fun m e => m.insert e.1 e.2) acc).entries = acc.entries ++ l := by
    intro l
    induction l with
    | nil => exact fun acc _ => (List.append_nil _).symm
    | cons e l ih =>
      intro acc hsorted
      have hlast : (acc.insert e.1 e.2).entries = acc.entries ++ [e] := by
        refine insertEntry_of_forall_lt fun x hx => ?_
        rw [List.map_append, List.pairwise_append] at hsorted
        exact hsorted.2.2 _ (List.mem_map.mpr ⟨x, hx, rfl⟩) _ (by simp)
      rw [List.foldl_cons, ih _ (by rwa [hlast, List.append_assoc]), hlast, List.append_assoc]
      rfl
  exact BTreeMap.ext (key m.entries empty (by simpa [empty] using m.sorted))

end Collect

end BTreeMap

/-- A set iterated in order. -/
@[ext] structure BTreeSet (α : Type*) [LT α] where
  elems : List α
  sorted : elems.Pairwise (· < ·)
  deriving DecidableEq

namespace BTreeSet

variable {α : Type*}

instance [LT α] : Membership α (BTreeSet α) := ⟨fun s a => a ∈ s.elems⟩

instance [LT α] [DecidableEq α] (a : α) (s : BTreeSet α) : Decidable (a ∈ s) :=
  inferInstanceAs (Decidable (a ∈ s.elems))

theorem mem_def [LT α] {a : α} {s : BTreeSet α} : a ∈ s ↔ a ∈ s.elems := Iff.rfl

/-- The empty set. -/
def empty [LT α] : BTreeSet α := ⟨[], List.Pairwise.nil⟩

theorem nodup_elems [Preorder α] (s : BTreeSet α) : s.elems.Nodup :=
  s.sorted.imp fun h => ne_of_lt h

/-- `Iterator::collect` into an ordered set. -/
def collect [LinearOrder α] (l : List α) : BTreeSet α where
  elems := l.dedup.insertionSort (· ≤ ·)
  sorted := by
    have hle := List.pairwise_insertionSort (· ≤ ·) l.dedup
    have hne : (l.dedup.insertionSort (· ≤ ·)).Pairwise (· ≠ ·) :=
      ((List.perm_insertionSort (· ≤ ·) l.dedup).nodup_iff).mpr l.nodup_dedup
    exact (hle.and hne).imp fun h => lt_of_le_of_ne h.1 h.2

@[simp] theorem mem_collect [LinearOrder α] {a : α} {l : List α} : a ∈ collect l ↔ a ∈ l := by
  rw [mem_def, collect, List.mem_insertionSort, List.mem_dedup]

/-- Two ordered sets with the same elements are equal. -/
theorem ext_mem [LinearOrder α] {s t : BTreeSet α} (h : ∀ a, a ∈ s ↔ a ∈ t) : s = t :=
  BTreeSet.ext (s.sorted.sortedLT.eq_of_mem_iff t.sorted.sortedLT h)

/-- A set is collected from its own elements. -/
theorem collect_elems [LinearOrder α] (s : BTreeSet α) : collect s.elems = s :=
  ext_mem fun _ => mem_collect

theorem collect_congr [LinearOrder α] {l l' : List α} (h : ∀ a, a ∈ l ↔ a ∈ l') :
    collect l = collect l' := ext_mem fun a => by rw [mem_collect, mem_collect, h]

end BTreeSet
