import Bullshark.Consensus.Agreement

/-!
# Consensus/Bare — what consensus reads of a certificate

A header may be certified by different quorums, and signed twice: two validators then hold different
certificates for it.  `Consensus::run` reads the id, the round, the author and the parents of a
header and nothing else.  So let `f` keep these: every function of the task commutes with `f`,
applied to all certificates of the DAG (`Dag.mapCerts`), and so does the run (`run_mapCerts`).
-/

namespace Bullshark

variable {f : Certificate → Certificate}

/-- The function keeps what consensus reads. -/
structure KeepsVertex (f : Certificate → Certificate) : Prop where
  id : ∀ c, (f c).header.id = c.header.id
  rawRound : ∀ c, (f c).header.rawRound = c.header.rawRound
  author : ∀ c, (f c).header.author = c.header.author
  parents : ∀ c, (f c).header.parents = c.header.parents

namespace KeepsVertex

theorem round (hf : KeepsVertex f) (c : Certificate) : (f c).round = c.round :=
  congrArg UInt64.toNat (hf.rawRound c)

theorem origin (hf : KeepsVertex f) (c : Certificate) : (f c).origin = c.origin := hf.author c

theorem digest [Crypto] (hf : KeepsVertex f) (c : Certificate) : (f c).digest = c.digest := by
  rw [Certificate.digest, Certificate.digest, hf.origin, hf.id, hf.rawRound]

theorem partialEq (hf : KeepsVertex f) (c c' : Certificate) :
    (f c).partialEq (f c') = c.partialEq c' := by
  simp only [Certificate.partialEq, hf.id, hf.round, hf.origin]

end KeepsVertex

/-- An entry of the DAG, with `f` applied to its certificate. -/
def mapEntry (f : Certificate → Certificate) (e : Digest × Certificate) : Digest × Certificate :=
  (e.1, f e.2)

/-- The DAG with `f` applied to every certificate. -/
def Dag.mapCerts (f : Certificate → Certificate) (dag : Dag) : Dag :=
  dag.mapValues fun authorities => authorities.mapValues (mapEntry f)

namespace Dag

theorem lookup_mapCerts (dag : Dag) (r : ℕ) : (dag.mapCerts f).lookup r
    = (dag.lookup r).map fun authorities => authorities.mapValues (mapEntry f) :=
  AList.lookup_mapValues _ _ _

theorem get_mapCerts (dag : Dag) (r : ℕ) (n : PublicKey) :
    (dag.mapCerts f).get r n = (dag.get r n).map (mapEntry f) := by
  rw [get, get, lookup_mapCerts]
  cases dag.lookup r with
  | none => rfl
  | some authorities => exact AList.lookup_mapValues _ _ _

end Dag

namespace State

def mapCerts (f : Certificate → Certificate) (state : State) : State :=
  { state with dag := state.dag.mapCerts f }

theorem insert_mapCerts [Crypto] (hf : KeepsVertex f) (state : State) (c : Certificate) :
    (state.insert c).mapCerts f = (state.mapCerts f).insert (f c) := by
  have hget : ((state.dag.lookup c.round).getD ∅).mapValues (mapEntry f)
      = ((state.dag.mapCerts f).lookup c.round).getD ∅ := by
    rw [Dag.lookup_mapCerts]
    cases state.dag.lookup c.round <;> rfl
  have hdag : (state.insert c).dag.mapCerts f = ((state.mapCerts f).insert (f c)).dag := by
    show (AList.insert c.round _ state.dag).mapValues _ = AList.insert (f c).round
      (AList.insert (f c).origin ((f c).digest, f c)
        (((state.dag.mapCerts f).lookup (f c).round).getD ∅)) (state.dag.mapCerts f)
    rw [hf.round, hf.origin, hf.digest, ← hget, AList.insert_mapValues, AList.insert_mapValues]
    rfl
  rw [mapCerts, hdag]
  rfl

theorem new_mapCerts [Crypto] (hf : KeepsVertex f) (genesis : List Certificate) :
    (new genesis).mapCerts f = new (genesis.map f) := by
  have hdag : (new genesis).dag.mapCerts f = (new (genesis.map f)).dag := by
    simp only [new, Dag.mapCerts, AList.insert_mapValues, AList.collect_mapValues, List.map_map]
    simp only [Function.comp_def, hf.origin, hf.digest]
    rfl
  simp only [mapCerts, hdag]
  simp only [new, List.map_map, Function.comp_def, hf.origin, hf.round]

theorem retainFrom_mapCerts (gcDepth lastCommittedRound : ℕ) (dag : Dag) (name : PublicKey)
    (round : ℕ) : retainFrom gcDepth lastCommittedRound (dag.mapCerts f) name round
      = (retainFrom gcDepth lastCommittedRound dag name round).mapCerts f := by
  refine AList.retain_mapValues (fun r authorities => ?_) dag
  have hretain : (authorities.mapValues (mapEntry f)).retain
        (fun n x => if n ≠ name ∨ r ≥ round then some x else none)
      = (authorities.retain fun n x => if n ≠ name ∨ r ≥ round then some x else none).mapValues
          (mapEntry f) := by
    refine AList.retain_mapValues (fun n x => ?_) authorities
    split <;> rfl
  simp only [hretain, AList.values_mapValues, ne_eq, List.map_eq_nil_iff]
  split <;> rfl

/-- The clean-up of `update`, once the last committed rounds are known. -/
def updateTo (state : State) (gcDepth : ℕ) (lastCommitted : HashMap PublicKey ℕ) : State :=
  { state with
    lastCommitted
    lastCommittedRound := lastCommitted.values.foldl max 0
    dag := lastCommitted.entries.foldl
      (fun dag e => retainFrom gcDepth (lastCommitted.values.foldl max 0) dag e.1 e.2) state.dag }

theorem update_eq_updateTo (state : State) (c : Certificate) (gcDepth : ℕ) :
    state.update c gcDepth = state.updateTo gcDepth (state.lastCommitted.insert c.origin
      (match state.lastCommitted.lookup c.origin with
        | some r => max r c.round
        | none => c.round)) := rfl

theorem updateTo_mapCerts (state : State) (gcDepth : ℕ) (lastCommitted : HashMap PublicKey ℕ) :
    (state.updateTo gcDepth lastCommitted).mapCerts f
      = (state.mapCerts f).updateTo gcDepth lastCommitted := by
  have hfold : ∀ (entries : List (Σ _ : PublicKey, ℕ)) (lcr : ℕ) (dag : Dag),
      (entries.foldl (fun dag e => retainFrom gcDepth lcr dag e.1 e.2) dag).mapCerts f
        = entries.foldl (fun dag e => retainFrom gcDepth lcr dag e.1 e.2) (dag.mapCerts f) := by
    intro entries lcr
    induction entries with
    | nil => exact fun _ => rfl
    | cons e entries ih =>
      intro dag
      rw [List.foldl_cons, List.foldl_cons, ih, retainFrom_mapCerts]
  simp only [mapCerts, updateTo, hfold]

theorem update_mapCerts (hf : KeepsVertex f) (state : State) (c : Certificate) (gcDepth : ℕ) :
    (state.update c gcDepth).mapCerts f = (state.mapCerts f).update (f c) gcDepth := by
  rw [update_eq_updateTo, update_eq_updateTo, updateTo_mapCerts, hf.origin, hf.round]
  rfl

end State

namespace Consensus

variable (self : Consensus)

/-! ## Leaders and links -/

theorem leader_mapCerts (round : ℕ) (dag : Dag) :
    self.leader round (dag.mapCerts f) = (self.leader round dag).map (Option.map (mapEntry f)) := by
  rw [leader, leader]
  cases self.leaderKey round with
  | error p => rfl
  | ok key => exact congrArg Except.ok (Dag.get_mapCerts dag round key)

theorem fallbackLeader_mapCerts (firstRound : ℕ) (dag : Dag) :
    self.fallbackLeader firstRound (dag.mapCerts f)
      = (self.fallbackLeader firstRound dag).map (Option.map (mapEntry f)) := by
  rw [fallbackLeader, fallbackLeader]
  cases self.fallbackKey firstRound with
  | error p => rfl
  | ok key =>
    cases key with
    | none => rfl
    | some key => exact congrArg Except.ok (Dag.get_mapCerts dag firstRound key)

theorem linkedStep_mapCerts (hf : KeepsVertex f) (dag : Dag) (parents : List Certificate) (r : ℕ) :
    linkedStep (dag.mapCerts f) (parents.map f) r = (linkedStep dag parents r).map (List.map f) := by
  rw [linkedStep, linkedStep, Dag.lookup_mapCerts]
  cases dag.lookup r with
  | none => rfl
  | some authorities =>
    refine congrArg Except.ok ?_
    simp only [AList.values_mapValues, List.filter_map, List.map_map, List.any_map]
    simp only [Function.comp_def, mapEntry, hf.parents]
    rfl

theorem linked_mapCerts (hf : KeepsVertex f) (leader prevLeader : Certificate) (dag : Dag) :
    linked (f leader) (f prevLeader) (dag.mapCerts f) = linked leader prevLeader dag := by
  have hfold := Except.foldlM_map (f := linkedStep dag) (g := List.map f)
    (linkedStep_mapCerts hf dag)
    (List.range' prevLeader.round (leader.round - prevLeader.round)).reverse [leader]
  rw [linked, linked, hf.round, hf.round]
  simp only [List.map_cons, List.map_nil] at hfold
  simp only [hfold]
  cases List.foldlM (linkedStep dag) [leader] _ with
  | error p => rfl
  | ok parents =>
    refine congrArg Except.ok ?_
    simp only [List.any_map, Function.comp_def, hf.partialEq]

theorem orderLeadersStep_mapCerts (hf : KeepsVertex f) (dag : Dag)
    (acc : List Certificate × Certificate) (r : ℕ) :
    self.orderLeadersStep (dag.mapCerts f) (acc.1.map f, f acc.2) r
      = (self.orderLeadersStep dag acc r).map fun acc => (acc.1.map f, f acc.2) := by
  rw [orderLeadersStep, orderLeadersStep, leader_mapCerts]
  cases self.leader r dag with
  | error p => rfl
  | ok e =>
    cases e with
    | none => rfl
    | some e =>
      show (do if ← linked (f acc.2) (f e.2) (dag.mapCerts f) then _ else _) = _
      rw [linked_mapCerts hf]
      show _ = Except.map _ (do if ← linked acc.2 e.2 dag then _ else _)
      cases linked acc.2 e.2 dag with
      | error p => rfl
      | ok b => cases b <;> simp [bind, Except.bind, pure, Except.pure, Except.map]

theorem orderLeaders_mapCerts (hf : KeepsVertex f) (leader : Certificate) (state : State) :
    self.orderLeaders (f leader) (state.mapCerts f)
      = (self.orderLeaders leader state).map (List.map f) := by
  have hfold := Except.foldlM_map (f := self.orderLeadersStep state.dag)
    (g := fun acc : List Certificate × Certificate => (acc.1.map f, f acc.2))
    (self.orderLeadersStep_mapCerts hf state.dag)
    (walkRounds state.lastCommittedRound leader.round) ([leader], leader)
  rw [orderLeaders, orderLeaders, hf.round]
  simp only [List.map_cons, List.map_nil] at hfold
  simp only [State.mapCerts, hfold]
  cases List.foldlM (self.orderLeadersStep state.dag) ([leader], leader) _ <;> rfl

/-! ## Flattening -/

theorem findParent_mapCerts (hf : KeepsVertex f) (state : State) (x : Certificate)
    (parent : Digest) : findParent (state.mapCerts f) (f x) parent
      = (findParent state x parent).map (mapEntry f) := by
  rw [findParent, findParent, hf.round]
  show ((state.dag.mapCerts f).lookup _).bind _ = _
  rw [Dag.lookup_mapCerts]
  cases state.dag.lookup (Round.pred x.round) with
  | none => rfl
  | some authorities =>
    show ((authorities.mapValues (mapEntry f)).values.find? _) = _
    rw [AList.values_mapValues, List.find?_map]
    rfl

theorem alreadyCommitted_mapCerts (hf : KeepsVertex f) (state : State) (c : Certificate) :
    alreadyCommitted (state.mapCerts f) (f c) = alreadyCommitted state c := by
  rw [alreadyCommitted, alreadyCommitted, hf.round, hf.origin]
  rfl

theorem pushParent_mapCerts (hf : KeepsVertex f) (state : State) (x : Certificate)
    (acc : List Certificate × List Digest) (parent : Digest) :
    pushParent (state.mapCerts f) (f x) (acc.1.map f, acc.2) parent
      = ((pushParent state x acc parent).1.map f, (pushParent state x acc parent).2) := by
  rw [pushParent, pushParent, findParent_mapCerts hf]
  cases findParent state x parent with
  | none => rfl
  | some e =>
    simp only [Option.map_some, mapEntry, alreadyCommitted_mapCerts hf]
    split <;> rfl

theorem foldl_pushParent_mapCerts (hf : KeepsVertex f) (state : State) (x : Certificate)
    (parents : List Digest) (acc : List Certificate × List Digest) :
    parents.foldl (pushParent (state.mapCerts f) (f x)) (acc.1.map f, acc.2)
      = ((parents.foldl (pushParent state x) acc).1.map f,
          (parents.foldl (pushParent state x) acc).2) := by
  induction parents generalizing acc with
  | nil => rfl
  | cons parent parents ih => rw [List.foldl_cons, List.foldl_cons, pushParent_mapCerts hf, ih]

theorem orderDagLoop_mapCerts (hf : KeepsVertex f) (state : State) :
    ∀ (n : ℕ) (buffer : List Certificate) (already : List Digest),
      orderDagLoop (state.mapCerts f) n (buffer.map f) already
        = (orderDagLoop state n buffer already).map f
  | 0, _, _ => rfl
  | _ + 1, [], _ => rfl
  | n + 1, x :: buffer, already => by
      rw [List.map_cons, orderDagLoop, orderDagLoop, hf.parents, List.map_cons]
      have hfold := foldl_pushParent_mapCerts hf state x x.header.parents.elems (buffer, already)
      dsimp only at hfold ⊢
      rw [hfold, orderDagLoop_mapCerts hf state n]

theorem dagSize_mapCerts (dag : Dag) : dagSize (dag.mapCerts f) = dagSize dag := by
  rw [dagSize, dagSize, Dag.mapCerts, AList.values_mapValues, List.map_map]
  refine congrArg List.sum (List.map_congr_left fun authorities _ => ?_)
  rw [Function.comp_apply, AList.values_mapValues, List.length_map]

/-- **The sub-DAG of a leader is flattened alike.** -/
theorem orderDag_mapCerts (hf : KeepsVertex f) (leader : Certificate) (state : State) :
    self.orderDag (f leader) (state.mapCerts f) = (self.orderDag leader state).map f := by
  have hloop := orderDagLoop_mapCerts hf state (dagSize state.dag + 1) [leader] []
  rw [orderDag, orderDag, List.map_insertionSort _ (fun x y => x.round ≤ y.round) f _
    fun a _ b _ => by rw [hf.round, hf.round]]
  rw [show dagSize (state.mapCerts f).dag = dagSize state.dag from dagSize_mapCerts _,
    show [f leader] = [leader].map f from rfl, hloop, List.filter_map]
  simp only [Function.comp_def, hf.round]
  rfl

/-! ## The loop body -/

theorem roundStake_mapCerts (hf : KeepsVertex f) (state : State) (round : ℕ) :
    self.roundStake (state.mapCerts f) round = self.roundStake state round := by
  rw [roundStake, roundStake]
  have hlookup : (state.mapCerts f).dag.lookup round = _ := Dag.lookup_mapCerts state.dag round
  rw [hlookup]
  cases state.dag.lookup round with
  | none => rfl
  | some authorities =>
    simp only [Option.map_some, AList.values_mapValues, List.map_map]
    simp only [Function.comp_def, mapEntry, hf.origin]

theorem supports_mapCerts (hf : KeepsVertex f) (state : State) (leader : Digest × Certificate)
    (x : Certificate) : self.supports (state.mapCerts f) (mapEntry f leader) (f x)
      = self.supports state leader x := by
  rw [supports, supports, hf.parents]
  split
  · exact linked_mapCerts hf x leader.2 state.dag
  · rfl

theorem supportStake_mapCerts (hf : KeepsVertex f) (state : State) (round : ℕ)
    (leader : Digest × Certificate) :
    self.supportStake (state.mapCerts f) round (mapEntry f leader)
      = self.supportStake state round leader := by
  rw [supportStake, supportStake]
  have hlookup : (state.mapCerts f).dag.lookup round = _ := Dag.lookup_mapCerts state.dag round
  rw [hlookup]
  cases state.dag.lookup round with
  | none => rfl
  | some authorities =>
    simp only [Option.map_some, AList.values_mapValues, List.foldlM_map]
    refine congrArg (fun turn => List.foldlM turn 0 authorities.values) (funext₂ fun stake e => ?_)
    show (do if ← self.supports (state.mapCerts f) (mapEntry f leader) (f e.2) then _ else _) = _
    rw [self.supports_mapCerts hf]
    simp only [mapEntry, hf.origin]

/-- What the loop body decides, with `f` applied to the leader. -/
def Verdict.mapCerts (f : Certificate → Certificate) : Verdict → Verdict
  | wait => wait
  | skip leaderRound => skip leaderRound
  | commit leaderRound leader => commit leaderRound (f leader)

/-- What the loop emits, with `f` applied to every certificate. -/
def Emission.mapCerts (f : Certificate → Certificate) : Emission → Emission
  | fallback leaderRound committed => fallback leaderRound committed
  | subDag leader lastCommittedRound certificates =>
    subDag (f leader) lastCommittedRound (certificates.map f)

theorem txOutput_mapCerts (emissions : List Emission) :
    txOutput (emissions.map (Emission.mapCerts f)) = (txOutput emissions).map f := by
  rw [txOutput, txOutput, List.flatMap_map, List.map_flatMap]
  refine congrArg (emissions.flatMap ·) (funext fun e => ?_)
  cases e <;> rfl

theorem outcomes_mapCerts (emissions : List Emission) :
    outcomes (emissions.map (Emission.mapCerts f)) = outcomes emissions := by
  rw [outcomes, List.filterMap_map]
  refine congrArg (List.filterMap · emissions) (funext fun e => ?_)
  cases e <;> rfl

theorem selected_mapCerts (leaderRound : ℕ) (dag : Dag) :
    self.selected leaderRound (dag.mapCerts f)
      = (self.selected leaderRound dag).map (Option.map (mapEntry f)) := by
  rw [selected, selected]
  split
  · exact self.fallbackLeader_mapCerts leaderRound dag
  · exact self.leader_mapCerts leaderRound dag

/-- **The loop body decides alike.** -/
theorem verdict_mapCerts (hf : KeepsVertex f) (state : State) (round : ℕ) :
    self.verdict (state.mapCerts f) round
      = (self.verdict state round).map (Verdict.mapCerts f) := by
  rw [verdict, verdict, self.roundStake_mapCerts hf]
  cases self.leaderRound round with
  | none => rfl
  | some lr =>
    show (if lr ≤ state.lastCommittedRound then _
      else if self.dynamic = true ∧ lr ∈ state.resolvedFallbackRounds then _ else _) = _
    dsimp only
    split
    · rfl
    · split
      · rfl
      · split
        · rfl
        · rw [show (state.mapCerts f).dag = state.dag.mapCerts f from rfl, self.selected_mapCerts]
          cases self.selected lr state.dag with
          | error p => rfl
          | ok e =>
            cases e with
            | none => cases self.dynamic <;> rfl
            | some e =>
              simp only [Except.map, Option.map_some, bind, Except.bind,
                self.supportStake_mapCerts hf]
              cases self.supportStake state round e with
              | error p => rfl
              | ok stake =>
                dsimp only
                split
                · cases self.dynamic <;> rfl
                · rfl

/-- What a step leads to, with `f` applied to every certificate. -/
def mapTurn (f : Certificate → Certificate) (turn : State × List Emission) :
    State × List Emission := (turn.1.mapCerts f, turn.2.map (Emission.mapCerts f))

theorem foldl_update_mapCerts (hf : KeepsVertex f) (gcDepth : ℕ) (ordered : List Certificate)
    (state : State) :
    (ordered.foldl (fun state x => state.update x gcDepth) state).mapCerts f
      = (ordered.map f).foldl (fun state x => state.update x gcDepth) (state.mapCerts f) := by
  induction ordered generalizing state with
  | nil => rfl
  | cons x ordered ih =>
    rw [List.map_cons, List.foldl_cons, List.foldl_cons, ih, State.update_mapCerts hf]

theorem commitLeaders_mapCerts (hf : KeepsVertex f) (leaders : List Certificate) (state : State) :
    self.commitLeaders (state.mapCerts f) (leaders.map f)
      = mapTurn f (self.commitLeaders state leaders) := by
  induction leaders generalizing state with
  | nil => rfl
  | cons leader leaders ih =>
    have hfirst : (self.commitLeader (state.mapCerts f) (f leader)).1
        = (self.commitLeader state leader).1.mapCerts f := by
      rw [commitLeader, commitLeader, self.orderDag_mapCerts hf, foldl_update_mapCerts hf]
    have hemits : (self.commitLeader (state.mapCerts f) (f leader)).2
        = (self.commitLeader state leader).2.mapCerts f := by
      rw [commitLeader, commitLeader, self.orderDag_mapCerts hf]
      rfl
    rw [List.map_cons, commitLeaders, commitLeaders, hfirst, hemits, ih]
    rfl

theorem resolve_mapCerts (state : State) (leaderRound : ℕ) :
    resolve (state.mapCerts f) leaderRound = (resolve state leaderRound).mapCerts f := rfl

variable [Crypto]

/-- **The main loop takes the same step.** -/
theorem process_mapCerts (hf : KeepsVertex f) (state : State) (c : Certificate) :
    self.process (state.mapCerts f) (f c) = (self.process state c).map (mapTurn f) := by
  rw [process, process]
  dsimp only
  rw [← State.insert_mapCerts hf, hf.round, self.verdict_mapCerts hf]
  cases self.verdict (state.insert c) c.round with
  | error p => rfl
  | ok verdict =>
    cases verdict with
    | wait => rfl
    | skip leaderRound => rfl
    | commit leaderRound leader =>
      simp only [Except.map, bind, Except.bind, Verdict.mapCerts]
      split
      · rw [resolve_mapCerts, show [f leader] = [leader].map f from rfl,
          self.commitLeaders_mapCerts hf]
        rfl
      · rw [self.orderLeaders_mapCerts hf]
        cases self.orderLeaders leader (state.insert c) with
        | error p => rfl
        | ok leaders =>
          simp only [Except.map]
          rw [← List.map_reverse, self.commitLeaders_mapCerts hf]
          rfl

/-! ## The run -/

/-- The run on the certificates `f` leaves is the run with `f` applied. -/
theorem run_mapCerts (hf : KeepsVertex f)
    (hgenesis : (Certificate.genesis self.committee).map f = Certificate.genesis self.committee)
    (s : List Certificate) :
    self.machine.state (s.map f) = (self.machine.state s).map (State.mapCerts f) ∧
      self.machine.outputs (s.map f) = (self.machine.outputs s).map (Emission.mapCerts f) := by
  induction s using List.reverseRecOn with
  | nil =>
    refine ⟨congrArg Except.ok ?_, rfl⟩
    rw [State.new_mapCerts hf, hgenesis]
  | append_singleton s c ih =>
    have hstep : self.machine.step ((self.machine.state s).map (State.mapCerts f)) (f c)
        = ((self.machine.step (self.machine.state s) c).1.map (State.mapCerts f),
          (self.machine.step (self.machine.state s) c).2.map (Emission.mapCerts f)) := by
      cases self.machine.state s with
      | error p => rfl
      | ok state =>
        simp only [Except.map, machine, self.process_mapCerts hf]
        cases self.process state c <;> rfl
    rw [List.map_append, List.map_singleton, Mealy.state_snoc, Mealy.outputs_snoc, ih.1, ih.2,
      hstep, Mealy.state_snoc, Mealy.outputs_snoc, List.map_append]
    exact ⟨rfl, rfl⟩

end Consensus

/-! ## Bare certificates -/

namespace Certificate

/-- What consensus reads of the certificate: no payload, no signature, no votes. -/
def bare (c : Certificate) : Certificate :=
  ⟨{ c.header with payload := .empty, signature := default }, []⟩

theorem keepsVertex_bare : KeepsVertex bare :=
  ⟨fun _ => rfl, fun _ => rfl, fun _ => rfl, fun _ => rfl⟩

theorem bare_eq_iff {c c' : Certificate} : c.bare = c'.bare ↔ c.header.id = c'.header.id ∧
    c.header.rawRound = c'.header.rawRound ∧ c.header.author = c'.header.author ∧
      c.header.parents = c'.header.parents := by
  simp only [bare, Certificate.mk.injEq, Header.mk.injEq, and_true, true_and]
  tauto

theorem bare_of_mem_genesis {committee : Committee} {c : Certificate} (hc : c ∈ genesis committee) :
    c.bare = c := by
  obtain ⟨name, -, rfl⟩ := List.mem_map.mp hc
  rfl

theorem map_bare_genesis (committee : Committee) :
    (genesis committee).map bare = genesis committee :=
  (List.map_congr_left fun _ hc => bare_of_mem_genesis hc).trans (List.map_id _)

end Certificate

namespace Consensus

section

variable [Crypto] (self : Consensus)

/-- **Neither votes nor signatures nor payloads matter**: two validators that receive, in the same
order, certificates with the same ids, rounds, authors and parents order the same, resolve the
fallbacks alike and panic alike. -/
theorem output_of_bare {s t : List Certificate}
    (h : s.map Certificate.bare = t.map Certificate.bare) :
    (self.output s).map Certificate.bare = (self.output t).map Certificate.bare ∧
      outcomes (self.machine.outputs s) = outcomes (self.machine.outputs t) ∧
      ∀ p, self.machine.state s = .error p ↔ self.machine.state t = .error p := by
  have hrun := self.run_mapCerts Certificate.keepsVertex_bare
    (Certificate.map_bare_genesis self.committee)
  have hemits : (self.machine.outputs s).map (Emission.mapCerts Certificate.bare)
      = (self.machine.outputs t).map (Emission.mapCerts Certificate.bare) := by
    rw [← (hrun s).2, h, (hrun t).2]
  have hstate : (self.machine.state s).map (State.mapCerts Certificate.bare)
      = (self.machine.state t).map (State.mapCerts Certificate.bare) := by
    rw [← (hrun s).1, h, (hrun t).1]
  refine ⟨?_, ?_, fun p => ?_⟩
  · rw [output, output, ← txOutput_mapCerts, hemits, txOutput_mapCerts]
  · rw [← outcomes_mapCerts (f := Certificate.bare), hemits, outcomes_mapCerts]
  · have hmap : ∀ {state : Except Panic State},
        state.map (State.mapCerts Certificate.bare) = .error p ↔ state = .error p := by
      intro state
      cases state <;> simp [Except.map]
    rw [← hmap, hstate, hmap]

end

namespace MissedLeader

open Sample

/-- The certificates of `early`, with the payload and the signature of their headers changed and one
vote less each. -/
def disguised : List Certificate := early.map fun c =>
  ⟨{ c.header with payload := ⟨[(c.digest, 0)], List.pairwise_singleton _ _⟩, signature := default },
    c.votes.drop 1⟩

set_option maxRecDepth 100000 in
theorem disguised_ne : ∀ c ∈ disguised, c ∉ early := by
  decide +kernel

/-- A validator that receives these commits the leader of round 2 alike. -/
theorem output_of_bare_disguised :
    (∀ c ∈ disguised, c ∉ early) ∧ task.output early ≠ [] ∧
      (task.output early).map Certificate.bare = (task.output disguised).map Certificate.bare ∧
      outcomes (task.machine.outputs early) = outcomes (task.machine.outputs disguised) ∧
      ∀ p, task.machine.state early = .error p ↔ task.machine.state disguised = .error p := by
  obtain ⟨-, -, -, -, hne, -⟩ := deliverable
  refine ⟨disguised_ne, hne, output_of_bare task ?_⟩
  rw [disguised, List.map_map]
  exact List.map_congr_left fun _ _ => rfl

end MissedLeader

end Consensus

end Bullshark
