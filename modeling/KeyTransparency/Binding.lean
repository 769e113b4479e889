import KeyTransparency.Epoch

/-! The loop of CreateEpoch that binds GetLeaves' answers to the mutations. It binds by
position, while the index list it sends keeps every repeated key and the map answers each
distinct index once; so the loop never runs past the end of the mutations, but a batch that
repeats an index shifts later proofs onto the wrong mutations and leaves the last ones
without a proof. Without a repeated index each mutation gets the inclusion of its own prior
leaf. Since the loop stays in bounds and `applyMutations` never fails, CreateEpoch returns an
error only when one of its calls fails. -/
namespace KeyTransparency

section FirstOccurrences
variable {α : Type} [DecidableEq α]

theorem mem_firstOccurrences {a : α} {l : List α} : a ∈ firstOccurrences l ↔ a ∈ l := by
  induction l with
  | nil => rfl
  | cons b l ih =>
    by_cases same : a = b
    · simp [firstOccurrences, same]
    · simp [firstOccurrences, same, ih]

theorem firstOccurrences_length_le (l : List α) : (firstOccurrences l).length ≤ l.length := by
  induction l with
  | nil => exact le_refl 0
  | cons a l ih =>
    simp only [firstOccurrences, List.length_cons]
    exact Nat.succ_le_succ ((List.length_filter_le _ _).trans ih)

theorem firstOccurrences_of_nodup {l : List α} (nodup : l.Nodup) : firstOccurrences l = l := by
  induction l with
  | nil => rfl
  | cons a l ih =>
    rw [List.nodup_cons] at nodup
    rw [firstOccurrences, ih nodup.2, List.filter_eq_self.mpr]
    intro b hb
    simpa using fun same : b = a => nodup.1 (same ▸ hb)

theorem firstOccurrences_length_lt {l : List α} (repeated : ¬ l.Nodup) :
    (firstOccurrences l).length < l.length := by
  induction l with
  | nil => exact absurd List.nodup_nil repeated
  | cons a l ih =>
    simp only [firstOccurrences, List.length_cons]
    by_cases mem : a ∈ l
    · have dropped : ((firstOccurrences l).filter (· ≠ a)).length < (firstOccurrences l).length :=
        List.length_filter_lt_length_iff_exists.mpr ⟨a, mem_firstOccurrences.mpr mem, by simp⟩
      have := firstOccurrences_length_le l
      omega
    · have rest : ¬ l.Nodup := fun nodup => repeated (List.nodup_cons.mpr ⟨mem, nodup⟩)
      have := (List.length_filter_le (· ≠ a) (firstOccurrences l)).trans_lt (ih rest)
      omega

end FirstOccurrences

theorem bindProofs_eq {ms : List Mutation} {ps : List MapLeafInclusion}
    (fits : ps.length ≤ ms.length) :
    bindProofs ms ps =
      some ((ms.zip ps).map (fun mp => ⟨mp.1.update, some mp.2⟩) ++ ms.drop ps.length) := by
  induction ms generalizing ps with
  | nil =>
    cases ps with
    | nil => rfl
    | cons p ps => cases fits
  | cons m ms ih =>
    cases ps with
    | nil => simp [bindProofs]
    | cons p ps =>
      simp only [List.length_cons, Nat.succ_le_succ_iff] at fits
      simp [bindProofs, ih fits]

theorem bindProofs_updates {ms : List Mutation} {ps : List MapLeafInclusion} {bound : List Mutation}
    (bound_eq : bindProofs ms ps = some bound) : bound.map (·.update) = ms.map (·.update) := by
  induction ms, ps using bindProofs.induct generalizing bound with
  | case1 ms =>
    simp only [bindProofs, Option.some.injEq] at bound_eq
    rw [bound_eq]
  | case2 p ps => cases bound_eq
  | case3 m ms p ps ih =>
    simp only [bindProofs, Option.map_eq_some'] at bound_eq
    obtain ⟨rest, hrest, rfl⟩ := bound_eq
    simp [ih hrest]

theorem MapServer.toArray_leafAt (m : MapServer) (index : Bytes) :
    toArray (m.leafAt index).index = toArray index := by
  unfold MapServer.leafAt
  cases stored : m.leaves.get (toArray index) with
  | none => rfl
  | some leaf => exact ((LeafMap.mem_values _ _ _).mpr stored).2

theorem bindProofs_getLeaves (m : MapServer) (mRange : List SignedKV) :
    ∃ bound, bindProofs (mRange.map (⟨·, none⟩)) (m.getLeaves (mRange.map (·.keyValue.key))) =
        some bound ∧ bound.map (·.update) = mRange ∧
      ((∀ b ∈ bound, ∃ p, b.proof = some p ∧ toArray p.leaf.index = toArray b.update.keyValue.key) ↔
        (mRange.map (·.keyValue.key)).Nodup) := by
  have fits : (m.getLeaves (mRange.map (·.keyValue.key))).length ≤
      (mRange.map (⟨·, none⟩ : SignedKV → Mutation)).length := by
    simpa [MapServer.getLeaves] using firstOccurrences_length_le (mRange.map (·.keyValue.key))
  refine ⟨_, bindProofs_eq fits, by
    simpa [Function.comp_def] using bindProofs_updates (bindProofs_eq fits), ?_⟩
  constructor
  · intro own
    by_contra repeated
    have short : (m.getLeaves (mRange.map (·.keyValue.key))).length <
        (mRange.map (⟨·, none⟩ : SignedKV → Mutation)).length := by
      simpa [MapServer.getLeaves] using firstOccurrences_length_lt repeated
    obtain ⟨x, hx⟩ := List.exists_mem_of_ne_nil
      ((mRange.map (⟨·, none⟩ : SignedKV → Mutation)).drop
        (m.getLeaves (mRange.map (·.keyValue.key))).length)
      (by rw [Ne, List.drop_eq_nil_iff]; omega)
    obtain ⟨p, hp, -⟩ := own x (List.mem_append_right _ hx)
    obtain ⟨y, -, rfl⟩ := List.mem_map.mp (List.mem_of_mem_drop hx)
    cases hp
  · intro nodup b hb
    have none_left : (mRange.map (⟨·, none⟩ : SignedKV → Mutation)).drop mRange.length = [] :=
      List.drop_eq_nil_of_le (by simp)
    simp [MapServer.getLeaves, firstOccurrences_of_nodup nodup, List.zip_map', Function.comp_def,
      none_left] at hb
    obtain ⟨x, -, rfl⟩ := hb
    exact ⟨_, rfl, m.toArray_leafAt _⟩

theorem bindProofs_getLeaves_of_nodup (m : MapServer) {mRange : List SignedKV}
    (distinct : (mRange.map (·.keyValue.key)).Nodup) :
    bindProofs (mRange.map (⟨·, none⟩)) (m.getLeaves (mRange.map (·.keyValue.key))) =
      some (mRange.map fun u => ⟨u, some ⟨m.leafAt u.keyValue.key, m.root.mapRevision⟩⟩) := by
  have fits : (m.getLeaves (mRange.map (·.keyValue.key))).length ≤
      (mRange.map (⟨·, none⟩ : SignedKV → Mutation)).length := by
    simp [MapServer.getLeaves, firstOccurrences_of_nodup distinct]
  rw [bindProofs_eq fits]
  simp [MapServer.getLeaves, firstOccurrences_of_nodup distinct, List.zip_map', Function.comp_def]

section Epoch
variable (lib : Library) (s : Sequencer) (env : Env)

/-- CreateEpoch never reaches the index-out-of-range panic of its binding loop. -/
theorem prepareEpoch_in_bounds (force : Bool) (w : World) :
    prepareEpoch lib s env force w ≠ .error .indexOutOfRange := by
  intro panicked
  unfold prepareEpoch at panicked
  split at panicked
  · cases panicked
  dsimp only at panicked
  rcases fetched : newMutations env w.stored w.map.root.metadata.highestFullyCompletedSeq with
    _ | ⟨mRange, seq⟩ <;> rw [fetched] at panicked
  · cases panicked
  dsimp only at panicked
  split at panicked
  · cases panicked
  split at panicked
  · cases panicked
  obtain ⟨bound, hb, -⟩ := bindProofs_getLeaves w.map mRange
  rw [hb] at panicked
  dsimp only at panicked
  split at panicked <;> cases panicked

/-- The calls of CreateEpoch up to SetLeaves, which read the map and the store and write the
map, all succeed. -/
structure MapCallsSucceed (env : Env) : Prop where
  getSignedMapRoot : Call.getSignedMapRoot ∉ env.fails
  newTxn : Call.newTxn ∉ env.fails
  readAll : Call.readAll ∉ env.fails
  commit : Call.commit ∉ env.fails
  getLeaves : Call.getLeaves ∉ env.fails
  setLeaves : Call.setLeaves ∉ env.fails

theorem MapCallsSucceed.of_nil {env : Env} (none : env.fails = []) : MapCallsSucceed env := by
  constructor <;> simp [none]

theorem prepareEpoch_of_map_calls (force : Bool) (w : World) (succeed : MapCallsSucceed env) :
    ∃ r, prepareEpoch lib s env force w = .ok r ∧ (r = none ↔
      (readAll env w.stored (toUInt64 w.map.root.metadata.highestFullyCompletedSeq)).2 = [] ∧
        force = false) := by
  have fetched : newMutations env w.stored w.map.root.metadata.highestFullyCompletedSeq =
      .ok ((readAll env w.stored (toUInt64 w.map.root.metadata.highestFullyCompletedSeq)).2,
        toInt64 (readAll env w.stored (toUInt64 w.map.root.metadata.highestFullyCompletedSeq)).1) := by
    simp [newMutations, succeed.newTxn, succeed.readAll, succeed.commit]
  obtain ⟨bound, hb, -⟩ := bindProofs_getLeaves w.map
    (readAll env w.stored (toUInt64 w.map.root.metadata.highestFullyCompletedSeq)).2
  unfold prepareEpoch
  simp only [succeed.getSignedMapRoot, succeed.getLeaves, if_false, fetched, hb, applyMutations]
  cases force <;> cases (readAll env w.stored (toUInt64 w.map.root.metadata.highestFullyCompletedSeq)).2 <;> simp

/-- With no call failing and every map root marshalling, CreateEpoch never returns an error: it
returns nil exactly when ReadAll finds no mutation and the epoch is not forced, and a response
otherwise. -/
theorem createEpoch_progress (force : Bool) (w : World) (noFailures : env.fails = [])
    (marshals : ∀ r, ∃ v, lib.marshal r = .ok v) :
    ∃ resp, (createEpoch lib s env force w).1 = .ok resp ∧ (resp = none ↔
      (readAll env w.stored (toUInt64 w.map.root.metadata.highestFullyCompletedSeq)).2 = [] ∧
        force = false) := by
  obtain ⟨r, prepared, empty⟩ := prepareEpoch_of_map_calls lib s env force w (.of_nil noFailures)
  unfold createEpoch
  rw [prepared]
  cases r with
  | none => exact ⟨none, rfl, iff_of_true rfl (empty.mp rfl)⟩
  | some p =>
    obtain ⟨v, json⟩ := marshals (w.setLeaves env p).map.root
    simp only [noFailures, List.not_mem_nil, if_false, queueLogLeaf, json, logProofs]
    exact ⟨_, rfl, nofun, fun page => nomatch empty.mpr page⟩

theorem createEpoch_progress_forced :
    ∃ resp, (createEpoch chainLibrary testSequencer ⟨[], 0, 0, 1⟩ true (World.fresh 0)).1 =
        .ok resp ∧ (resp = none ↔ (readAll ⟨[], 0, 0, 1⟩ (World.fresh 0).stored
          (toUInt64 (World.fresh 0).map.root.metadata.highestFullyCompletedSeq)).2 = [] ∧
            true = false) :=
  createEpoch_progress chainLibrary testSequencer ⟨[], 0, 0, 1⟩ true (World.fresh 0) rfl
    fun _ => ⟨_, rfl⟩

/-- Every mutation of a CreateEpoch response carries the inclusion of its own index exactly
when no index repeats in the batch. -/
theorem createEpoch_proofs_own_index_iff {force : Bool} {w w' : World}
    {resp : GetMutationsResponse} (run : createEpoch lib s env force w = (.ok (some resp), w')) :
    (∀ m ∈ resp.mutations, ∃ p, m.proof = some p ∧
        toArray p.leaf.index = toArray m.update.keyValue.key) ↔
      (resp.mutations.map (·.update.keyValue.key)).Nodup := by
  rcases createEpoch_cases lib s env run with ⟨-, nope | ⟨_, nope⟩⟩ | ⟨p, prepared, -, ⟨_, -, nope, -⟩ |
    ⟨log, -, -, ⟨_, -, nope⟩ | ⟨logRoot, c, i, -, answer⟩⟩⟩ <;> try cases nope
  cases answer
  obtain ⟨mRange, -, -, hbound, -⟩ := prepareEpoch_some lib s env prepared
  obtain ⟨bound, hb, updates, own⟩ := bindProofs_getLeaves w.map mRange
  rw [hbound, Option.some.injEq] at hb
  subst hb
  have keys : p.mutations.map (·.update.keyValue.key) = mRange.map (·.keyValue.key) := by
    rw [← updates, List.map_map]; rfl
  exact keys ▸ own

/-- When no index repeats in the page, each mutation of a CreateEpoch response carries the
inclusion of the leaf the map held for its own index before the epoch (an empty leaf where it held
none), at the revision the epoch read: the one before the response's. -/
theorem createEpoch_proofs_prior_leaf {force : Bool} {w w' : World} {resp : GetMutationsResponse}
    (run : createEpoch lib s env force w = (.ok (some resp), w'))
    (distinct : (resp.mutations.map (·.update.keyValue.key)).Nodup) :
    ∀ m ∈ resp.mutations, m.proof = some ⟨w.map.leafAt m.update.keyValue.key, resp.epoch - 1⟩ := by
  rcases createEpoch_cases lib s env run with ⟨-, nope | ⟨_, nope⟩⟩ | ⟨p, prepared, -, ⟨_, -, nope, -⟩ |
    ⟨log, -, -, ⟨_, -, nope⟩ | ⟨logRoot, c, i, -, answer⟩⟩⟩ <;> try cases nope
  cases answer
  obtain ⟨mRange, -, -, bound, -⟩ := prepareEpoch_some lib s env prepared
  have keys : p.mutations.map (·.update.keyValue.key) = mRange.map (·.keyValue.key) := by
    simpa [List.map_map, Function.comp_def] using
      congrArg (List.map (·.keyValue.key)) (bindProofs_updates bound)
  rw [bindProofs_getLeaves_of_nodup w.map (keys ▸ distinct), Option.some.injEq] at bound
  intro m mem
  rw [← bound] at mem
  obtain ⟨u, -, rfl⟩ := List.mem_map.mp mem
  simp

theorem createEpoch_proofs_prior_leaf_one_mutation :
    ∃ resp w', createEpoch chainLibrary testSequencer ⟨[], 0, 0, 1⟩ false
        { World.fresh 0 with stored := [⟨1, ⟨⟨[1], [7]⟩, []⟩⟩] } = (.ok (some resp), w') ∧
      (resp.mutations.map (·.update.keyValue.key)).Nodup ∧
      ∀ m ∈ resp.mutations, m.proof = some
        ⟨({ World.fresh 0 with stored := [⟨1, ⟨⟨[1], [7]⟩, []⟩⟩] } : World).map.leafAt
          m.update.keyValue.key, resp.epoch - 1⟩ :=
  ⟨_, _, rfl, by decide, createEpoch_proofs_prior_leaf chainLibrary testSequencer ⟨[], 0, 0, 1⟩
    (show createEpoch chainLibrary testSequencer ⟨[], 0, 0, 1⟩ false
      { World.fresh 0 with stored := [⟨1, ⟨⟨[1], [7]⟩, []⟩⟩] } = _ from rfl) (by decide)⟩

end Epoch

def repeatedIndexStore : List StoredMutation :=
  [⟨1, ⟨⟨[1], [7]⟩, []⟩⟩, ⟨2, ⟨⟨[1], [8]⟩, []⟩⟩, ⟨3, ⟨⟨[2], [9]⟩, []⟩⟩]

/-- On that batch the second mutation of `[1]` gets the inclusion of `[2]`, and the mutation
of `[2]` gets none. -/
theorem createEpoch_misbinds_repeated_index :
    ∃ resp w', createEpoch chainLibrary testSequencer ⟨[], 2, 0, 1⟩ false
        { World.fresh 0 with stored := repeatedIndexStore } = (.ok (some resp), w') ∧
      resp.mutations.map (fun m => (m.update.keyValue.key, m.proof.map (·.leaf.index))) =
        [([1], some [1]), ([1], some [2]), ([2], none)] ∧
      ((∀ m ∈ resp.mutations, ∃ p, m.proof = some p ∧
          toArray p.leaf.index = toArray m.update.keyValue.key) ↔
        (resp.mutations.map (·.update.keyValue.key)).Nodup) :=
  ⟨_, _, rfl, rfl, createEpoch_proofs_own_index_iff chainLibrary testSequencer ⟨[], 2, 0, 1⟩
    (show createEpoch chainLibrary testSequencer ⟨[], 2, 0, 1⟩ false
      { World.fresh 0 with stored := repeatedIndexStore } = _ from rfl)⟩

end KeyTransparency
