import KeyTransparency.Binding

/-! What the map holds after a run. Each revision CreateEpoch writes absorbs one page of the
store; `absorbed` records those pages beside the run. When no page repeats an index, the
map's leaves are the spec's chained fold of every absorbed mutation, in order, over the leaves
before the run, however the page size and the ticks cut the mutations into epochs. Without
that condition the map holds the code's own fold: page by page, each mutation applied to the
leaf its index had when its epoch began. -/
namespace KeyTransparency

theorem getLast?_eq_of_mem_iff {α : Type} {l : List α} {o : Option α}
    (mem : ∀ x, x ∈ l ↔ o = some x) : l.getLast? = o := by
  cases o with
  | none =>
    rw [List.eq_nil_iff_forall_not_mem.mpr fun x hx => nomatch (mem x).mp hx]
    rfl
  | some c =>
    have all : ∀ x ∈ l, x = c := fun x hx => (Option.some.inj ((mem x).mp hx)).symm
    rw [List.eq_replicate_iff.mpr ⟨rfl, all⟩, List.getLast?_replicate,
      if_neg (List.length_pos_of_mem ((mem c).mpr rfl)).ne']

namespace LeafMap

theorem get_foldl_values (r m : LeafMap) (j : Index) :
    (r.values.foldl put m).get j = (r.get j).or (m.get j) := by
  rw [get_foldl put (fun l => if toArray l.index = j then some l else none) j
    (fun _ l => by rw [get_put]; split <;> simp [*])]
  congr 1
  refine getLast?_eq_of_mem_iff fun l => ?_
  rw [← mem_values]
  simp

end LeafMap

theorem get_leafMapOf_map {ks : List Bytes} (distinct : (ks.map toArray).Nodup) {k : Bytes}
    (mem : k ∈ ks) (f : Bytes → MapLeaf) (slot : ∀ k, toArray (f k).index = toArray k) :
    (leafMapOf (ks.map f)).get (toArray k) = some (f k) := by
  rw [get_leafMapOf, priorLeaf]
  refine getLast?_eq_of_mem_iff fun l => ?_
  simp only [List.mem_filter, List.mem_map, decide_eq_true_eq, Option.some.injEq]
  constructor
  · rintro ⟨⟨k', hk', rfl⟩, same⟩
    rw [slot] at same
    rw [List.inj_on_of_nodup_map distinct hk' mem same]
  · rintro rfl
    exact ⟨⟨k, mem, rfl⟩, slot k⟩

section Fold
variable (lib : Library) (mutator : Mutator)

/-- The leaf the map reports for `index`: the stored one, else an empty leaf. -/
def reported (leaves : LeafMap) (index : Bytes) : MapLeaf :=
  (leaves.get (toArray index)).getD ⟨index, []⟩

/-- The spec's fold of mutations into the map's contents: each mutation is applied to the leaf
reported for its index at that point, and a success overwrites that leaf. -/
def foldContents (leaves : LeafMap) (ms : List SignedKV) : LeafMap :=
  ms.foldl (fun cur m => specStep lib mutator (some (reported cur m.keyValue.key)) cur m)
    leaves

theorem foldContents_append (leaves : LeafMap) (ms ms' : List SignedKV) :
    foldContents lib mutator leaves (ms ++ ms') =
      foldContents lib mutator (foldContents lib mutator leaves ms) ms' :=
  List.foldl_append _ _ _ _

theorem get_foldContents_congr {a b : LeafMap} (same : ∀ j, a.get j = b.get j)
    (ms : List SignedKV) (j : Index) :
    (foldContents lib mutator a ms).get j = (foldContents lib mutator b ms).get j := by
  induction ms generalizing a b with
  | nil => exact same j
  | cons m ms ih =>
    refine ih fun i => ?_
    simp only [get_specStep, reported, same]

theorem foldContents_eq_fetched (leaves cur : LeafMap) (ms : List SignedKV)
    (distinct : (ms.map (toArray ·.keyValue.key)).Nodup)
    (untouched : ∀ m ∈ ms, cur.get (toArray m.keyValue.key) = leaves.get (toArray m.keyValue.key)) :
    foldContents lib mutator cur ms = ms.foldl (fun r m =>
      specStep lib mutator (some (reported leaves m.keyValue.key)) r m) cur := by
  induction ms generalizing cur with
  | nil => rfl
  | cons m ms ih =>
    rw [List.map_cons, List.nodup_cons] at distinct
    have prior : reported cur m.keyValue.key = reported leaves m.keyValue.key := by
      rw [reported, reported, untouched m (List.mem_cons_self _ _)]
    show foldContents lib mutator
      (specStep lib mutator (some (reported cur m.keyValue.key)) cur m) ms = _
    rw [prior]
    refine ih _ distinct.2 fun m' hm' => ?_
    have other : toArray m.keyValue.key ≠ toArray m'.keyValue.key :=
      fun h => distinct.1 (h ▸ List.mem_map_of_mem _ hm')
    rw [get_specStep, if_neg other, Option.none_or]
    exact untouched m' (List.mem_cons_of_mem _ hm')

theorem get_setLeaves_of_distinct (m : MapServer) {ms : List SignedKV} {newLeaves : List MapLeaf}
    (distinct : (ms.map (toArray ·.keyValue.key)).Nodup)
    (applied : applyMutations lib mutator ms
      ((m.getLeaves (ms.map (·.keyValue.key))).map (·.leaf)) = .ok newLeaves) (j : Index) :
    (newLeaves.foldl LeafMap.put m.leaves).get j = (foldContents lib mutator m.leaves ms).get j := by
  have keys : (ms.map (·.keyValue.key)).Nodup :=
    List.Nodup.of_map toArray (by rwa [List.map_map])
  have leaves : (m.getLeaves (ms.map (·.keyValue.key))).map (·.leaf) =
      (ms.map (·.keyValue.key)).map m.leafAt := by
    rw [MapServer.getLeaves, firstOccurrences_of_nodup keys, List.map_map]
    rfl
  have fetched : ∀ x ∈ ms, (leafMapOf ((ms.map (·.keyValue.key)).map m.leafAt)).get
      (toArray x.keyValue.key) = some (reported m.leaves x.keyValue.key) := fun x hx =>
    get_leafMapOf_map (by rwa [List.map_map]) (List.mem_map_of_mem _ hx) _ m.toArray_leafAt
  rw [leaves, applyMutations, applyMutation_eq_specStep, Except.ok.injEq] at applied
  subst applied
  rw [LeafMap.get_foldl_values, foldContents_eq_fetched lib mutator m.leaves _ ms distinct
    (fun _ _ => rfl), get_foldl_specStep, get_foldl_specStep, LeafMap.get_empty,
    Option.or_none, List.filterMap_congr fun x hx => by rw [fetched x hx]]

end Fold

section Runs
variable (lib : Library) (s : Sequencer)

/-- The pages a run commits to the map, in order. -/
def absorbed : World → List Op → List (List SignedKV)
  | _, [] => []
  | w, op :: ops => (op.committed lib s w).toList ++ absorbed (op.step lib s w) ops

theorem Op.step_contents (op : Op) (w : World)
    (distinct : ∀ b ∈ (op.committed lib s w).toList, (b.map (toArray ·.keyValue.key)).Nodup)
    (j : Index) :
    (op.step lib s w).map.leaves.get j =
      (foldContents lib s.mutator w.map.leaves (op.committed lib s w).toList.flatten).get j := by
  rcases Op.step_map lib s op w with ⟨uncommitted, same⟩ |
    ⟨env, force, p, rfl, prepared, committed, written⟩
  · rw [same, uncommitted]
    rfl
  · obtain ⟨mRange, fetched, -, -, applied⟩ := prepareEpoch_some lib s env prepared
    obtain ⟨_, page, -⟩ := newMutations_ok env fetched
    rw [committed, page] at distinct ⊢
    rw [written]
    simpa using get_setLeaves_of_distinct lib s.mutator w.map
      (distinct _ (List.mem_singleton_self _)) applied j

/-- Over a run whose committed pages repeat no index, the map holds the spec's fold of all the
absorbed mutations, in order, over what it held before the run. -/
theorem runOps_contents (w : World) (ops : List Op)
    (distinct : ∀ b ∈ absorbed lib s w ops, (b.map (toArray ·.keyValue.key)).Nodup) (j : Index) :
    (runOps lib s w ops).map.leaves.get j =
      (foldContents lib s.mutator w.map.leaves (absorbed lib s w ops).flatten).get j := by
  induction ops generalizing w j with
  | nil => rfl
  | cons op ops ih =>
    have now := fun b hb => distinct b (List.mem_append_left _ hb)
    have later := fun b hb => distinct b (List.mem_append_right _ hb)
    show (runOps lib s (op.step lib s w) ops).map.leaves.get j = _
    rw [ih _ later, absorbed, List.flatten_append, foldContents_append]
    exact get_foldContents_congr lib s.mutator (Op.step_contents lib s op w now) _ j

end Runs

/-- `applyMutations` is the spec's per-epoch fold on every batch that repeats no index; and over
every run whose committed pages repeat no index, the map holds the spec's chained fold of all
the absorbed mutations, in order, over what it held before, whatever the epochs. -/
theorem contents_fold_absorbed :
    (∀ (lib : Library) (mutator : Mutator) (ms : List SignedKV) (leaves : List MapLeaf),
      (ms.map (toArray ·.keyValue.key)).Nodup →
        applyMutations lib mutator ms leaves = .ok (specFold lib mutator ms leaves)) ∧
    ∀ (lib : Library) (s : Sequencer) (w : World) (ops : List Op),
      (∀ b ∈ absorbed lib s w ops, (b.map (toArray ·.keyValue.key)).Nodup) →
        ∀ j, (runOps lib s w ops).map.leaves.get j =
          (foldContents lib s.mutator w.map.leaves (absorbed lib s w ops).flatten).get j :=
  ⟨applyMutations_eq_specFold, runOps_contents⟩

def twoUpdatesWorld : World :=
  { World.fresh 0 with stored := [⟨1, ⟨⟨[1], [7]⟩, []⟩⟩, ⟨2, ⟨⟨[1], [8]⟩, []⟩⟩] }

theorem contents_fold_two_epochs :
    (runOps chainLibrary testSequencer twoUpdatesWorld
        [.epoch ⟨[], 0, 0, 1⟩ false, .epoch ⟨[], 0, 0, 2⟩ false]).map.leaves.get (toArray [1]) =
      (foldContents chainLibrary chainMutator twoUpdatesWorld.map.leaves
        (absorbed chainLibrary testSequencer twoUpdatesWorld
          [.epoch ⟨[], 0, 0, 1⟩ false, .epoch ⟨[], 0, 0, 2⟩ false]).flatten).get (toArray [1]) :=
  contents_fold_absorbed.2 chainLibrary testSequencer twoUpdatesWorld _ (by decide) _

/-- The two updates in one batch: the code applies both to the absent prior and keeps `[0]`,
the spec's fold keeps `[0, 1]`; so the map ends with `[1]` when one epoch absorbs both, and
with `[1, 1]` when two epochs do. -/
theorem applyMutations_unchained :
    applyMutations chainLibrary chainMutator [⟨⟨[1], [7]⟩, []⟩, ⟨⟨[1], [8]⟩, []⟩] [] =
        .ok [⟨[1], [0]⟩] ∧
      specFold chainLibrary chainMutator [⟨⟨[1], [7]⟩, []⟩, ⟨⟨[1], [8]⟩, []⟩] [] =
        [⟨[1], [0, 1]⟩] ∧
      (runOps chainLibrary testSequencer twoUpdatesWorld
        [.epoch ⟨[], 1, 0, 1⟩ false]).map.leaves.get (toArray [1]) = some ⟨[1], [1]⟩ ∧
      (runOps chainLibrary testSequencer twoUpdatesWorld
        [.epoch ⟨[], 0, 0, 1⟩ false, .epoch ⟨[], 0, 0, 2⟩ false]).map.leaves.get (toArray [1]) =
        some ⟨[1], [1, 1]⟩ :=
  ⟨rfl, rfl, rfl, rfl⟩

/-! ### The code's fold, on every run -/

theorem MapServer.leafValue_leafAt (m : MapServer) {k k' : Bytes} (slot : toArray k' = toArray k) :
    (m.leafAt k').leafValue = (m.leafAt k).leafValue := by
  unfold MapServer.leafAt
  rw [slot]
  cases m.leaves.get (toArray k) <;> rfl

theorem priorLeaf_getLeaves (m : MapServer) {keys : List Bytes} {k : Bytes} (mem : k ∈ keys) :
    ∃ l, priorLeaf ((m.getLeaves keys).map (·.leaf)) (toArray k) = some l ∧
      l.leafValue = (m.leafAt k).leafValue := by
  have fetched : (m.getLeaves keys).map (·.leaf) = (firstOccurrences keys).map m.leafAt := by
    rw [MapServer.getLeaves, List.map_map]
    rfl
  rw [fetched]
  have own : m.leafAt k ∈ ((firstOccurrences keys).map m.leafAt).filter
      (fun l => toArray l.index = toArray k) :=
    List.mem_filter.mpr ⟨List.mem_map_of_mem _ (mem_firstOccurrences.mpr mem),
      by simp [MapServer.toArray_leafAt]⟩
  have nonempty := List.ne_nil_of_mem own
  refine ⟨_, List.getLast?_eq_getLast _ nonempty, ?_⟩
  obtain ⟨answered, slot⟩ := List.mem_filter.mp (List.getLast_mem nonempty)
  obtain ⟨k', -, same⟩ := List.mem_map.mp answered
  rw [← same] at slot ⊢
  exact m.leafValue_leafAt (by simpa [MapServer.toArray_leafAt] using slot)

section Epochs
variable (lib : Library) (mutator : Mutator)

/-- One epoch as the code applies it: every mutation of the page meets the leaf reported for
its index when the epoch began, and a success overwrites that slot. -/
def epochContents (leaves : LeafMap) (ms : List SignedKV) : LeafMap :=
  ms.foldl (fun r m => specStep lib mutator (some (reported leaves m.keyValue.key)) r m) leaves

theorem specValue_congr {l l' : MapLeaf} (value : l.leafValue = l'.leafValue) (m : SignedKV) :
    specValue lib mutator (some l) m = specValue lib mutator (some l') m := by
  simp only [specValue, Option.elim_some, value]

theorem get_setLeaves (m : MapServer) {ms : List SignedKV} {newLeaves : List MapLeaf}
    (applied : applyMutations lib mutator ms
      ((m.getLeaves (ms.map (·.keyValue.key))).map (·.leaf)) = .ok newLeaves) (j : Index) :
    (newLeaves.foldl LeafMap.put m.leaves).get j = (epochContents lib mutator m.leaves ms).get j := by
  rw [applyMutations, applyMutation_eq_specStep, Except.ok.injEq] at applied
  subst applied
  rw [LeafMap.get_foldl_values, epochContents, get_foldl_specStep, get_foldl_specStep,
    LeafMap.get_empty, Option.or_none]
  congr 2
  refine List.filterMap_congr fun x hx => ?_
  obtain ⟨l, prior, value⟩ := priorLeaf_getLeaves m (List.mem_map_of_mem (·.keyValue.key) hx)
  rw [get_leafMapOf, prior, specValue_congr lib mutator value]
  rfl

theorem get_epochContents_congr {a b : LeafMap} (same : ∀ j, a.get j = b.get j)
    (ms : List SignedKV) (j : Index) :
    (epochContents lib mutator a ms).get j = (epochContents lib mutator b ms).get j := by
  have prior : ∀ k, reported a k = reported b k := fun k => by rw [reported, reported, same]
  simp only [epochContents, get_foldl_specStep, prior, same]

theorem get_foldl_epochContents_congr {a b : LeafMap} (same : ∀ j, a.get j = b.get j)
    (pages : List (List SignedKV)) (j : Index) :
    (pages.foldl (epochContents lib mutator) a).get j =
      (pages.foldl (epochContents lib mutator) b).get j := by
  induction pages generalizing a b with
  | nil => exact same j
  | cons ms pages ih => exact ih (get_epochContents_congr lib mutator same ms)

end Epochs

section EpochRuns
variable (lib : Library) (s : Sequencer)

theorem Op.step_epochContents (op : Op) (w : World) (j : Index) :
    (op.step lib s w).map.leaves.get j =
      ((op.committed lib s w).toList.foldl (epochContents lib s.mutator) w.map.leaves).get j := by
  rcases Op.step_map lib s op w with ⟨uncommitted, same⟩ |
    ⟨env, force, p, rfl, prepared, committed, written⟩
  · rw [same, uncommitted]
    rfl
  · obtain ⟨mRange, fetched, -, -, applied⟩ := prepareEpoch_some lib s env prepared
    obtain ⟨_, page, -⟩ := newMutations_ok env fetched
    rw [committed, page, written]
    exact get_setLeaves lib s.mutator w.map applied j

/-- Over every run, whatever the pages repeat, the map holds the code's fold of the absorbed
pages: page by page in the order CreateEpoch absorbed them, each mutation applied to the leaf
its index had when its epoch began, the last one that succeeds in a slot kept. -/
theorem map_contents_by_epoch (w : World) (ops : List Op) (j : Index) :
    (runOps lib s w ops).map.leaves.get j =
      ((absorbed lib s w ops).foldl (epochContents lib s.mutator) w.map.leaves).get j := by
  induction ops generalizing w j with
  | nil => rfl
  | cons op ops ih =>
    show (runOps lib s (op.step lib s w) ops).map.leaves.get j = _
    rw [ih, absorbed, List.foldl_append]
    exact get_foldl_epochContents_congr lib s.mutator (Op.step_epochContents lib s op w) _ j

end EpochRuns

end KeyTransparency
