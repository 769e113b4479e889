import KeyTransparency.Proto

/-! `applyMutations` and the per-epoch fold of the spec. The code looks every prior up in
`leafMap`, which its loop never updates, so each mutation of a batch is applied to the leaf
fetched for its index; the spec's fold feeds each result to the next mutation of that index.
Go maps are association lists here. Their iteration order is unspecified, so results about
the returned list are stated for every reordering of it. -/
namespace KeyTransparency

/-- The functions of other packages the sequencer calls, left abstract. -/
structure Library where
  /-- `entry.FromLeafValue` -/
  fromLeafValue : Bytes → Except String (Option Entry)
  /-- `json.Marshal` of a map root -/
  marshal : SignedMapRoot → Except String Bytes
  /-- `sha256.Sum256` -/
  sum256 : Bytes → Bytes

/-- `mutator.Mutator`: checks an update against the entry it replaces. -/
structure Mutator where
  mutate : Option Entry → SignedKV → Except String Bytes

/-- A Go `map[[32]byte]*trillian.MapLeaf` whose leaves are stored under `toArray` of their
own index, as both maps of `applyMutations` (and the map server's leaves) are. -/
structure LeafMap where
  entries : AList (fun _ : Index => MapLeaf)
  keyed : ∀ s ∈ entries.entries, toArray s.2.index = s.1

namespace LeafMap

def empty : LeafMap := ⟨∅, by simp [AList.empty_entries]⟩

/-- `m[toArray(l.Index)] = l`. -/
def put (m : LeafMap) (l : MapLeaf) : LeafMap where
  entries := m.entries.insert (toArray l.index) l
  keyed := by
    intro s hs
    rw [AList.insert_entries, List.mem_cons] at hs
    rcases hs with rfl | hs
    · rfl
    · exact m.keyed s ((List.kerase_sublist _ _).subset hs)

def get (m : LeafMap) (j : Index) : Option MapLeaf := m.entries.lookup j

/-- `for _, v := range m`, in the association list's order. -/
def values (m : LeafMap) : List MapLeaf := m.entries.entries.map Sigma.snd

@[simp] theorem get_empty (j : Index) : empty.get j = none := rfl

theorem get_put (m : LeafMap) (l : MapLeaf) (j : Index) :
    (m.put l).get j = if toArray l.index = j then some l else m.get j := by
  unfold get put
  split
  · subst j; exact AList.lookup_insert _
  · exact AList.lookup_insert_ne (Ne.symm ‹_›)

theorem values_index_nodup (m : LeafMap) : (m.values.map (toArray ·.index)).Nodup := by
  have keys : m.values.map (toArray ·.index) = m.entries.keys := by
    simp only [values, List.map_map, AList.keys, List.keys]
    exact List.map_congr_left fun s hs => m.keyed s hs
  exact keys ▸ m.entries.keys_nodup

theorem mem_values (m : LeafMap) (l : MapLeaf) (j : Index) :
    (l ∈ m.values ∧ toArray l.index = j) ↔ m.get j = some l := by
  unfold get values
  rw [← Option.mem_def, AList.mem_lookup_iff, List.mem_map]
  constructor
  · rintro ⟨⟨s, hs, rfl⟩, rfl⟩
    rwa [m.keyed s hs]
  · intro hs
    exact ⟨⟨_, hs, rfl⟩, m.keyed _ hs⟩

theorem get_foldl {α : Type} (g : LeafMap → α → LeafMap) (sel : α → Option MapLeaf) (j : Index)
    (step : ∀ r a, (g r a).get j = (sel a).or (r.get j)) (as : List α) (r : LeafMap) :
    (as.foldl g r).get j = (as.filterMap sel).getLast?.or (r.get j) := by
  induction as using List.reverseRecOn with
  | nil => rfl
  | append_singleton as a ih =>
    rw [List.foldl_append, List.foldl_cons, List.foldl_nil, step, ih, List.filterMap_append,
      List.getLast?_append]
    cases h : sel a <;> simp only [List.filterMap_cons, List.filterMap_nil, h,
      List.getLast?_nil, List.getLast?_singleton, Option.none_or]
    rfl

end LeafMap

section Apply
variable (lib : Library) (mutator : Mutator)

/-- The leaves keyed by `toArray` of their index; a later leaf of an index replaces an
earlier one. -/
def leafMapOf (leaves : List MapLeaf) : LeafMap :=
  leaves.foldl LeafMap.put LeafMap.empty

/-- Decode the prior leaf, when there is one, and apply the mutator to it. -/
def mutatedValue (leaf? : Option MapLeaf) (m : SignedKV) : Except String Bytes :=
  match leaf? with
  | none => mutator.mutate none m
  | some leaf =>
    match lib.fromLeafValue leaf.leafValue with
    | .error e => .error e
    | .ok oldValue => mutator.mutate oldValue m

/-- One turn of the loop over the mutations: a mutation that fails, or whose prior does not
decode, is logged and skipped. -/
def applyMutation (leaf? : Option MapLeaf) (retMap : LeafMap) (m : SignedKV) : LeafMap :=
  match mutatedValue lib mutator leaf? m with
  | .error _ => retMap
  | .ok newValue => retMap.put ⟨m.keyValue.key, newValue⟩

/-- `Sequencer.applyMutations`. It never returns an error. -/
def applyMutations (mutations : List SignedKV) (leaves : List MapLeaf) :
    Except String (List MapLeaf) :=
  let leafMap := leafMapOf leaves
  let retMap := mutations.foldl (fun retMap m =>
    applyMutation lib mutator (leafMap.get (toArray m.keyValue.key)) retMap m) LeafMap.empty
  .ok retMap.values

/-- The spec's value for one mutation (section 4.3, step 6): deserialize the prior leaf into an
optional entry, none when there is no prior, and apply the mutator to that entry and the
mutation. -/
def specValue (prior : Option MapLeaf) (m : SignedKV) : Except String Bytes := do
  let entry ← prior.elim (pure none) (lib.fromLeafValue ·.leafValue)
  mutator.mutate entry m

/-- The spec's step: on success overwrite `cur[index]` with the new leaf; on an error, skip the
mutation. -/
def specStep (prior : Option MapLeaf) (cur : LeafMap) (m : SignedKV) : LeafMap :=
  match specValue lib mutator prior m with
  | .ok value => cur.put ⟨m.keyValue.key, value⟩
  | .error _ => cur

/-- The per-epoch fold in the spec's words (section 4.3, step 6): `cur[index]` is the leaf
last written in this epoch, else the fetched one, so a later mutation of an index is applied
to the result of the earlier one. Returns one leaf per changed index. -/
def specFold (mutations : List SignedKV) (leaves : List MapLeaf) : List MapLeaf :=
  let leafMap := leafMapOf leaves
  let cur := mutations.foldl (fun cur m =>
    let index := toArray m.keyValue.key
    specStep lib mutator ((cur.get index).or (leafMap.get index)) cur m) LeafMap.empty
  cur.values

/-- `prior(j)`: the last fetched leaf whose index is `j`. -/
def priorLeaf (leaves : List MapLeaf) (j : Index) : Option MapLeaf :=
  (leaves.filter fun l => toArray l.index = j).getLast?

/-- The mutations of slot `j` that succeed against `prior`, with the value each produces. -/
def validUpdates (prior : Option MapLeaf) (j : Index) (ms : List SignedKV) :
    List (SignedKV × Bytes) :=
  ms.filterMap fun m =>
    if toArray m.keyValue.key = j then (specValue lib mutator prior m).toOption.map (m, ·)
    else none

/-- The code decodes the prior and applies the mutator as the spec says. -/
theorem mutatedValue_eq_specValue : mutatedValue lib mutator = specValue lib mutator := by
  funext prior m
  cases prior with
  | none => rfl
  | some leaf =>
    simp only [mutatedValue, specValue, Option.elim_some]
    cases lib.fromLeafValue leaf.leafValue <;> rfl

theorem applyMutation_eq_specStep : applyMutation lib mutator = specStep lib mutator := by
  funext prior cur m
  rw [applyMutation, specStep, mutatedValue_eq_specValue]
  cases specValue lib mutator prior m <;> rfl

theorem get_specStep (prior : Option MapLeaf) (r : LeafMap) (m : SignedKV) (j : Index) :
    (specStep lib mutator prior r m).get j =
      (if toArray m.keyValue.key = j then
        (specValue lib mutator prior m).toOption.map (⟨m.keyValue.key, ·⟩) else none).or
        (r.get j) := by
  unfold specStep
  split <;> rename_i h <;> simp only [LeafMap.get_put, h] <;> split <;> rfl

theorem get_foldl_specStep (prior : SignedKV → Option MapLeaf) (ms : List SignedKV)
    (r : LeafMap) (j : Index) :
    (ms.foldl (fun r m => specStep lib mutator (prior m) r m) r).get j =
      (ms.filterMap fun m => if toArray m.keyValue.key = j then
        (specValue lib mutator (prior m) m).toOption.map (⟨m.keyValue.key, ·⟩) else none).getLast?.or
        (r.get j) :=
  LeafMap.get_foldl _ _ j (fun r m => get_specStep lib mutator (prior m) r m j) ms r

theorem get_leafMapOf (leaves : List MapLeaf) (j : Index) :
    (leafMapOf leaves).get j = priorLeaf leaves j := by
  have step : ∀ r l, (LeafMap.put r l).get j =
      (Option.guard (fun l => decide (toArray l.index = j) = true) l).or (r.get j) := by
    intro r l
    rw [LeafMap.get_put]
    split <;> simp [Option.guard, *]
  rw [leafMapOf, LeafMap.get_foldl LeafMap.put _ j step, List.filterMap_eq_filter,
    LeafMap.get_empty, Option.or_none]
  rfl

theorem get_retMap (ms : List SignedKV) (leaves : List MapLeaf) (j : Index) :
    (ms.foldl (fun retMap m => applyMutation lib mutator
        ((leafMapOf leaves).get (toArray m.keyValue.key)) retMap m) LeafMap.empty).get j =
      ((validUpdates lib mutator (priorLeaf leaves j) j ms).getLast?.map
        fun u => ⟨u.1.keyValue.key, u.2⟩) := by
  rw [applyMutation_eq_specStep, LeafMap.get_foldl _ (fun m => if toArray m.keyValue.key = j then
      (specValue lib mutator (priorLeaf leaves j) m).toOption.map (⟨m.keyValue.key, ·⟩) else none)
    j (fun r m => by rw [get_specStep]; split <;> simp_all [get_leafMapOf])]
  simp only [LeafMap.get_empty, Option.or_none, validUpdates, ← List.getLast?_map,
    List.map_filterMap]
  congr 2
  funext m
  split <;> simp [Option.map_map, Function.comp_def]

/-- `applyMutations` never fails; for every enumeration order of its result, the leaves have
distinct slots, and slot `j` holds a leaf exactly when some mutation of `j` succeeds against
the last fetched leaf of `j`: the leaf of the last such mutation, with the value it produced. -/
theorem applyMutations_spec (ms : List SignedKV) (leaves : List MapLeaf) :
    ∃ ret, applyMutations lib mutator ms leaves = .ok ret ∧
      ∀ out : List MapLeaf, out.Perm ret →
        (out.map (toArray ·.index)).Nodup ∧
        ∀ j leaf, (leaf ∈ out ∧ toArray leaf.index = j) ↔
          ∃ m v, (validUpdates lib mutator (priorLeaf leaves j) j ms).getLast? = some (m, v) ∧
            leaf = ⟨m.keyValue.key, v⟩ := by
  refine ⟨_, rfl, fun out perm => ⟨?_, fun j leaf => ?_⟩⟩
  · exact (perm.map _).nodup_iff.mpr (LeafMap.values_index_nodup _)
  · rw [perm.mem_iff, LeafMap.mem_values, get_retMap]
    constructor
    · intro h
      obtain ⟨⟨m, v⟩, hu, rfl⟩ := Option.map_eq_some'.mp h
      exact ⟨m, v, hu, rfl⟩
    · rintro ⟨m, v, hu, rfl⟩
      rw [hu]
      rfl

theorem foldl_chained_eq (leafMap : LeafMap) (ms : List SignedKV) (cur : LeafMap)
    (distinct : (ms.map (toArray ·.keyValue.key)).Nodup)
    (fresh : ∀ m ∈ ms, cur.get (toArray m.keyValue.key) = none) :
    ms.foldl (fun cur m => specStep lib mutator
        ((cur.get (toArray m.keyValue.key)).or (leafMap.get (toArray m.keyValue.key))) cur m) cur =
      ms.foldl (fun retMap m => specStep lib mutator
        (leafMap.get (toArray m.keyValue.key)) retMap m) cur := by
  induction ms generalizing cur with
  | nil => rfl
  | cons m ms ih =>
    rw [List.map_cons, List.nodup_cons] at distinct
    have next : ∀ m' ∈ ms, (specStep lib mutator (leafMap.get (toArray m.keyValue.key)) cur m).get
        (toArray m'.keyValue.key) = none := by
      intro m' hm'
      have other : toArray m.keyValue.key ≠ toArray m'.keyValue.key :=
        fun h => distinct.1 (h ▸ List.mem_map_of_mem _ hm')
      rw [get_specStep, if_neg other, Option.none_or]
      exact fresh m' (List.mem_cons_of_mem _ hm')
    simp only [List.foldl_cons, fresh m (List.mem_cons_self _ _), Option.none_or]
    exact ih _ distinct.2 next

/-- With no index repeated in the batch, `applyMutations` returns the spec's fold. -/
theorem applyMutations_eq_specFold (ms : List SignedKV) (leaves : List MapLeaf)
    (distinct : (ms.map (toArray ·.keyValue.key)).Nodup) :
    applyMutations lib mutator ms leaves = .ok (specFold lib mutator ms leaves) := by
  simp only [applyMutations, specFold, applyMutation_eq_specStep,
    foldl_chained_eq lib mutator _ ms LeafMap.empty distinct (fun _ _ => rfl)]

end Apply

def revisionBytes (n : Int) : Bytes := (if n < 0 then 1 else 0) :: List.replicate n.natAbs 0

theorem revisionBytes_inj {a b : Int} (same : revisionBytes a = revisionBytes b) : a = b := by
  simp only [revisionBytes, List.cons.injEq, List.replicate_inj, or_false] at same
  have sign := same.1
  have size := same.2.1
  split at sign <;> split at sign <;> first | omega | cases sign

/-- A decoder that reads a leaf value as the commitment of an entry, and a serialization of a
root by its revision. -/
def chainLibrary : Library :=
  ⟨fun v => .ok (some ⟨v, [], []⟩), fun r => .ok (revisionBytes r.mapRevision), id⟩

/-- A mutator whose new value extends its prior, as the hash-chained `previous` field does. -/
def chainMutator : Mutator :=
  ⟨fun prior _ => .ok (match prior with | none => [0] | some e => e.commitment ++ [1])⟩

end KeyTransparency
