import KeyTransparency.Epoch

/-! The log as the anchor of the map: one leaf per map revision, the leaf of revision `r`
holding the JSON of its root. CreateEpoch keeps that alignment whenever it queues the root of
the revision it wrote; Initialize sets it up only from two empty trees and never re-queues a
root that a failed CreateEpoch left out of the log. -/
namespace KeyTransparency

/-- Identity hashes tell the revisions of `roots` apart: two of them whose JSON has the same
SHA-256 have the same revision. The JSON holds the revision, and SHA-256 is taken as collision
free on the roots a run signs. -/
def HashesSeparateRevisions (lib : Library) (roots : List SignedMapRoot) : Prop :=
  ∀ r ∈ roots, ∀ r' ∈ roots, ∀ v v', lib.marshal r = .ok v → lib.marshal r' = .ok v' →
    lib.sum256 v = lib.sum256 v' → r.mapRevision = r'.mapRevision

theorem HashesSeparateRevisions.mono {lib : Library} {roots roots' : List SignedMapRoot}
    (separate : HashesSeparateRevisions lib roots') (sub : roots ⊆ roots') :
    HashesSeparateRevisions lib roots :=
  fun r hr r' hr' => separate r (sub hr) r' (sub hr')

/-- Map revisions are dense: the root at position `i` of the map's roots has revision `i`. -/
def Dense (m : MapServer) : Prop := ∀ i (h : i < m.roots.length), m.roots[i].mapRevision = i

/-- The log holds one leaf per map revision, in order: the JSON of the revision's root under
that JSON's SHA-256. -/
def Aligned (lib : Library) (w : World) : Prop :=
  List.Forall₂ (fun leaf root => lib.marshal root = .ok leaf.leafValue ∧
    leaf.leafIdentityHash = lib.sum256 leaf.leafValue) w.log.leaves w.map.roots

theorem MapServer.roots_eq (m : MapServer) : m.roots = m.earlier.reverse ++ [m.root] := by
  simp [MapServer.roots]

theorem Dense.root_revision {m : MapServer} (dense : Dense m) :
    m.root.mapRevision = m.earlier.length := by
  simpa [MapServer.roots_eq] using dense m.earlier.length (by simp [MapServer.roots_eq])

theorem Dense.revision_lt {m : MapServer} (dense : Dense m) {r : SignedMapRoot}
    (mem : r ∈ m.roots) : r.mapRevision < m.roots.length := by
  obtain ⟨i, h, rfl⟩ := List.mem_iff_getElem.mp mem
  rw [dense i h]
  exact_mod_cast h

theorem Dense.setLeaves {m : MapServer} (dense : Dense m) (ls : List MapLeaf)
    (md : MapperMetadata) (t : Int) : Dense (m.setLeaves ls md t) := by
  intro i h
  simp only [MapServer.setLeaves_roots, List.length_append, List.length_singleton] at h ⊢
  rcases Nat.lt_or_ge i m.roots.length with old | new
  · rw [List.getElem_append_left old]
    exact dense i old
  · have last : i = m.roots.length := by omega
    subst last
    rw [List.getElem_concat_length _ _ _ rfl]
    simp [dense.root_revision, MapServer.roots_eq]

theorem dense_fresh (t : Int) : Dense (World.fresh t).map := by
  intro i h
  simp only [World.fresh, MapServer.roots, List.reverse_singleton, List.length_singleton] at h ⊢
  have zero : i = 0 := by omega
  subst zero
  rfl

private theorem forall₂_mem_left {α β : Type} {R : α → β → Prop} {as : List α} {bs : List β}
    (rel : List.Forall₂ R as bs) {a : α} (mem : a ∈ as) : ∃ b ∈ bs, R a b := by
  induction rel with
  | nil => cases mem
  | cons head _ ih =>
    rcases List.mem_cons.mp mem with rfl | mem
    · exact ⟨_, List.mem_cons_self _ _, head⟩
    · obtain ⟨b, hb, h⟩ := ih mem
      exact ⟨b, List.mem_cons_of_mem _ hb, h⟩

private theorem forall₂_getElem? {α β : Type} {R : α → β → Prop} {as : List α} {bs : List β}
    (rel : List.Forall₂ R as bs) {i : Nat} {b : β} (at_i : bs[i]? = some b) :
    ∃ a, as[i]? = some a ∧ R a b := by
  induction rel generalizing i with
  | nil => cases at_i
  | cons head _ ih =>
    cases i with
    | zero =>
      simp only [List.getElem?_cons_zero, Option.some.injEq] at at_i
      subst at_i
      exact ⟨_, List.getElem?_cons_zero, head⟩
    | succ i =>
      simp only [List.getElem?_cons_succ] at at_i ⊢
      exact ih at_i

theorem Aligned.leaf_at {lib : Library} {w : World} (aligned : Aligned lib w) {i : Nat}
    {r : SignedMapRoot} (root : w.map.roots[i]? = some r) :
    ∃ leaf, w.log.leaves[i]? = some leaf ∧ lib.marshal r = .ok leaf.leafValue := by
  obtain ⟨leaf, at_i, json, -⟩ := forall₂_getElem? aligned root
  exact ⟨leaf, at_i, json⟩

theorem Aligned.root_of_mem {lib : Library} {w : World} (aligned : Aligned lib w) {l : LogLeaf}
    (mem : l ∈ w.log.leaves) :
    ∃ r ∈ w.map.roots, lib.marshal r = .ok l.leafValue ∧ l.leafIdentityHash = lib.sum256 l.leafValue :=
  forall₂_mem_left aligned mem

section Anchor
variable (lib : Library) (s : Sequencer) (env : Env)

theorem Aligned.setLeaves_queue {w : World} {p : Prepared} {log : LogServer} {logId : Int}
    (separate : HashesSeparateRevisions lib (w.setLeaves env p).map.roots)
    (aligned : Aligned lib w) (dense : Dense w.map)
    (queued : queueLogLeaf lib env logId (w.setLeaves env p).map.root w.log = .ok log) :
    Aligned lib { w.setLeaves env p with log } := by
  obtain ⟨v, hv, rfl⟩ := queueLogLeaf_ok lib env queued
  have fresh : ∀ l ∈ w.log.leaves, l.leafIdentityHash ≠ lib.sum256 v := by
    intro l hl same
    obtain ⟨r, hr, hm, hh⟩ := aligned.root_of_mem hl
    have revision := separate r (by simp [hr]) _ (by simp) _ _ hm hv (hh ▸ same)
    have bound := dense.revision_lt hr
    simp only [World.setLeaves_map, MapServer.setLeaves_root, dense.root_revision,
      MapServer.roots_eq, List.length_append, List.length_reverse, List.length_singleton]
      at revision bound
    omega
  show List.Forall₂ _ (w.log.queueLeaf _).leaves (w.map.setLeaves _ _ _).roots
  rw [LogServer.queueLeaf_fresh _ _ fresh, MapServer.setLeaves_roots]
  exact List.rel_append aligned (List.Forall₂.cons ⟨hv, rfl⟩ .nil)

/-- The log is aligned with the map, or both are still as created. -/
def Synced (w : World) : Prop := Aligned lib w ∨ (w.log.leaves = [] ∧ w.map.earlier = [])

/-- A CreateEpoch at `w` that writes a map revision queues that revision's root, and writes
only once the log holds the root of revision 0. -/
def AnchorsRevision (force : Bool) (w : World) : Prop :=
  ∀ p, prepareEpoch lib s env force w = .ok (some p) → .setLeaves ∉ env.fails →
    w.log.leaves ≠ [] ∧ ∃ log, queueLogLeaf lib env s.logId (w.setLeaves env p).map.root w.log = .ok log

def AnchoredRun : World → List Op → Prop
  | _, [] => True
  | w, op :: ops => (∀ env force, op = .epoch env force → AnchorsRevision lib s env force w) ∧
      AnchoredRun (op.step lib s w) ops

theorem dense_step {w : World} (dense : Dense w.map) (op : Op) : Dense (op.step lib s w).map := by
  rcases Op.step_map lib s op w with ⟨-, same⟩ | ⟨_, _, p, -, -, -, written⟩
  · exact same ▸ dense
  · exact written ▸ dense.setLeaves _ _ _

theorem dense_runOps (t : Int) (ops : List Op) : Dense (runOps lib s (World.fresh t) ops).map := by
  suffices ∀ w, Dense w.map → Dense (runOps lib s w ops).map from this _ (dense_fresh t)
  induction ops with
  | nil => exact fun _ dense => dense
  | cons op ops ih => exact fun w dense => ih _ (dense_step lib s dense op)

theorem initializeLog_aligned {w w' : World} (dense : Dense w.map) (synced : Synced lib w)
    (run : initializeLog lib s env w = (.ok (), w')) : Aligned lib w' := by
  rcases initializeLog_cases lib s env run with ⟨rfl, untouched⟩ | ⟨empty, zero, queued, same, -⟩
  · rcases synced with aligned | ⟨noLeaves, noEarlier⟩
    · exact aligned
    · exfalso
      apply untouched rfl
      have revision := dense.root_revision
      rw [noEarlier] at revision
      exact ⟨by simp [LogServer.root, noLeaves], by simpa using revision⟩
  · rw [same]
    obtain ⟨v, hv, hlog⟩ := queueLogLeaf_ok lib env queued
    have noLeaves : w.log.leaves = [] := List.eq_nil_of_length_eq_zero (by
      simp only [LogServer.root] at empty; omega)
    have noEarlier : w.map.earlier = [] := by
      rcases synced with aligned | ⟨-, noEarlier⟩
      · have lengths := aligned.length_eq
        simp [noLeaves, MapServer.roots_eq] at lengths
      · exact noEarlier
    show List.Forall₂ _ w'.log.leaves w.map.roots
    rw [hlog, LogServer.queueLeaf_fresh _ _ (by simp [noLeaves]), MapServer.roots_eq, noLeaves,
      noEarlier]
    exact List.Forall₂.cons ⟨hv, rfl⟩ .nil

theorem roots_subset_step (op : Op) (w : World) : w.map.roots ⊆ (op.step lib s w).map.roots := by
  rcases Op.step_map lib s op w with ⟨-, same⟩ | ⟨_, _, p, -, -, -, written⟩
  · simp only [same, List.Subset.refl]
  · rw [written, MapServer.setLeaves_roots]
    exact List.subset_append_left _ _

theorem roots_subset_runOps (w : World) (ops : List Op) :
    w.map.roots ⊆ (runOps lib s w ops).map.roots := by
  induction ops generalizing w with
  | nil => exact List.Subset.refl _
  | cons op ops ih => exact (roots_subset_step lib s op w).trans (ih _)

theorem synced_step {w : World} (dense : Dense w.map) (synced : Synced lib w) (op : Op)
    (anchors : ∀ env force, op = .epoch env force → AnchorsRevision lib s env force w)
    (separate : HashesSeparateRevisions lib (op.step lib s w).map.roots) :
    Synced lib (op.step lib s w) := by
  cases op with
  | store m => exact synced
  | start env =>
    rcases hrun : initializeLog lib s env w with ⟨r, w'⟩
    show Synced lib (initializeLog lib s env w).2
    rw [hrun]
    cases r with
    | ok u => exact .inl (initializeLog_aligned lib s env dense synced hrun)
    | error e =>
      rcases initializeLog_cases lib s env hrun with ⟨rfl, -⟩ | ⟨-, -, -, -, nope⟩
      · exact synced
      · cases nope
  | epoch env force =>
    change HashesSeparateRevisions lib (createEpoch lib s env force w).2.map.roots at separate
    show Synced lib (createEpoch lib s env force w).2
    rcases createEpoch_cases lib s env Prod.mk.eta.symm with ⟨same, -⟩ | ⟨p, prepared, set, written⟩
    · rw [same]; exact synced
    · obtain ⟨logged, log, queued⟩ := anchors env force rfl p prepared set
      have aligned : Aligned lib w := synced.resolve_right (fun empty => logged empty.1)
      rcases written with ⟨e, failed, -, -⟩ | ⟨log', queued', same, -⟩
      · rw [queued] at failed; cases failed
      · rw [same] at separate ⊢
        exact .inl (aligned.setLeaves_queue lib env separate dense queued')

theorem synced_runOps (t : Int) (ops : List Op) (anchored : AnchoredRun lib s (World.fresh t) ops)
    (separate : HashesSeparateRevisions lib (runOps lib s (World.fresh t) ops).map.roots) :
    Synced lib (runOps lib s (World.fresh t) ops) := by
  suffices ∀ w, Dense w.map → Synced lib w → AnchoredRun lib s w ops →
      HashesSeparateRevisions lib (runOps lib s w ops).map.roots →
      Synced lib (runOps lib s w ops) from
    this _ (dense_fresh t) (.inr ⟨rfl, rfl⟩) anchored separate
  clear anchored separate
  induction ops with
  | nil => exact fun _ _ synced _ _ => synced
  | cons op ops ih =>
    intro w dense synced anchored separate
    exact ih _ (dense_step lib s dense op) (synced_step lib s dense synced op anchored.1
      (separate.mono (roots_subset_runOps lib s _ ops))) anchored.2 separate

/-- Every error of CreateEpoch leaves the servers as they were; or follows a SetLeaves that
wrote the revision, when queueing its root failed (the partial-commit incident); or follows
both writes, when fetching the log proofs failed. -/
theorem createEpoch_error_effect {force : Bool} {w w' : World} {e : Failure}
    (run : createEpoch lib s env force w = (.error e, w')) :
    w' = w ∨
    (∃ p, prepareEpoch lib s env force w = .ok (some p) ∧ w' = w.setLeaves env p ∧
      ((∃ err, e = .marshal err) ∨ ∃ v, e = .queueLeaf s.logId v)) ∨
    (∃ p log, prepareEpoch lib s env force w = .ok (some p) ∧
      queueLogLeaf lib env s.logId (w.setLeaves env p).map.root w.log = .ok log ∧
      w' = { w.setLeaves env p with log } ∧ ∃ msg, e = .internal msg) := by
  rcases createEpoch_cases lib s env run with ⟨same, -⟩ | ⟨p, prepared, -, written⟩
  · exact .inl same
  · rcases written with ⟨e', failed, same, rfl⟩ |
      ⟨log, queued, rfl, ⟨e', failed, same⟩ | ⟨_, _, _, -, nope⟩⟩
    · cases same
      exact .inr (.inl ⟨p, prepared, rfl, queueLogLeaf_error lib env failed⟩)
    · cases same
      exact .inr (.inr ⟨p, log, prepared, queued, rfl, logProofs_error env failed⟩)
    · cases nope

theorem createEpoch_error_effect_after_anchor :
    ∃ e w', createEpoch chainLibrary testSequencer ⟨[.getInclusionProof], 0, 0, 1⟩ true
        (World.fresh 0) = (.error e, w') ∧
      (w' = World.fresh 0 ∨
      (∃ p, prepareEpoch chainLibrary testSequencer ⟨[.getInclusionProof], 0, 0, 1⟩ true
          (World.fresh 0) = .ok (some p) ∧
        w' = (World.fresh 0).setLeaves ⟨[.getInclusionProof], 0, 0, 1⟩ p ∧
        ((∃ err, e = .marshal err) ∨ ∃ v, e = .queueLeaf testSequencer.logId v)) ∨
      (∃ p log, prepareEpoch chainLibrary testSequencer ⟨[.getInclusionProof], 0, 0, 1⟩ true
          (World.fresh 0) = .ok (some p) ∧
        queueLogLeaf chainLibrary ⟨[.getInclusionProof], 0, 0, 1⟩ testSequencer.logId
          ((World.fresh 0).setLeaves ⟨[.getInclusionProof], 0, 0, 1⟩ p).map.root
          (World.fresh 0).log = .ok log ∧
        w' = { (World.fresh 0).setLeaves ⟨[.getInclusionProof], 0, 0, 1⟩ p with log } ∧
        ∃ msg, e = .internal msg)) :=
  ⟨_, _, rfl, createEpoch_error_effect chainLibrary testSequencer ⟨[.getInclusionProof], 0, 0, 1⟩
    (show createEpoch chainLibrary testSequencer ⟨[.getInclusionProof], 0, 0, 1⟩ true _ = _ from rfl)⟩

/-- In an aligned log, the leaf whose audit path CreateEpoch fetches is the root of the revision
before the one it answers with; the JSON of the answered root is the next leaf. -/
theorem createEpoch_inclusion_previous_root {force : Bool} {w w' : World}
    {resp : GetMutationsResponse} (aligned : Aligned lib w) (dense : Dense w.map)
    (run : createEpoch lib s env force w = (.ok (some resp), w'))
    (separate : HashesSeparateRevisions lib w'.map.roots) :
    resp.logInclusion.leafIndex = resp.smr.mapRevision - 1 ∧
    (∃ leaf, w'.log.leaves[(resp.smr.mapRevision - 1).toNat]? = some leaf ∧
      lib.marshal resp.smr ≠ .ok leaf.leafValue) ∧
    ∃ leaf, w'.log.leaves[resp.smr.mapRevision.toNat]? = some leaf ∧
      lib.marshal resp.smr = .ok leaf.leafValue := by
  rcases createEpoch_cases lib s env run with ⟨-, nope | ⟨_, nope⟩⟩ | ⟨p, -, -, ⟨_, -, nope, -⟩ |
    ⟨log, queued, rfl, ⟨_, -, nope⟩ | ⟨logRoot, c, i, fetched, answer⟩⟩⟩ <;> try cases nope
  cases answer
  obtain ⟨-, -, rfl⟩ := logProofs_ok env fetched
  have aligned' := aligned.setLeaves_queue lib env separate dense queued
  have revision := dense.root_revision
  have roots : (w.setLeaves env p).map.roots =
      w.map.earlier.reverse ++ [w.map.root, (w.setLeaves env p).map.root] := by
    rw [World.setLeaves_map, MapServer.setLeaves_roots, MapServer.roots_eq]
    simp
  have answered : (w.setLeaves env p).map.root.mapRevision = w.map.earlier.length + 1 := by
    simp [revision]
  have before : ((w.map.earlier.length : Int) + 1 - 1).toNat = w.map.earlier.length := by omega
  have after : ((w.map.earlier.length : Int) + 1).toNat = w.map.earlier.length + 1 := by omega
  refine ⟨rfl, ?_, ?_⟩
  · have previous : (w.setLeaves env p).map.roots[w.map.earlier.length]? = some w.map.root := by
      rw [roots, List.getElem?_append_right (by simp)]
      simp
    obtain ⟨leaf, at_i, json⟩ := aligned'.leaf_at previous
    refine ⟨leaf, by rw [answered, before]; exact at_i, fun same => ?_⟩
    have := separate _ (by rw [roots]; simp) _ (by rw [roots]; simp) _ _ same json rfl
    simp only [World.setLeaves_map, MapServer.setLeaves_root] at this
    omega
  · have last : (w.setLeaves env p).map.roots[w.map.earlier.length + 1]? =
        some (w.setLeaves env p).map.root := by
      rw [roots, List.getElem?_append_right (by simp)]
      simp
    obtain ⟨leaf, at_i, json⟩ := aligned'.leaf_at last
    exact ⟨leaf, by rw [answered, after]; exact at_i, json⟩

end Anchor

/-- Over every run from two empty trees in which each CreateEpoch that writes a revision queues
its root, and only after the root of revision 0 was logged, and whose roots SHA-256 tells apart:
every successful Initialize leaves the log aligned with the map, and every successful CreateEpoch
keeps an aligned log aligned. -/
theorem runs_keep_log_aligned (lib : Library) (s : Sequencer) (t : Int) (ops : List Op) :
    (AnchoredRun lib s (World.fresh t) ops →
      HashesSeparateRevisions lib (runOps lib s (World.fresh t) ops).map.roots → ∀ env w',
      initializeLog lib s env (runOps lib s (World.fresh t) ops) = (.ok (), w') → Aligned lib w') ∧
    (Aligned lib (runOps lib s (World.fresh t) ops) → ∀ env force resp w',
      createEpoch lib s env force (runOps lib s (World.fresh t) ops) = (.ok resp, w') →
      HashesSeparateRevisions lib w'.map.roots → Aligned lib w') := by
  have dense := dense_runOps lib s t ops
  refine ⟨fun anchored separate env w' run =>
    initializeLog_aligned lib s env dense (synced_runOps lib s t ops anchored separate) run, ?_⟩
  intro aligned env force resp w' run separate
  rcases createEpoch_cases lib s env run with ⟨rfl, -⟩ |
    ⟨p, -, -, ⟨_, -, nope, -⟩ | ⟨log, queued, rfl, -⟩⟩
  · exact aligned
  · cases nope
  · exact aligned.setLeaves_queue lib env separate dense queued

theorem chainLibrary_separates (roots : List SignedMapRoot) :
    HashesSeparateRevisions chainLibrary roots := by
  rintro r - r' - v v' ⟨⟩ ⟨⟩ same
  exact revisionBytes_inj same

def seedThenWrite : List Op := [.start ⟨[], 0, 0, 0⟩, .epoch ⟨[], 0, 0, 1⟩ true]

theorem seedThenWrite_anchored : AnchoredRun chainLibrary testSequencer (World.fresh 0) seedThenWrite :=
  ⟨(fun _ _ nope => nomatch nope), fun _ _ same => by
    cases same
    exact fun _ _ _ => ⟨by decide, _, rfl⟩, trivial⟩

theorem runs_keep_log_aligned_after_seed :
    (∃ w', initializeLog chainLibrary testSequencer ⟨[], 0, 0, 2⟩
        (runOps chainLibrary testSequencer (World.fresh 0) seedThenWrite) = (.ok (), w') ∧
      Aligned chainLibrary w') ∧
    ∃ resp w', createEpoch chainLibrary testSequencer ⟨[], 0, 0, 2⟩ true
        (runOps chainLibrary testSequencer (World.fresh 0) seedThenWrite) = (.ok resp, w') ∧
      Aligned chainLibrary w' :=
  ⟨⟨_, rfl, (runs_keep_log_aligned chainLibrary testSequencer 0 seedThenWrite).1
      seedThenWrite_anchored (chainLibrary_separates _) ⟨[], 0, 0, 2⟩ _ rfl⟩,
    ⟨_, _, rfl, (runs_keep_log_aligned chainLibrary testSequencer 0 seedThenWrite).2
      (.cons ⟨rfl, rfl⟩ (.cons ⟨rfl, rfl⟩ .nil)) ⟨[], 0, 0, 2⟩ true _ _ rfl
      (chainLibrary_separates _)⟩⟩

/-- A restart after a partial commit: the epoch wrote revision 1 and could not queue its root;
the next Initialize succeeds without queueing it, leaving one leaf for two revisions. -/
theorem start_skips_missing_root :
    (initializeLog chainLibrary testSequencer ⟨[], 0, 0, 2⟩ (runOps chainLibrary testSequencer
        (World.fresh 0) [.start ⟨[], 0, 0, 0⟩, .epoch ⟨[.queueLeaf], 0, 0, 1⟩ true])).1 = .ok () ∧
    (initializeLog chainLibrary testSequencer ⟨[], 0, 0, 2⟩ (runOps chainLibrary testSequencer
        (World.fresh 0) [.start ⟨[], 0, 0, 0⟩, .epoch ⟨[.queueLeaf], 0, 0, 1⟩ true])).2.log.leaves.length = 1 ∧
    (initializeLog chainLibrary testSequencer ⟨[], 0, 0, 2⟩ (runOps chainLibrary testSequencer
        (World.fresh 0) [.start ⟨[], 0, 0, 0⟩, .epoch ⟨[.queueLeaf], 0, 0, 1⟩ true])).2.map.roots.length = 2 :=
  ⟨rfl, rfl, rfl⟩

/-- After a seeded start, the first epoch asks for the audit path of leaf 0, which holds the
root of revision 0, while it answers with the root of revision 1. -/
theorem createEpoch_inclusion_after_start :
    ∃ resp w', createEpoch chainLibrary testSequencer ⟨[], 0, 0, 1⟩ true
        (runOps chainLibrary testSequencer (World.fresh 0) [.start ⟨[], 0, 0, 0⟩]) =
        (.ok (some resp), w') ∧
      resp.logInclusion.leafIndex = resp.smr.mapRevision - 1 ∧
      (∃ leaf, w'.log.leaves[(resp.smr.mapRevision - 1).toNat]? = some leaf ∧
        chainLibrary.marshal resp.smr ≠ .ok leaf.leafValue) ∧
      ∃ leaf, w'.log.leaves[resp.smr.mapRevision.toNat]? = some leaf ∧
        chainLibrary.marshal resp.smr = .ok leaf.leafValue :=
  ⟨_, _, rfl, createEpoch_inclusion_previous_root chainLibrary testSequencer ⟨[], 0, 0, 1⟩
    (by exact .cons ⟨rfl, rfl⟩ .nil) (dense_runOps chainLibrary testSequencer 0 [.start ⟨[], 0, 0, 0⟩])
    (show createEpoch chainLibrary testSequencer ⟨[], 0, 0, 1⟩ true _ = _ from rfl)
    (chainLibrary_separates _)⟩

/-- The inclusion proof fails after SetLeaves and QueueLeaf both succeeded: the call returns an
error with revision 1 written to the map and its root to the log. -/
theorem createEpoch_error_after_anchor :
    (createEpoch chainLibrary testSequencer ⟨[.getInclusionProof], 0, 0, 1⟩ true (World.fresh 0)).1 =
        .error (.internal "Cannot fetch log inclusion proof") ∧
      (createEpoch chainLibrary testSequencer ⟨[.getInclusionProof], 0, 0, 1⟩ true
        (World.fresh 0)).2.map.root.mapRevision = 1 ∧
      (createEpoch chainLibrary testSequencer ⟨[.getInclusionProof], 0, 0, 1⟩ true
        (World.fresh 0)).2.log.leaves.length = 1 :=
  ⟨rfl, rfl, rfl⟩

end KeyTransparency
