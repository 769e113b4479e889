import KeyTransparency.Anchor

/-! The log as a record of the map's history. Whatever fails, and however often the sequencer
restarts, the log holds the JSON of roots the map signed, in the order the map signed them:
CreateEpoch queues only the root it has just written, and Initialize only the first root, into
an empty log. A root whose QueueLeaf failed stays out, so the log can fall behind the map; it
never holds a root the map did not sign, nor one root twice, nor two out of order. -/
namespace KeyTransparency

/-- A log leaf holds the JSON of a map root, under that JSON's SHA-256. -/
def Records (lib : Library) (leaf : LogLeaf) (root : SignedMapRoot) : Prop :=
  lib.marshal root = .ok leaf.leafValue ∧ leaf.leafIdentityHash = lib.sum256 leaf.leafValue

/-- The log's leaves record, one for one and in order, a subsequence of the map's roots. -/
def RecordsHistory (lib : Library) (w : World) : Prop :=
  ∃ roots, roots.Sublist w.map.roots ∧ List.Forall₂ (Records lib) w.log.leaves roots

theorem Dense.pairwise {m : MapServer} (dense : Dense m) :
    m.roots.Pairwise (·.mapRevision < ·.mapRevision) := by
  rw [List.pairwise_iff_getElem]
  intro i j hi hj before
  rw [dense i hi, dense j hj]
  exact_mod_cast before

theorem queueLeaf_records {lib : Library} {log : LogServer} {sub : List SignedMapRoot}
    (recorded : List.Forall₂ (Records lib) log.leaves sub) {r : SignedMapRoot} {v : Bytes}
    (json : lib.marshal r = .ok v) :
    List.Forall₂ (Records lib) (log.queueLeaf ⟨v, lib.sum256 v⟩).leaves sub ∨
      List.Forall₂ (Records lib) (log.queueLeaf ⟨v, lib.sum256 v⟩).leaves (sub ++ [r]) := by
  unfold LogServer.queueLeaf
  split
  · exact .inl recorded
  · exact .inr (List.rel_append recorded (.cons ⟨json, rfl⟩ .nil))

section History
variable (lib : Library) (s : Sequencer) (env : Env)

theorem RecordsHistory.setLeaves {w : World} (recorded : RecordsHistory lib w) (p : Prepared)
    {log : LogServer}
    (queued : log = w.log ∨ queueLogLeaf lib env s.logId (w.setLeaves env p).map.root w.log = .ok log) :
    RecordsHistory lib { w.setLeaves env p with log } := by
  obtain ⟨sub, kept, rel⟩ := recorded
  have roots : (w.setLeaves env p).map.roots =
      w.map.roots ++ [(w.setLeaves env p).map.root] := by simp
  have old : sub.Sublist (w.setLeaves env p).map.roots := roots ▸ kept.trans (List.sublist_append_left _ _)
  rcases queued with rfl | queued
  · exact ⟨sub, old, rel⟩
  · obtain ⟨v, json, rfl⟩ := queueLogLeaf_ok lib env queued
    rcases queueLeaf_records rel json with same | appended
    · exact ⟨sub, old, same⟩
    · exact ⟨_, roots ▸ kept.append (List.Sublist.refl _), appended⟩

theorem RecordsHistory.initializeLog {w : World} (recorded : RecordsHistory lib w) :
    RecordsHistory lib (initializeLog lib s env w).2 := by
  rcases initializeLog_cases lib s env Prod.mk.eta.symm with ⟨same, -⟩ | ⟨empty, -, queued, same, -⟩
  · rwa [same]
  · have noLeaves : w.log.leaves = [] := List.eq_nil_of_length_eq_zero (by
      simp only [LogServer.root] at empty; omega)
    obtain ⟨v, json, hlog⟩ := queueLogLeaf_ok lib env queued
    have first : [w.map.root].Sublist w.map.roots :=
      List.singleton_sublist.mpr (by simp [MapServer.roots])
    rw [same, hlog]
    rcases queueLeaf_records (show List.Forall₂ (Records lib) w.log.leaves [] from noLeaves ▸ .nil)
      json with none | one
    · exact ⟨[], List.nil_sublist _, none⟩
    · exact ⟨_, first, one⟩

theorem RecordsHistory.step {w : World} (recorded : RecordsHistory lib w) (op : Op) :
    RecordsHistory lib (op.step lib s w) := by
  cases op with
  | store m => exact recorded
  | start env => exact recorded.initializeLog lib s env
  | epoch env force =>
    show RecordsHistory lib (createEpoch lib s env force w).2
    rcases createEpoch_cases lib s env Prod.mk.eta.symm with ⟨same, -⟩ | ⟨p, -, -, written⟩
    · rwa [same]
    · rcases written with ⟨-, -, -, same⟩ | ⟨log, queued, same, -⟩ <;> rw [same]
      · exact recorded.setLeaves lib s env p (.inl rfl)
      · exact recorded.setLeaves lib s env p (.inr queued)

end History

/-- Over every run from two empty trees, whatever calls fail and however often the sequencer
restarts, the log's leaves are the JSON of roots the map signed, each under the SHA-256 of its
JSON, in the order the map signed them: so their revisions strictly increase. -/
theorem log_records_map_history (lib : Library) (s : Sequencer) (t : Int) (ops : List Op) :
    ∃ roots, roots.Sublist (runOps lib s (World.fresh t) ops).map.roots ∧
      List.Forall₂ (Records lib) (runOps lib s (World.fresh t) ops).log.leaves roots ∧
      roots.Pairwise (·.mapRevision < ·.mapRevision) := by
  suffices ∀ w, RecordsHistory lib w → RecordsHistory lib (runOps lib s w ops) by
    obtain ⟨roots, sub, rel⟩ := this (World.fresh t) ⟨[], List.nil_sublist _, .nil⟩
    exact ⟨roots, sub, rel, (dense_runOps lib s t ops).pairwise.sublist sub⟩
  induction ops with
  | nil => exact fun _ recorded => recorded
  | cons op ops ih => exact fun w recorded => ih _ (recorded.step lib s op)

end KeyTransparency
