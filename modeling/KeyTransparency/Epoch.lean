import KeyTransparency.Trillian

/-! CreateEpoch and Initialize over the servers of `World`. CreateEpoch only reads until it
calls SetLeaves; then it writes the map, then the log, and last reads the log proofs. A step
that fails returns its error and keeps what the steps before it wrote. `createEpoch_cases`
says once what a call can do, and the invariants of the later modules are read off it. -/
namespace KeyTransparency

/-- The sequencer's trees and its mutator. -/
structure Sequencer where
  mapId : Int
  logId : Int
  mutator : Mutator

/-- The errors of `newMutations`. -/
inductive TxnFailure where
  | newDBTxn
  | readAll (startSequence : UInt64)
  | commit
  deriving DecidableEq, Repr

/-- The errors CreateEpoch and Initialize return, one constructor per error exit. -/
inductive Failure where
  | getSignedMapRoot (mapId : Int)
  | getLatestSignedLogRoot (logId : Int)
  | newMutations (startSequence : Int) (cause : TxnFailure)
  | getLeaves
  | applyMutations (err : String)
  | setLeaves
  | marshal (err : String)
  | queueLeaf (logId : Int) (leaf : Bytes)
  | internal (msg : String)
  /-- the runtime panic of `mutations[i]` past the end of the list -/
  | indexOutOfRange
  deriving DecidableEq, Repr

/-- The loop that binds GetLeaves' answers to the mutations by position; `none` is the panic
of an index past the end of `mutations`. -/
def bindProofs : List Mutation → List MapLeafInclusion → Option (List Mutation)
  | ms, [] => some ms
  | [], _ :: _ => none
  | m :: ms, p :: ps => (bindProofs ms ps).map (⟨m.update, some p⟩ :: ·)

/-- What CreateEpoch holds when it calls SetLeaves. -/
structure Prepared where
  seq : Int
  mutations : List Mutation
  newLeaves : List MapLeaf

section Epoch
variable (lib : Library) (s : Sequencer) (env : Env)

/-- `Sequencer.newMutations`: ReadAll in a transaction, which is then committed. -/
def newMutations (stored : List StoredMutation) (startSequence : Int) :
    Except TxnFailure (List SignedKV × Int) :=
  if .newTxn ∈ env.fails then .error .newDBTxn
  else if .readAll ∈ env.fails then .error (.readAll (toUInt64 startSequence))
  else if .commit ∈ env.fails then .error .commit
  else
    let (maxSequence, mutations) := readAll env stored (toUInt64 startSequence)
    .ok (mutations, toInt64 maxSequence)

/-- CreateEpoch up to SetLeaves, which only reads; `none` when there is no mutation and the
epoch is not forced. -/
def prepareEpoch (force : Bool) (w : World) : Except Failure (Option Prepared) :=
  if .getSignedMapRoot ∈ env.fails then .error (.getSignedMapRoot s.mapId) else
  let startSequence := w.map.root.metadata.highestFullyCompletedSeq
  match newMutations env w.stored startSequence with
  | .error e => .error (.newMutations startSequence e)
  | .ok (mRange, seq) =>
    if mRange.isEmpty && !force then .ok none else
    let mutations := mRange.map (⟨·, none⟩)
    let indexes := mRange.map (·.keyValue.key)
    if .getLeaves ∈ env.fails then .error .getLeaves else
    let inclusions := w.map.getLeaves indexes
    match bindProofs mutations inclusions with
    | none => .error .indexOutOfRange
    | some mutations =>
      match applyMutations lib s.mutator mRange (inclusions.map (·.leaf)) with
      | .error e => .error (.applyMutations e)
      | .ok newLeaves => .ok (some ⟨seq, mutations, newLeaves⟩)

/-- `queueLogLeaf`: the JSON of the root, under its SHA-256 as identity hash. -/
def queueLogLeaf (logId : Int) (smr : SignedMapRoot) (log : LogServer) :
    Except Failure LogServer :=
  match lib.marshal smr with
  | .error e => .error (.marshal e)
  | .ok smrJSON =>
    if .queueLeaf ∈ env.fails then .error (.queueLeaf logId smrJSON)
    else .ok (log.queueLeaf ⟨smrJSON, lib.sum256 smrJSON⟩)

/-- `Sequencer.logProofs`. -/
def logProofs (firstTreeSize epoch : Int) (log : LogServer) :
    Except Failure (SignedLogRoot × Option ConsistencyProof × InclusionProof) :=
  if .getLatestSignedLogRoot ∈ env.fails then .error (.internal "Cannot fetch SignedLogRoot") else
  let secondTreeSize := log.root.treeSize
  if firstTreeSize ≠ 0 ∧ .getConsistencyProof ∈ env.fails then
    .error (.internal "Cannot fetch log consistency proof") else
  let logConsistency : Option ConsistencyProof :=
    if firstTreeSize ≠ 0 then some ⟨firstTreeSize, secondTreeSize⟩ else none
  if .getInclusionProof ∈ env.fails then .error (.internal "Cannot fetch log inclusion proof") else
  .ok (log.root, logConsistency, ⟨epoch, secondTreeSize⟩)

/-- The servers after SetLeaves wrote `p` with its watermark. -/
def World.setLeaves (w : World) (p : Prepared) : World :=
  { w with map := w.map.setLeaves p.newLeaves ⟨p.seq⟩ env.timestamp }

/-- `Sequencer.CreateEpoch`. -/
def createEpoch (force : Bool) (w : World) : Except Failure (Option GetMutationsResponse) × World :=
  match prepareEpoch lib s env force w with
  | .error e => (.error e, w)
  | .ok none => (.ok none, w)
  | .ok (some p) =>
    if .setLeaves ∈ env.fails then (.error .setLeaves, w) else
    let w := w.setLeaves env p
    let smr := w.map.root
    match queueLogLeaf lib env s.logId smr w.log with
    | .error e => (.error e, w)
    | .ok log =>
      let w := { w with log }
      match logProofs env 0 (smr.mapRevision - 1) w.log with
      | .error e => (.error e, w)
      | .ok (logRoot, logConsistency, logInclusion) =>
        (.ok (some ⟨smr.mapRevision, smr, logRoot, logConsistency, logInclusion, p.mutations⟩), w)

/-- `Sequencer.Initialize` (`initialize` is a keyword of Lean): seed the log with the map root
when both trees are empty. -/
def initializeLog (w : World) : Except Failure Unit × World :=
  if .getLatestSignedLogRoot ∈ env.fails then (.error (.getLatestSignedLogRoot s.logId), w) else
  if .getSignedMapRoot ∈ env.fails then (.error (.getSignedMapRoot s.mapId), w) else
  if w.log.root.treeSize = 0 ∧ w.map.root.mapRevision = 0 then
    match queueLogLeaf lib env s.logId w.map.root w.log with
    | .error e => (.error e, w)
    | .ok log => (.ok (), { w with log })
  else (.ok (), w)

@[simp] theorem World.setLeaves_map (w : World) (p : Prepared) :
    (w.setLeaves env p).map = w.map.setLeaves p.newLeaves ⟨p.seq⟩ env.timestamp := rfl

@[simp] theorem World.setLeaves_log (w : World) (p : Prepared) : (w.setLeaves env p).log = w.log :=
  rfl

@[simp] theorem World.setLeaves_stored (w : World) (p : Prepared) :
    (w.setLeaves env p).stored = w.stored := rfl

/-- Everything a CreateEpoch call can do: write nothing; write the map and fail to queue its
root; write both and fail to fetch the log proofs; or write both and answer. -/
theorem createEpoch_cases {force : Bool} {w w' : World}
    {r : Except Failure (Option GetMutationsResponse)}
    (run : createEpoch lib s env force w = (r, w')) :
    (w' = w ∧ (r = .ok none ∨ ∃ e, r = .error e)) ∨
    ∃ p, prepareEpoch lib s env force w = .ok (some p) ∧ .setLeaves ∉ env.fails ∧
      ((∃ e, queueLogLeaf lib env s.logId (w.setLeaves env p).map.root w.log = .error e ∧
          r = .error e ∧ w' = w.setLeaves env p) ∨
       ∃ log, queueLogLeaf lib env s.logId (w.setLeaves env p).map.root w.log = .ok log ∧
          w' = { w.setLeaves env p with log } ∧
          ((∃ e, logProofs env 0 ((w.setLeaves env p).map.root.mapRevision - 1) log = .error e ∧
              r = .error e) ∨
           ∃ logRoot c i, logProofs env 0 ((w.setLeaves env p).map.root.mapRevision - 1) log =
              .ok (logRoot, c, i) ∧
             r = .ok (some ⟨(w.setLeaves env p).map.root.mapRevision,
               (w.setLeaves env p).map.root, logRoot, c, i, p.mutations⟩))) := by
  unfold createEpoch at run
  split at run
  · obtain ⟨rfl, rfl⟩ := Prod.mk.inj run
    exact .inl ⟨rfl, .inr ⟨_, rfl⟩⟩
  · obtain ⟨rfl, rfl⟩ := Prod.mk.inj run
    exact .inl ⟨rfl, .inl rfl⟩
  · rename_i p prepared
    split at run
    · obtain ⟨rfl, rfl⟩ := Prod.mk.inj run
      exact .inl ⟨rfl, .inr ⟨_, rfl⟩⟩
    · refine .inr ⟨p, prepared, ‹_›, ?_⟩
      dsimp only at run
      split at run
      · obtain ⟨rfl, rfl⟩ := Prod.mk.inj run
        exact .inl ⟨_, ‹_›, rfl, rfl⟩
      · rename_i log queued
        refine .inr ⟨log, queued, ?_⟩
        split at run <;> obtain ⟨rfl, rfl⟩ := Prod.mk.inj run
        · exact ⟨rfl, .inl ⟨_, ‹_›, rfl⟩⟩
        · exact ⟨rfl, .inr ⟨_, _, _, ‹_›, rfl⟩⟩

/-- Initialize writes only the log, and only by queueing the map's root when both trees are
empty. -/
theorem initializeLog_cases {w w' : World} {r : Except Failure Unit}
    (run : initializeLog lib s env w = (r, w')) :
    (w' = w ∧ (r = .ok () → ¬ (w.log.root.treeSize = 0 ∧ w.map.root.mapRevision = 0))) ∨
    (w.log.root.treeSize = 0 ∧ w.map.root.mapRevision = 0 ∧
      queueLogLeaf lib env s.logId w.map.root w.log = .ok w'.log ∧ w' = { w with log := w'.log } ∧
      r = .ok ()) := by
  unfold initializeLog at run
  split at run
  · obtain ⟨rfl, rfl⟩ := Prod.mk.inj run
    exact .inl ⟨rfl, nofun⟩
  split at run
  · obtain ⟨rfl, rfl⟩ := Prod.mk.inj run
    exact .inl ⟨rfl, nofun⟩
  split at run
  · rename_i empty
    split at run <;> obtain ⟨rfl, rfl⟩ := Prod.mk.inj run
    · exact .inl ⟨rfl, nofun⟩
    · exact .inr ⟨empty.1, empty.2, ‹_›, rfl, rfl⟩
  · obtain ⟨rfl, rfl⟩ := Prod.mk.inj run
    exact .inl ⟨rfl, fun _ => ‹_›⟩

theorem newMutations_ok {stored : List StoredMutation} {start seq : Int} {mRange : List SignedKV}
    (fetched : newMutations env stored start = .ok (mRange, seq)) :
    ∃ maxSequence, readAll env stored (toUInt64 start) = (maxSequence, mRange) ∧
      seq = toInt64 maxSequence := by
  unfold newMutations at fetched
  repeat' split at fetched
  all_goals cases fetched
  exact ⟨_, ‹_›, rfl⟩

theorem prepareEpoch_some {force : Bool} {w : World} {p : Prepared}
    (prepared : prepareEpoch lib s env force w = .ok (some p)) :
    ∃ mRange, newMutations env w.stored w.map.root.metadata.highestFullyCompletedSeq =
        .ok (mRange, p.seq) ∧ (mRange ≠ [] ∨ force = true) ∧
      bindProofs (mRange.map (⟨·, none⟩)) (w.map.getLeaves (mRange.map (·.keyValue.key))) =
        some p.mutations ∧
      applyMutations lib s.mutator mRange
        ((w.map.getLeaves (mRange.map (·.keyValue.key))).map (·.leaf)) = .ok p.newLeaves := by
  unfold prepareEpoch at prepared
  split at prepared
  · cases prepared
  dsimp only at prepared
  rcases fetched : newMutations env w.stored w.map.root.metadata.highestFullyCompletedSeq with
    _ | ⟨mRange, seq⟩ <;> rw [fetched] at prepared
  · cases prepared
  dsimp only at prepared
  split at prepared
  · cases prepared
  rename_i nonempty
  split at prepared
  · cases prepared
  rcases bound : bindProofs (mRange.map (⟨·, none⟩)) (w.map.getLeaves (mRange.map (·.keyValue.key)))
    with _ | mutations <;> rw [bound] at prepared
  · cases prepared
  dsimp only at prepared
  rcases applied : applyMutations lib s.mutator mRange
    ((w.map.getLeaves (mRange.map (·.keyValue.key))).map (·.leaf)) with _ | newLeaves <;>
    rw [applied] at prepared
  · cases prepared
  cases prepared
  refine ⟨mRange, rfl, ?_, bound, applied⟩
  cases mRange <;> cases force <;> simp_all

theorem queueLogLeaf_ok {logId : Int} {smr : SignedMapRoot} {log log' : LogServer}
    (queued : queueLogLeaf lib env logId smr log = .ok log') :
    ∃ v, lib.marshal smr = .ok v ∧ log' = log.queueLeaf ⟨v, lib.sum256 v⟩ := by
  unfold queueLogLeaf at queued
  split at queued
  · cases queued
  · split at queued
    · cases queued
    · exact ⟨_, ‹_›, (Except.ok.inj queued).symm⟩

theorem queueLogLeaf_error {logId : Int} {smr : SignedMapRoot} {log : LogServer} {e : Failure}
    (failed : queueLogLeaf lib env logId smr log = .error e) :
    (∃ err, e = .marshal err) ∨ ∃ v, e = .queueLeaf logId v := by
  unfold queueLogLeaf at failed
  split at failed
  · exact .inl ⟨_, (Except.error.inj failed).symm⟩
  · split at failed
    · exact .inr ⟨_, (Except.error.inj failed).symm⟩
    · cases failed

theorem logProofs_ok {epoch : Int} {log : LogServer} {logRoot : SignedLogRoot}
    {c : Option ConsistencyProof} {i : InclusionProof}
    (fetched : logProofs env 0 epoch log = .ok (logRoot, c, i)) :
    logRoot = log.root ∧ c = none ∧ i = ⟨epoch, log.root.treeSize⟩ := by
  unfold logProofs at fetched
  split at fetched
  · cases fetched
  · simp only [ne_eq, not_true_eq_false, false_and, if_false] at fetched
    split at fetched
    · cases fetched
    · cases fetched
      exact ⟨rfl, rfl, rfl⟩

theorem logProofs_error {first epoch : Int} {log : LogServer} {e : Failure}
    (failed : logProofs env first epoch log = .error e) : ∃ msg, e = .internal msg := by
  unfold logProofs at failed
  dsimp only at failed
  repeat' split at failed
  all_goals first | exact ⟨_, (Except.error.inj failed).symm⟩ | cases failed

end Epoch

theorem LogServer.queueLeaf_fresh (log : LogServer) (leaf : LogLeaf)
    (fresh : ∀ l ∈ log.leaves, l.leafIdentityHash ≠ leaf.leafIdentityHash) :
    log.queueLeaf leaf = ⟨log.leaves ++ [leaf]⟩ := by
  unfold LogServer.queueLeaf
  rw [if_neg]
  simpa using fresh

/-- A new map at revision 0 with no leaves, an empty log and an empty store. -/
def World.fresh (timestamp : Int) : World :=
  ⟨⟨⟨timestamp, 0, ⟨0⟩⟩, [], LeafMap.empty⟩, ⟨[]⟩, []⟩

/-- One operation of a run: the front end stores a mutation, or the sequencer runs Initialize
(on a start of StartSigning) or CreateEpoch. -/
inductive Op where
  | store (m : StoredMutation)
  | start (env : Env)
  | epoch (env : Env) (force : Bool)

def Op.step (lib : Library) (s : Sequencer) (w : World) : Op → World
  | .store m => { w with stored := w.stored ++ [m] }
  | .start env => (initializeLog lib s env w).2
  | .epoch env force => (createEpoch lib s env force w).2

def runOps (lib : Library) (s : Sequencer) (w : World) (ops : List Op) : World :=
  ops.foldl (Op.step lib s) w

section Frame
variable (lib : Library) (s : Sequencer)

theorem createEpoch_stored (env : Env) (force : Bool) (w : World) :
    (createEpoch lib s env force w).2.stored = w.stored := by
  rcases createEpoch_cases lib s env Prod.mk.eta.symm with ⟨same, -⟩ | ⟨p, -, -, written⟩
  · rw [same]
  · rcases written with ⟨-, -, -, same⟩ | ⟨log, -, same, -⟩ <;> rw [same] <;> rfl

theorem initializeLog_stored (env : Env) (w : World) :
    (initializeLog lib s env w).2.stored = w.stored := by
  rcases initializeLog_cases lib s env Prod.mk.eta.symm with ⟨same, -⟩ | ⟨-, -, -, same, -⟩ <;>
    rw [same]

theorem initializeLog_map (env : Env) (w : World) : (initializeLog lib s env w).2.map = w.map := by
  rcases initializeLog_cases lib s env Prod.mk.eta.symm with ⟨same, -⟩ | ⟨-, -, -, same, -⟩ <;>
    rw [same]

/-- The page an operation commits to the map: what CreateEpoch read, when it goes on to write
a revision. Not a value of the code, but the record kept beside a run of which mutations each
revision absorbed. -/
def Op.committed (w : World) : Op → Option (List SignedKV)
  | .epoch env force =>
    match prepareEpoch lib s env force w with
    | .ok (some _) =>
      if .setLeaves ∈ env.fails then none
      else some (readAll env w.stored (toUInt64 w.map.root.metadata.highestFullyCompletedSeq)).2
    | _ => none
  | _ => none

/-- What an operation does to the map: nothing, or SetLeaves of a prepared epoch whose page
it commits. -/
theorem Op.step_map (op : Op) (w : World) :
    (op.committed lib s w = none ∧ (op.step lib s w).map = w.map) ∨
    ∃ env force p, op = .epoch env force ∧ prepareEpoch lib s env force w = .ok (some p) ∧
      op.committed lib s w = some (readAll env w.stored
        (toUInt64 w.map.root.metadata.highestFullyCompletedSeq)).2 ∧
      (op.step lib s w).map = w.map.setLeaves p.newLeaves ⟨p.seq⟩ env.timestamp := by
  cases op with
  | store m => exact .inl ⟨rfl, rfl⟩
  | start env => exact .inl ⟨rfl, initializeLog_map lib s env w⟩
  | epoch env force =>
    simp only [Op.committed, Op.step, createEpoch]
    rcases prepared : prepareEpoch lib s env force w with e | _ | p
    · exact .inl ⟨rfl, rfl⟩
    · exact .inl ⟨rfl, rfl⟩
    · by_cases failed : Call.setLeaves ∈ env.fails
      · exact .inl ⟨if_pos failed, by simp only [if_pos failed]⟩
      · refine .inr ⟨env, force, p, rfl, prepared, if_neg failed, ?_⟩
        simp only [if_neg failed]
        split
        · rfl
        · split <;> rfl

end Frame

/-- The sequencer of map 1 and log 2 with the chaining mutator, for the runs below. -/
def testSequencer : Sequencer := ⟨1, 2, chainMutator⟩

end KeyTransparency
