import KeyTransparency.Watermark
import KeyTransparency.Dispatch
import KeyTransparency.Ticks

/-! `StartSigning`: Initialize, a forced CreateEpoch when the map root cannot be read (its answer
is dropped), then one CreateEpoch per value of `genEpochTicks`, each followed by the
dissemination of what it returned, nil when it made no epoch or failed. So a subscriber sees
one message per tick, and the responses among them are those of the loop's successful
CreateEpoch calls, in order of strictly increasing revision. Subscribers may also register while
the loop runs: RegisterMutationsChannel takes the mutex the dissemination takes, so a run is an
interleaving of the loop's turns with registrations. -/
namespace KeyTransparency

/-- What the surroundings decide in StartSigning before its loop. -/
structure Startup where
  /-- the calls that fail in Initialize -/
  initEnv : Env
  /-- whether the first GetSignedMapRoot fails -/
  rootFails : Bool
  /-- the calls that fail in the bootstrap CreateEpoch -/
  bootEnv : Env
  /-- whether GetSignedMapRoot fails again after it -/
  rootFailsAgain : Bool
  /-- the two readings of the clock in `genEpochTicks` before its loop -/
  now0 : Time
  now1 : Time

/-- The message the loop disseminates for a CreateEpoch result: the response, nil on error. -/
def messageOf : Except Failure (Option GetMutationsResponse) → Option GetMutationsResponse
  | .ok mutations => mutations
  | .error _ => none

theorem messageOf_eq_some {r : Except Failure (Option GetMutationsResponse)}
    {resp : GetMutationsResponse} : messageOf r = some resp ↔ r = .ok (some resp) := by
  cases r <;> simp [messageOf]

section Loop
variable (lib : Library) (s : Sequencer)

/-- StartSigning before its loop: the world the loop starts from, and `last`, the time of the
map root (zero when it could not be read). -/
def signingStart (up : Startup) (w : World) : World × Time :=
  let w := (initializeLog lib s up.initEnv w).2
  if up.rootFails then
    let w := (createEpoch lib s up.bootEnv true w).2
    (w, ⟨if up.rootFailsAgain then 0 else w.map.root.timestampNanos⟩)
  else (w, ⟨w.map.root.timestampNanos⟩)

/-- One turn of the loop: CreateEpoch with the tick's flag, then the dissemination of what it
returned. -/
def signingTurn (state : World × Dispatcher) (tick : Bool × Env) : World × Dispatcher :=
  let (mutations, w) := createEpoch lib s tick.2 tick.1 state.1
  (w, state.2.disseminateMutations (messageOf mutations))

def signingLoop (state : World × Dispatcher) (ticks : List (Bool × Env)) : World × Dispatcher :=
  ticks.foldl (signingTurn lib s) state

/-- `Sequencer.StartSigning`, with one environment per value `genEpochTicks` sends. -/
def startSigning (minInterval maxInterval : Duration) (up : Startup) (minTick : List Time)
    (envs : List Env) (w : World) (d : Dispatcher) : World × Dispatcher :=
  let start := signingStart lib s up w
  signingLoop lib s (start.1, d)
    ((genEpochTicks minInterval maxInterval up.now0 up.now1 start.2 minTick).zip envs)

def loopResults : World → List (Bool × Env) → List (Except Failure (Option GetMutationsResponse))
  | _, [] => []
  | w, (force, env) :: ticks =>
    (createEpoch lib s env force w).1 :: loopResults (createEpoch lib s env force w).2 ticks

theorem createEpoch_revision (env : Env) (force : Bool) (w : World) :
    w.map.root.mapRevision ≤ (createEpoch lib s env force w).2.map.root.mapRevision ∧
    ∀ resp, (createEpoch lib s env force w).1 = .ok (some resp) →
      resp.epoch = w.map.root.mapRevision + 1 ∧
      (createEpoch lib s env force w).2.map.root.mapRevision = resp.epoch := by
  rcases createEpoch_cases lib s env Prod.mk.eta.symm with ⟨same, answer⟩ | ⟨p, -, -, written⟩
  · refine ⟨by rw [same], fun resp ok => ?_⟩
    rcases answer with answer | ⟨e, answer⟩ <;> rw [answer] at ok <;> cases ok
  · have next : (w.setLeaves env p).map.root.mapRevision = w.map.root.mapRevision + 1 := by simp
    have wrote : (createEpoch lib s env force w).2.map.root.mapRevision =
        w.map.root.mapRevision + 1 := by
      rcases written with ⟨-, -, -, same⟩ | ⟨log, -, same, -⟩ <;> rw [same] <;> exact next
    refine ⟨by omega, fun resp ok => ?_⟩
    rcases written with ⟨e, -, answer, -⟩ | ⟨log, -, -, ⟨e, -, answer⟩ | ⟨logRoot, c, i, -, answer⟩⟩ <;>
      rw [answer] at ok <;> cases ok
    exact ⟨next, wrote.trans next.symm⟩

theorem loopResults_epoch_gt (w : World) (ticks : List (Bool × Env)) :
    ∀ resp ∈ (loopResults lib s w ticks).filterMap messageOf, w.map.root.mapRevision < resp.epoch := by
  induction ticks generalizing w with
  | nil => simp [loopResults]
  | cons tick ticks ih =>
    obtain ⟨force, env⟩ := tick
    obtain ⟨grows, answers⟩ := createEpoch_revision lib s env force w
    intro resp mem
    simp only [loopResults, List.filterMap_cons] at mem
    split at mem
    · exact lt_of_le_of_lt grows (ih (createEpoch lib s env force w).2 resp mem)
    · rcases List.mem_cons.mp mem with rfl | mem
      · rw [(answers _ (messageOf_eq_some.mp ‹_›)).1]
        omega
      · exact lt_of_le_of_lt grows (ih (createEpoch lib s env force w).2 resp mem)

theorem loopResults_sorted (w : World) (ticks : List (Bool × Env)) :
    ((loopResults lib s w ticks).filterMap messageOf).Pairwise (·.epoch < ·.epoch) := by
  induction ticks generalizing w with
  | nil => exact .nil
  | cons tick ticks ih =>
    obtain ⟨force, env⟩ := tick
    simp only [loopResults, List.filterMap_cons]
    split
    · exact ih _
    · rename_i resp answered
      have written := ((createEpoch_revision lib s env force w).2 _ (messageOf_eq_some.mp answered)).2
      refine List.Pairwise.cons (fun later mem => ?_) (ih _)
      rw [← written]
      exact loopResults_epoch_gt lib s (createEpoch lib s env force w).2 ticks later mem

/-- A subscriber registered once receives one message per turn of the loop: what that turn's
CreateEpoch returned, nil when it made no epoch or failed. -/
theorem signingLoop_received (w : World) (d : Dispatcher) (ticks : List (Bool × Env)) (ch : Nat)
    (once : d.mChannels.count ch = 1) :
    (signingLoop lib s (w, d) ticks).2.received ch =
      d.received ch ++ (loopResults lib s w ticks).map messageOf := by
  induction ticks generalizing w d with
  | nil => simp [signingLoop, loopResults]
  | cons tick ticks ih =>
    obtain ⟨force, env⟩ := tick
    show (signingLoop lib s ((createEpoch lib s env force w).2,
      d.disseminateMutations (messageOf (createEpoch lib s env force w).1)) ticks).2.received ch = _
    rw [ih _ _ (by rwa [Dispatcher.disseminateMutations_mChannels]),
      Dispatcher.disseminateMutations_received, once]
    simp [loopResults]

end Loop

/-- Over every run of StartSigning, the responses a subscriber registered once before the loop
receives are exactly those of the loop's successful CreateEpoch calls, each once, in order, in
strictly increasing revision order; the bootstrap CreateEpoch's answer is not among them. -/
theorem startSigning_delivers (lib : Library) (s : Sequencer) (minInterval maxInterval : Duration)
    (up : Startup) (minTick : List Time) (envs : List Env) (w : World) (d : Dispatcher) (ch : Nat)
    (once : d.mChannels.count ch = 1) :
    ((startSigning lib s minInterval maxInterval up minTick envs w d).2.received ch).filterMap id =
      (d.received ch).filterMap id ++ (loopResults lib s (signingStart lib s up w).1
        ((genEpochTicks minInterval maxInterval up.now0 up.now1 (signingStart lib s up w).2
          minTick).zip envs)).filterMap messageOf ∧
    ((loopResults lib s (signingStart lib s up w).1
        ((genEpochTicks minInterval maxInterval up.now0 up.now1 (signingStart lib s up w).2
          minTick).zip envs)).filterMap messageOf).Pairwise (·.epoch < ·.epoch) := by
  refine ⟨?_, loopResults_sorted lib s _ _⟩
  rw [startSigning, signingLoop_received lib s _ d _ ch once, List.filterMap_append,
    List.filterMap_map]
  rfl

def readableStartup : Startup := ⟨⟨[], 0, 0, 0⟩, false, ⟨[], 0, 0, 1⟩, false, ⟨3⟩, ⟨3⟩⟩

theorem startSigning_delivers_one_epoch :
    ((startSigning chainLibrary testSequencer ⟨2, by decide⟩ ⟨10, by decide⟩ readableStartup
        [⟨4⟩] [⟨[], 0, 0, 2⟩] oneMutationWorld ⟨[1], []⟩).2.received 1).filterMap
        (·.map (·.epoch)) = [1] ∧
    ((startSigning chainLibrary testSequencer ⟨2, by decide⟩ ⟨10, by decide⟩ readableStartup
        [⟨4⟩] [⟨[], 0, 0, 2⟩] oneMutationWorld ⟨[1], []⟩).2.received 1).filterMap id =
      ([] : List (Option GetMutationsResponse)).filterMap id ++
        (loopResults chainLibrary testSequencer
          (signingStart chainLibrary testSequencer readableStartup oneMutationWorld).1
          ((genEpochTicks ⟨2, by decide⟩ ⟨10, by decide⟩ ⟨3⟩ ⟨3⟩
            (signingStart chainLibrary testSequencer readableStartup oneMutationWorld).2
            [⟨4⟩]).zip [⟨[], 0, 0, 2⟩])).filterMap messageOf ∧
      ((loopResults chainLibrary testSequencer
          (signingStart chainLibrary testSequencer readableStartup oneMutationWorld).1
          ((genEpochTicks ⟨2, by decide⟩ ⟨10, by decide⟩ ⟨3⟩ ⟨3⟩
            (signingStart chainLibrary testSequencer readableStartup oneMutationWorld).2
            [⟨4⟩]).zip [⟨[], 0, 0, 2⟩])).filterMap messageOf).Pairwise (·.epoch < ·.epoch) :=
  ⟨rfl, startSigning_delivers chainLibrary testSequencer _ _ readableStartup _ _ oneMutationWorld
    ⟨[1], []⟩ 1 (by decide)⟩

/-- A start on a new map whose first GetSignedMapRoot fails: the bootstrap CreateEpoch writes
revision 1, and the clock gives one unforced tick. -/
def bootstrapStartup : Startup := ⟨⟨[], 0, 0, 0⟩, true, ⟨[], 0, 0, 1⟩, false, ⟨3⟩, ⟨3⟩⟩

/-- StartSigning from that start over an empty store, with one subscriber. -/
def bootstrapRun : World × Dispatcher :=
  startSigning chainLibrary testSequencer ⟨2, by decide⟩ ⟨10, by decide⟩ bootstrapStartup [⟨4⟩]
    [⟨[], 0, 0, 2⟩] (World.fresh 0) ⟨[1], []⟩

/-- The subscriber receives a single nil message and never the response of revision 1, which
the sequencer committed. -/
theorem startSigning_sends_nil :
    bootstrapRun.2.received 1 = [none] ∧ bootstrapRun.1.map.root.mapRevision = 1 :=
  ⟨rfl, rfl⟩

/-! ### Registrations during the loop -/

/-- What happens while StartSigning's loop runs: one of its turns, or a call of
RegisterMutationsChannel. A registration made while a turn's CreateEpoch runs acts as one made
before the turn, since CreateEpoch does not read the channels. -/
inductive Event where
  | turn (force : Bool) (env : Env)
  | register (ch : Nat)
  deriving DecidableEq

def Event.tick? : Event → Option (Bool × Env)
  | .turn force env => some (force, env)
  | .register _ => none

section Serving
variable (lib : Library) (s : Sequencer)

def serveEvent (state : World × Dispatcher) : Event → World × Dispatcher
  | .turn force env => signingTurn lib s state (force, env)
  | .register ch => (state.1, state.2.registerMutationsChannel ch)

def serve (state : World × Dispatcher) (events : List Event) : World × Dispatcher :=
  events.foldl (serveEvent lib s) state

theorem serve_world (w : World) (d : Dispatcher) (events : List Event) :
    (serve lib s (w, d) events).1 =
      runOps lib s w ((events.filterMap Event.tick?).map fun t => .epoch t.2 t.1) := by
  induction events generalizing w d with
  | nil => rfl
  | cons e events ih =>
    cases e with
    | turn force env => exact ih _ _
    | register ch => exact ih _ _

theorem serve_channel (w : World) (d : Dispatcher) (events : List Event) (ch : Nat)
    (unchanged : ∀ e ∈ events, e ≠ .register ch) :
    (serve lib s (w, d) events).2.mChannels.count ch = d.mChannels.count ch ∧
    (serve lib s (w, d) events).2.received ch = d.received ch ++
      (loopResults lib s w (events.filterMap Event.tick?)).flatMap
        fun r => List.replicate (d.mChannels.count ch) (messageOf r) := by
  induction events generalizing w d with
  | nil => simp [serve, loopResults]
  | cons e events ih =>
    have rest := fun e' he' => unchanged e' (List.mem_cons_of_mem _ he')
    cases e with
    | turn force env =>
      obtain ⟨count, received⟩ := ih (createEpoch lib s env force w).2
        (d.disseminateMutations (messageOf (createEpoch lib s env force w).1)) rest
      refine ⟨count, received.trans ?_⟩
      rw [Dispatcher.disseminateMutations_received, Dispatcher.disseminateMutations_mChannels]
      simp [loopResults, Event.tick?]
    | register c =>
      have other : c ≠ ch := fun same => unchanged _ (List.mem_cons_self _ _) (same ▸ rfl)
      obtain ⟨count, received⟩ := ih w (d.registerMutationsChannel c) rest
      rw [Dispatcher.registerMutationsChannel_count, if_neg other] at count received
      exact ⟨count, received⟩

end Serving

/-- Over every interleaving of the loop's turns with registrations, the registrations change
nothing the sequencer does, and a channel registered once, at any point, receives one message
per turn after its registration, what that turn's CreateEpoch returned (nil when it made no
epoch or failed), and nothing from the turns before it. -/
theorem serve_register_during_loop (lib : Library) (s : Sequencer) (w : World) (d : Dispatcher)
    (before after : List Event) (ch : Nat) (unregistered : d.mChannels.count ch = 0)
    (once : ∀ e ∈ before ++ after, e ≠ .register ch) :
    (serve lib s (w, d) (before ++ .register ch :: after)).1 =
      runOps lib s w (((before ++ after).filterMap Event.tick?).map fun t => .epoch t.2 t.1) ∧
    (serve lib s (w, d) (before ++ .register ch :: after)).2.received ch =
      d.received ch ++ (loopResults lib s
        (runOps lib s w ((before.filterMap Event.tick?).map fun t => .epoch t.2 t.1))
        (after.filterMap Event.tick?)).map messageOf := by
  have early := fun e he => once e (List.mem_append_left after he)
  have late := fun e he => once e (List.mem_append_right before he)
  refine ⟨by simpa [List.filterMap_append, Event.tick?] using
    serve_world lib s w d (before ++ .register ch :: after), ?_⟩
  have split : serve lib s (w, d) (before ++ .register ch :: after) =
      serve lib s ((serve lib s (w, d) before).1,
        (serve lib s (w, d) before).2.registerMutationsChannel ch) after := List.foldl_append _ _ _ _
  obtain ⟨count, received⟩ := serve_channel lib s w d before ch early
  rw [split, (serve_channel lib s _ _ after ch late).2, Dispatcher.registerMutationsChannel_received,
    received, Dispatcher.registerMutationsChannel_count, count, unregistered, serve_world,
    List.map_eq_flatMap messageOf,
    List.flatMap_eq_nil_iff.mpr fun _ _ => List.replicate_zero]
  simp

theorem serve_register_between_turns :
    (serve chainLibrary testSequencer (World.fresh 0, ⟨[], []⟩)
        ([Event.turn false ⟨[], 0, 0, 1⟩] ++ .register 1 :: [Event.turn true ⟨[], 0, 0, 2⟩])).1 =
      runOps chainLibrary testSequencer (World.fresh 0)
        ((([Event.turn false ⟨[], 0, 0, 1⟩] ++ [Event.turn true ⟨[], 0, 0, 2⟩]).filterMap
          Event.tick?).map fun t => .epoch t.2 t.1) ∧
    (serve chainLibrary testSequencer (World.fresh 0, ⟨[], []⟩)
        ([Event.turn false ⟨[], 0, 0, 1⟩] ++ .register 1 :: [Event.turn true ⟨[], 0, 0, 2⟩])).2.received 1 =
      [] ++ (loopResults chainLibrary testSequencer (runOps chainLibrary testSequencer (World.fresh 0)
        (([Event.turn false ⟨[], 0, 0, 1⟩].filterMap Event.tick?).map fun t => .epoch t.2 t.1))
        ([Event.turn true ⟨[], 0, 0, 2⟩].filterMap Event.tick?)).map messageOf :=
  serve_register_during_loop chainLibrary testSequencer _ _ _ _ 1 rfl (by decide)

/-! ### What the map absorbed and what subscribers are sent -/

section Sent
variable (lib : Library) (s : Sequencer)

theorem Op.committed_of_answer {env : Env} {force : Bool} {w : World} {resp : GetMutationsResponse}
    (answered : (createEpoch lib s env force w).1 = .ok (some resp)) :
    (Op.epoch env force).committed lib s w = some (resp.mutations.map (·.update)) := by
  rcases createEpoch_cases lib s env Prod.mk.eta.symm with ⟨-, nope | ⟨_, nope⟩⟩ |
    ⟨p, prepared, kept, ⟨_, -, nope, -⟩ | ⟨log, -, -, ⟨_, -, nope⟩ | ⟨logRoot, c, i, -, nope⟩⟩⟩ <;>
    rw [nope] at answered <;> cases answered
  obtain ⟨mRange, fetched, -, bound, -⟩ := prepareEpoch_some lib s env prepared
  obtain ⟨_, page, -⟩ := newMutations_ok env fetched
  simp [Op.committed, prepared, kept, page, bindProofs_updates bound, Function.comp_def]

theorem createEpoch_sends_committed (env : Env) (force : Bool) (w : World)
    (noFailures : env.fails = []) (marshals : ∀ r, ∃ v, lib.marshal r = .ok v) :
    (messageOf (createEpoch lib s env force w).1).map (fun resp => resp.mutations.map (·.update)) =
      (Op.epoch env force).committed lib s w := by
  obtain ⟨r, prepared, -⟩ := prepareEpoch_of_map_calls lib s env force w (.of_nil noFailures)
  cases r with
  | none => simp [createEpoch, prepared, messageOf, Op.committed]
  | some p =>
    obtain ⟨v, json⟩ := marshals (w.setLeaves env p).map.root
    have answered : ∃ resp, (createEpoch lib s env force w).1 = .ok (some resp) := by
      unfold createEpoch
      rw [prepared]
      simp only [noFailures, List.not_mem_nil, if_false, queueLogLeaf, json, logProofs]
      exact ⟨_, rfl⟩
    obtain ⟨resp, answer⟩ := answered
    rw [Op.committed_of_answer lib s answer, answer]
    rfl

theorem loop_sends_committed (w : World) (ticks : List (Bool × Env))
    (noFailures : ∀ t ∈ ticks, t.2.fails = []) (marshals : ∀ r, ∃ v, lib.marshal r = .ok v) :
    ((loopResults lib s w ticks).filterMap messageOf).map (fun resp =>
        resp.mutations.map (·.update)) =
      absorbed lib s w (ticks.map fun t => .epoch t.2 t.1) := by
  induction ticks generalizing w with
  | nil => rfl
  | cons tick ticks ih =>
    obtain ⟨force, env⟩ := tick
    have sent := createEpoch_sends_committed lib s env force w
      (noFailures _ (List.mem_cons_self _ _)) marshals
    have rest : ((loopResults lib s (createEpoch lib s env force w).2 ticks).filterMap
        messageOf).map (fun resp => resp.mutations.map (·.update)) =
        absorbed lib s ((Op.epoch env force).step lib s w) (ticks.map fun t => .epoch t.2 t.1) :=
      ih _ fun t ht => noFailures t (List.mem_cons_of_mem _ ht)
    simp only [loopResults, List.filterMap_cons, List.map_cons, absorbed]
    rw [← sent]
    rcases messageOf (createEpoch lib s env force w).1 with _ | resp <;> simp [rest]

end Sent

/-- Over the loop from a sound world with an honest store, with no call failing, every root
marshalling and at least as many ticks as pending mutations: a subscriber registered once
before the loop receives in the loop's responses every pending mutation, each once and in
order, and no other update. -/
theorem loop_delivers_pending (lib : Library) (s : Sequencer) (w : World) (d : Dispatcher)
    (ticks : List (Bool × Env)) (ch : Nat) (once : d.mChannels.count ch = 1) (sound : Sound w)
    (noFailures : ∀ t ∈ ticks, t.2.fails = []) (marshals : ∀ r, ∃ v, lib.marshal r = .ok v)
    (honest : HonestRun lib s w (ticks.map fun t => .epoch t.2 t.1))
    (enough : (pending w).length ≤ ticks.length) :
    ∃ sent, (signingLoop lib s (w, d) ticks).2.received ch = d.received ch ++ sent ∧
      (sent.filterMap id).flatMap (fun resp => resp.mutations.map (·.update)) =
        (pending w).map (·.update) := by
  refine ⟨_, signingLoop_received lib s w d ticks ch once, ?_⟩
  have left := pending_runOps_length lib s w sound ticks (fun t ht => .of_nil (noFailures t ht))
    honest
  rw [List.filterMap_map, Function.id_comp, List.flatMap, loop_sends_committed lib s w ticks
    noFailures marshals]
  exact (runOps_absorbs lib s w _ sound honest).pending_eq (runOps_epochs_stored lib s w ticks)
    (List.eq_nil_of_length_eq_zero (by omega))

theorem loop_delivers_two_pending :
    ∃ sent, (signingLoop chainLibrary testSequencer (twoPendingWorld, ⟨[1], []⟩)
        [(false, ⟨[], 0, 0, 1⟩), (false, ⟨[], 0, 1, 2⟩)]).2.received 1 =
        (⟨[1], []⟩ : Dispatcher).received 1 ++ sent ∧
      (sent.filterMap id).flatMap (fun resp => resp.mutations.map (·.update)) =
        (pending twoPendingWorld).map (·.update) :=
  loop_delivers_pending chainLibrary testSequencer twoPendingWorld ⟨[1], []⟩ _ 1 (by decide)
    ⟨by decide, by decide, by decide, by decide⟩ (by decide) (fun _ => ⟨_, rfl⟩) (by decide)
    (by decide)

end KeyTransparency
