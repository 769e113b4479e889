import KeyTransparency.Contents

/-! The watermark `highest_fully_completed_seq`. CreateEpoch reads the page above it and writes
the page's maximum, as ReadAll reports it, into the next root. After an empty page that is
whatever the store reports, so a forced epoch can move the watermark back, and a later epoch
absorbs old mutations again. With a store that reports the start of an empty read, the
watermark never decreases and every stored mutation is absorbed by exactly one revision; and
each epoch whose map calls succeed absorbs at least one pending mutation, so enough of them
absorb all of them. -/
namespace KeyTransparency

theorem readAll_empty {env : Env} {stored : List StoredMutation} {start maxSequence : UInt64}
    (empty : readAll env stored start = (maxSequence, [])) : maxSequence = env.emptyMaxSeq := by
  unfold readAll at empty
  split at empty
  · exact (Prod.mk.inj empty).1.symm
  · simp at empty

section Epoch
variable (lib : Library) (s : Sequencer)

/-- A revision CreateEpoch writes over an empty page carries, as its watermark, the maximum the
store reports for an empty read, whatever watermark the epoch started from. -/
theorem createEpoch_empty_page_watermark {env : Env} {force : Bool} {w : World}
    (committed : (Op.epoch env force).committed lib s w = some []) :
    (createEpoch lib s env force w).2.map.root.metadata.highestFullyCompletedSeq =
      toInt64 env.emptyMaxSeq := by
  rcases Op.step_map lib s (.epoch env force) w with ⟨uncommitted, -⟩ |
    ⟨env', force', p, same, prepared, committed', written⟩
  · rw [committed] at uncommitted
    cases uncommitted
  · obtain ⟨rfl, rfl⟩ := Op.epoch.inj same
    obtain ⟨mRange, fetched, -, -, -⟩ := prepareEpoch_some lib s env prepared
    obtain ⟨maxSequence, page, seq⟩ := newMutations_ok env fetched
    rw [committed, page, Option.some.injEq] at committed'
    subst committed'
    show (Op.step lib s w (.epoch env force)).map.root.metadata.highestFullyCompletedSeq = _
    rw [written, MapServer.setLeaves_root, seq, readAll_empty page]

end Epoch

def oneMutationWorld : World := { World.fresh 0 with stored := [⟨1, ⟨⟨[1], [7]⟩, []⟩⟩] }

/-- An epoch, a forced epoch over the empty page, and an epoch. -/
def rewindRun : List Op :=
  [.epoch ⟨[], 0, 0, 1⟩ false, .epoch ⟨[], 0, 0, 2⟩ true, .epoch ⟨[], 0, 0, 3⟩ false]

/-- The first epoch absorbs the mutation and writes watermark 1; the forced epoch over the
empty page writes the 0 the store reports; the last epoch absorbs the mutation again. -/
theorem forced_empty_epoch_rewinds :
    (createEpoch chainLibrary testSequencer ⟨[], 0, 0, 2⟩ true (runOps chainLibrary testSequencer
        oneMutationWorld (rewindRun.take 1))).2.map.root.metadata.highestFullyCompletedSeq =
        toInt64 0 ∧
      [1, 2, 3].map (fun n => (runOps chainLibrary testSequencer oneMutationWorld
        (rewindRun.take n)).map.root.metadata.highestFullyCompletedSeq) = [1, 0, 1] ∧
      absorbed chainLibrary testSequencer oneMutationWorld rewindRun =
        [[⟨⟨[1], [7]⟩, []⟩], [], [⟨⟨[1], [7]⟩, []⟩]] :=
  ⟨createEpoch_empty_page_watermark chainLibrary testSequencer
    (show (Op.epoch ⟨[], 0, 0, 2⟩ true).committed chainLibrary testSequencer
      (runOps chainLibrary testSequencer oneMutationWorld (rewindRun.take 1)) = some [] from rfl),
    rfl, rfl⟩

/-! ### A store that reports the start of an empty read -/

def World.watermark (w : World) : Int := w.map.root.metadata.highestFullyCompletedSeq

/-- The updates of the stored mutations with a sequence in `(lo, hi]`, in store order. -/
def storedBetween (stored : List StoredMutation) (lo hi : UInt64) : List SignedKV :=
  (stored.filter fun m => lo.toNat < m.sequence.toNat ∧ m.sequence.toNat ≤ hi.toNat).map (·.update)

theorem toInt64_of_lt {u : UInt64} (fits : u.toNat < 9223372036854775808) :
    toInt64 u = u.toNat := by
  rw [toInt64, if_pos fits]

section Sorted
variable {stored : List StoredMutation}

theorem filter_le_last_of_take (sorted : stored.Pairwise (·.sequence < ·.sequence)) {n : Nat}
    {m : StoredMutation} {ms : List StoredMutation} (taken : stored.take n = m :: ms) :
    stored.filter (fun x => x.sequence.toNat ≤ (ms.getLastD m).sequence.toNat) = m :: ms := by
  induction stored generalizing n m ms with
  | nil => simp at taken
  | cons a l ih =>
    cases n with
    | zero => simp at taken
    | succ n =>
      rw [List.take_succ_cons, List.cons.injEq] at taken
      obtain ⟨first, rest⟩ := taken
      subst first
      rw [List.pairwise_cons] at sorted
      have higher : ∀ x ∈ l, a.sequence.toNat < x.sequence.toNat := sorted.1
      cases ms with
      | nil =>
        rw [List.getLastD_nil, List.filter_cons_of_pos (by simp),
          List.filter_eq_nil_iff.mpr fun x hx => by simpa using higher x hx]
      | cons m' ms =>
        have last := List.mem_of_mem_take (rest ▸ List.getLastD_mem_cons ms m')
        rw [List.getLastD_cons, List.filter_cons_of_pos (by simpa using (higher _ last).le),
          ih sorted.2 rest]

theorem split_at_sequence (sorted : stored.Pairwise (·.sequence < ·.sequence)) (mid : UInt64) :
    stored = stored.filter (fun m => m.sequence.toNat ≤ mid.toNat) ++
      stored.filter (fun m => mid.toNat < m.sequence.toNat) := by
  induction stored with
  | nil => rfl
  | cons x l ih =>
    rw [List.pairwise_cons] at sorted
    have rest := ih sorted.2
    by_cases below : x.sequence.toNat ≤ mid.toNat
    · rw [List.filter_cons_of_pos (by simpa using below),
        List.filter_cons_of_neg (by simpa using below), List.cons_append, ← rest]
    · have none : l.filter (fun m => m.sequence.toNat ≤ mid.toNat) = [] :=
        List.filter_eq_nil_iff.mpr fun y hy => by
          have : x.sequence.toNat < y.sequence.toNat := sorted.1 y hy
          simp only [decide_eq_true_eq]
          omega
      rw [none, List.nil_append] at rest
      rw [List.filter_cons_of_neg (by simpa using below),
        List.filter_cons_of_pos (by simpa using below), none, List.nil_append, ← rest]

/-- On a store sorted by sequence, ReadAll's page above `start` is the window of the store
between `start` and the maximum it reports, and that maximum, when an empty read reports
`start`, is `start` or the sequence of a stored mutation above it. -/
theorem readAll_window (env : Env) (sorted : stored.Pairwise (·.sequence < ·.sequence))
    (start : UInt64) (honest : env.emptyMaxSeq = start) :
    start.toNat ≤ (readAll env stored start).1.toNat ∧
    ((readAll env stored start).1 = start ∨ ∃ m ∈ stored, m.sequence = (readAll env stored start).1) ∧
    (readAll env stored start).2 = storedBetween stored start (readAll env stored start).1 := by
  unfold readAll
  split
  · refine ⟨honest ▸ Nat.le_refl _, .inl honest, ?_⟩
    rw [honest, storedBetween, List.filter_eq_nil_iff.mpr fun x _ => by
      simp only [decide_eq_true_eq]
      omega]
    rfl
  · rename_i m ms taken
    have sorted' : (stored.filter fun x => decide (start < x.sequence)).Pairwise
        (·.sequence < ·.sequence) := sorted.sublist (List.filter_sublist _)
    have mem := List.mem_of_mem_take (taken ▸ List.getLastD_mem_cons ms m)
    have window := filter_le_last_of_take sorted' taken
    rw [List.getLastD_eq_getLast?] at mem window
    rw [List.filter_filter] at window
    have above := of_decide_eq_true (List.mem_filter.mp mem).2
    refine ⟨Nat.le_of_lt above, .inr ⟨_, (List.mem_filter.mp mem).1, rfl⟩, ?_⟩
    show (m :: ms).map (·.update) = storedBetween stored start (ms.getLast?.getD m).sequence
    rw [storedBetween, ← window]
    congr 1
    refine List.filter_congr fun x _ => ?_
    simp only [UInt64.lt_iff_toNat_lt, Bool.decide_and, Bool.and_comm]

theorem storedBetween_append (sorted : stored.Pairwise (·.sequence < ·.sequence))
    {lo mid hi : UInt64} (low : lo.toNat ≤ mid.toNat) (high : mid.toNat ≤ hi.toNat) :
    storedBetween stored lo mid ++ storedBetween stored mid hi = storedBetween stored lo hi := by
  conv_rhs => rw [split_at_sequence sorted mid]
  rw [storedBetween, storedBetween, storedBetween, List.filter_append, List.filter_filter,
    List.filter_filter, List.map_append]
  congr 2 <;> refine List.filter_congr fun x _ => Bool.eq_iff_iff.mpr ?_ <;>
    simp only [Bool.and_eq_true, decide_eq_true_eq] <;> omega

theorem storedBetween_append_above {extra : List StoredMutation} {lo hi : UInt64}
    (above : ∀ m ∈ extra, hi.toNat < m.sequence.toNat) :
    storedBetween (stored ++ extra) lo hi = storedBetween stored lo hi := by
  have none : extra.filter (fun m => lo.toNat < m.sequence.toNat ∧ m.sequence.toNat ≤ hi.toNat) =
      [] := List.filter_eq_nil_iff.mpr fun m hm => by
    have := above m hm
    simp only [decide_eq_true_eq]
    omega
  rw [storedBetween, storedBetween, List.filter_append, none, List.append_nil]

end Sorted

/-- What the store and the watermark keep over runs with an honest store: mutations in strictly
increasing order of int64 sequences, and a watermark that fits an int64 sequence and survives
the round trip through the int64 field of the root. -/
structure Sound (w : World) : Prop where
  sorted : w.stored.Pairwise (·.sequence < ·.sequence)
  fits : ∀ m ∈ w.stored, m.sequence.toNat < 9223372036854775808
  watermark_fits : (toUInt64 w.watermark).toNat < 9223372036854775808
  watermark_eq : toInt64 (toUInt64 w.watermark) = w.watermark

theorem Sound.watermark_toNat {w : World} (sound : Sound w) :
    ((toUInt64 w.watermark).toNat : Int) = w.watermark := by
  rw [← toInt64_of_lt sound.watermark_fits, sound.watermark_eq]

theorem sound_fresh (t : Int) : Sound (World.fresh t) :=
  ⟨.nil, nofun, show (toUInt64 0).toNat < 9223372036854775808 by decide,
    show toInt64 (toUInt64 0) = 0 by decide⟩

section Honest
variable (lib : Library) (s : Sequencer)

/-- The mutation store's contract at one operation: it gives a new mutation a sequence above
every sequence it holds and above the watermark, one that fits an int64; and a ReadAll that
finds nothing returns the sequence it was asked to start from as its maximum. -/
def Op.Honest (w : World) : Op → Prop
  | .store m => (∀ m' ∈ w.stored, m'.sequence < m.sequence) ∧
      toUInt64 w.watermark < m.sequence ∧ m.sequence.toNat < 9223372036854775808
  | .start _ => True
  | .epoch env _ => env.emptyMaxSeq = toUInt64 w.watermark

instance Op.decidableHonest (w : World) : (op : Op) → Decidable (op.Honest w)
  | .store _ => inferInstanceAs (Decidable (_ ∧ _ ∧ _))
  | .start _ => inferInstanceAs (Decidable True)
  | .epoch _ _ => inferInstanceAs (Decidable (_ = _))

def HonestRun : World → List Op → Prop
  | _, [] => True
  | w, op :: ops => op.Honest w ∧ HonestRun (op.step lib s w) ops

instance decidableHonestRun : (w : World) → (ops : List Op) → Decidable (HonestRun lib s w ops)
  | _, [] => inferInstanceAs (Decidable True)
  | w, op :: ops =>
    haveI := decidableHonestRun (op.step lib s w) ops
    inferInstanceAs (Decidable (_ ∧ _))

/-- What a stretch of a run from `w` to `w'` keeps, `pages` being what its revisions absorbed:
the world stays sound, the watermark does not decrease, the store only grows above the first
watermark, and the pages are the store's window between the two watermarks. -/
structure Absorbs (w w' : World) (pages : List SignedKV) : Prop where
  sound : Sound w'
  grows : w.watermark ≤ w'.watermark
  appends : ∃ extra, w'.stored = w.stored ++ extra ∧
    ∀ m ∈ extra, (toUInt64 w.watermark).toNat < m.sequence.toNat
  window : pages = storedBetween w'.stored (toUInt64 w.watermark) (toUInt64 w'.watermark)

theorem storedBetween_self (stored : List StoredMutation) (u : UInt64) :
    storedBetween stored u u = [] := by
  rw [storedBetween, List.filter_eq_nil_iff.mpr fun m _ => by simp only [decide_eq_true_eq]; omega]
  rfl

theorem Absorbs.unchanged {w w' : World} (sound : Sound w) (map : w'.map = w.map)
    (stored : w'.stored = w.stored) : Absorbs w w' [] := by
  have same : w'.watermark = w.watermark := congrArg (·.root.metadata.highestFullyCompletedSeq) map
  refine ⟨⟨?_, ?_, ?_, ?_⟩, same.ge, ⟨[], by simpa using stored, nofun⟩, ?_⟩
  · exact stored ▸ sound.sorted
  · exact stored ▸ sound.fits
  · exact same ▸ sound.watermark_fits
  · exact same ▸ sound.watermark_eq
  · rw [same, storedBetween_self]

theorem Sound.toNat_le {w w' : World} (sound : Sound w) (sound' : Sound w')
    (grows : w.watermark ≤ w'.watermark) :
    (toUInt64 w.watermark).toNat ≤ (toUInt64 w'.watermark).toNat := by
  have := sound.watermark_toNat
  have := sound'.watermark_toNat
  omega

theorem Absorbs.trans {w₁ w₂ w₃ : World} {p q : List SignedKV} (sound : Sound w₁)
    (first : Absorbs w₁ w₂ p) (second : Absorbs w₂ w₃ q) : Absorbs w₁ w₃ (p ++ q) := by
  obtain ⟨sound₂, grows₂, ⟨extra₂, stored₂, above₂⟩, window₂⟩ := first
  obtain ⟨sound₃, grows₃, ⟨extra₃, stored₃, above₃⟩, window₃⟩ := second
  have low := sound.toNat_le sound₂ grows₂
  have high := sound₂.toNat_le sound₃ grows₃
  refine ⟨sound₃, grows₂.trans grows₃, ⟨extra₂ ++ extra₃, by rw [stored₃, stored₂,
    List.append_assoc], fun m hm => ?_⟩, ?_⟩
  · rcases List.mem_append.mp hm with hm | hm
    · exact above₂ m hm
    · exact Nat.lt_of_le_of_lt low (above₃ m hm)
  · rw [window₂, window₃, ← storedBetween_append_above above₃, ← stored₃]
    exact storedBetween_append sound₃.sorted low high

theorem Op.step_absorbs (op : Op) {w : World} (sound : Sound w) (honest : op.Honest w) :
    Absorbs w (op.step lib s w) (op.committed lib s w).toList.flatten := by
  cases op with
  | store m =>
    obtain ⟨below, above, fits⟩ := honest
    refine ⟨⟨?_, ?_, sound.watermark_fits, sound.watermark_eq⟩, le_refl _,
      ⟨[m], rfl, by simpa [UInt64.lt_iff_toNat_lt] using above⟩, (storedBetween_self _ _).symm⟩
    · exact List.pairwise_append.mpr ⟨sound.sorted, List.pairwise_singleton _ _,
        fun a ha b hb => List.mem_singleton.mp hb ▸ below a ha⟩
    · intro x hx
      rcases List.mem_append.mp hx with hx | hx
      · exact sound.fits x hx
      · exact List.mem_singleton.mp hx ▸ fits
  | start env =>
    exact Absorbs.unchanged sound (initializeLog_map lib s env w) (initializeLog_stored lib s env w)
  | epoch env force =>
    have stored : (Op.step lib s w (.epoch env force)).stored = w.stored :=
      createEpoch_stored lib s env force w
    rcases Op.step_map lib s (.epoch env force) w with ⟨uncommitted, same⟩ |
      ⟨env', force', p, equal, prepared, committed, written⟩
    · rw [uncommitted]
      exact Absorbs.unchanged sound same stored
    · obtain ⟨rfl, rfl⟩ := Op.epoch.inj equal
      obtain ⟨mRange, fetched, -, -, -⟩ := prepareEpoch_some lib s env prepared
      obtain ⟨maxSequence, page, seq⟩ := newMutations_ok env fetched
      obtain ⟨grows, source, window⟩ := readAll_window env sound.sorted
        (toUInt64 w.map.root.metadata.highestFullyCompletedSeq) honest
      rw [page] at grows source window
      have watermark : (Op.step lib s w (.epoch env force)).watermark = toInt64 maxSequence := by
        rw [World.watermark, written, MapServer.setLeaves_root, seq]
      have fits : maxSequence.toNat < 9223372036854775808 := by
        rcases source with rfl | ⟨m, mem, rfl⟩
        · exact sound.watermark_fits
        · exact sound.fits m mem
      refine ⟨⟨stored ▸ sound.sorted, stored ▸ sound.fits, by simpa [watermark] using fits,
        by simp [watermark]⟩, ?_, ⟨[], by simpa using stored, nofun⟩, ?_⟩
      · rw [watermark, toInt64_of_lt fits, ← sound.watermark_toNat]
        exact_mod_cast grows
      · rw [committed, page, watermark, toUInt64_toInt64, stored]
        simpa using window

theorem runOps_absorbs (w : World) (ops : List Op) (sound : Sound w)
    (honest : HonestRun lib s w ops) :
    Absorbs w (runOps lib s w ops) (absorbed lib s w ops).flatten := by
  induction ops generalizing w with
  | nil => exact Absorbs.unchanged sound rfl rfl
  | cons op ops ih =>
    have first := Op.step_absorbs lib s op sound honest.1
    rw [absorbed, List.flatten_append]
    exact first.trans sound (ih _ first.sound honest.2)

/-- Over every run from a sound world with an honest store, the watermark never decreases, and
the mutations the committed revisions absorbed are, each once and in order, those stored with a
sequence above the watermark the run started from and at most the one it ends with. -/
theorem honest_runs_absorb_once (w : World) (ops : List Op) (sound : Sound w)
    (honest : HonestRun lib s w ops) :
    w.watermark ≤ (runOps lib s w ops).watermark ∧
    (absorbed lib s w ops).flatten = storedBetween (runOps lib s w ops).stored
      (toUInt64 w.watermark) (toUInt64 (runOps lib s w ops).watermark) := by
  have absorbs := runOps_absorbs lib s w ops sound honest
  exact ⟨absorbs.grows, absorbs.window⟩

end Honest

/-- Two stored mutations, absorbed by two epochs, then a forced epoch over the empty page whose
ReadAll reports the watermark. -/
def honestOps : List Op :=
  [.store ⟨1, ⟨⟨[1], [7]⟩, []⟩⟩, .store ⟨2, ⟨⟨[2], [8]⟩, []⟩⟩, .epoch ⟨[], 0, 0, 1⟩ false,
    .epoch ⟨[], 0, 1, 2⟩ false, .epoch ⟨[], 0, 2, 3⟩ true]

theorem honest_ops_absorb_once :
    (World.fresh 0).watermark ≤ (runOps chainLibrary testSequencer (World.fresh 0) honestOps).watermark ∧
      (absorbed chainLibrary testSequencer (World.fresh 0) honestOps).flatten =
        storedBetween (runOps chainLibrary testSequencer (World.fresh 0) honestOps).stored
          (toUInt64 (World.fresh 0).watermark)
          (toUInt64 (runOps chainLibrary testSequencer (World.fresh 0) honestOps).watermark) :=
  honest_runs_absorb_once chainLibrary testSequencer (World.fresh 0) honestOps (sound_fresh 0)
    (by decide)

/-! ### Progress: every pending mutation is absorbed -/

/-- The stored mutations above the watermark, which later epochs have to absorb. -/
def pending (w : World) : List StoredMutation :=
  w.stored.filter fun m => (toUInt64 w.watermark).toNat < m.sequence.toNat

theorem readAll_page_ne_nil (env : Env) {stored : List StoredMutation} {start : UInt64}
    {m : StoredMutation} (mem : m ∈ stored) (above : start.toNat < m.sequence.toNat) :
    (readAll env stored start).2 ≠ [] := by
  unfold readAll
  split
  · rename_i nothing
    have found : m ∈ stored.filter (start < ·.sequence) :=
      List.mem_filter.mpr ⟨mem, by simpa [UInt64.lt_iff_toNat_lt] using above⟩
    rcases List.take_eq_nil_iff.mp nothing with zero | empty
    · omega
    · rw [empty] at found
      cases found
  · simp

section Progress
variable (lib : Library) (s : Sequencer)

theorem runOps_epochs_stored (w : World) (ticks : List (Bool × Env)) :
    (runOps lib s w (ticks.map fun t => .epoch t.2 t.1)).stored = w.stored := by
  induction ticks generalizing w with
  | nil => rfl
  | cons t ticks ih => exact (ih _).trans (createEpoch_stored lib s t.2 t.1 w)

theorem pending_epoch (env : Env) (force : Bool) {w : World} (sound : Sound w)
    (honest : env.emptyMaxSeq = toUInt64 w.watermark) :
    pending ((Op.epoch env force).step lib s w) = (pending w).filter fun m =>
      (toUInt64 ((Op.epoch env force).step lib s w).watermark).toNat < m.sequence.toNat := by
  have absorbs := Op.step_absorbs lib s (.epoch env force) sound honest
  have grows := sound.toNat_le absorbs.sound absorbs.grows
  have stored : ((Op.epoch env force).step lib s w).stored = w.stored :=
    createEpoch_stored lib s env force w
  rw [pending, pending, stored, List.filter_filter]
  refine List.filter_congr fun m _ => Bool.eq_iff_iff.mpr ?_
  simp only [Bool.and_eq_true, decide_eq_true_eq]
  omega

theorem pending_epoch_lt (env : Env) (force : Bool) {w : World} (sound : Sound w)
    (honest : env.emptyMaxSeq = toUInt64 w.watermark) (succeed : MapCallsSucceed env)
    {first : StoredMutation} (waiting : first ∈ pending w) :
    (pending ((Op.epoch env force).step lib s w)).length < (pending w).length := by
  obtain ⟨inStore, above⟩ := List.mem_filter.mp waiting
  obtain ⟨r, prepared, empty⟩ := prepareEpoch_of_map_calls lib s env force w succeed
  have page := readAll_page_ne_nil env inStore (of_decide_eq_true above)
  cases r with
  | none => exact absurd (empty.mp rfl).1 page
  | some p =>
    have committed : (Op.epoch env force).committed lib s w =
        some (readAll env w.stored (toUInt64 w.watermark)).2 := by
      simp [Op.committed, prepared, succeed.setLeaves, World.watermark]
    have window := (Op.step_absorbs lib s (.epoch env force) sound honest).window
    have stored : ((Op.epoch env force).step lib s w).stored = w.stored :=
      createEpoch_stored lib s env force w
    rw [committed, stored] at window
    obtain ⟨u, hu⟩ := List.exists_mem_of_ne_nil _ page
    simp only [Option.toList_some, List.flatten_singleton] at window
    rw [window, storedBetween, List.mem_map] at hu
    obtain ⟨x, hx, -⟩ := hu
    obtain ⟨xStored, between⟩ := List.mem_filter.mp hx
    simp only [decide_eq_true_eq] at between
    rw [pending_epoch lib s env force sound honest]
    exact List.length_filter_lt_length_iff_exists.mpr
      ⟨x, List.mem_filter.mpr ⟨xStored, by simpa using between.1⟩, by simpa using between.2⟩

theorem pending_runOps_length (w : World) (sound : Sound w) (ticks : List (Bool × Env))
    (succeed : ∀ t ∈ ticks, MapCallsSucceed t.2)
    (honest : HonestRun lib s w (ticks.map fun t => .epoch t.2 t.1)) :
    (pending (runOps lib s w (ticks.map fun t => .epoch t.2 t.1))).length ≤
      (pending w).length - ticks.length := by
  induction ticks generalizing w with
  | nil => exact Nat.le_refl _
  | cons t ticks ih =>
    have next := Op.step_absorbs lib s (.epoch t.2 t.1) sound honest.1
    have rest := ih _ next.sound (fun t' ht' => succeed t' (List.mem_cons_of_mem _ ht')) honest.2
    show (pending (runOps lib s ((Op.epoch t.2 t.1).step lib s w) _)).length ≤ _
    cases left : pending w with
    | nil =>
      have gone : pending ((Op.epoch t.2 t.1).step lib s w) = [] := by
        rw [pending_epoch lib s t.2 t.1 sound honest.1, left, List.filter_nil]
      rw [gone] at rest
      simpa using rest
    | cons first others =>
      have := pending_epoch_lt lib s t.2 t.1 sound honest.1 (succeed t (List.mem_cons_self _ _))
        (left ▸ List.mem_cons_self first others)
      rw [left] at this
      simp only [List.length_cons] at this ⊢
      omega

end Progress

theorem Absorbs.pending_eq {w w' : World} {pages : List SignedKV} (absorbs : Absorbs w w' pages)
    (stored : w'.stored = w.stored) (none : pending w' = []) :
    pages = (pending w).map (·.update) := by
  rw [absorbs.window, stored, storedBetween, pending]
  congr 1
  refine List.filter_congr fun m hm => Bool.eq_iff_iff.mpr ?_
  have absorbedAll := List.filter_eq_nil_iff.mp none m (stored ▸ hm)
  simp only [decide_eq_true_eq] at absorbedAll ⊢
  omega

/-- Over a sound world with an honest store, as many epochs as there are pending mutations,
each with the map's calls succeeding, absorb every pending mutation, each once and in order,
whatever the page size, the force flags and the failures of the log's calls. -/
theorem epochs_absorb_pending (lib : Library) (s : Sequencer) (w : World) (sound : Sound w)
    (ticks : List (Bool × Env)) (succeed : ∀ t ∈ ticks, MapCallsSucceed t.2)
    (honest : HonestRun lib s w (ticks.map fun t => .epoch t.2 t.1))
    (enough : (pending w).length ≤ ticks.length) :
    (absorbed lib s w (ticks.map fun t => .epoch t.2 t.1)).flatten = (pending w).map (·.update) := by
  have left := pending_runOps_length lib s w sound ticks succeed honest
  exact (runOps_absorbs lib s w _ sound honest).pending_eq (runOps_epochs_stored lib s w ticks)
    (List.eq_nil_of_length_eq_zero (by omega))

def twoPendingWorld : World :=
  { World.fresh 0 with stored := [⟨1, ⟨⟨[1], [7]⟩, []⟩⟩, ⟨2, ⟨⟨[2], [8]⟩, []⟩⟩] }

theorem epochs_absorb_two_pending :
    (absorbed chainLibrary testSequencer twoPendingWorld
        ([(false, ⟨[.queueLeaf], 0, 0, 1⟩), (false, ⟨[], 0, 1, 2⟩)].map fun t =>
          Op.epoch t.2 t.1)).flatten =
      (pending twoPendingWorld).map (·.update) :=
  epochs_absorb_pending chainLibrary testSequencer twoPendingWorld
    ⟨by decide, by decide, by decide, by decide⟩ _
    (by
      intro t ht
      simp only [List.mem_cons, List.mem_singleton, List.not_mem_nil, or_false] at ht
      rcases ht with rfl | rfl <;> constructor <;> decide)
    (by decide) (by decide)

end KeyTransparency
