import KeyTransparency.Proto

/-! The subscriber channels of the sequencer. `RegisterMutationsChannel` appends a channel to
`mChannels` and `disseminateMutations` sends the message on every entry of it, both under
`mMux`, so the calls run one at a time. A channel is a number here, and what its reader
receives is the list of sends made on it. Registration does not check membership: a channel
registered twice receives every later message twice. -/
namespace KeyTransparency

/-- The registered channels, and every send made so far, in order. -/
structure Dispatcher where
  mChannels : List Nat
  sent : List (Nat × Option GetMutationsResponse)

namespace Dispatcher

/-- `Sequencer.RegisterMutationsChannel`. -/
def registerMutationsChannel (d : Dispatcher) (ch : Nat) : Dispatcher :=
  { d with mChannels := d.mChannels ++ [ch] }

/-- `Sequencer.disseminateMutations`: send `m` on every registered channel, in order. -/
def disseminateMutations (d : Dispatcher) (m : Option GetMutationsResponse) : Dispatcher :=
  { d with sent := d.sent ++ d.mChannels.map (·, m) }

def received (d : Dispatcher) (ch : Nat) : List (Option GetMutationsResponse) :=
  d.sent.filterMap fun s => if s.1 = ch then some s.2 else none

@[simp] theorem registerMutationsChannel_received (d : Dispatcher) (c ch : Nat) :
    (d.registerMutationsChannel c).received ch = d.received ch := rfl

@[simp] theorem disseminateMutations_mChannels (d : Dispatcher) (m : Option GetMutationsResponse) :
    (d.disseminateMutations m).mChannels = d.mChannels := rfl

theorem registerMutationsChannel_count (d : Dispatcher) (c ch : Nat) :
    (d.registerMutationsChannel c).mChannels.count ch =
      if c = ch then d.mChannels.count ch + 1 else d.mChannels.count ch := by
  simp only [registerMutationsChannel, List.count_append, List.count_singleton]
  split <;> simp_all

theorem disseminateMutations_received (d : Dispatcher) (m : Option GetMutationsResponse)
    (ch : Nat) :
    (d.disseminateMutations m).received ch =
      d.received ch ++ List.replicate (d.mChannels.count ch) m := by
  simp only [received, disseminateMutations, List.filterMap_append]
  congr 1
  induction d.mChannels with
  | nil => rfl
  | cons c cs ih =>
    by_cases same : c = ch
    · simp [same, ih, List.replicate_succ]
    · simp [same, ih, List.count_cons]

end Dispatcher

/-- A call on the subscriber list. -/
inductive DispatchCall where
  | register (ch : Nat)
  | disseminate (m : Option GetMutationsResponse)

def DispatchCall.apply (d : Dispatcher) : DispatchCall → Dispatcher
  | .register ch => d.registerMutationsChannel ch
  | .disseminate m => d.disseminateMutations m

def runDispatch (d : Dispatcher) (calls : List DispatchCall) : Dispatcher :=
  calls.foldl DispatchCall.apply d

/-- What `ch`, registered `k` times before `calls`, receives over them: every disseminated
message once per registration of `ch` made before it. -/
def deliveries (ch : Nat) : Nat → List DispatchCall → List (Option GetMutationsResponse)
  | _, [] => []
  | k, .register c :: calls => deliveries ch (if c = ch then k + 1 else k) calls
  | k, .disseminate m :: calls => List.replicate k m ++ deliveries ch k calls

/-- Over every sequence of calls, each channel receives every message disseminated after its
registrations once per registration made before that dissemination, in dissemination order,
and nothing disseminated before its first registration. -/
theorem runDispatch_received (d : Dispatcher) (calls : List DispatchCall) (ch : Nat) :
    (runDispatch d calls).received ch =
      d.received ch ++ deliveries ch (d.mChannels.count ch) calls := by
  induction calls generalizing d with
  | nil => simp [runDispatch, deliveries]
  | cons call calls ih =>
    show (runDispatch (call.apply d) calls).received ch = _
    cases call with
    | register c =>
      rw [ih, DispatchCall.apply, Dispatcher.registerMutationsChannel_received,
        Dispatcher.registerMutationsChannel_count, deliveries]
    | disseminate m =>
      rw [ih, DispatchCall.apply, Dispatcher.disseminateMutations_received,
        Dispatcher.disseminateMutations_mChannels, List.append_assoc]
      rfl

def revisionOneResponse : GetMutationsResponse := ⟨1, ⟨0, 1, ⟨0⟩⟩, ⟨2⟩, none, ⟨0, 2⟩, []⟩

/-- A channel registered twice receives one dissemination twice. -/
theorem register_twice_duplicates :
    (runDispatch ⟨[], []⟩ [.register 1, .register 1, .disseminate (some revisionOneResponse)]).received 1 =
      [some revisionOneResponse, some revisionOneResponse] :=
  rfl

end KeyTransparency
