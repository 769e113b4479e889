import KeyTransparency.Apply

/-! The collaborators the sequencer drives: the Trillian map and log and the mutation
store. Each is a state with the operations the sequencer calls. A call either fails without
touching its server, as a transient RPC error does, or does what the server does; which calls
fail in one operation of the sequencer, and the choices the store may make, form the `Env`
of that operation. -/
namespace KeyTransparency

/-- The RPCs and transaction calls the sequencer makes. -/
inductive Call where
  | getSignedMapRoot | getLeaves | setLeaves
  | getLatestSignedLogRoot | queueLeaf | getConsistencyProof | getInclusionProof
  | newTxn | readAll | commit
  deriving DecidableEq, Repr

/-- What the surroundings decide in one operation of the sequencer. -/
structure Env where
  /-- the calls that fail -/
  fails : List Call
  /-- ReadAll returns at most `page + 1` mutations -/
  page : Nat
  /-- the maximum sequence ReadAll reports when it finds no mutation -/
  emptyMaxSeq : UInt64
  /-- the map server's clock when SetLeaves writes a revision -/
  timestamp : Int
  deriving DecidableEq, Repr

/-- The distinct elements of a list, in order of first occurrence. -/
def firstOccurrences {α : Type} [DecidableEq α] : List α → List α
  | [] => []
  | a :: as => a :: (firstOccurrences as).filter (· ≠ a)

/-- The Trillian map: its latest root, the earlier roots newest first, and its leaves. -/
structure MapServer where
  root : SignedMapRoot
  earlier : List SignedMapRoot
  leaves : LeafMap

namespace MapServer

/-- Every root the map has signed, oldest first. -/
def roots (m : MapServer) : List SignedMapRoot := (m.root :: m.earlier).reverse

/-- The leaf GetLeaves reports at `index`: the stored one, else an empty leaf. -/
def leafAt (m : MapServer) (index : Bytes) : MapLeaf :=
  (m.leaves.get (toArray index)).getD ⟨index, []⟩

/-- GetLeaves at the latest revision: one inclusion per distinct requested index, in order
of first occurrence. -/
def getLeaves (m : MapServer) (indexes : List Bytes) : List MapLeafInclusion :=
  (firstOccurrences indexes).map fun index => ⟨m.leafAt index, m.root.mapRevision⟩

/-- SetLeaves writes the leaves and the metadata as the next revision, stamped with the
server's clock, and returns its root. -/
def setLeaves (m : MapServer) (leaves : List MapLeaf) (metadata : MapperMetadata)
    (timestamp : Int) : MapServer where
  root := ⟨timestamp, m.root.mapRevision + 1, metadata⟩
  earlier := m.root :: m.earlier
  leaves := leaves.foldl LeafMap.put m.leaves

@[simp] theorem setLeaves_root (m : MapServer) (ls : List MapLeaf) (md : MapperMetadata) (t : Int) :
    (m.setLeaves ls md t).root = ⟨t, m.root.mapRevision + 1, md⟩ := rfl

@[simp] theorem setLeaves_roots (m : MapServer) (ls : List MapLeaf) (md : MapperMetadata) (t : Int) :
    (m.setLeaves ls md t).roots = m.roots ++ [⟨t, m.root.mapRevision + 1, md⟩] := by
  simp [roots, setLeaves]

end MapServer

/-- The Trillian log, leaves in index order. -/
structure LogServer where
  leaves : List LogLeaf

namespace LogServer

def root (l : LogServer) : SignedLogRoot := ⟨l.leaves.length⟩

/-- QueueLeaf appends the leaf unless the log holds one with its identity hash. -/
def queueLeaf (l : LogServer) (leaf : LogLeaf) : LogServer :=
  if l.leaves.any (·.leafIdentityHash = leaf.leafIdentityHash) then l else ⟨l.leaves ++ [leaf]⟩

end LogServer

/-- A mutation in the store, under the sequence number the store gave it. -/
structure StoredMutation where
  sequence : UInt64
  update : SignedKV
  deriving DecidableEq, Repr

/-- ReadAll(start): a non-empty page, in sequence order, of the stored mutations above
`start` and the last one's sequence; when there is none, no mutation and the maximum the
store reports. -/
def readAll (env : Env) (stored : List StoredMutation) (start : UInt64) :
    UInt64 × List SignedKV :=
  match (stored.filter (start < ·.sequence)).take (env.page + 1) with
  | [] => (env.emptyMaxSeq, [])
  | m :: ms => ((ms.getLast?.getD m).sequence, (m :: ms).map (·.update))

/-- The servers and the store, as the sequencer's calls find them. -/
structure World where
  map : MapServer
  log : LogServer
  stored : List StoredMutation

end KeyTransparency
