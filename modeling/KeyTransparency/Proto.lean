import Mathlib.Data.List.AList

/-! The messages the sequencer reads and writes: the transparency types proto and the
Trillian messages it uses, with only the fields the sequencer or its collaborators touch.
A Merkle proof is kept as the coordinates it was requested for: its hashes are a function
of these and of the tree, and the sequencer only copies them into its responses. -/
namespace KeyTransparency

abbrev Bytes := List UInt8

/-- A `[32]byte` map index. -/
structure Index where
  bytes : List UInt8
  length_eq : bytes.length = 32
  deriving DecidableEq

/-- `toArray` returns the first 32 bytes of `b`, zero padded when `b` is shorter. -/
def toArray (b : Bytes) : Index :=
  ⟨(b ++ List.replicate 32 0).take 32, by simp⟩

structure KeyValue where
  key : Bytes
  value : Bytes
  deriving DecidableEq, Repr

/-- `signatures` is the proto map from key id to `DigitallySigned`, as a list of pairs. -/
structure SignedKV where
  keyValue : KeyValue
  signatures : List (String × Bytes)
  deriving DecidableEq, Repr

inductive PublicKey where
  | ed25519 (key : Bytes)
  | rsaVerifyingSha256_3072 (key : Bytes)
  | ecdsaVerifyingP256 (key : Bytes)
  deriving DecidableEq, Repr

structure Entry where
  commitment : Bytes
  authorizedKeys : List PublicKey
  previous : Bytes
  deriving DecidableEq, Repr

structure MapLeaf where
  index : Bytes
  leafValue : Bytes
  deriving DecidableEq, Repr

/-- A map inclusion proof for `leaf`, requested at map revision `revision`. -/
structure MapLeafInclusion where
  leaf : MapLeaf
  revision : Int
  deriving DecidableEq, Repr

structure MapperMetadata where
  highestFullyCompletedSeq : Int
  deriving DecidableEq, Repr

structure SignedMapRoot where
  timestampNanos : Int
  mapRevision : Int
  metadata : MapperMetadata
  deriving DecidableEq, Repr

structure SignedLogRoot where
  treeSize : Int
  deriving DecidableEq, Repr

structure LogLeaf where
  leafValue : Bytes
  leafIdentityHash : Bytes
  deriving DecidableEq, Repr

/-- A log audit path for leaf `leafIndex` in the tree of size `treeSize`. -/
structure InclusionProof where
  leafIndex : Int
  treeSize : Int
  deriving DecidableEq, Repr

structure ConsistencyProof where
  firstTreeSize : Int
  secondTreeSize : Int
  deriving DecidableEq, Repr

/-- `proof` is nil until CreateEpoch binds the GetLeaves answers to the mutations. -/
structure Mutation where
  update : SignedKV
  proof : Option MapLeafInclusion
  deriving DecidableEq, Repr

structure GetMutationsResponse where
  epoch : Int
  smr : SignedMapRoot
  logRoot : SignedLogRoot
  logConsistency : Option ConsistencyProof
  logInclusion : InclusionProof
  mutations : List Mutation
  deriving DecidableEq, Repr

/-! Go's conversions between int64 and uint64 reinterpret the 64 bits. -/

/-- `uint64(x)` of an int64 `x`. -/
def toUInt64 (x : Int) : UInt64 := UInt64.ofNat (x % 18446744073709551616).toNat

/-- `int64(u)` of a uint64 `u`. -/
def toInt64 (u : UInt64) : Int :=
  if u.toNat < 9223372036854775808 then u.toNat else u.toNat - 18446744073709551616

theorem UInt64.lt_iff_toNat_lt {a b : UInt64} : a < b ↔ a.toNat < b.toNat := Iff.rfl

theorem UInt64.toNat_ofNat' (n : Nat) : (UInt64.ofNat n).toNat = n % 18446744073709551616 := by
  simp [UInt64.ofNat, UInt64.toNat, BitVec.toNat_ofNat]

@[simp] theorem toUInt64_toInt64 (u : UInt64) : toUInt64 (toInt64 u) = u := by
  apply UInt64.toNat.inj
  have bound : u.toNat < 18446744073709551616 := u.toNat_lt_size
  unfold toUInt64 toInt64
  rw [UInt64.toNat_ofNat']
  split <;> omega

end KeyTransparency
