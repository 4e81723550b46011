import Sequentia.Lib.Checks
import Sequentia.Transaction

/-!
# Compact proposals

A proposer floods its block as the header, the coinbase and the identifiers of the other
transactions, and a receiver looks these up in its mempool. An identifier leaves the witness out,
and so does the merkle root the rebuilt block is checked against: the block that is rebuilt is the
proposer's but for the witnesses, which are those of the receiver's copies.
-/

namespace Sequentia

open List

def CTransaction.witness (tx : CTransaction) :
    List (List Bytes × Bytes × Bytes) × List CTxOutWitness :=
  (tx.vin.map fun i =>
    (i.scriptWitness, i.vchIssuanceAmountRangeproof, i.vchInflationKeysRangeproof), tx.vtxoutwit)

/-- What it is the hash of, `SERIALIZE_TRANSACTION_NO_WITNESS`. -/
def CTransaction.withoutWitness (tx : CTransaction) : CTransaction :=
  { tx with
    vin := tx.vin.map fun i => { i with
      scriptWitness := [], vchIssuanceAmountRangeproof := [], vchInflationKeysRangeproof := [] }
    vtxoutwit := [] }

theorem CTransaction.eq_iff_witness {tx tx' : CTransaction}
    (hbody : tx.withoutWitness = tx'.withoutWitness) : tx = tx' ↔ tx.witness = tx'.witness := by
  refine ⟨fun h => h ▸ rfl, fun hwitness => ?_⟩
  obtain ⟨txid, vin, vout, outwit⟩ := tx
  obtain ⟨txid', vin', vout', outwit'⟩ := tx'
  simp only [withoutWitness, mk.injEq, and_true] at hbody
  obtain ⟨rfl, hvin, rfl⟩ := hbody
  simp only [witness, Prod.mk.injEq] at hwitness
  obtain ⟨hinwit, rfl⟩ := hwitness
  -- Input by input, the two maps determine every field.
  have hboth := congrArg₂ List.zip hvin hinwit
  rw [zip_map', zip_map'] at hboth
  have hinj : vin = vin' := by
    refine map_injective_iff.mpr ?_ hboth
    rintro ⟨_, _, _, _, _, _, _⟩ ⟨_, _, _, _, _, _, _⟩ heq
    simp only [Prod.mk.injEq, CTxIn.mk.injEq, and_true] at heq
    obtain ⟨⟨rfl, rfl, rfl, rfl⟩, rfl, rfl, rfl⟩ := heq
    rfl
  rw [hinj]

namespace Producer

structure ProposalHeader where
  hashMerkleRoot : Uint256
  /-- The other fields, the proof with the leader's signature included. -/
  other : Bytes
  deriving DecidableEq

structure ProposalBlock where
  header : ProposalHeader
  vtx : List CTransaction
  deriving DecidableEq

structure PosCompactProposal where
  header : ProposalHeader
  coinbase : Option CTransaction
  txids : List Uint256

def makePosCompactProposal (block : ProposalBlock) : PosCompactProposal :=
  ⟨block.header, block.vtx.head?, block.vtx.tail.map CTransaction.txid⟩

section Rebuild

variable (sha256D64 : Uint256 → Uint256 → Uint256)

/-- One turn of `ComputeMerkleRoot`: an odd list is filled up with its last hash, and two equal
hashes next to each other are a mutation. -/
def merkleLevel : List Uint256 → List Uint256 × Bool
  | [] => ([], false)
  | [a] => ([sha256D64 a a], false)
  | a :: b :: rest =>
    let up := merkleLevel rest
    (sha256D64 a b :: up.1, up.2 || a == b)

/-- `ComputeMerkleRoot`, with `mutated`. Each turn makes the list shorter, so its length bounds the
turns. -/
def computeMerkleRoot : ℕ → List Uint256 → Uint256 × Bool
  | turns + 1, a :: b :: rest =>
    let level := merkleLevel sha256D64 (a :: b :: rest)
    let root := computeMerkleRoot turns level.1
    (root.1, root.2 || level.2)
  | _, hashes => (hashes.headD 0, false)

def blockMerkleRoot (vtx : List CTransaction) : Uint256 × Bool :=
  computeMerkleRoot sha256D64 vtx.length (vtx.map CTransaction.txid)

def reconstructPosProposal (compact : PosCompactProposal) (mempool : Uint256 → Option CTransaction) :
    Option ProposalBlock := do
  let coinbase ← compact.coinbase
  let txs ← compact.txids.mapM mempool
  let vtx := coinbase :: txs
  let root := blockMerkleRoot sha256D64 vtx
  if root.1 ≠ compact.header.hashMerkleRoot ∨ root.2 = true then none
  else some ⟨compact.header, vtx⟩

theorem lookup_eq_iff {mempool : Uint256 → Option CTransaction} {txs txs' : List CTransaction}
    (hlookup : List.Forall₂ (fun tx tx' => mempool tx.txid = some tx') txs txs')
    (hbody : ∀ tx ∈ txs, ∀ tx' ∈ mempool tx.txid,
      tx'.withoutWitness = tx.withoutWitness) :
    txs' = txs ↔ ∀ tx ∈ txs, ∀ tx' ∈ mempool tx.txid, tx'.witness = tx.witness := by
  induction hlookup with
  | nil => simp
  | @cons tx tx' txs txs' hfound _ ih =>
    obtain ⟨hfirst, hrest⟩ := forall_mem_cons.mp hbody
    rw [List.cons.injEq, ih hrest, CTransaction.eq_iff_witness (hfirst tx' hfound), forall_mem_cons]
    simp [hfound]

end Rebuild

/-- A coinbase and a transaction whose input has a witness of one byte. -/
def proposedTxs (signature : UInt8) : List CTransaction :=
  [⟨1, [⟨⟨0, COutPoint.nullIndex⟩, [], default, false, [], [], []⟩], [], []⟩,
    ⟨2, [⟨⟨9, 0⟩, [], default, false, [[signature]], [], []⟩], [], []⟩]

def addHashes (a b : Uint256) : Uint256 := ⟨a.val + b.val⟩

/-- A block of these, with the merkle root of this hash. -/
def proposedBlock (signature : UInt8) : ProposalBlock := ⟨⟨3, []⟩, proposedTxs signature⟩

/-- The mempool of a receiver that holds the second of them. -/
def receiverPool (signature : UInt8) (txid : Uint256) : Option CTransaction :=
  (proposedTxs signature).tail.find? fun tx => tx.txid = txid

end Producer

end Sequentia
