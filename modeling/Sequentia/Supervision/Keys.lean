import Sequentia.Amounts.Transparent
import Sequentia.Stake.Sync
import Sequentia.Supervision.Chain

/-!
# The two keys of a supervised asset

A rotation is checked against the registry of the parent block, and may not install the key
that is in the other role there. Two rotations of one asset in a block are checked on their
own, so they can install one key in both roles; nothing else brings the keys together.
-/

namespace Sequentia

open Std Checks List

/-- The operational and the recovery key of every supervised asset differ. -/
def SupervisionRegistry.KeysApart (r : SupervisionRegistry) : Prop :=
  ∀ (a : CAsset) (entry : SupervisionEntry), r[a]? = some entry →
    entry.operational ≠ entry.recovery

/-- No two rotations of the block install one key in both roles of an asset. -/
def CBlock.NoCommonKey (block : CBlock) : Prop :=
  ∀ a oldKey oldKey' newKey, .rotation a true oldKey newKey ∈ block.created →
    .rotation a false oldKey' newKey ∉ block.created

section Rotations

variable {env : ChainEnv} {st st' : SupervisedState} {block : CBlock} {undo : CBlockUndo}

variable {a : CAsset} {oldKey newKey : XOnlyPubKey} {entry : SupervisionEntry}

theorem mem_rotates_iff {scripts : List SupervisionScript} {role : Bool} :
    (oldKey, newKey) ∈ scripts.filterMap (SupervisionScript.rotates a role) ↔
      .rotation a role oldKey newKey ∈ scripts := by
  rw [mem_filterMap]
  constructor
  · rintro ⟨s, hs, hrotates⟩
    cases s with
    | rotation asset role' old new =>
      obtain ⟨⟨rfl, rfl⟩, heq⟩ := Option.ite_none_right_eq_some.mp hrotates
      cases Option.some.inj heq
      exact hs
    | _ => cases hrotates
  · exact fun hmem => ⟨_, hmem, if_pos ⟨rfl, rfl⟩⟩

variable (hblock : HardenedBlock env st block st' undo)

include hblock

/-- A key after a block under the hardening: it stays, or the one rotation of the block for it
replaces it. -/
theorem HardenedBlock.keyAfter_cases (hentry : st.registry[a]? = some entry) (role : Bool) :
    (block.created.filterMap (SupervisionScript.rotates a role) = [] ∧
      keyAfter a block.created role (entry.key role) = entry.key role) ∨
    ∃ newKey, block.created.filterMap (SupervisionScript.rotates a role) =
        [(entry.key role, newKey)] ∧
      .rotation a role (entry.key role) newKey ∈ block.created ∧
      keyAfter a block.created role (entry.key role) = newKey ∧
      newKey ≠ entry.key role ∧ entry.key (!role) ≠ newKey := by
  have hlength := hblock.length_rotates_le hblock.hardened a role
  cases hrotates : block.created.filterMap (SupervisionScript.rotates a role) with
  | nil => exact Or.inl ⟨rfl, by rw [keyAfter, hrotates]; rfl⟩
  | cons p l =>
    obtain rfl : l = [] := by
      rw [hrotates] at hlength
      exact length_eq_zero_iff.mp (by simpa using hlength)
    obtain ⟨oldKey, newKey⟩ := p
    have hmem : .rotation a role oldKey newKey ∈ block.created := by
      rw [← mem_rotates_iff, hrotates]
      exact mem_singleton.mpr rfl
    obtain ⟨entry', hentry', rfl, hne, hother⟩ := hblock.admitted _ hmem
    obtain rfl : entry' = entry := Option.some.inj (hentry'.symm.trans hentry)
    refine Or.inr ⟨newKey, rfl, hmem, ?_, hne, hother⟩
    rw [keyAfter, hrotates, foldl_cons, moveKey, if_pos rfl]
    rfl

theorem HardenedBlock.keyAfter_of_mem (hentry : st.registry[a]? = some entry) {role : Bool}
    (hmem : .rotation a role oldKey newKey ∈ block.created) :
    keyAfter a block.created role (entry.key role) = newKey := by
  have hpair := mem_rotates_iff.mpr hmem
  rcases hblock.keyAfter_cases hentry role with
    ⟨hnil, -⟩ | ⟨newKey', hone, -, hafter, -⟩
  · rw [hnil] at hpair
    cases hpair
  · rw [hone, mem_singleton] at hpair
    rw [hafter, (Prod.mk.inj hpair).2]

theorem HardenedBlock.keys_ne (hentry : st.registry[a]? = some entry) (hapart : entry.key true ≠ entry.key false)
    (hcommon : block.NoCommonKey) :
    keyAfter a block.created true (entry.key true) ≠
      keyAfter a block.created false (entry.key false) := by
  rcases hblock.keyAfter_cases hentry true with
    ⟨-, hop⟩ | ⟨newOp, -, hmemOp, hop, -, hneOp⟩ <;>
  rcases hblock.keyAfter_cases hentry false with
    ⟨-, hrec⟩ | ⟨newRec, -, hmemRec, hrec, -, hneRec⟩ <;>
  rw [hop, hrec]
  · exact hapart
  · exact hneRec
  · exact hneOp.symm
  · rintro rfl
    exact hcommon a _ _ _ hmemOp hmemRec

/-- After a block under the hardening the keys are apart if and only if no two of its
rotations install one key in both roles. -/
theorem HardenedBlock.keysApart_iff (hnew : st.NewDeclarations block) (hapart : st.registry.KeysApart) :
    st'.registry.KeysApart ↔ block.NoCommonKey := by
  constructor
  · intro hapart' a oldKey oldKey' newKey hop hrec
    obtain ⟨entry, hentry, -⟩ := hblock.admitted _ hop
    rcases hblock.getElem?_registry hnew a with
      ⟨decl, -, -, hnone, -⟩ | ⟨-, hupdate⟩
    · rw [hnone] at hentry
      cases hentry
    · rw [hentry, Option.map_some] at hupdate
      refine hapart' a _ hupdate ?_
      calc keyAfter a block.created true entry.operational = newKey :=
            hblock.keyAfter_of_mem hentry hop
        _ = keyAfter a block.created false entry.recovery :=
            (hblock.keyAfter_of_mem hentry hrec).symm
  · intro hcommon a entry' hentry'
    rcases hblock.getElem?_registry hnew a with
      ⟨decl, hdecl, -, -, hdeclared⟩ | ⟨-, hupdate⟩
    · rw [hdeclared] at hentry'
      cases hentry'
      have hvalidate : validateSupervisionDescriptor _ = .ok () := hblock.admitted _ hdecl
      simp only [validateSupervisionDescriptor, ite_error_eq_ok] at hvalidate
      exact hvalidate.2.2.2.2.1
    · rw [hentry'] at hupdate
      obtain ⟨entry, hentry, rfl⟩ := Option.map_eq_some_iff.mp hupdate.symm
      exact hblock.keys_ne hentry (hapart a entry hentry) hcommon

end Rotations

/-- What keeps the two keys apart along a chain: the hardening is in force wherever
supervision is, declared assets are new, and no block installs one key in both roles. -/
structure KeepsKeysApart (env : ChainEnv) (st : SupervisedState) (block : CBlock) : Prop where
  hardened : env.HardenedAt (st.height + 1)
  new : st.NewDeclarations block
  /-- No block installs one key in both roles. -/
  noCommonKey : block.NoCommonKey

/-- Along a chain in which no block installs one key in both roles of an asset, the keys of
every supervised asset differ; and the next block brings two keys together exactly if it
installs one key in both roles. -/
theorem keys_differ_until_common_key {env : ChainEnv} {st : SupervisedState}
    (hchain : SupervisedChain env (SupervisedState.Initial env) (KeepsKeysApart env) st) :
    st.registry.KeysApart ∧
      ∀ (block : CBlock) (st' : SupervisedState) (undo : CBlockUndo),
        env.params.supervisionActive (st.height + 1) = true →
        env.params.posHardeningActiveAt (st.height + 1) = true → st.NewDeclarations block →
        st.connectBlock env block = .ok (st', undo) →
          (st'.registry.KeysApart ↔ block.NoCommonKey) := by
  have hapart : st.registry.KeysApart := by
    induction hchain with
    | start hinitial =>
      intro a entry hentry
      simp [hinitial.registry] at hentry
    | @block st st' block undo hchain hadmits hconnect ih =>
      have haccepted := acceptedBlock_of_connectBlock hconnect
      by_cases hactive : env.params.supervisionActive (st.height + 1) = true
      · have hblock : HardenedBlock env st block st' undo :=
          ⟨haccepted, hactive, hadmits.hardened hactive⟩
        exact (hblock.keysApart_iff hadmits.new ih).mpr hadmits.noCommonKey
      · rw [haccepted.registry_inactive hactive]
        exact ih
  exact ⟨hapart, fun block st' undo hactive hhardening hnew hconnect =>
    HardenedBlock.keysApart_iff ⟨acceptedBlock_of_connectBlock hconnect, hactive, hhardening⟩ hnew
      hapart⟩

def sampleEnv : ChainEnv where
  params := sampleParams
  crypto := transparentCrypto
  amounts := transparentAmounts fun _ => none
  peginValue _ := none
  coinbaseMaturityAt _ := 0

/-- A script that anyone can satisfy. -/
def openScript : CScript := [op1]

/-- A coinbase that pays nothing. -/
def emptyCoinbase (txid : Uint256) : CTransaction where
  txid
  vin := [{ prevout := ⟨0, COutPoint.nullIndex⟩, scriptSig := [0, 0] }]
  vout := [⟨.explicit 1, .explicit 0, [opReturn]⟩]

/-- The x coordinates of the base point and its first multiples. -/
def sampleKey : ℕ → XOnlyPubKey
  | 0 => 0x79be667ef9dcbbac55a06295ce870b07029bfcdb2dce28d959f2815b16f81798
  | 1 => 0xc6047f9441ed7d6d3045406e95c07cd85c778e4b8cef3ca7abac09b95c709ee5
  | 2 => 0xf9308a019258c31049344f85f89d5229b531c845836f99b08601f113bce036f9
  | _ => 0xe493dbf1c10d80f3581e4904930b1404cc6c13900ee0758474fa94abe8c4cd13

/-- Terms with the pause capability and the first two keys. -/
def sampleDescriptor : SupervisionDescriptor := ⟨1, 2, sampleKey 0, sampleKey 1⟩

def sampleEntropy : Uint256 :=
  generateSupervisedAssetEntropy transparentCrypto ⟨7, 0⟩ 0 sampleDescriptor

def sampleAsset : CAsset := calculateAsset transparentCrypto sampleEntropy

/-- A record that freezes a target of the sample asset, with no signature in it. -/
def inertRecord : CScript :=
  buildSupervisionRecordScript ⟨.freeze, sampleAsset, 77, 0, List.replicate 64 0⟩

/-- The tip before supervision: two coins of the policy asset, one behind a record that no
rule has looked at. -/
def supervisedStart : SupervisedState where
  height := 9
  coins := ((∅ : CCoinsView).insert ⟨7, 0⟩
    ⟨⟨.explicit 1, .explicit 10, openScript⟩, 5, false⟩).insert ⟨8, 0⟩
    ⟨⟨.explicit 1, .explicit 5, inertRecord⟩, 5, false⟩
  registry := ∅

def issuanceTx : CTransaction where
  txid := 20
  vin := [{ prevout := ⟨7, 0⟩, assetIssuance := ⟨0, 0, .explicit 100, .explicit 1⟩ }]
  vout := [⟨.explicit 1, .explicit 10, openScript⟩,
    ⟨.explicit sampleAsset, .explicit 100, openScript⟩,
    ⟨.explicit (calculateReissuanceToken transparentCrypto sampleEntropy false), .explicit 1,
      openScript⟩,
    ⟨.explicit sampleAsset, .explicit 0, buildSupervisionScript sampleAsset sampleDescriptor⟩]

def issuanceBlock : CBlock where
  vtx := [emptyCoinbase 30, issuanceTx]
  txids_nodup := by decide

def signedRecord (kind : SupervisionRecordKind) (target : Uint256) (oldKey signer : XOnlyPubKey)
    (firstInput : COutPoint) : CTxOut :=
  let record : SupervisionRecord := ⟨kind, sampleAsset, target, oldKey, []⟩
  let signature := signer.bytes ++
    (supervisionRecordSigHash transparentCrypto record firstInput).bytes
  ⟨.explicit sampleAsset, .explicit 0, buildSupervisionRecordScript { record with signature }⟩

/-- A block that moves the policy asset along, beside further outputs. -/
def recordBlock (coinbase txid : Uint256) (hne : ([coinbase, txid] : List Uint256).Nodup)
    (spends : COutPoint) (records : List CTxOut) : CBlock where
  vtx := [emptyCoinbase coinbase, { txid
                                    vin := [{ prevout := spends }]
                                    vout := ⟨.explicit 1, .explicit 10, openScript⟩ :: records }]
  txids_nodup := by simpa [emptyCoinbase] using hne

/-- Both keys of the sample asset are rotated to the third one. -/
def commonKeyBlock : CBlock :=
  recordBlock 31 21 (by decide) ⟨20, 0⟩
    [signedRecord .rotateOperational (sampleKey 2) (sampleKey 0) (sampleKey 1) ⟨20, 0⟩,
      signedRecord .rotateRecovery (sampleKey 2) (sampleKey 1) (sampleKey 1) ⟨20, 0⟩]

theorem supervisedStart_initial : supervisedStart.Initial sampleEnv where
  registry := rfl
  heights := by decide +kernel
  inactive := by decide

theorem hardenedAt_sampleEnv (height : ℕ) : sampleEnv.HardenedAt height := id

theorem created_issuanceBlock : issuanceBlock.created =
    [.other, .other, .other, .other, .declaration ⟨sampleAsset, sampleDescriptor⟩] := by
  decide +kernel

theorem newDeclarations_issuanceBlock : supervisedStart.NewDeclarations issuanceBlock where
  nodup := by
    rw [CBlock.declared, created_issuanceBlock]
    exact nodup_singleton sampleAsset
  new a _ := by simp [supervisedStart]

theorem newDeclarations_of_nil {block : CBlock} (hnil : block.declared = [])
    (st : SupervisedState) : st.NewDeclarations block where
  nodup := by simp [hnil]
  new a ha := by simp [hnil] at ha

/-- The sample asset is issued, and a block with one rotation of each key makes them equal. -/
theorem common_key_accepted : ∃ st, SupervisedChain sampleEnv (SupervisedState.Initial sampleEnv)
    (fun st block => sampleEnv.HardenedAt (st.height + 1) ∧ st.NewDeclarations block) st ∧
      ¬ st.registry.KeysApart := by
  obtain ⟨⟨st, undo⟩, hissuance, hrun⟩ := exists_ok
    (supervisedStart.connectBlock sampleEnv issuanceBlock)
    (fun r => (r.1.connectBlock sampleEnv commonKeyBlock).toOption.any fun r' =>
      r'.1.registry[sampleAsset]?.any fun e => e.operational = e.recovery) (by decide +kernel)
  obtain ⟨⟨st', undo'⟩, hcommon, hrun⟩ := exists_ok _ _ hrun
  refine ⟨st', .block (.block (.start supervisedStart_initial)
    ⟨hardenedAt_sampleEnv _, newDeclarations_issuanceBlock⟩ hissuance)
    ⟨hardenedAt_sampleEnv _, newDeclarations_of_nil (by decide +kernel) _⟩ hcommon, ?_⟩
  intro hapart
  obtain ⟨entry, hentry, heq⟩ := (Option.any_eq_true _ _).mp hrun
  exact hapart sampleAsset entry hentry (by simpa using heq)

/-- The chain that issues the sample asset keeps its keys apart. -/
theorem keys_differ_until_common_key_issued : ∃ st undo,
    supervisedStart.connectBlock sampleEnv issuanceBlock = .ok (st, undo) ∧
      sampleAsset ∈ st.registry ∧ st.registry.KeysApart := by
  obtain ⟨⟨st, undo⟩, hissuance, hrun⟩ := exists_ok
    (supervisedStart.connectBlock sampleEnv issuanceBlock)
    (fun r => r.1.registry.contains sampleAsset) (by decide +kernel)
  refine ⟨st, undo, hissuance, ExtTreeMap.mem_iff_contains.mpr hrun,
    (keys_differ_until_common_key (.block (.start supervisedStart_initial)
      ⟨hardenedAt_sampleEnv _, newDeclarations_issuanceBlock, ?_⟩ hissuance)).1⟩
  intro a oldKey oldKey' newKey hmem
  simp [created_issuanceBlock] at hmem

end Sequentia
