import Sequentia.Transaction

/-!
# Chain parameters

The consensus parameters and the network-wide globals that the modelled rules read. A
height of zero switches a rule off or on exactly as the node's own predicates say.
-/

namespace Sequentia

/-- Consensus parameters and globals of a chain. -/
structure Params where
  /-- `MAX_MONEY`, a signed 64-bit number. -/
  maxMoney : ℤ
  maxMoney_lt : maxMoney < 2 ^ 63 := by decide
  /-- `policyAsset`, the asset that stake is counted in. -/
  policyAsset : CAsset
  conPos : Bool
  posPublicCommittee : Bool
  /-- `g_pos_committee_size`, a signed 32-bit number. -/
  posCommitteeSize : ℤ
  posCommitteeSize_lt : posCommitteeSize < 2 ^ 31 := by decide
  posMinStake : ℕ
  /-- `g_pos_slot_interval`, in seconds. -/
  posSlotInterval : ℕ
  /-- `g_pos_unbonding_period`, in slots. -/
  posUnbondingPeriod : ℕ
  /-- `g_pos_payout_notice`, in blocks. -/
  posPayoutNotice : ℕ
  /-- `g_pos_split_epoch`, in blocks. -/
  posSplitEpoch : ℕ
  /-- `pos_hardening_height`; zero is never. -/
  posHardeningHeight : ℕ
  /-- `pos_records_v2_height`; zero is never. -/
  posRecordsV2Height : ℕ
  /-- `split_payout_height`; zero is always. -/
  splitPayoutHeight : ℕ
  /-- `split_payout_chain_genesis`, the chain the flag day was written for. -/
  splitPayoutChainGenesis : Uint256
  hashGenesisBlock : Uint256
  /-- `g_supervision_height`; zero is never. -/
  supervisionHeight : ℕ
  peggedAsset : CAsset
  subsidyAsset : CAsset
  /-- `GetBlockSubsidy`, by height. -/
  blockSubsidy : ℕ → ℤ

namespace Params

variable (params : Params)

def moneyRange (value : ℤ) : Bool := decide (0 ≤ value) && decide (value ≤ params.maxMoney)

def posHardeningActiveAt (height : ℕ) : Bool :=
  decide (0 < params.posHardeningHeight) && decide (params.posHardeningHeight ≤ height)

/-- `PosSplitV2Coin`: the coin was created under the second generation of records. -/
def posSplitV2Coin (coinHeight : ℕ) : Bool :=
  decide (0 < params.posRecordsV2Height) && decide (params.posRecordsV2Height ≤ coinHeight)

def splitPayoutActiveAt (height : ℕ) : Bool :=
  params.splitPayoutHeight == 0 ||
    (!params.splitPayoutChainGenesis.isNull &&
      params.splitPayoutChainGenesis != params.hashGenesisBlock) ||
    decide (params.splitPayoutHeight ≤ height)

def supervisionActive (height : ℕ) : Bool :=
  decide (0 < params.supervisionHeight) && decide (params.supervisionHeight ≤ height)

def effectiveSlotSeconds : ℕ := if 0 < params.posSlotInterval then params.posSlotInterval else 1

def posRequiredUnbondingSeconds : ℕ := params.posUnbondingPeriod * params.effectiveSlotSeconds

end Params

end Sequentia
