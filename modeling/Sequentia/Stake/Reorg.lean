import Sequentia.CoinsUndo
import Sequentia.Lib.Rewind
import Sequentia.Stake.Revert

/-!
# Reorganisations

A node connects blocks and disconnects its tip in any order. Whatever it has reorganised, its UTXO
set, its registry and its height are those of a node that only ever connected the blocks of the
active chain, its tip can be disconnected, and a restart would rebuild its registry.
-/

namespace Sequentia

open Std List

section Tip

variable (params : Params) (crypto : Crypto) (genesis : Bool) (origin : Uint256 → ℕ × Bool)

/-- `DisconnectTip`, as far as coins and stake records go: a result that is not clean is an
error. -/
def ChainState.disconnectTip (st : ChainState) (block : CBlock) (undo : CBlockUndo) :
    Option ChainState :=
  match disconnectCoins genesis st.coins st.height block undo with
  | some (coins, true) =>
    some ⟨st.height - 1, coins, st.registry.posRevertBlockStake params block undo st.height⟩
  | _ => none

/-- `ConnectTip` and `DisconnectTip`. -/
def chainTip : Rewind ChainState CBlock CBlockUndo where
  step st block := (st.connectBlock params crypto block).toOption
  back st block undo := st.disconnectTip params genesis block undo

/-- The block is orderly where it is connected, and its identifiers belong to it alone. -/
structure Rewindable (st : ChainState) (block : CBlock) : Prop where
  orderly : ∀ st' undo, st.connectBlock params crypto block = .ok (st', undo) →
    Orderly params st.coins block undo (st.height + 1)
  origin : ∀ tx ∈ block.vtx, origin tx.txid = (st.height + 1, tx.isCoinBase)

/-- What a tip past the hardening height keeps. -/
structure ChainState.InStep (st : ChainState) : Prop where
  active : params.posHardeningActiveAt (st.height + 1) = true
  mirrors : Mirrors params st.coins st.registry
  unambiguous : Unambiguous params st.coins st.registry
  kept : Kept genesis origin st.coins

end Tip

variable {params : Params} {crypto : Crypto} {genesis : Bool} {origin : Uint256 → ℕ × Bool}
  {st st' start : ChainState} {block : CBlock} {undo : CBlockUndo}

/-- An orderly block is taken out of the registry without a trace. -/
theorem BlockFacts.revert_registry (hfacts : BlockFacts params st st' block undo)
    (hmirrors : Mirrors params st.coins st.registry)
    (hcoins : Unambiguous params st.coins st.registry)
    (horderly : Orderly params st.coins block undo (st.height + 1)) :
    st'.registry.posRevertBlockStake params block undo (st.height + 1) = st.registry := by
  have hdeleg := (hfacts.revert_deleg_iff hmirrors hcoins).mpr
    ((hfacts.delegSafe_iff hmirrors hcoins).mpr horderly.deleg)
  have hpayout := (hfacts.revert_payout_iff hmirrors hcoins).mpr horderly.payout
  have hstake := stakeSummary.revert_batch (hfacts.stakeOk hmirrors hcoins)
    (hfacts.connected.delta_flatMap fun _ => stakeItems_of_unspendable) hmirrors.stake
  have hpots := potSummary.revert_batch hfacts.potOk
    (hfacts.connected.delta_flatMap fun _ => potItems_of_unspendable) hmirrors.pot
  rw [hfacts.registry, StakeRegistry.posApplyBlockStake_eq, StakeRegistry.posRevertBlockStake_eq,
    StakeRegistry.mk.injEq]
  exact ⟨rfl, rfl, hstake, hdeleg, hpayout, hpots⟩

/-- The coin side of a connected block. -/
theorem connectCoins_of_connectBlock
    (hblock : st.connectBlock params crypto block = .ok (st', undo)) :
    connectCoins st.coins (st.height + 1) block = .ok (st'.coins, undo) := by
  unfold ChainState.connectBlock at hblock
  obtain ⟨⟨⟩, -, hblock⟩ := Checks.bind_eq_ok.mp hblock
  split at hblock
  · cases hblock
  · next coins undo' hcoins =>
    obtain ⟨⟨⟩, -, hblock⟩ := Checks.bind_eq_ok.mp hblock
    obtain ⟨⟨⟩, -, hblock⟩ := Checks.bind_eq_ok.mp hblock
    cases hblock
    exact hcoins

/-- A block that can be taken back keeps the tip in step, and is taken back exactly. -/
theorem ChainState.InStep.connectBlock (hcommittee : params.posPublicCommittee = true)
    (hst : st.InStep params genesis origin) (hrewind : Rewindable params crypto origin st block)
    (hblock : st.connectBlock params crypto block = .ok (st', undo)) :
    st'.InStep params genesis origin ∧ st'.disconnectTip params genesis block undo = some st := by
  have hfacts := ChainState.connectBlock_ok hcommittee hst.active hblock
  have horderly := hrewind.orderly st' undo hblock
  obtain ⟨hmirrors, hcoins⟩ := hfacts.mirrors hst.mirrors hst.unambiguous horderly
  have hheight : st'.height = st.height + 1 := hfacts.height
  obtain ⟨hkept, hundone⟩ := disconnectCoins_connectCoins (Nat.succ_ne_zero _) hrewind.origin
    hst.kept (connectCoins_of_connectBlock hblock)
  refine ⟨⟨?_, hmirrors, hcoins, hkept⟩, ?_⟩
  · rw [hheight]
    exact posHardeningActiveAt_succ hst.active
  · unfold ChainState.disconnectTip
    rw [hheight, hundone]
    dsimp only
    rw [hfacts.revert_registry hst.mirrors hst.unambiguous horderly]
    rfl

/-- One more block at the end of a run. -/
theorem connectBlocks_snoc {blocks : List CBlock}
    (hrun : start.connectBlocks params crypto blocks = .ok st)
    (hblock : st.connectBlock params crypto block = .ok (st', undo)) :
    start.connectBlocks params crypto (blocks ++ [block]) = .ok st' := by
  induction blocks generalizing start with
  | nil =>
    cases hrun
    exact Checks.bind_eq_ok.mpr ⟨_, hblock, rfl⟩
  | cons first blocks ih =>
    obtain ⟨⟨st₁, undo₁⟩, hfirst, hrest⟩ := Checks.bind_eq_ok.mp hrun
    exact Checks.bind_eq_ok.mpr ⟨_, hfirst, ih hrest⟩

/-- The blocks that the transactions of the sample chain are in. -/
def sampleOrigin (txid : Uint256) : ℕ × Bool :=
  if txid = 200 then (20, true) else if txid = 201 then (20, false) else (12, false)

end Sequentia
