import Mathlib.Data.List.TakeWhile
import Sequentia.Lib.Checks
import Sequentia.Stake.TxRecords

/-!
# Claims on pots that no block holds yet

A coin of the mempool has no height yet: claims that sweep it are judged as if it had been
created at the end of time. A claim of the second generation may not sweep such a pot. One of
the first generation shares it among the participants of that height, which are those at the
height of the block unless the cap on participants comes into force in between.
-/

namespace Sequentia

open Std KeyedMap Checks List

variable {params : Params} {crypto : Crypto} {registry : StakeRegistry} {height : ℕ}
  {coin seen : Coin}

def potSharers (params : Params) (registry : StakeRegistry) (signer : CPubKey) (height : ℕ) :
    ExtTreeMap CPubKey ℕ :=
  capParticipants params height (registry.participantsBefore signer height)

/-- A pot is shared alike by those who see it in the mempool and in the block. -/
def SharedAlike (params : Params) (registry : StakeRegistry) (coin seen : Coin) : Prop :=
  ∀ pot, potFromTxOut coin.out = some pot →
    potSharers params registry pot.signer seen.nHeight =
      potSharers params registry pot.signer coin.nHeight

theorem Coin.SeenAs.out_eq (hseen : coin.SeenAs height seen) : seen.out = coin.out := by
  rcases hseen with rfl | ⟨-, rfl⟩ <;> rfl

theorem Coin.SeenAs.isSpent_eq (hseen : coin.SeenAs height seen) : seen.isSpent = coin.isSpent := by
  rw [Coin.isSpent, hseen.out_eq, Coin.isSpent]

def PotInput.Alike (params : Params) (registry : StakeRegistry) (signer : CPubKey)
    (a b : PotInput) : Prop :=
  a.asset = b.asset ∧ a.value = b.value ∧
    potSharers params registry signer a.height = potSharers params registry signer b.height

theorem posComputePotShares_congr {signer : CPubKey} {pots pots' : List PotInput}
    (halike : List.Forall₂ (PotInput.Alike params registry signer) pots pots') :
    posComputePotShares params registry signer pots =
      posComputePotShares params registry signer pots' := by
  unfold posComputePotShares
  generalize (⟨∅, ∅⟩ : PosPotShares) = shares
  induction halike generalizing shares with
  | nil => rfl
  | @cons a b pots pots' hab _ ih =>
    obtain ⟨hasset, hvalue, hsharers⟩ := hab
    have hstep : shares.addPot params registry signer a = shares.addPot params registry signer b := by
      unfold PosPotShares.addPot
      unfold potSharers at hsharers
      rw [hasset, hvalue, hsharers]
    rw [foldl_cons, foldl_cons, hstep, ih]

/-- Inputs of a claim that agree up to the heights of pots. -/
structure SweepInputs.Alike (params : Params) (registry : StakeRegistry) (st st' : SweepInputs) :
    Prop where
  signer : st.signer = st'.signer
  /-- What the claimer brought. -/
  external : st.external = st'.external
  pots : ∀ signer, st.signer = some signer →
    List.Forall₂ (PotInput.Alike params registry signer) st.pots st'.pots
  /-- Without a pool there are none. -/
  none : st.signer = none → st.pots = [] ∧ st'.pots = []

theorem sweepInput_alike {st st' st₁ : SweepInputs} (hst : st.Alike params registry st')
    (hseen : coin.SeenAs height seen) (hshared : SharedAlike params registry coin seen)
    (hok : sweepInput st seen = .ok st₁) :
    ∃ st₁', sweepInput st' coin = .ok st₁' ∧ st₁.Alike params registry st₁' := by
  unfold sweepInput at hok ⊢
  rw [hseen.isSpent_eq, hseen.out_eq] at hok
  rw [← hst.signer, ← hst.external]
  by_cases hspent : coin.isSpent = true
  · rw [if_pos hspent] at hok ⊢
    cases hok
    exact ⟨st', rfl, hst⟩
  · rw [if_neg hspent] at hok ⊢
    cases hpot : potFromTxOut coin.out with
    | some pot =>
      simp only [hpot, ite_error_eq_ok, Except.ok.injEq] at hok ⊢
      obtain ⟨hsame, rfl⟩ := hok
      refine ⟨_, ⟨hsame, rfl⟩, rfl, rfl, fun signer hsigner => ?_, fun h => by cases h⟩
      cases hsigner
      refine rel_append ?_ (.cons ⟨rfl, rfl, hshared pot hpot⟩ .nil)
      cases hold : st.signer with
      | none =>
        rw [(hst.none hold).1, (hst.none hold).2]
        exact .nil
      | some s =>
        have hs : s = pot.signer := by simpa [hold] using hsame
        exact hs ▸ hst.pots s hold
    | none =>
      simp only [hpot] at hok ⊢
      cases hexplicit : coin.out.explicit? with
      | some p =>
        simp only [hexplicit, Except.ok.injEq] at hok ⊢
        subst hok
        exact ⟨_, rfl, rfl, rfl, hst.pots, hst.none⟩
      | none =>
        simp only [hexplicit, Except.ok.injEq] at hok ⊢
        subst hok
        exact ⟨st', rfl, hst⟩

/-- The coins of a transaction as they are seen, and as the block spends them. -/
def SeenAlike (params : Params) (registry : StakeRegistry) (height : ℕ) (seen coin : Coin) : Prop :=
  coin.SeenAs height seen ∧ SharedAlike params registry coin seen

theorem forall₂_zip {S : Coin → Coin → Prop} {vin : List CTxIn} {coins coins' : List Coin}
    (hcoins : List.Forall₂ S coins coins') :
    List.Forall₂ (fun p q : CTxIn × Coin => p.1 = q.1 ∧ S p.2 q.2) (vin.zip coins)
      (vin.zip coins') := by
  induction hcoins generalizing vin with
  | nil => simp
  | cons hS _ ih =>
    cases vin with
    | nil => exact .nil
    | cons txin vin => exact .cons ⟨rfl, hS⟩ ih

theorem checkPosPotClaimV1_seen {tx : CTransaction} {spent seen : List Coin}
    (hseen : List.Forall₂ (SeenAlike params registry height) seen spent)
    (hok : checkPosPotClaimV1 params crypto registry tx seen = .ok ()) :
    checkPosPotClaimV1 params crypto registry tx spent = .ok () := by
  unfold checkPosPotClaimV1 at hok ⊢
  have hcoins : List.Forall₂ (SeenAlike params registry height)
      ((tx.vin.zip seen).map Prod.snd) ((tx.vin.zip spent).map Prod.snd) := by
    rw [forall₂_map_left_iff, forall₂_map_right_iff]
    exact (forall₂_zip hseen).imp fun _ _ h => h.2
  obtain ⟨st, hinputs, hok⟩ := bind_eq_ok.mp hok
  obtain ⟨st', hinputs', halike⟩ := foldlM_simulation
    (R := SweepInputs.Alike params registry) (fun _ _ _ _ _ hst hS hstep =>
      sweepInput_alike hst hS.1 hS.2 hstep) hcoins
    (t := ⟨none, [], ∅⟩) ⟨rfl, rfl, fun _ h => (by cases h), fun _ => ⟨rfl, rfl⟩⟩ hinputs
  refine bind_eq_ok.mpr ⟨st', hinputs', ?_⟩
  rw [← halike.signer, ← halike.external]
  cases hsigner : st.signer with
  | none => rfl
  | some signer =>
    simp only [hsigner] at hok ⊢
    obtain ⟨⟨⟩, hexplicit, hok⟩ := bind_eq_ok.mp hok
    rw [posComputePotShares_congr (halike.pots signer hsigner)] at hok
    refine bind_eq_ok.mpr ⟨(), forM_forall₂ (fun seen coin hS hcheck => ?_) hcoins hexplicit, hok⟩
    unfold checkExplicitInput at hcheck ⊢
    rwa [hS.1.isSpent_eq, hS.1.out_eq] at hcheck

/-- From the second generation of records on, a coin of the block belongs to it however it is
seen. -/
theorem Coin.SeenAs.posSplitV2Coin_eq (hseen : coin.SeenAs height seen)
    (hactive : params.posSplitV2Coin height = true) (hheight : height ≤ CTxMemPool.mempoolHeight) :
    params.posSplitV2Coin seen.nHeight = params.posSplitV2Coin coin.nHeight := by
  rcases hseen with rfl | ⟨hcoin, rfl⟩
  · rfl
  · rw [hcoin, hactive]
    simp only [Params.posSplitV2Coin, Bool.and_eq_true, decide_eq_true_eq] at hactive ⊢
    exact ⟨hactive.1, hactive.2.trans hheight⟩

/-- A pot that may be swept is seen as it is. -/
theorem Coin.SeenAs.eq_of_lt (hseen : coin.SeenAs height seen)
    (hlt : seen.nHeight < posCoinUnconfirmed) : seen = coin := by
  rcases hseen with rfl | ⟨-, rfl⟩
  · rfl
  · exact (Nat.lt_irrefl posCoinUnconfirmed hlt).elim

variable (hactive : params.posSplitV2Coin height = true)
  (hheight : height ≤ CTxMemPool.mempoolHeight)

include hactive hheight

theorem scanInput_seen {st st' : ClaimInputs} {input input' : CTxIn × Coin}
    (htxin : input.1 = input'.1) (hseen : input'.2.SeenAs height input.2)
    (hok : scanInput params st input = .ok st') : scanInput params st input' = .ok st' := by
  have hround : roundFromCoin params input.2 = roundFromCoin params input'.2 := by
    rw [roundFromCoin, hseen.posSplitV2Coin_eq hactive hheight, hseen.out_eq, roundFromCoin]
  unfold scanInput at hok ⊢
  rw [hseen.isSpent_eq, hround, hseen.out_eq, htxin] at hok
  by_cases hspent : input'.2.isSpent = true
  · rwa [if_pos hspent] at hok ⊢
  · rw [if_neg hspent] at hok ⊢
    cases hr : roundFromCoin params input'.2 with
    | some r => simpa only [hr] using hok
    | none =>
      cases hpot : potFromTxOut input'.2.out with
      | none => simpa only [hr, hpot] using hok
      | some pot =>
        simp only [hr, hpot] at hok ⊢
        have hlt : input.2.nHeight < posCoinUnconfirmed := by
          unfold ClaimInputs.addPot at hok
          simp only [ite_error_eq_ok] at hok
          exact Nat.lt_of_not_le hok.2.1
        rwa [hseen.eq_of_lt hlt] at hok

theorem checkPosPotClaimV2_seen {tx : CTransaction} {spent seen : List Coin}
    (hseen : List.Forall₂ (fun seen coin : Coin => coin.SeenAs height seen) seen spent)
    (hok : checkPosPotClaimV2 params crypto registry tx seen = .ok ()) :
    checkPosPotClaimV2 params crypto registry tx spent = .ok () := by
  unfold checkPosPotClaimV2 claimRounds scanInputs at hok ⊢
  simp only [bind_assoc] at hok ⊢
  obtain ⟨inputs, hinputs, hok⟩ := bind_eq_ok.mp hok
  refine bind_eq_ok.mpr ⟨inputs, ?_, hok⟩
  have hstep : ∀ (st : ClaimInputs) (p q : CTxIn × Coin) (st' : ClaimInputs),
      p.1 = q.1 ∧ q.2.SeenAs height p.2 → scanInput params st p = .ok st' →
        scanInput params st q = .ok st' :=
    fun st p q st' hS hscan => scanInput_seen hactive hheight hS.1 hS.2 hscan
  exact foldlM_forall₂ hstep (forall₂_zip hseen) hinputs

theorem any_isV2Claim_seen {spent seen : List Coin}
    (hseen : List.Forall₂ (fun seen coin : Coin => coin.SeenAs height seen) seen spent) :
    seen.any (isV2Claim params) = spent.any (isV2Claim params) := by
  induction hseen with
  | nil => rfl
  | @cons seen coin _ _ hS _ ih =>
    have hone : isV2Claim params seen = isV2Claim params coin := by
      rw [isV2Claim, hS.isSpent_eq, hS.posSplitV2Coin_eq hactive hheight, hS.out_eq, isV2Claim]
    rw [any_cons, any_cons, hone, ih]

omit hactive

/-- A claim that passes as it is seen passes in the block, unless a pot is shared otherwise
there. -/
theorem checkPosPotClaim_seen {tx : CTransaction} {spent seen : List Coin}
    (hseen : List.Forall₂ (SeenAlike params registry height) seen spent)
    (hok : checkPosPotClaim params crypto registry tx seen height = .ok ()) :
    checkPosPotClaim params crypto registry tx spent height = .ok () := by
  have hcoins : List.Forall₂ (fun seen coin : Coin => coin.SeenAs height seen) seen spent :=
    hseen.imp fun _ _ h => h.1
  unfold checkPosPotClaim at hok ⊢
  cases hactive : params.posSplitV2Coin height with
  | false =>
    rw [hactive, Bool.false_and, if_neg Bool.false_ne_true] at hok
    rw [Bool.false_and, if_neg Bool.false_ne_true]
    exact checkPosPotClaimV1_seen hseen hok
  | true =>
    rw [hactive, Bool.true_and, any_isV2Claim_seen hactive hheight hcoins] at hok
    rw [Bool.true_and]
    by_cases hv2 : spent.any (isV2Claim params) = true
    · rw [if_pos hv2] at hok ⊢
      exact checkPosPotClaimV2_seen hactive hheight hcoins hok
    · rw [if_neg hv2] at hok ⊢
      exact checkPosPotClaimV1_seen hseen hok

end Sequentia
