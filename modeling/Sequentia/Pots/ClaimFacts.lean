import Sequentia.Pots.Settlement

/-!
# What an accepted claim amounts to

The rounds of a claim are the rounds and the groups of pots among its inputs, and the round
outputs continue some of them. The validator then compares what the rounds must keep and
pay with the outputs. The facts here are what the later files use of the validator.
-/

namespace Sequentia

open Std KeyedMap Checks

/-- The output `r` is what a claim on the pool leaves of the round `w` after paying the
bucket `b`. -/
structure Leaves (signer : CPubKey) (w : Work) (r : RoundOut) (b : ℕ) : Prop
    extends Continued w r b where
  /-- It belongs to the pool. -/
  signer : r.signer = signer
  asset : r.asset = w.asset
  epoch : r.round.epoch = w.round.epoch
  salt : r.round.salt = w.round.salt

structure ClaimFacts (params : Params) (crypto : Crypto) (registry : StakeRegistry)
    (tx : CTransaction) (spentCoins : List Coin) (signer : CPubKey) (outputs : ClaimOutputs) :
    Prop where
  rounds : ∀ input ∈ tx.vin.zip spentCoins, ∀ r, spentRound params input = some r →
    r.signer = signer ∧
      ∃ w, outputs.lookup (.inl r.key) = some w ∧ SameRound (Work.ofRound r) w
  spent : ∀ key w, outputs.lookup (.inl key) = some w → ∃ input ∈ tx.vin.zip spentCoins, ∃ r,
    spentRound params input = some r ∧ r.key = key ∧ SameRound (Work.ofRound r) w
  pots : ∀ key, potsOf params (tx.vin.zip spentCoins) key ≠ [] →
    ∃ w, outputs.lookup (.inr key) = some w
  opened : ∀ key w, outputs.lookup (.inr key) = some w →
    Opened params crypto registry signer
      (Work.ofPots key (potsOf params (tx.vin.zip spentCoins) key)) w
  continued : ∀ s w, outputs.lookup s = some w → w.bucket ≠ none → w.repotOnly = false ∧
    ∃ out ∈ tx.vout, ∃ r b, roundFromTxOut params out = some r ∧ outputs.slotOf r = s ∧
      Leaves signer w r b
  continues : ∀ out ∈ tx.vout, ∀ r, roundFromTxOut params out = some r →
    ∃ w b, outputs.lookup (outputs.slotOf r) = some w ∧ Leaves signer w r b
  potOut : ∀ asset, outputs.potOut.getD asset 0 = (tx.vout.map (repotValue asset)).sum

section Facts

variable {params : Params} {crypto : Crypto} {registry : StakeRegistry} {signer : CPubKey}
  {tx : CTransaction} {spentCoins : List Coin} {external : ExtTreeMap CAsset ℤ}
  {outputs : ClaimOutputs}

theorem ClaimOutputs.slotOf_eq_inl {r : RoundOut} {key : RoundKey}
    (hslot : outputs.slotOf r = .inl key) : r.key = key := by
  unfold ClaimOutputs.slotOf at hslot
  split at hslot
  · exact Sum.inl.inj hslot
  · cases hslot

theorem ClaimOutputs.slotOf_eq_inr {r : RoundOut} {key : ℕ × CAsset}
    (hslot : outputs.slotOf r = .inr key) : (r.round.epoch, r.asset) = key := by
  unfold ClaimOutputs.slotOf at hslot
  split at hslot
  · cases hslot
  · exact Sum.inr.inj hslot

theorem leaves_of_continued {w : Work} {r : RoundOut} {b : ℕ} {s : WorkSlot}
    (hslot : outputs.slotOf r = s) (hcontinued : Continued w r b) (hsigner : r.signer = signer)
    (hinl : ∀ key, s = .inl key → key = (w.round.epoch, w.asset, w.round.salt))
    (hinr : ∀ key, s = .inr key → key = (w.round.epoch, w.asset))
    (hsalt : s.isRight = true → w.round.salt = r.round.salt) : Leaves signer w r b := by
  cases s with
  | inl key =>
    have hkey := (ClaimOutputs.slotOf_eq_inl hslot).trans (hinl key rfl)
    simp only [RoundOut.key, Prod.mk.injEq] at hkey
    exact ⟨hcontinued, hsigner, hkey.2.1, hkey.1, hkey.2.2⟩
  | inr key =>
    have hkey := (ClaimOutputs.slotOf_eq_inr hslot).trans (hinr key rfl)
    simp only [Prod.mk.injEq] at hkey
    exact ⟨hcontinued, hsigner, hkey.2, hkey.1, (hsalt rfl).symm⟩

theorem claimRounds_ok (hok : claimRounds params crypto registry tx spentCoins =
      .ok (some (signer, external, outputs))) :
    ClaimFacts params crypto registry tx spentCoins signer outputs := by
  unfold claimRounds at hok
  obtain ⟨inputs, hinputs, hok⟩ := bind_eq_ok.mp hok
  split at hok
  · cases hok
  next signer' hsigner =>
  obtain ⟨fresh, hfresh, hok⟩ := bind_eq_ok.mp hok
  obtain ⟨outputs', houtputs, hok⟩ := bind_eq_ok.mp hok
  cases hok
  have hgathered : Gathered params (tx.vin.zip spentCoins) _ :=
    foldlM_induction (Gathered params) (fun _ _ _ _ h hstep => h.step hstep) .empty hinputs
  obtain ⟨hfrom, hinto⟩ := openRounds_ok hfresh
  have hopens : ∀ (key : ℕ × CAsset) (w : Work), fresh[key]? = some w →
      openRound params crypto registry signer
        (Work.ofPots key (potsOf params (tx.vin.zip spentCoins) key)) = .ok w := by
    intro key w hw
    obtain ⟨w₀, hw₀, hopen⟩ := hfrom key w hw
    rw [hgathered.pots] at hw₀
    exact Option.some.inj (Option.ite_none_left_eq_some.mp hw₀).2 ▸ hopen
  -- Before the outputs are read, no round has a bucket paid.
  have hscanned := scanOutputs_ok
    (fun key w hw => by
      obtain ⟨-, -, r, -, -, rfl⟩ := (hgathered.rounds key w).mp hw
      rfl)
    (fun key w hw => (openRound_ok (hopens key w hw)).2) houtputs
  have hspent : ∀ key w, outputs.lookup (.inl key) = some w →
      ∃ input ∈ tx.vin.zip spentCoins, ∃ r,
        spentRound params input = some r ∧ r.key = key ∧ SameRound (Work.ofRound r) w := by
    intro key w hw
    obtain ⟨w₀, hw₀, hsame⟩ := hscanned.same _ w hw
    obtain ⟨input, hinput, r, hr, hkey, rfl⟩ := (hgathered.rounds key w₀).mp hw₀
    exact ⟨input, hinput, r, hr, hkey, hsame⟩
  have hopened : ∀ key w, outputs.lookup (.inr key) = some w →
      Opened params crypto registry signer
        (Work.ofPots key (potsOf params (tx.vin.zip spentCoins) key)) w := by
    intro key w hw
    obtain ⟨w', hw', hsame⟩ := hscanned.same _ w hw
    have hopened := (openRound_ok (hopens key w' hw')).1
    exact ⟨hsame.asset.trans hopened.asset, hsame.inValue.trans hopened.inValue,
      by rw [hsame.round, hopened.epoch], hopened.money,
      by rw [hsame.round, hsame.repotOnly]; exact hopened.terms⟩
  have hcontinues : ∀ out ∈ tx.vout, ∀ r, roundFromTxOut params out = some r →
      ∃ w b, outputs.lookup (outputs.slotOf r) = some w ∧ Leaves signer w r b := by
    intro out hout r hr
    have hpool : ∀ out ∈ tx.vout, ∀ r, roundFromTxOut params out = some r →
        r.signer = signer := by
      refine foldlM_forall ?_ houtputs
      exact fun _ _ _ hstep r hr => ((scanOutput_ok hstep).1 r hr).1
    obtain ⟨w, b, hw, hcontinued, hsalt⟩ := hscanned.continues out hout r hr
    rw [← hscanned.slotOf] at hw hsalt
    refine ⟨w, b, hw, leaves_of_continued rfl hcontinued (hpool out hout r hr) ?_ ?_ hsalt⟩
    · intro key hkey
      obtain ⟨-, -, r', -, rfl, hsame⟩ := hspent key w (hkey ▸ hw)
      rw [hsame.round, hsame.asset]
      rfl
    · intro key hkey
      have hopen := hopened key w (hkey ▸ hw)
      rw [hopen.epoch, hopen.asset]
      rfl
  refine ⟨fun input hinput r hr => ?_, hspent, fun key hkey => ?_, hopened, fun s w hw hbucket => ?_,
    hcontinues, scanOutputs_potOut houtputs⟩
  · have hpool := hgathered.signer input hinput r hr
    rw [hsigner, Option.some.injEq] at hpool
    exact ⟨hpool.symm, hscanned.kept (.inl r.key) _
      ((hgathered.rounds r.key _).mpr ⟨input, hinput, r, hr, rfl, rfl⟩)⟩
  · have hmem : key ∈ fresh := hinto key (ExtTreeMap.mem_iff_isSome_getElem?.mpr (by
      rw [hgathered.pots, if_neg hkey]
      rfl))
    obtain ⟨w₀, hw₀⟩ := Option.isSome_iff_exists.mp (ExtTreeMap.mem_iff_isSome_getElem?.mp hmem)
    obtain ⟨w, hw, -⟩ := hscanned.kept (.inr key) w₀ hw₀
    exact ⟨w, hw⟩
  · obtain ⟨hright, out, hout, r, -, hr, hslot, -⟩ := hscanned.continued s w hw hbucket
    rw [← hscanned.slotOf] at hslot
    obtain ⟨w', b, hw', hleaves⟩ := hcontinues out hout r hr
    rw [hslot, hw] at hw'
    cases hw'
    refine ⟨?_, out, hout, r, b, hr, hslot, hleaves⟩
    cases s with
    | inl key =>
      obtain ⟨-, -, r', -, -, hsame⟩ := hspent key w hw
      exact hsame.repotOnly
    | inr key => exact hright rfl

theorem checkPosPotClaimV2_ok (hrounds : claimRounds params crypto registry tx spentCoins =
      .ok (some (signer, external, outputs)))
    (haccepted : checkPosPotClaimV2 params crypto registry tx spentCoins = .ok ()) :
    ∃ settlement, settleAll params crypto registry signer outputs.all = .ok settlement ∧
      checkRepot outputs.potOut settlement.needPot = .ok () := by
  unfold checkPosPotClaimV2 at haccepted
  obtain ⟨found, hfound, haccepted⟩ := bind_eq_ok.mp haccepted
  rw [hrounds] at hfound
  cases hfound
  obtain ⟨settlement, hsettle, haccepted⟩ := bind_eq_ok.mp haccepted
  obtain ⟨⟨⟩, hrepot, -⟩ := bind_eq_ok.mp haccepted
  exact ⟨settlement, hsettle, hrepot⟩

end Facts

end Sequentia
