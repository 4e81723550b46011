import Sequentia.Lib.Checks
import Sequentia.Pots.Claim

/-!
# The inputs of a claim

Going through the inputs, a claim collects every round it spends once and adds the pots it
spends up by epoch and asset. Each sum of pots then opens a round, on the terms the
registry gives it. This file states what the collected rounds are in terms of the coins.
-/

namespace Sequentia

open Std KeyedMap Checks List ExtTreeMap

/-- The record of a spent round. -/
def Work.ofRound (r : RoundOut) : Work where
  asset := r.asset
  round := r.round
  inValue := r.value

/-- The record of a group of pots, before it opens a round. -/
def Work.ofPots (key : ℕ × CAsset) (pots : List (COutPoint × ℤ)) : Work :=
  { Work.ofEpoch key.1 key.2 with
    inValue := (pots.map Prod.snd).sum
    pots := pots.map Prod.fst }

section Coins

variable (params : Params)

def spentRound (input : CTxIn × Coin) : Option RoundOut :=
  if input.2.isSpent then none else roundFromCoin params input.2

def spentPot (input : CTxIn × Coin) : Option PotOut :=
  if input.2.isSpent then none
  else
    match roundFromCoin params input.2 with
    | some _ => none
    | none => potFromTxOut input.2.out

/-- A spent pot with the group it belongs to. -/
def potEntry (input : CTxIn × Coin) : Option ((ℕ × CAsset) × COutPoint × ℤ) :=
  (spentPot params input).map fun pot =>
    ((input.2.nHeight / params.posSplitEpoch, pot.asset), input.1.prevout, pot.value)

def potsOf (inputs : List (CTxIn × Coin)) (key : ℕ × CAsset) : List (COutPoint × ℤ) :=
  ((inputs.filterMap (potEntry params)).filter fun e => e.1 = key).map Prod.snd

end Coins

variable {params : Params} {st st' : ClaimInputs} {input : CTxIn × Coin}

/-- What identifies a round output. -/
def RoundOut.key (r : RoundOut) : RoundKey := (r.round.epoch, r.asset, r.round.salt)

theorem potsOf_append (done : List (CTxIn × Coin)) (key : ℕ × CAsset) :
    potsOf params (done ++ [input]) key = potsOf params done key ++
      (((potEntry params input).toList.filter fun e => e.1 = key).map Prod.snd) := by
  cases hentry : potEntry params input <;>
    simp [potsOf, filterMap_append, hentry]

/-- The pool of the claim after an input of the pool `s`. -/
theorem ClaimInputs.onePool_ok {s : CPubKey} (hok : st.onePool s = .ok st') :
    (∀ s', st.signer = some s' → s' = s) ∧ st' = { st with signer := some s } := by
  unfold ClaimInputs.onePool at hok
  obtain ⟨hsame, hok⟩ := ite_error_eq_ok.mp hok
  cases hok
  refine ⟨fun s' hs' => ?_, rfl⟩
  simpa [hs'] using hsame

theorem ClaimInputs.addRound_ok {r : RoundOut} (hok : st.addRound r = .ok st') :
    (∀ s', st.signer = some s' → s' = r.signer) ∧ r.key ∉ st.spentRounds ∧
      st' = { st with
        signer := some r.signer, spentRounds := st.spentRounds.insert r.key (Work.ofRound r) } := by
  unfold ClaimInputs.addRound at hok
  obtain ⟨st₁, hpool, hok⟩ := bind_eq_ok.mp hok
  obtain ⟨hsame, rfl⟩ := ClaimInputs.onePool_ok hpool
  obtain ⟨hnew, hok⟩ := ite_error_eq_ok.mp hok
  cases hok
  refine ⟨hsame, ?_, rfl⟩
  simpa [ExtTreeMap.contains_iff_mem, RoundOut.key] using hnew

theorem ClaimInputs.addPot_ok {pot : PotOut}
    (hok : st.addPot params input.2 input.1.prevout pot = .ok st') :
    (∀ s', st.signer = some s' → s' = pot.signer) ∧
      ∃ w, w = st.fresh.getD (input.2.nHeight / params.posSplitEpoch, pot.asset)
          (Work.ofEpoch (input.2.nHeight / params.posSplitEpoch) pot.asset) ∧
        st' = { st with
          signer := some pot.signer
          fresh := st.fresh.insert (input.2.nHeight / params.posSplitEpoch, pot.asset)
            { w with inValue := w.inValue + pot.value, pots := w.pots ++ [input.1.prevout] } } := by
  simp only [ClaimInputs.addPot, ite_error_eq_ok, bind_eq_ok] at hok
  obtain ⟨-, -, st₁, hpool, ⟨⟩⟩ := hok
  obtain ⟨hsame, rfl⟩ := ClaimInputs.onePool_ok hpool
  exact ⟨hsame, _, rfl, rfl⟩

theorem scanInput_ok (hok : scanInput params st input = .ok st') :
    (∃ r, spentRound params input = some r ∧ spentPot params input = none ∧
      st.addRound r = .ok st') ∨
    (∃ pot, spentRound params input = none ∧ spentPot params input = some pot ∧
      st.addPot params input.2 input.1.prevout pot = .ok st') ∨
    (spentRound params input = none ∧ spentPot params input = none ∧
      st'.signer = st.signer ∧ st'.spentRounds = st.spentRounds ∧ st'.fresh = st.fresh) := by
  revert hok
  simp only [spentRound, spentPot]
  fun_cases scanInput params st input <;> intro hok <;> try cases hok
  · next hspent => simp [hspent]
  · next hspent r hr =>
    rw [if_neg hspent]
    exact .inl ⟨r, hr, by simp [hr], hok⟩
  · next hspent hr pot hpot =>
    simp only [if_neg hspent]
    exact .inr (.inl ⟨pot, hr, by simpa [hr] using hpot, hok⟩)
  · next hspent hr hpot _ _ _ =>
    rw [if_neg hspent, if_neg hspent]
    exact .inr (.inr ⟨hr, by simpa [hr] using hpot, rfl, rfl, rfl⟩)

structure Gathered (params : Params) (done : List (CTxIn × Coin)) (st : ClaimInputs) :
    Prop where
  rounds : ∀ (key : RoundKey) (w : Work), st.spentRounds[key]? = some w ↔
    ∃ input ∈ done, ∃ r, spentRound params input = some r ∧ r.key = key ∧ w = Work.ofRound r
  pots : ∀ key : ℕ × CAsset, st.fresh[key]? =
    if potsOf params done key = [] then none else some (Work.ofPots key (potsOf params done key))
  /-- They belong to the pool. -/
  signer : ∀ input ∈ done, ∀ r, spentRound params input = some r → st.signer = some r.signer

theorem Gathered.empty : Gathered params [] ClaimInputs.empty where
  rounds := by simp [ClaimInputs.empty]
  pots := by simp [ClaimInputs.empty, potsOf]
  signer := by simp

/-- The group a pot joins, which may still be empty. -/
theorem Gathered.getD_fresh {done : List (CTxIn × Coin)} (hgathered : Gathered params done st)
    (key : ℕ × CAsset) :
    st.fresh.getD key (Work.ofEpoch key.1 key.2) = Work.ofPots key (potsOf params done key) := by
  rw [getD_eq_getD_getElem?, hgathered.pots]
  split
  · next hnil =>
    rw [hnil]
    rfl
  · rfl

/-- One more input keeps the facts. -/
theorem Gathered.step {done : List (CTxIn × Coin)} (hgathered : Gathered params done st)
    (hok : scanInput params st input = .ok st') : Gathered params (done ++ [input]) st' := by
  rcases scanInput_ok hok with ⟨r, hround, hpot, hadd⟩ | ⟨pot, hround, hpot, hadd⟩ |
    ⟨hround, hpot, hsigner, hrounds, hfresh⟩
  · obtain ⟨hsame, hnew, rfl⟩ := ClaimInputs.addRound_ok hadd
    refine ⟨fun key w => ?_, fun key => ?_, fun input' hinput' r' hr' => ?_⟩
    · rw [getElem?_insert_eq]
      constructor
      · intro hw
        split at hw
        · next heq =>
          exact ⟨input, by simp, r, hround, heq, (Option.some.inj hw).symm⟩
        · obtain ⟨input', hinput', hrest⟩ := (hgathered.rounds key w).mp hw
          exact ⟨input', mem_append_left _ hinput', hrest⟩
      · rintro ⟨input', hinput', r', hr', rfl, rfl⟩
        rcases mem_append.mp hinput' with hinput' | hinput'
        · have hold := (hgathered.rounds r'.key _).mpr ⟨input', hinput', r', hr', rfl, rfl⟩
          -- The new round has another identity, or the claim would have been refused.
          have hne : r.key ≠ r'.key := fun heq =>
            hnew (heq ▸ mem_iff_isSome_getElem?.mpr (by rw [hold]; rfl))
          rw [if_neg hne, hold]
        · rw [mem_singleton.mp hinput', hround, Option.some.injEq] at hr'
          rw [hr', if_pos rfl]
    · rw [potsOf_append]
      simpa [potEntry, hpot] using hgathered.pots key
    · rcases mem_append.mp hinput' with hinput' | hinput'
      · rw [hsame _ (hgathered.signer input' hinput' r' hr')]
      · rw [mem_singleton.mp hinput', hround, Option.some.injEq] at hr'
        rw [hr']
  · obtain ⟨hsame, w, rfl, rfl⟩ := ClaimInputs.addPot_ok hadd
    refine ⟨fun key w => ?_, fun key => ?_, fun input' hinput' r' hr' => ?_⟩
    · rw [hgathered.rounds key w]
      simp [hround]
    · rw [getElem?_insert_eq, hgathered.getD_fresh (_, _), potsOf_append]
      simp only [potEntry, hpot, Option.map_some, Option.toList_some, filter_singleton]
      split
      · next heq =>
        subst heq
        simp [Work.ofPots]
      · next hne => simpa [hne] using hgathered.pots key
    · rcases mem_append.mp hinput' with hinput' | hinput'
      · rw [hsame _ (hgathered.signer input' hinput' r' hr')]
      · simp [mem_singleton.mp hinput', hround] at hr'
  · refine ⟨fun key w => ?_, fun key => ?_, fun input' hinput' r' hr' => ?_⟩
    · rw [hrounds, hgathered.rounds key w]
      simp [hround]
    · rw [hfresh, potsOf_append]
      simpa [potEntry, hpot] using hgathered.pots key
    · rcases mem_append.mp hinput' with hinput' | hinput'
      · rw [hsigner, hgathered.signer input' hinput' r' hr']
      · simp [mem_singleton.mp hinput', hround] at hr'

section Opening

variable {crypto : Crypto} {registry : StakeRegistry} {signer : CPubKey}

/-- The record `w'` of a round opened from the pots `w`. -/
structure Opened (params : Params) (crypto : Crypto) (registry : StakeRegistry)
    (signer : CPubKey) (w w' : Work) : Prop where
  asset : w'.asset = w.asset
  inValue : w'.inValue = w.inValue
  epoch : w'.round.epoch = w.round.epoch
  money : params.moneyRange w.inValue = true
  /-- If there is anybody to pay, the terms are those of the registry, and nobody has been
  paid. -/
  terms : w'.repotOnly = false →
    let members := registry.participantsBefore signer (params.epochStart w.round.epoch)
    w'.round.weight = members.toList.foldl (fun total e => toUint64 (total + e.2)) 0 ∧
      w'.round.weight ≠ 0 ∧ w'.round.signerWeight = members.getD signer 0 ∧
      w'.round.distributable = w.inValue ∧
      w'.round.buckets = posRoundBucketCount members.size ∧
      ∀ b, w'.round.isPaid b = false

theorem isPaid_replicate (round : PosRound) (n b : ℕ)
    (hpaid : round.paid = List.replicate n 0) : round.isPaid b = false := by
  have hbyte : (List.replicate n (0 : UInt8)).getD (b / 8) 0 = 0 := by
    rw [getD_eq_getElem?_getD, List.getElem?_replicate]
    split <;> rfl
  rw [PosRound.isPaid, hpaid, hbyte]
  exact Nat.zero_testBit _

theorem openRound_ok {w w' : Work} (hok : openRound params crypto registry signer w = .ok w') :
    Opened params crypto registry signer w w' ∧ w'.bucket = w.bucket := by
  unfold openRound at hok
  obtain ⟨hmoney, hok⟩ := ite_error_eq_ok.mp hok
  have hmoney' : params.moneyRange w.inValue = true := by simpa using hmoney
  split at hok
  · cases hok
    exact ⟨⟨rfl, rfl, rfl, hmoney', by simp⟩, rfl⟩
  · next htotal =>
    cases hok
    exact ⟨⟨rfl, rfl, rfl, hmoney', fun _ => ⟨rfl, htotal, rfl, rfl, rfl,
      fun b => isPaid_replicate _ _ b rfl⟩⟩, rfl⟩

theorem openRounds_ok {fresh opened : ExtTreeMap (ℕ × CAsset) Work}
    (hok : openRounds params crypto registry signer fresh = .ok opened) :
    (∀ (key : ℕ × CAsset) (w' : Work), opened[key]? = some w' →
      ∃ w, fresh[key]? = some w ∧ openRound params crypto registry signer w = .ok w') ∧
    ∀ key : ℕ × CAsset, key ∈ fresh → key ∈ opened := by
  have hinv := foldlM_induction
    (fun done (opened : ExtTreeMap (ℕ × CAsset) Work) =>
      (∀ (key : ℕ × CAsset) (w' : Work), opened[key]? = some w' → ∃ w, (key, w) ∈ done ∧
        openRound params crypto registry signer w = .ok w') ∧
      ∀ key : ℕ × CAsset, ∀ w : Work, (key, w) ∈ done → key ∈ opened)
    ?_ (by simp) hok
  · refine ⟨fun key w' hw' => ?_, fun key hkey => ?_⟩
    · obtain ⟨w, hw, hopen⟩ := hinv.1 key w' hw'
      exact ⟨w, mem_toList_iff_getElem?_eq_some.mp hw, hopen⟩
    · obtain ⟨w, hw⟩ := Option.isSome_iff_exists.mp (mem_iff_isSome_getElem?.mp hkey)
      exact hinv.2 key w (mem_toList_iff_getElem?_eq_some.mpr hw)
  rintro done opened ⟨key, w⟩ opened' ⟨hfrom, hinto⟩ hstep
  obtain ⟨w', hopen, hstep⟩ := bind_eq_ok.mp hstep
  cases hstep
  constructor
  · intro key' x hx
    rw [getElem?_insert_eq] at hx
    split at hx
    · next heq =>
      cases hx
      exact ⟨w, by simp [← heq], hopen⟩
    · obtain ⟨y, hy, hopen'⟩ := hfrom key' x hx
      exact ⟨y, mem_append_left _ hy, hopen'⟩
  · intro key' x hx
    rw [mem_insert, LawfulEqOrd.compare_eq_iff_eq]
    rcases mem_append.mp hx with hx | hx
    · exact .inr (hinto key' x hx)
    · simp only [mem_singleton, Prod.mk.injEq] at hx
      exact .inl hx.1.symm

end Opening

end Sequentia
