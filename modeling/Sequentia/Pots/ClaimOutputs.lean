import Sequentia.Lib.Checks
import Sequentia.Pots.Claim
import Sequentia.Stake.Spendable

/-!
# The round outputs of a claim

A round output of an accepted claim continues one round of it: with the same terms and
exactly one bucket more marked paid. The claim's own record of a round, its `Work`,
otherwise stays what the inputs made of it.
-/

namespace Sequentia

open Std KeyedMap Checks List ExtTreeMap

/-- The output `r` continues the round `w`. -/
structure Continued (w : Work) (r : RoundOut) (b : ℕ) : Prop where
  bucket : w.bucket = some b
  lt : b < w.round.buckets
  unpaid : w.round.isPaid b = false
  paid : ∀ b' < w.round.buckets, r.round.isPaid b' = (w.round.isPaid b' || b' == b)
  /-- Another bucket is left. -/
  left : r.round.unpaid ≠ 0
  value : w.outValue = r.value
  weight : r.round.weight = w.round.weight
  signerWeight : r.round.signerWeight = w.round.signerWeight
  distributable : r.round.distributable = w.round.distributable
  buckets : r.round.buckets = w.round.buckets

/-- What reading the outputs leaves alone. -/
structure SameRound (w w' : Work) : Prop where
  asset : w'.asset = w.asset
  round : w'.round = w.round
  inValue : w'.inValue = w.inValue
  repotOnly : w'.repotOnly = w.repotOnly

theorem SameRound.refl (w : Work) : SameRound w w := ⟨rfl, rfl, rfl, rfl⟩

theorem SameRound.trans {w w' w'' : Work} (h : SameRound w w') (h' : SameRound w' w'') :
    SameRound w w'' :=
  ⟨h'.asset.trans h.asset, h'.round.trans h.round, h'.inValue.trans h.inValue,
    h'.repotOnly.trans h.repotOnly⟩

theorem foldlM_compareBucket {before after : PosRound} {n : ℕ} {added : Option ℕ}
    (hrun : (List.range n).foldlM (compareBucket before after) none = .ok added) :
    (∀ a, added = some a → a < n) ∧
      ∀ b < n, after.isPaid b = (before.isPaid b || decide (added = some b)) ∧
        (added = some b → before.isPaid b = false) := by
  have hinv := foldlM_induction
    (fun done (added : Option ℕ) =>
      (∀ a, added = some a → a ∈ done) ∧
      ∀ b ∈ done, after.isPaid b = (before.isPaid b || decide (added = some b)) ∧
        (added = some b → before.isPaid b = false)) ?_ (by simp) hrun
  · exact ⟨fun a ha => mem_range.mp (hinv.1 a ha),
      fun b hb => hinv.2 b (mem_range.mpr hb)⟩
  rintro done added b added' ⟨hmem, hdone⟩ hstep
  unfold compareBucket at hstep
  obtain ⟨hkept, hstep⟩ := ite_error_eq_ok.mp hstep
  split at hstep
  · next hnew =>
    obtain ⟨hnone, hstep⟩ := ite_error_eq_ok.mp hstep
    have hadded : added = none := by simpa using hnone
    cases hstep
    simp only [Bool.and_eq_true, Bool.not_eq_true'] at hnew
    refine ⟨by simp, fun b' hb' => ?_⟩
    by_cases heq : b' = b
    · subst heq
      simp [hnew.1, hnew.2]
    · have hb'' : b' ∈ done := by simpa [heq] using hb'
      have hold := (hdone b' hb'').1
      simp only [hadded, reduceCtorEq, decide_false, Bool.or_false] at hold
      simp [hold, Ne.symm heq]
  · next hold =>
    cases hstep
    refine ⟨fun a ha => mem_append_left _ (hmem a ha), fun b' hb' => ?_⟩
    rcases mem_append.mp hb' with hb' | hb'
    · exact hdone b' hb'
    · obtain rfl := mem_singleton.mp hb'
      by_cases hdoneb : b' ∈ done
      · exact hdone b' hdoneb
      · have hne : added ≠ some b' := fun heq => hdoneb (hmem b' heq)
        simp only [hne, decide_false, Bool.or_false, false_implies, and_true]
        simp only [Bool.and_eq_true, Bool.not_eq_true', not_and, Bool.not_eq_false] at hkept hold
        cases hb : before.isPaid b' with
        | true => exact hkept hb
        | false => simpa using hold hb

theorem Work.continueWith_ok {w w' : Work} {r : RoundOut} (hok : w.continueWith r = .ok w') :
    SameRound w w' ∧ ∃ b, Continued w' r b := by
  simp only [Work.continueWith, ite_error_eq_ok, bind_eq_ok] at hok
  obtain ⟨hterms, added, hrun, hsome, hleft, ⟨⟩⟩ := hok
  simp only [not_or, ne_eq, Decidable.not_not] at hterms
  obtain ⟨hweight, hsignerWeight, hdistributable, hbuckets⟩ := hterms
  obtain ⟨b, rfl⟩ : ∃ b, added = some b := Option.ne_none_iff_exists'.mp (by simpa using hsome)
  obtain ⟨hlt, hbits⟩ := foldlM_compareBucket hrun
  replace hlt := hlt b rfl
  refine ⟨⟨rfl, rfl, rfl, rfl⟩, b, rfl, hlt, (hbits b hlt).2 rfl, fun b' hb' => ?_, hleft, rfl,
    hweight, hsignerWeight, hdistributable, hbuckets⟩
  rw [(hbits b' hb').1]
  simp [Bool.beq_eq_decide_eq, eq_comm]

/-- A round spent by the claim, or one opened by it. -/
abbrev WorkSlot := RoundKey ⊕ (ℕ × CAsset)

namespace ClaimOutputs

variable {st st' : ClaimOutputs}

def lookup (st : ClaimOutputs) : WorkSlot → Option Work
  | .inl key => st.spentRounds[key]?
  | .inr key => st.fresh[key]?

def set (st : ClaimOutputs) (w : Work) : WorkSlot → ClaimOutputs
  | .inl key => { st with spentRounds := st.spentRounds.insert key w }
  | .inr key => { st with fresh := st.fresh.insert key w }

def slotOf (st : ClaimOutputs) (r : RoundOut) : WorkSlot :=
  if st.spentRounds.contains (r.round.epoch, r.asset, r.round.salt) then
    .inl (r.round.epoch, r.asset, r.round.salt)
  else .inr (r.round.epoch, r.asset)

theorem mem_all {w : Work} : w ∈ st.all ↔ ∃ s, st.lookup s = some w := by
  simp only [all, mem_append, mem_map, Prod.exists, exists_eq_right,
    mem_toList_iff_getElem?_eq_some, Sum.exists, lookup]

theorem lookup_set (w : Work) (s s' : WorkSlot) :
    (st.set w s).lookup s' = if s = s' then some w else st.lookup s' := by
  cases s <;> cases s' <;> simp [set, lookup, getElem?_insert_eq]

theorem slotOf_set {w w' : Work} {s : WorkSlot} (hs : st.lookup s = some w) (r : RoundOut) :
    (st.set w' s).slotOf r = st.slotOf r := by
  cases s with
  | inr key => rfl
  | inl key =>
    simp only [lookup] at hs
    simp only [set, slotOf, ← isSome_getElem?_eq_contains, getElem?_insert_eq]
    by_cases hkey : key = (r.round.epoch, r.asset, r.round.salt)
    · subst hkey
      simp [hs]
    · simp [hkey]

theorem continueRound_ok {r : RoundOut} (hok : st.continueRound r = .ok st') :
    ∃ w w', st.lookup (st.slotOf r) = some w ∧ w.bucket = none ∧ w.continueWith r = .ok w' ∧
      st' = st.set w' (st.slotOf r) ∧
      ((st.slotOf r).isRight = true → w.repotOnly = false ∧ w.round.salt = r.round.salt) := by
  unfold continueRound at hok
  split at hok
  · next w hw =>
    obtain ⟨hbucket, hok⟩ := ite_error_eq_ok.mp hok
    obtain ⟨w', hw', hok⟩ := bind_eq_ok.mp hok
    have hslot : st.slotOf r = .inl (r.round.epoch, r.asset, r.round.salt) := by
      simp [slotOf, ← isSome_getElem?_eq_contains, hw]
    cases hok
    rw [hslot]
    exact ⟨w, w', hw, by simpa using hbucket, hw', rfl, by simp⟩
  · next hnone =>
    split at hok
    · cases hok
    · next w hw =>
      obtain ⟨hfree, hok⟩ := ite_error_eq_ok.mp hok
      obtain ⟨w', hw', hok⟩ := bind_eq_ok.mp hok
      have hslot : st.slotOf r = .inr (r.round.epoch, r.asset) := by
        simp [slotOf, ← isSome_getElem?_eq_contains, hnone]
      cases hok
      simp only [Bool.or_eq_true, bne_iff_ne, not_or, ne_eq, Decidable.not_not,
        Option.isSome_iff_ne_none] at hfree
      rw [hslot]
      exact ⟨w, w', hw, hfree.2, hw', rfl, fun _ => ⟨by simpa using hfree.1.1, hfree.1.2⟩⟩

end ClaimOutputs

section Scan

variable {params : Params} {signer : CPubKey} {st₀ st st' : ClaimOutputs} {out : CTxOut}

theorem scriptPubKey_of_isFee (hfee : out.isFee = true) : out.scriptPubKey = [] := by
  simp only [CTxOut.isFee, Bool.and_eq_true, List.isEmpty_iff] at hfee
  exact hfee.1.1

theorem roundFromTxOut_of_isFee (hfee : out.isFee = true) : roundFromTxOut params out = none := by
  unfold roundFromTxOut
  split
  · rfl
  · split
    · rfl
    · rw [scriptPubKey_of_isFee hfee]
      rfl

/-- What one output does to the rounds: it continues one if it is a round, and else leaves
them alone. -/
theorem scanOutput_ok (hok : scanOutput params signer st out = .ok st') :
    (∀ r, roundFromTxOut params out = some r → r.signer = signer ∧ st.continueRound r = .ok st') ∧
    (roundFromTxOut params out = none →
      st'.spentRounds = st.spentRounds ∧ st'.fresh = st.fresh) := by
  revert hok
  fun_cases scanOutput params signer st out <;> intro hok <;> try cases hok
  case case1 hfee =>
    rw [roundFromTxOut_of_isFee hfee]
    exact ⟨by simp, fun _ => ⟨rfl, rfl⟩⟩
  case case4 r hr hsigner =>
    refine ⟨fun r' hr' => ?_, fun hnone => by simp [hr] at hnone⟩
    rw [hr, Option.some.injEq] at hr'
    exact hr' ▸ ⟨by simpa using hsigner, hok⟩
  case case7 hr _ _ _ _ => exact ⟨by simp [hr], fun _ => ⟨rfl, rfl⟩⟩
  case case8 hr _ => exact ⟨by simp [hr], fun _ => ⟨rfl, rfl⟩⟩

/-- What holds of the rounds of a claim after some of its outputs have been read. -/
structure Scanned (params : Params) (st₀ : ClaimOutputs) (done : List CTxOut)
    (st : ClaimOutputs) : Prop where
  slotOf : ∀ r, st.slotOf r = st₀.slotOf r
  /-- Rounds are those of the inputs. -/
  same : ∀ s w, st.lookup s = some w → ∃ w₀, st₀.lookup s = some w₀ ∧ SameRound w₀ w
  kept : ∀ s w₀, st₀.lookup s = some w₀ → ∃ w, st.lookup s = some w ∧ SameRound w₀ w
  continued : ∀ s w, st.lookup s = some w → w.bucket ≠ none →
    (s.isRight = true → w.repotOnly = false) ∧ ∃ out ∈ done, ∃ r b,
      roundFromTxOut params out = some r ∧ st₀.slotOf r = s ∧ Continued w r b
  continues : ∀ out ∈ done, ∀ r, roundFromTxOut params out = some r →
    ∃ w b, st.lookup (st₀.slotOf r) = some w ∧ Continued w r b ∧
      ((st₀.slotOf r).isRight = true → w.round.salt = r.round.salt)

/-- One more output keeps the facts. -/
theorem Scanned.step {done : List CTxOut} (hscanned : Scanned params st₀ done st)
    (hok : scanOutput params signer st out = .ok st') :
    Scanned params st₀ (done ++ [out]) st' := by
  obtain ⟨hround, hother⟩ := scanOutput_ok hok
  cases hr : roundFromTxOut params out with
  | none =>
    obtain ⟨hspent, hfresh⟩ := hother hr
    have hlookup : st'.lookup = st.lookup := by
      funext s
      cases s <;> simp [ClaimOutputs.lookup, hspent, hfresh]
    have hslot : st'.slotOf = st.slotOf := by
      funext r
      simp [ClaimOutputs.slotOf, hspent]
    refine ⟨fun r => by rw [hslot, hscanned.slotOf], ?_, ?_, ?_, ?_⟩
    · rw [hlookup]
      exact hscanned.same
    · rw [hlookup]
      exact hscanned.kept
    · rw [hlookup]
      intro s w hw hbucket
      obtain ⟨hright, out', hout', hrest⟩ := hscanned.continued s w hw hbucket
      exact ⟨hright, out', mem_append_left _ hout', hrest⟩
    · rw [hlookup]
      intro out' hout' r' hr'
      rcases mem_append.mp hout' with hout' | hout'
      · exact hscanned.continues out' hout' r' hr'
      · rw [mem_singleton.mp hout', hr] at hr'
        cases hr'
  | some r =>
    obtain ⟨w, w', hw, hnone, hcontinue, rfl, hright⟩ :=
      ClaimOutputs.continueRound_ok (hround r hr).2
    obtain ⟨hsame, b, hcontinued⟩ := Work.continueWith_ok hcontinue
    rw [hscanned.slotOf] at hw hright ⊢
    have hlookup := fun s => st.lookup_set w' (st₀.slotOf r) s
    refine ⟨fun r' => ?_, ?_, ?_, ?_, ?_⟩
    · rw [ClaimOutputs.slotOf_set hw, hscanned.slotOf]
    · intro s x hx
      rw [hlookup] at hx
      split at hx
      · next heq =>
        cases hx
        obtain ⟨w₀, hw₀, hsame₀⟩ := hscanned.same s w (heq ▸ hw)
        exact ⟨w₀, hw₀, hsame₀.trans hsame⟩
      · exact hscanned.same s x hx
    · intro s w₀ hw₀
      obtain ⟨x, hx, hsame₀⟩ := hscanned.kept s w₀ hw₀
      rw [hlookup]
      split
      · next heq =>
        rw [← heq, hw] at hx
        cases hx
        exact ⟨w', rfl, hsame₀.trans hsame⟩
      · exact ⟨x, hx, hsame₀⟩
    · intro s x hx hbucket
      rw [hlookup] at hx
      split at hx
      · next heq =>
        cases hx
        refine ⟨fun hs => ?_, out, by simp, r, b, hr, heq, hcontinued⟩
        rw [hsame.repotOnly]
        exact (hright (heq ▸ hs)).1
      · obtain ⟨hright', out', hout', hrest⟩ := hscanned.continued s x hx hbucket
        exact ⟨hright', out', mem_append_left _ hout', hrest⟩
    · intro out' hout' r' hr'
      rw [hlookup]
      rcases mem_append.mp hout' with hout' | hout'
      · obtain ⟨x, b', hx, hcontinued', hsalt⟩ := hscanned.continues out' hout' r' hr'
        split
        · next heq =>
          rw [← heq, hw] at hx
          cases hx
          simp [hcontinued'.bucket] at hnone
        · exact ⟨x, b', hx, hcontinued', hsalt⟩
      · rw [mem_singleton.mp hout', hr] at hr'
        cases hr'
        rw [if_pos rfl]
        exact ⟨w', b, rfl, hcontinued, fun hs => by rw [hsame.round, (hright hs).2]⟩

variable {spentRounds : ExtTreeMap RoundKey Work} {fresh : ExtTreeMap (ℕ × CAsset) Work}

/-- Reading all outputs establishes the facts. -/
theorem scanOutputs_ok {tx : CTransaction}
    (hspent : ∀ (k : RoundKey) (w : Work), spentRounds[k]? = some w → w.bucket = none)
    (hfresh : ∀ (k : ℕ × CAsset) (w : Work), fresh[k]? = some w → w.bucket = none)
    (hok : scanOutputs params signer spentRounds fresh tx = .ok st) :
    Scanned params ⟨spentRounds, fresh, ∅, ∅, []⟩ tx.vout st := by
  refine foldlM_induction (fun done st => Scanned params ⟨spentRounds, fresh, ∅, ∅, []⟩ done st)
    (fun _ _ _ _ hscanned hstep => hscanned.step hstep) ?_ hok
  refine ⟨fun _ => rfl, fun s w hw => ⟨w, hw, SameRound.refl w⟩,
    fun s w hw => ⟨w, hw, SameRound.refl w⟩, fun s w hw hbucket => ?_, by simp⟩
  cases s with
  | inl k => exact absurd (hspent k w hw) hbucket
  | inr k => exact absurd (hfresh k w hw) hbucket

/-- What an output puts into a pot of an asset. -/
def repotValue (asset : CAsset) (out : CTxOut) : ℤ :=
  match out.explicit? with
  | none => 0
  | some (a, value) => if a = asset ∧ (parsePotScript out.scriptPubKey).isSome then value else 0

theorem scanOutput_potOut (hok : scanOutput params signer st out = .ok st') (asset : CAsset) :
    st'.potOut.getD asset 0 = st.potOut.getD asset 0 + repotValue asset out := by
  unfold repotValue
  revert hok
  fun_cases scanOutput params signer st out <;> intro hok <;> try cases hok
  case case1 hfee =>
    have hnone : parsePotScript out.scriptPubKey = none := by
      rw [scriptPubKey_of_isFee hfee]
      rfl
    simp only [hnone]
    split <;> simp
  case case4 hexplicit r hr _ =>
    obtain ⟨w, w', -, -, -, rfl, -⟩ := ClaimOutputs.continueRound_ok hok
    have hnone : parsePotScript out.scriptPubKey = none := by
      cases hpot : parsePotScript out.scriptPubKey with
      | none => rfl
      | some s => simp [roundFromTxOut_of_parsePotScript hpot] at hr
    cases st.slotOf r <;> simp [ClaimOutputs.set, hnone, hexplicit]
  case case7 hexplicit _ _ hpot _ _ =>
    simp only [getD_tally, hexplicit, hpot, Option.isSome_some, and_true]
    omega
  case case8 hexplicit _ hpot => simp [hpot, hexplicit]

theorem scanOutputs_potOut {tx : CTransaction}
    (hok : scanOutputs params signer spentRounds fresh tx = .ok st) (asset : CAsset) :
    st.potOut.getD asset 0 = (tx.vout.map (repotValue asset)).sum := by
  refine foldlM_induction (fun done (st : ClaimOutputs) =>
    st.potOut.getD asset 0 = (done.map (repotValue asset)).sum) ?_ ?_ hok
  · intro done st out st' hdone hstep
    rw [scanOutput_potOut hstep, hdone]
    simp
  · simp

end Scan

end Sequentia
