import Sequentia.Chain.Candidates

/-!
# The candidates stay in order

Entries are only written for blocks that are not candidates, or are taken out first. What a
history keeps is proved event by event: the keys are those of the blocks, provisional answers are
on the safe side, the candidates stand in order, and a valid block that is no candidate is worse
than a connected one.
-/

namespace Sequentia

open OrderedSet List

namespace ForkNode

variable {p : CertParams} {facts : Uint256 → ForkFacts} {quiet : Bool} {n n' : ForkNode}
  {h : Uint256} {e : BlockEntry}

@[simp] theorem setEntry_index_self (n : ForkNode) (h : Uint256) (e : BlockEntry) :
    (n.setEntry h e).index h = e := Function.update_self ..

theorem setEntry_index_of_ne {x : Uint256} (n : ForkNode) (e : BlockEntry) (hne : x ≠ h) :
    (n.setEntry h e).index x = n.index x := Function.update_of_ne hne ..

/-- The order between other blocks does not change. -/
theorem lt_setEntry {x y : Uint256} (hx : x ≠ h) (hy : y ≠ h) :
    (n.setEntry h e).lt p x y = n.lt p x y := by
  rw [lt, less, setEntry_index_of_ne n e hx, setEntry_index_of_ne n e hy]
  rfl

theorem sorted_setEntry {l : List Uint256} (hsorted : Sorted (n.lt p) l)
    (hne : ∀ x ∈ l, x ≠ h) : Sorted ((n.setEntry h e).lt p) l :=
  Sorted.congr hsorted fun x hx y hy => lt_setEntry (hne x hx) (hne y hy)

/-- Two entries that compare alike. -/
def SameKeys (e e' : BlockEntry) : Prop :=
  e.nChainWork = e'.nChainWork ∧ e.posCertified = e'.posCertified ∧
    e.posVrfScore = e'.posVrfScore ∧ e.nSequenceId = e'.nSequenceId ∧ e.address = e'.address

/-- The order does not change with an entry that compares alike. -/
theorem lt_eq_of_sameKeys {x y : Uint256} (hx : SameKeys (n'.index x) (n.index x))
    (hy : SameKeys (n'.index y) (n.index y)) : n'.lt p x y = n.lt p x y := by
  obtain ⟨hx1, hx2, hx3, hx4, hx5⟩ := hx
  obtain ⟨hy1, hy2, hy3, hy4, hy5⟩ := hy
  unfold lt less workComparator
  rw [hx1, hx2, hx3, hx4, hx5, hy1, hy2, hy3, hy4, hy5]

theorem sameKeys_refl (e : BlockEntry) : SameKeys e e := ⟨rfl, rfl, rfl, rfl, rfl⟩

/-- Nor does it change when such an entry is written. -/
theorem lt_setEntry_of_sameKeys (hkeys : SameKeys e (n.index h))
    (x y : Uint256) : (n.setEntry h e).lt p x y = n.lt p x y := by
  have hall : ∀ x, SameKeys ((n.setEntry h e).index x) (n.index x) := by
    intro x
    by_cases hx : x = h
    · rw [hx, setEntry_index_self]
      exact hkeys
    · rw [setEntry_index_of_ne n e hx]
      exact sameKeys_refl _
  exact lt_eq_of_sameKeys (hall x) (hall y)

/-- Entries are at different places. -/
def Distinct (n : ForkNode) : Prop := Function.Injective fun h => (n.index h).address

variable (hdistinct : n.Distinct)

include hdistinct

theorem totalOn_lt : TotalOn (n.lt p) fun _ => True :=
  totalOn_less hdistinct

/-- Entries stay where they are. -/
theorem Distinct.congr
    (haddress : ∀ x, (n'.index x).address = (n.index x).address) : n'.Distinct := by
  unfold Distinct
  rw [funext haddress]
  exact hdistinct

theorem distinct_setEntry
    (haddress : e.address = (n.index h).address) : (n.setEntry h e).Distinct := by
  refine hdistinct.congr fun x => ?_
  by_cases hx : x = h
  · rw [hx, setEntry_index_self, haddress]
  · rw [setEntry_index_of_ne n e hx]

theorem eraseAll_spec (hsorted : Sorted (n.lt p) n.candidates)
    (hs : List Uint256) :
    Sorted (n.lt p) (n.eraseAll p hs).candidates ∧
      ∀ x, x ∈ (n.eraseAll p hs).candidates ↔ x ∉ hs ∧ x ∈ n.candidates := by
  have hgen : ∀ (hs l : List Uint256), Sorted (n.lt p) l →
      Sorted (n.lt p) (hs.foldl (fun l h => OrderedSet.erase (n.lt p) h l) l) ∧
        ∀ x, x ∈ hs.foldl (fun l h => OrderedSet.erase (n.lt p) h l) l ↔ x ∉ hs ∧ x ∈ l := by
    intro hs
    induction hs with
    | nil => intro l hl; exact ⟨hl, by simp⟩
    | cons y hs ih =>
      intro l hl
      obtain ⟨hsorted', hmem⟩ := ih _ (hl.erase y)
      refine ⟨hsorted', fun x => ?_⟩
      rw [foldl_cons, hmem, mem_erase (totalOn_lt hdistinct) trivial (fun _ _ => trivial) hl,
        mem_cons, not_or]
      tauto
  exact hgen hs n.candidates hsorted

theorem insertAll_spec (hsorted : Sorted (n.lt p) n.candidates)
    (test : Uint256 → Bool) :
    Sorted (n.lt p) (n.insertAll p test).candidates ∧
      ∀ x, x ∈ (n.insertAll p test).candidates ↔
        x ∈ n.linked ∧ test x = true ∨ x ∈ n.candidates := by
  have hgen : ∀ (hs l : List Uint256), Sorted (n.lt p) l →
      Sorted (n.lt p) (hs.foldl (fun l h => OrderedSet.insert (n.lt p) h l) l) ∧
        ∀ x, x ∈ hs.foldl (fun l h => OrderedSet.insert (n.lt p) h l) l ↔ x ∈ hs ∨ x ∈ l := by
    intro hs
    induction hs with
    | nil => intro l hl; exact ⟨hl, by simp⟩
    | cons y hs ih =>
      intro l hl
      have htotal := totalOn_lt (p := p) hdistinct
      obtain ⟨hsorted', hmem⟩ := ih _ (Sorted.insert htotal trivial (fun _ _ => trivial) hl)
      refine ⟨hsorted', fun x => ?_⟩
      rw [foldl_cons, hmem, mem_insert htotal trivial fun _ _ => trivial, mem_cons]
      tauto
  obtain ⟨hsorted', hmem⟩ := hgen (n.linked.filter test) n.candidates hsorted
  refine ⟨hsorted', fun x => ?_⟩
  rw [← mem_filter]
  exact hmem x

omit hdistinct

/-- What `PosSetCertified` does. -/
structure SetsCertified (p : CertParams) (n : ForkNode) (h : Uint256) (verdict : Option Bool)
    (n' : ForkNode) : Prop where
  /-- It writes the answer. -/
  index : n'.index = Function.update n.index h
    { n.index h with posCertified := verdict.getD true, posCertKnown := verdict.isSome }
  mem : ∀ x, x ∈ n'.candidates ↔ x ∈ n.candidates
  sorted : Sorted (n'.lt p) n'.candidates
  frame : n' = { n with index := n'.index, candidates := n'.candidates }

theorem posSetCertified_spec (hdistinct : n.Distinct) (hsorted : Sorted (n.lt p) n.candidates)
    (verdict : Option Bool) : SetsCertified p n h verdict (n.posSetCertified p h verdict) := by
  unfold posSetCertified
  dsimp only
  split
  · next hsame =>
    refine ⟨rfl, fun x => Iff.rfl, ?_, rfl⟩
    refine Sorted.congr hsorted fun x _ y _ => lt_setEntry_of_sameKeys ?_ x y
    exact ⟨rfl, hsame, rfl, rfl, rfl⟩
  · have htotal := totalOn_lt (p := p) hdistinct
    have hmem : ∀ x, x ∈ OrderedSet.erase (n.lt p) h n.candidates ↔
        x ≠ h ∧ x ∈ n.candidates := fun x =>
      mem_erase htotal trivial (fun _ _ => trivial) hsorted
    -- The rest does not hold the block, so its order does not change.
    have hrest : Sorted ((n.setEntry h { n.index h with
        posCertified := verdict.getD true, posCertKnown := verdict.isSome }).lt p)
        (OrderedSet.erase (n.lt p) h n.candidates) :=
      sorted_setEntry (hsorted.erase h) fun x hx => ((hmem x).mp hx).1
    split
    · next hlength =>
      have htotal' := totalOn_lt (p := p) (distinct_setEntry hdistinct (e := { n.index h with
        posCertified := verdict.getD true, posCertKnown := verdict.isSome }) rfl)
      have hin : h ∈ n.candidates :=
        (length_erase_lt_iff htotal trivial (fun _ _ => trivial) hsorted).mp hlength
      refine ⟨rfl, fun x => ?_, ?_, rfl⟩
      · change x ∈ OrderedSet.insert _ h _ ↔ _
        rw [mem_insert htotal' trivial fun _ _ => trivial, hmem]
        by_cases hx : x = h
        · simp [hx, hin]
        · simp [hx]
      · exact Sorted.insert htotal' trivial (fun _ _ => trivial) hrest
    · next hlength =>
      have hout : h ∉ n.candidates := fun hin => hlength
        ((length_erase_lt_iff htotal trivial (fun _ _ => trivial) hsorted).mpr hin)
      refine ⟨rfl, fun x => ?_, hrest, rfl⟩
      change x ∈ OrderedSet.erase _ h _ ↔ _
      rw [hmem]
      exact ⟨fun hx => hx.2, fun hx => ⟨fun heq => hout (heq ▸ hx), hx⟩⟩

/-- What `PosRecordCertified` does with an answer, given whether it needed the quorum. -/
structure RecordsCertified (p : CertParams) (n : ForkNode) (h : Uint256)
    (judged : Option Bool × Bool) (n' : ForkNode) : Prop where
  /-- It writes the answer, and keeps it if the quorum was needed. -/
  entry : n'.index h = { n.index h with
    posCertified := judged.1.getD true
    posCertKnown := judged.1.isSome
    posCertDecided := if judged.2 && judged.1.isSome then judged.1
      else (n.index h).posCertDecided }
  others : ∀ x, x ≠ h → n'.index x = n.index x
  mem : ∀ x, x ∈ n'.candidates ↔ x ∈ n.candidates
  sorted : Sorted (n'.lt p) n'.candidates
  frame : n' = { n with index := n'.index, candidates := n'.candidates }

variable (facts) in
theorem posRecordCertified_spec (hdistinct : n.Distinct) (hsorted : Sorted (n.lt p) n.candidates)
    (parentQuorum : ℤ) :
    RecordsCertified p n h
      (posJudgeCertified p (facts h) (n.index h).posCountersigs parentQuorum)
      (n.posRecordCertified p facts h parentQuorum) := by
  unfold posRecordCertified
  dsimp only
  generalize posJudgeCertified p (facts h) (n.index h).posCountersigs parentQuorum = judged
  have hset := posSetCertified_spec (h := h) hdistinct hsorted judged.1
  have hentry : (n.posSetCertified p h judged.1).index h = { n.index h with
      posCertified := judged.1.getD true, posCertKnown := judged.1.isSome } := by
    rw [hset.index, Function.update_self]
  have hothers : ∀ x, x ≠ h → (n.posSetCertified p h judged.1).index x = n.index x := by
    intro x hx
    rw [hset.index, Function.update_of_ne hx]
  obtain ⟨verdict, byParent⟩ := judged
  split
  · next v heq =>
    cases heq
    refine ⟨?_, fun x hx => ?_, hset.mem, ?_, ?_⟩
    · rw [setEntry_index_self, hentry]
      rfl
    · rw [setEntry_index_of_ne _ _ hx, hothers x hx]
    · refine Sorted.congr hset.sorted fun x _ y _ => lt_setEntry_of_sameKeys ?_ x y
      exact ⟨rfl, rfl, rfl, rfl, rfl⟩
    · rw [hset.frame]
      rfl
  · next hnot =>
    have hkeep : (byParent && verdict.isSome) = false := by
      cases verdict with
      | none => rw [Option.isSome_none, Bool.and_false]
      | some v =>
        cases byParent with
        | false => rfl
        | true => exact (hnot v rfl).elim
    refine ⟨?_, hothers, hset.mem, hset.sorted, hset.frame⟩
    dsimp only
    rw [hkeep, hentry]
    rfl

/-- The score that is measured on a body. -/
def measuredVrf (p : CertParams) (f : ForkFacts) : ℕ :=
  if p.conPos && f.hasParent && f.challengeParses && p.posVrf then f.vrfScore.getD vrfScoreUnset
  else vrfScoreUnset

/-- The entry of a block without a body. -/
structure IsHeader (f : ForkFacts) (e : BlockEntry) : Prop where
  nChainWork : e.nChainWork = f.nChainWork
  posCountersigs : e.posCountersigs = 0
  posVrfScore : e.posVrfScore = vrfScoreUnset
  posCertified : e.posCertified = false
  posCertDecided : e.posCertDecided = none

structure IsMeasured (p : CertParams) (f : ForkFacts) (e : BlockEntry) : Prop where
  nChainWork : e.nChainWork = f.nChainWork
  posVrfScore : e.posVrfScore = measuredVrf p f
  /-- A provisional answer is on the safe side. -/
  optimistic : certifiedAnswer p f e.posCountersigs = true → p.conPos = true →
    e.posCertified = true
  decided : ∀ v, e.posCertDecided = some v → v = certifiedAnswer p f e.posCountersigs
  genesis : f.hasParent = false → e.posCertified = false

/-- The entry of a block that was connected: the answer is there, also after a restart. -/
structure IsSettled (p : CertParams) (f : ForkFacts) (e : BlockEntry) : Prop where
  posCertified : e.posCertified = certifiedAnswer p f e.posCountersigs
  kept : (posJudgeCertified p f e.posCountersigs f.quorum).2 = true →
    e.posCertDecided = some (certifiedAnswer p f e.posCountersigs)

/-- What holds along every history. -/
structure Inv (p : CertParams) (facts : Uint256 → ForkFacts) (quiet : Bool) (n : ForkNode) :
    Prop where
  tree : IsTree facts
  distinct : n.Distinct
  linked : ∀ x ∈ n.linked, x ∈ n.bodies
  candidates : ∀ x ∈ n.candidates, x ∈ n.linked
  connected : ∀ x ∈ n.connected, n.Valid facts x
  parents : ∀ x ∈ n.connected, ∀ q, (facts x).pprev = some q → q ∈ n.connected
  tip : ∀ t, n.tip = some t → t ∈ n.connected
  headers : ∀ x, x ∉ n.bodies → IsHeader (facts x) (n.index x)
  measured : ∀ x ∈ n.bodies, IsMeasured p (facts x) (n.index x)
  settled : p.conPos = true → ∀ x ∈ n.connected, IsSettled p (facts x) (n.index x)
  sorted : Sorted (n.lt p) n.candidates
  /-- If the gate refuses nothing, a block that is no candidate is marked, or worse than a
  connected one. -/
  covered : quiet = true → ∀ x ∈ n.linked, n.marked x = false → x ∉ n.candidates →
    ∃ t ∈ n.connected, n.lt p x t = true

theorem inv_initial (htree : IsTree facts) {address : Uint256 → ℕ}
    (hdistinct : Function.Injective address) : Inv p facts quiet (initial facts address) where
  tree := htree
  distinct := hdistinct
  linked := by simp [initial]
  candidates := by simp [initial]
  connected := by simp [initial]
  parents := by simp [initial]
  tip := by simp [initial]
  headers x _ := ⟨rfl, rfl, rfl, rfl, rfl⟩
  measured := by simp [initial]
  settled := by simp [initial]
  sorted := List.Pairwise.nil
  covered := by simp [initial]

theorem certifiedAnswer_zero (f : ForkFacts) : certifiedAnswer p f 0 = false := by
  simp [certifiedAnswer, posJudgeCertified]

/-- Entries of blocks without bodies may be written: nothing else depends on them. -/
theorem Inv.outside (hinv : n.Inv p facts quiet) (hbody : h ∉ n.bodies)
    (hothers : ∀ x, x ≠ h → n'.index x = n.index x)
    (haddress : (n'.index h).address = (n.index h).address)
    (hmem : ∀ x, x ∈ n'.candidates ↔ x ∈ n.candidates)
    (hsorted : Sorted (n'.lt p) n'.candidates)
    (hframe : n' = { n with
      index := n'.index, candidates := n'.candidates, bodies := n'.bodies })
    (hbodies : n'.bodies = n.bodies ∧ IsHeader (facts h) (n'.index h) ∨
      n'.bodies = h :: n.bodies ∧ IsMeasured p (facts h) (n'.index h)) : n'.Inv p facts quiet := by
  have hne : ∀ x ∈ n.linked, x ≠ h := fun x hx heq => hbody (heq ▸ hinv.linked x hx)
  have hsub : ∀ x ∈ n.bodies, x ∈ n'.bodies := by
    intro x hx
    rcases hbodies with ⟨heq, -⟩ | ⟨heq, -⟩ <;> rw [heq]
    · exact hx
    · exact mem_cons_of_mem h hx
  obtain ⟨index, bodies, linked, marked, candidates, tip, connected, final, release⟩ := n'
  cases hframe
  refine { hinv with
    distinct := hinv.distinct.congr fun x => ?_
    linked := fun x hx => hsub x (hinv.linked x hx)
    candidates := fun x hx => hinv.candidates x ((hmem x).mp hx)
    headers := fun x hx => ?_
    measured := fun x hx => ?_
    settled := fun hpos x hx => ?_
    sorted := hsorted
    covered := fun hquiet x hx hunmarked hnot => ?_ }
  · by_cases hx : x = h
    · rw [hx, haddress]
    · exact congrArg BlockEntry.address (hothers x hx)
  · by_cases hxh : x = h
    · rcases hbodies with ⟨-, hheader⟩ | ⟨heq, -⟩
      · rw [hxh]
        exact hheader
      · exact (hx (by rw [heq, hxh]; exact mem_cons_self)).elim
    · exact (hothers x hxh).symm ▸ hinv.headers x fun hmem => hx (hsub x hmem)
  · by_cases hxh : x = h
    · rcases hbodies with ⟨heq, -⟩ | ⟨-, hmeasured⟩
      · exact (hbody (heq ▸ hxh ▸ hx)).elim
      · rw [hxh]
        exact hmeasured
    · refine (hothers x hxh).symm ▸ hinv.measured x ?_
      rcases hbodies with ⟨heq, -⟩ | ⟨heq, -⟩
      · exact heq ▸ hx
      · exact (mem_cons.mp (heq ▸ hx)).resolve_left hxh
  · exact (hothers x (hne x (hinv.connected x hx).1)).symm ▸ hinv.settled hpos x hx
  · obtain ⟨t, ht, hlt⟩ := hinv.covered hquiet x hx hunmarked fun hmem' => hnot ((hmem x).mpr hmem')
    refine ⟨t, ht, ?_⟩
    rw [lt, less, hothers x (hne x hx), hothers t (hne t (hinv.connected t ht).1)]
    exact hlt

end ForkNode

end Sequentia
