import Mathlib.Data.List.TakeWhile
import Sequentia.Chain.CandidateOrder

/-!
# What an event keeps

Every event keeps the invariant of nodes: arrivals write entries of blocks that are no candidates,
connecting a block settles its answer, and whatever drops a candidate leaves a connected block
that is better.
-/

namespace Sequentia

open OrderedSet List

namespace ForkNode

variable {p : CertParams} {facts : Uint256 → ForkFacts} {quiet : Bool} {n n' : ForkNode}
  {h x t : Uint256} {hs gone : List Uint256} {f : ForkFacts} {e : BlockEntry}

def judgedEntry (e : BlockEntry) (judged : Option Bool × Bool) : BlockEntry :=
  { e with
    posCertified := judged.1.getD true
    posCertKnown := judged.1.isSome
    posCertDecided := if judged.2 && judged.1.isSome then judged.1 else e.posCertDecided }

theorem isMeasured_judgedEntry (hwork : e.nChainWork = f.nChainWork)
    (hvrf : e.posVrfScore = measuredVrf p f)
    (hdecided : ∀ v, e.posCertDecided = some v → v = certifiedAnswer p f e.posCountersigs)
    (hparent : f.hasParent = true) (held : Bool) :
    IsMeasured p f (judgedEntry e
      (posJudgeCertified p f e.posCountersigs (posQuorumAfter p f held))) := by
  refine ⟨hwork, hvrf, fun hanswer _ => ?_, fun v hv => ?_, fun hnone => ?_⟩
  · simp only [judgedEntry] at hanswer ⊢
    cases hjudge : (posJudgeCertified p f e.posCountersigs (posQuorumAfter p f held)).1 with
    | none => rfl
    | some v =>
      rw [Option.getD_some, posJudgeCertified_eq hjudge]
      exact hanswer
  · simp only [judgedEntry] at hv
    split at hv
    · exact posJudgeCertified_eq hv
    · exact hdecided v hv
  · rw [hparent] at hnone
    cases hnone

theorem isSettled_judgedEntry :
    IsSettled p f (judgedEntry e (posJudgeCertified p f e.posCountersigs f.quorum)) := by
  refine ⟨rfl, fun hneeded => ?_⟩
  simp only [judgedEntry] at hneeded ⊢
  rw [hneeded, posJudgeCertified_quorum]
  rfl

theorem isSettled_of_genesis (hmeasured : IsMeasured p f e)
    (hparent : f.hasParent = false) : IsSettled p f e := by
  have hjudge : posJudgeCertified p f e.posCountersigs f.quorum = (some false, false) := by
    rw [posJudgeCertified, hparent]
    rfl
  refine ⟨?_, fun hneeded => ?_⟩
  · rw [hmeasured.genesis hparent, certifiedAnswer, hjudge]
    rfl
  · rw [hjudge] at hneeded
    cases hneeded

theorem isMeasured_sequence (hmeasured : IsMeasured p f e)
    (sequence : ℤ) : IsMeasured p f { e with nSequenceId := sequence } :=
  { hmeasured with }

theorem setPosForkChoiceKeys_eq {countersigs : ℕ} {held : Bool} (hpos : p.conPos = true)
    (hparent : (facts h).hasParent = true) (hparses : (facts h).challengeParses = true)
    {m : ForkNode}
    (hm : (n.setEntry h { n.index h with posCountersigs := countersigs }).posRecordCertified p
      facts h (posQuorumAfter p (facts h) held) = m)
    (hunset : (m.index h).posVrfScore = vrfScoreUnset) :
    n.setPosForkChoiceKeys p facts h countersigs held =
      m.setEntry h { m.index h with posVrfScore := measuredVrf p (facts h) } := by
  have hkeep : measuredVrf p (facts h) = vrfScoreUnset →
      m = m.setEntry h { m.index h with posVrfScore := measuredVrf p (facts h) } := by
    intro hmeasured
    rw [hmeasured, ← hunset, setEntry, Function.update_eq_self]
  have hrecognized : (!p.conPos || !(facts h).hasParent || !(facts h).challengeParses) = false := by
    rw [hpos, hparent, hparses]
    rfl
  rw [setPosForkChoiceKeys, hrecognized]
  simp only [hm, Bool.false_eq_true, if_false]
  unfold measuredVrf at hkeep ⊢
  rw [hpos, hparent, hparses] at hkeep ⊢
  cases hvrf : p.posVrf with
  | false =>
    rw [hvrf] at hkeep
    exact hkeep rfl
  | true =>
    rw [hvrf] at hkeep
    cases hvalue : (facts h).vrfScore with
    | none =>
      rw [hvalue] at hkeep
      exact hkeep rfl
    | some score => rfl

theorem exists_of_not_notWorse (htip : ∀ t, n.tip = some t → t ∈ n.connected)
    (hworse : n.notWorse p x = false) : ∃ t ∈ n.connected, n.lt p x t = true := by
  cases ht : n.tip with
  | none => simp [notWorse, ht] at hworse
  | some t =>
    refine ⟨t, htip t ht, ?_⟩
    simpa [notWorse, ht] using hworse

variable (hinv : n.Inv p facts quiet)

include hinv

theorem Inv.ne_of_candidate (hbody : h ∉ n.bodies) : ∀ x ∈ n.candidates, x ≠ h :=
  fun x hx heq => hbody (heq ▸ hinv.linked x (hinv.candidates x hx))

theorem Inv.header (hbody : h ∉ n.bodies) :
    (n.setEntry h (headerEntry (facts h) (n.index h).address)).Inv p facts quiet := by
  refine hinv.outside hbody (fun x hx => setEntry_index_of_ne n _ hx) ?_ (fun x => Iff.rfl) ?_ rfl
    (.inl ⟨rfl, ?_⟩)
  · rw [setEntry_index_self]
    rfl
  · exact sorted_setEntry hinv.sorted (hinv.ne_of_candidate hbody)
  · rw [setEntry_index_self]
    exact ⟨rfl, rfl, rfl, rfl, rfl⟩

theorem Inv.body (hbody : h ∉ n.bodies) (countersigs : ℕ) (held : Bool) :
    { n.setPosForkChoiceKeys p facts h countersigs held with bodies := h :: n.bodies }.Inv p
      facts quiet := by
  have hheader := hinv.headers h hbody
  have hne := hinv.ne_of_candidate hbody
  by_cases hskip : (!p.conPos || !(facts h).hasParent || !(facts h).challengeParses) = true
  · rw [setPosForkChoiceKeys, if_pos hskip]
    refine hinv.outside hbody (fun x _ => rfl) rfl (fun x => Iff.rfl) hinv.sorted rfl
      (.inr ⟨rfl, hheader.nChainWork, ?_, ?_, ?_, fun _ => hheader.posCertified⟩)
    · rw [hheader.posVrfScore, measuredVrf, if_neg]
      intro hall
      simp only [Bool.and_eq_true] at hall
      simp [hall.1.1.1, hall.1.1.2, hall.1.2] at hskip
    · intro hanswer
      rw [hheader.posCountersigs, certifiedAnswer_zero] at hanswer
      cases hanswer
    · intro v hv
      rw [hheader.posCertDecided] at hv
      cases hv
  · have hrecognized : p.conPos = true ∧ (facts h).hasParent = true ∧
        (facts h).challengeParses = true := by
      simpa [and_assoc] using hskip
    obtain ⟨hpos, hparent, hparses⟩ := hrecognized
    have hrecord := posRecordCertified_spec facts (p := p) (h := h)
      (n := n.setEntry h { n.index h with posCountersigs := countersigs })
      (distinct_setEntry hinv.distinct rfl)
      (sorted_setEntry hinv.sorted hne)
      (posQuorumAfter p (facts h) held)
    generalize hm : (n.setEntry h { n.index h with posCountersigs := countersigs }).posRecordCertified
      p facts h (posQuorumAfter p (facts h) held) = m at hrecord
    have hentry := hrecord.entry
    rw [setEntry_index_self] at hentry
    rw [setPosForkChoiceKeys_eq hpos hparent hparses hm (by rw [hentry]; exact hheader.posVrfScore)]
    refine hinv.outside hbody (fun x hx => ?_) ?_ hrecord.mem ?_ ?_ (.inr ⟨rfl, ?_⟩)
    · change (m.setEntry h _).index x = _
      rw [setEntry_index_of_ne m _ hx, hrecord.others x hx, setEntry_index_of_ne n _ hx]
    · change ((m.setEntry h _).index h).address = _
      rw [setEntry_index_self, hentry]
    · exact sorted_setEntry hrecord.sorted fun x hx => hne x ((hrecord.mem x).mp hx)
    · rw [setEntry, hrecord.frame]
      rfl
    · change IsMeasured p (facts h) ((m.setEntry h _).index h)
      rw [setEntry_index_self, hentry]
      refine isMeasured_judgedEntry (e := { n.index h with
        posCountersigs := countersigs, posVrfScore := measuredVrf p (facts h) })
        hheader.nChainWork rfl (fun v hv => ?_) hparent held
      cases hheader.posCertDecided.symm.trans hv

theorem Inv.link (hbody : h ∈ n.bodies) (hnew : h ∉ n.linked)
    (sequence : ℤ) : (n.link p h sequence).Inv p facts quiet := by
  have hne : ∀ x ∈ n.linked, x ≠ h := fun x hx heq => hnew (heq ▸ hx)
  unfold ForkNode.link
  dsimp only
  set m := n.setEntry h { n.index h with nSequenceId := sequence } with hm
  have hdistinct : m.Distinct := distinct_setEntry hinv.distinct rfl
  have htotal := totalOn_lt (p := p) hdistinct
  have hothers : ∀ x, x ≠ h → m.index x = n.index x := fun x hx => setEntry_index_of_ne n _ hx
  have hlt : ∀ x ∈ n.linked, ∀ y ∈ n.linked, m.lt p x y = n.lt p x y := fun x hx y hy =>
    lt_setEntry (hne x hx) (hne y hy)
  have hsorted : Sorted (m.lt p) m.candidates := Sorted.congr hinv.sorted fun x hx y hy =>
    hlt x (hinv.candidates x hx) y (hinv.candidates y hy)
  have hconnected : ∀ x ∈ n.connected, x ≠ h := fun x hx => hne x (hinv.connected x hx).1
  have hmem : ∀ x, x ∈ (if m.notWorse p h then OrderedSet.insert (m.lt p) h m.candidates
      else m.candidates) ↔ x ∈ n.candidates ∨ x = h ∧ m.notWorse p h = true := by
    intro x
    split
    · next hnot =>
      rw [mem_insert htotal trivial fun _ _ => trivial, hnot]
      exact ⟨fun hx => hx.elim (fun hx => .inr ⟨hx, rfl⟩) .inl,
        fun hx => hx.elim .inr fun hx => .inl hx.1⟩
    · next hworse =>
      exact ⟨.inl, fun hx => hx.elim id fun hx => (hworse hx.2).elim⟩
  refine { hinv with
    distinct := hdistinct
    linked := forall_mem_cons.mpr ⟨hbody, hinv.linked⟩
    candidates := fun x hx => ?_
    connected := fun x hx =>
      ⟨mem_cons_of_mem h (hinv.connected x hx).1, (hinv.connected x hx).2⟩
    headers := fun x hx => ?_
    measured := fun x hx => ?_
    settled := fun hpos x hx => (hothers x (hconnected x hx)).symm ▸ hinv.settled hpos x hx
    sorted := ?_
    covered := fun hquiet x hx hunmarked hnot => ?_ }
  · rcases (hmem x).mp hx with hx | ⟨rfl, -⟩
    · exact mem_cons_of_mem h (hinv.candidates x hx)
    · exact mem_cons_self
  · exact (hothers x fun heq => hx (heq ▸ hbody)).symm ▸ hinv.headers x hx
  · change IsMeasured p (facts x) (m.index x)
    by_cases hxh : x = h
    · rw [hxh, hm, setEntry_index_self]
      exact isMeasured_sequence (hinv.measured h hbody) sequence
    · exact (hothers x hxh).symm ▸ hinv.measured x hx
  · change Sorted (m.lt p) (if m.notWorse p h then _ else _)
    split
    · exact Sorted.insert htotal trivial (fun _ _ => trivial) hsorted
    · exact hsorted
  · have hnot' := fun hmem' => hnot ((hmem x).mpr hmem')
    rcases mem_cons.mp hx with rfl | hlinked
    · have hworse : m.notWorse p x = false := by
        rw [← Bool.not_eq_true]
        exact fun hgood => hnot' (.inr ⟨rfl, hgood⟩)
      exact exists_of_not_notWorse (n := m) hinv.tip hworse
    · obtain ⟨t, ht, hworse⟩ := hinv.covered hquiet x hlinked hunmarked fun hmem' =>
        hnot' (.inl hmem')
      exact ⟨t, ht, (hlt x hlinked t (hinv.connected t ht).1).trans hworse⟩

theorem Inv.lt_settled (hpos : p.conPos = true) (hbody : h ∈ n.bodies)
    (hrecord : RecordsCertified p n h
      (posJudgeCertified p (facts h) (n.index h).posCountersigs (facts h).quorum) n')
    (ht : t ∈ n.connected) (hlt : n.lt p x t = true) : n'.lt p x t = true := by
  have hentry := hrecord.entry
  by_cases hth : t = h
  · -- A block that was connected before has its answer already.
    have hkeys : ∀ y, SameKeys (n'.index y) (n.index y) := by
      intro y
      by_cases hyh : y = h
      · have hsettled := hinv.settled hpos t ht
        rw [hth] at hsettled
        rw [hyh, hentry]
        exact ⟨rfl, hsettled.posCertified.symm, rfl, rfl, rfl⟩
      · rw [hrecord.others y hyh]
        exact sameKeys_refl _
    exact (lt_eq_of_sameKeys (hkeys x) (hkeys t)).trans hlt
  · rw [lt, less, hrecord.others t hth]
    by_cases hxh : x = h
    · rw [hxh] at hlt ⊢
      rw [hentry]
      exact less_of_uncertified rfl rfl rfl rfl
        (fun hanswer => (hinv.measured h hbody).optimistic hanswer hpos) hlt
    · rw [hrecord.others x hxh]
      exact hlt

theorem Inv.settle (hpos : p.conPos = true) (hbody : h ∈ n.bodies)
    (hparent : (facts h).hasParent = true)
    (hrecord : RecordsCertified p n h
      (posJudgeCertified p (facts h) (n.index h).posCountersigs (facts h).quorum) n') :
    n'.Inv p facts quiet := by
  have hentry := hrecord.entry
  have hframe := hrecord.frame
  obtain ⟨index, bodies, linked, marked, candidates, tip, connected, final, release⟩ := n'
  cases hframe
  refine { hinv with
    distinct := hinv.distinct.congr fun x => ?_
    candidates := fun x hx => hinv.candidates x ((hrecord.mem x).mp hx)
    headers := fun x hx => ?_
    measured := fun x hx => ?_
    settled := fun _ x hx => ?_
    sorted := hrecord.sorted
    covered := fun hquiet x hx hunmarked hnot => ?_ }
  · by_cases hx : x = h
    · rw [hx, hentry]
    · rw [hrecord.others x hx]
  · rw [hrecord.others x fun heq => hx (heq ▸ hbody)]
    exact hinv.headers x hx
  · by_cases hxh : x = h
    · rw [hxh, hentry]
      have hmeasured := hinv.measured h hbody
      have hquorum : posQuorumAfter p (facts h) true = (facts h).quorum := by simp [posQuorumAfter]
      exact hquorum ▸ isMeasured_judgedEntry hmeasured.nChainWork hmeasured.posVrfScore
        hmeasured.decided hparent true
    · rw [hrecord.others x hxh]
      exact hinv.measured x hx
  · by_cases hxh : x = h
    · rw [hxh, hentry]
      exact isSettled_judgedEntry
    · rw [hrecord.others x hxh]
      exact hinv.settled hpos x hx
  · obtain ⟨t, ht, hworse⟩ := hinv.covered hquiet x hx hunmarked
      fun hmem => hnot ((hrecord.mem x).mpr hmem)
    exact ⟨t, ht, hinv.lt_settled hpos hbody hrecord ht hworse⟩

theorem Inv.connectSettled (hparent : (facts h).pprev = n.tip)
    (hlinked : h ∈ n.linked) (hunmarked : n.marked h = false)
    (hsettled : p.conPos = true → IsSettled p (facts h) (n.index h)) :
    { n with tip := some h, connected := h :: n.connected }.Inv p facts quiet := by
  have hancestors : ∀ x ∈ (facts h).ancestors, n.marked x = false := by
    intro x hx
    rw [hinv.tree h] at hx
    cases hprev : (facts h).pprev with
    | none =>
      rw [hprev] at hx
      cases hx
    | some q =>
      rw [hprev] at hx
      exact (hinv.connected q (hinv.tip q (hparent ▸ hprev))).2 x hx
  refine { hinv with
    connected := forall_mem_cons.mpr
      ⟨⟨hlinked, forall_mem_cons.mpr ⟨hunmarked, hancestors⟩⟩, hinv.connected⟩
    parents := fun x hx q hq => mem_cons_of_mem h ?_
    tip := fun t ht => Option.some.inj ht ▸ mem_cons_self
    settled := fun hpos => forall_mem_cons.mpr ⟨hsettled hpos, hinv.settled hpos⟩
    covered := fun hquiet x hx hmarked hnot => ?_ }
  · rcases mem_cons.mp hx with rfl | hx
    · exact hinv.tip q (hparent ▸ hq)
    · exact hinv.parents x hx q hq
  · obtain ⟨t, ht, hworse⟩ := hinv.covered hquiet x hx hmarked hnot
    exact ⟨t, mem_cons_of_mem h ht, hworse⟩

theorem Inv.connect (hparent : (facts h).pprev = n.tip)
    (hlinked : h ∈ n.linked) (hunmarked : n.marked h = false) :
    { (if p.conPos && (facts h).hasParent then
        n.posRecordCertified p facts h (facts h).quorum else n) with
      tip := some h
      connected := h :: n.connected }.Inv p facts quiet := by
  have hbody := hinv.linked h hlinked
  by_cases hrecorded : (p.conPos && (facts h).hasParent) = true
  · obtain ⟨hpos, hprev⟩ := Bool.and_eq_true_iff.mp hrecorded
    have hrecord := posRecordCertified_spec facts (p := p) (h := h) hinv.distinct hinv.sorted
      (facts h).quorum
    rw [if_pos hrecorded]
    generalize n.posRecordCertified p facts h (facts h).quorum = m at hrecord ⊢
    have hsettled : IsSettled p (facts h) (m.index h) := by
      rw [hrecord.entry]
      exact isSettled_judgedEntry
    have hframe := hrecord.frame
    obtain ⟨index, bodies, linked, marked, candidates, tip, connected, final, release⟩ := m
    cases hframe
    exact (hinv.settle hpos hbody hprev hrecord).connectSettled hparent hlinked hunmarked
      fun _ => hsettled
  · rw [if_neg hrecorded]
    refine hinv.connectSettled hparent hlinked hunmarked fun hpos =>
      isSettled_of_genesis (hinv.measured h hbody) ?_
    simpa [hpos] using hrecorded

/-- Events that write no entry: what has to be seen is that connected blocks stay valid, and that
what is left out of the candidates is worse than one of them. -/
theorem Inv.rearrange (hframe : n' = { n with
      marked := n'.marked, candidates := n'.candidates, tip := n'.tip, connected := n'.connected })
    (hcandidates : ∀ x ∈ n'.candidates, x ∈ n.linked)
    (hconnected : ∀ x, x ∈ n'.connected ↔
      x ∈ n.connected ∧ ∀ y ∈ path facts x, n'.marked y = false)
    (htip : ∀ t, n'.tip = some t → t ∈ n'.connected)
    (hsorted : Sorted (n.lt p) n'.candidates)
    (hcovered : quiet = true → ∀ x ∈ n.linked, n'.marked x = false → x ∉ n'.candidates →
      ∃ t ∈ n'.connected, n.lt p x t = true) : n'.Inv p facts quiet := by
  obtain ⟨index, bodies, linked, marked, candidates, tip, connected, final, release⟩ := n'
  cases hframe
  refine { hinv with
    candidates := hcandidates
    connected := fun x hx => ?_
    parents := fun x hx q hq => ?_
    tip := htip
    settled := fun hpos x hx => hinv.settled hpos x ((hconnected x).mp hx).1
    sorted := hsorted
    covered := hcovered }
  · obtain ⟨hx, hpath⟩ := (hconnected x).mp hx
    exact ⟨(hinv.connected x hx).1, hpath⟩
  · obtain ⟨hx, hpath⟩ := (hconnected x).mp hx
    refine (hconnected q).mpr ⟨hinv.parents x hx q hq, fun y hy => hpath y ?_⟩
    rw [path, hinv.tree x, hq]
    exact mem_cons_of_mem x hy

theorem Inv.disconnect (htip : n.tip = some t) :
    { n with tip := (facts t).pprev }.Inv p facts quiet :=
  { hinv with tip := fun q hq => hinv.parents t (hinv.tip t htip) q hq }

/-- Candidates may leave the set if they are worse than a connected block. -/
theorem Inv.prune (htip : n.tip = some t) :
    { n with candidates := n.candidates.dropWhile fun h => n.lt p h t }.Inv p facts quiet := by
  have hsub := dropWhile_sublist (l := n.candidates) fun h => n.lt p h t
  refine { hinv with
    candidates := fun x hx => hinv.candidates x (hsub.subset hx)
    sorted := List.Pairwise.sublist hsub hinv.sorted
    covered := fun hquiet x hx hunmarked hnot => ?_ }
  by_cases hmem : x ∈ n.candidates
  · refine ⟨t, hinv.tip t htip, ?_⟩
    rw [← takeWhile_append_dropWhile (p := fun h => n.lt p h t) (l := n.candidates)] at hmem
    rcases mem_append.mp hmem with hmem | hmem
    · exact mem_takeWhile_imp (p := fun h => n.lt p h t) hmem
    · exact (hnot hmem).elim
  · exact hinv.covered hquiet x hx hunmarked hmem

theorem Inv.mark (hgone : quiet = true → ∀ x ∈ gone, n.marked x = true ∨ x ∈ hs)
    (hnot : ∀ t ∈ n.connected, ∀ x ∈ path facts t, x ∉ hs) :
    { n.eraseAll p gone with marked := fun x => n.marked x || decide (x ∈ hs) }.Inv p facts
      quiet := by
  obtain ⟨hsorted, hmem⟩ := eraseAll_spec hinv.distinct hinv.sorted gone
  refine hinv.rearrange rfl (fun x hx => hinv.candidates x ((hmem x).mp hx).2) ?_ hinv.tip hsorted ?_
  · intro x
    refine ⟨fun hx => ⟨hx, fun y hy => ?_⟩, fun hx => hx.1⟩
    change (n.marked y || decide (y ∈ hs)) = false
    rw [(hinv.connected x hx).2 y hy, decide_eq_false (hnot x hx y hy), Bool.or_false]
  · intro hquiet x hx hunmarked hout
    obtain ⟨hunmarked, hxs⟩ := Bool.or_eq_false_iff.mp hunmarked
    refine hinv.covered hquiet x hx hunmarked fun hin => hout ((hmem x).mpr ⟨fun hxgone => ?_, hin⟩)
    rcases hgone hquiet x hxgone with hmarked | hxs'
    · rw [hunmarked] at hmarked
      cases hmarked
    · exact of_decide_eq_false hxs hxs'

theorem Inv.fail (hgone : ∀ h ∈ gone, h ∈ hs)
    (hnot : ∀ t ∈ n.connected, ∀ x ∈ path facts t, x ∉ hs) :
    ((n.eraseAll p gone).markFailed facts hs).Inv p facts quiet := by
  have hconnected : n.connected.filter (fun h => ∀ x ∈ path facts h, x ∉ hs) = n.connected :=
    filter_eq_self.mpr fun t ht => decide_eq_true (hnot t ht)
  have hmark := hinv.mark (fun _ (x : Uint256) (hx : x ∈ gone) => .inr (hgone x hx)) hnot
  unfold markFailed
  rw [show (n.eraseAll p gone).connected = n.connected from rfl, hconnected]
  exact hmark

theorem Inv.invalidate {t : Option Uint256}
    (htip : ∀ h, t = some h → h ∈ n.connected ∧ ∀ x ∈ path facts h, x ∉ hs) :
    Inv p facts quiet
      (let n' := { (n.eraseAll p gone).markFailed facts hs with tip := t }
      n'.insertAll p fun h => !n'.marked h && n'.notWorse p h) := by
  dsimp only
  obtain ⟨hsorted, hmem⟩ := eraseAll_spec hinv.distinct hinv.sorted gone
  set m : ForkNode := { (n.eraseAll p gone).markFailed facts hs with tip := t } with hm
  obtain ⟨hsorted', hmem'⟩ := insertAll_spec (n := m) hinv.distinct hsorted
    fun h => !m.marked h && m.notWorse p h
  have hconnected : ∀ x, x ∈ m.connected ↔ x ∈ n.connected ∧ ∀ y ∈ path facts x, y ∉ hs := by
    intro x
    rw [hm]
    simp [markFailed, eraseAll]
  have htip' : ∀ h, m.tip = some h → h ∈ m.connected := fun h hh =>
    (hconnected h).mpr (htip h hh)
  refine hinv.rearrange rfl ?_ ?_ htip' hsorted' ?_
  · exact fun x hx => ((hmem' x).mp hx).elim And.left fun hx =>
      hinv.candidates x ((hmem x).mp hx).2
  · intro x
    refine (hconnected x).trans (and_congr_right fun hx => forall₂_congr fun y hy => ?_)
    change _ ↔ (n.marked y || decide (y ∈ hs)) = false
    rw [(hinv.connected x hx).2 y hy, Bool.false_or, decide_eq_false_iff_not]
  · intro _ x hx hunmarked hout
    refine exists_of_not_notWorse (n := m) htip' ?_
    by_contra hgood
    refine hout ((hmem' x).mpr (.inl ⟨hx, ?_⟩))
    rw [show m.marked x = false from hunmarked, Bool.not_false, Bool.true_and]
    exact Bool.not_eq_false _ ▸ hgood

theorem Inv.reconsider (htip : n.tip = some t) :
    Inv p facts quiet
      (let n' := { n with marked := fun x => n.marked x && decide (h ∉ path facts x) }
      n'.insertAll p fun x => n.marked x && decide (h ∈ path facts x) && n'.lt p t x) := by
  dsimp only
  set m : ForkNode := { n with marked := fun x => n.marked x && decide (h ∉ path facts x) } with hm
  obtain ⟨hsorted, hmem⟩ := insertAll_spec (n := m) (p := p) hinv.distinct hinv.sorted
    fun x => n.marked x && decide (h ∈ path facts x) && m.lt p t x
  refine hinv.rearrange rfl ?_ ?_ hinv.tip hsorted ?_
  · exact fun x hx => ((hmem x).mp hx).elim And.left (hinv.candidates x)
  · intro x
    refine ⟨fun hx => ⟨hx, fun y hy => ?_⟩, fun hx => hx.1⟩
    change (n.marked y && _) = false
    rw [(hinv.connected x hx).2 y hy, Bool.false_and]
  · intro hquiet x hx hunmarked hout
    have hout' := fun hin => hout ((hmem x).mpr hin)
    cases hmarked : n.marked x with
    | false => exact hinv.covered hquiet x hx hmarked fun hin => hout' (.inr hin)
    | true =>
      have hcleared : h ∈ path facts x := by
        by_contra hnot
        have hstill : (n.marked x && decide (h ∉ path facts x)) = false := hunmarked
        rw [hmarked, decide_eq_true hnot] at hstill
        cases hstill
      have hne : x ≠ t := by
        rintro rfl
        have hvalid := (hinv.connected x (hinv.tip x htip)).2 x mem_cons_self
        rw [hmarked] at hvalid
        cases hvalid
      refine ⟨t, hinv.tip t htip, ((totalOn_lt hinv.distinct).total x t trivial trivial
        hne).resolve_right fun hbetter => hout' (.inl ⟨hx, ?_⟩)⟩
      rw [hmarked, decide_eq_true hcleared]
      exact hbetter

/-- A release: what is better than the tip becomes a candidate. -/
theorem Inv.release (r : Option Uint256) (test : Uint256 → Bool) :
    ({ n with release := r }.insertAll p test).Inv p facts quiet := by
  obtain ⟨hsorted, hmem⟩ := insertAll_spec (n := { n with release := r }) (p := p) hinv.distinct
    hinv.sorted test
  exact { hinv with
    candidates := fun x hx => ((hmem x).mp hx).elim And.left (hinv.candidates x)
    sorted := hsorted
    covered := fun hquiet x hx hunmarked hout =>
      hinv.covered hquiet x hx hunmarked fun hin => hout ((hmem x).mpr (.inr hin)) }

/-- The work of every block is known. -/
theorem Inv.nChainWork (x : Uint256) :
    (n.index x).nChainWork = (facts x).nChainWork := by
  by_cases hx : x ∈ n.bodies
  · exact (hinv.measured x hx).nChainWork
  · exact (hinv.headers x hx).nChainWork

/-- What discarding the data of a block does. -/
structure Discards (p : CertParams) (facts : Uint256 → ForkFacts) (n : ForkNode) (h : Uint256)
    (descendants : List Uint256) (n' : ForkNode) : Prop where
  header : IsHeader (facts h) (n'.index h)
  numbered : ∀ x ≠ h, ∃ sequence, n'.index x = { n.index x with nSequenceId := sequence }
  others : ∀ x ≠ h, x ∉ descendants → n'.index x = n.index x
  /-- Entries stay where they are. -/
  distinct : n'.Distinct
  mem : ∀ x, x ∈ n'.candidates ↔ x ∉ descendants ∧ x ≠ h ∧ x ∈ n.candidates
  sorted : Sorted (n'.lt p) n'.candidates
  /-- The body is gone, and the descendants wait for it. -/
  frame : n' = { n with
    index := n'.index
    candidates := n'.candidates
    bodies := n.bodies.filter (· ≠ h)
    linked := n.linked.filter fun x => x ≠ h ∧ x ∉ descendants }

theorem Inv.discards (descendants : List Uint256) :
    Discards p facts n h descendants (n.discardBlockData p h descendants) := by
  obtain ⟨hsorted₁, hmem₁⟩ := eraseAll_spec hinv.distinct hinv.sorted [h]
  unfold discardBlockData
  dsimp only
  set n₁ := n.eraseAll p [h] with hn₁
  -- The block has left the set when its entry is written.
  have hne : ∀ x ∈ n₁.candidates, x ≠ h := fun x hx heq =>
    ((hmem₁ x).mp hx).1 (heq ▸ mem_singleton_self _)
  set n₂ := n₁.setEntry h { n₁.index h with
    posCountersigs := 0, posVrfScore := vrfScoreUnset, posCertDecided := none
    nSequenceId := min (n₁.index h).nSequenceId 0 } with hn₂
  have hdistinct₂ : n₂.Distinct := distinct_setEntry (n := n₁) hinv.distinct rfl
  have hsorted₂ : Sorted (n₂.lt p) n₂.candidates :=
    sorted_setEntry hsorted₁ hne
  have hset := posSetCertified_spec (h := h) hdistinct₂ hsorted₂ (some false)
  set n₃ := n₂.posSetCertified p h (some false) with hn₃
  have hothers₃ : ∀ x, x ≠ h → n₃.index x = n.index x := by
    intro x hx
    rw [hset.index, Function.update_of_ne hx, hn₂, setEntry_index_of_ne n₁ _ hx]
    rfl
  have hentry₃ : n₃.index h = { n.index h with
      posCountersigs := 0, posVrfScore := vrfScoreUnset, posCertified := false
      posCertKnown := true, posCertDecided := none
      nSequenceId := min (n.index h).nSequenceId 0 } := by
    rw [hset.index, Function.update_self, hn₂, setEntry_index_self]
    rfl
  have haddress₃ : ∀ x, (n₃.index x).address = (n.index x).address := by
    intro x
    by_cases hx : x = h
    · rw [hx, hentry₃]
    · rw [hothers₃ x hx]
  obtain ⟨hsorted₄, hmem₄⟩ := eraseAll_spec (hinv.distinct.congr haddress₃) hset.sorted descendants
  have hmem : ∀ x, x ∈ (n₃.eraseAll p descendants).candidates ↔
      x ∉ descendants ∧ x ≠ h ∧ x ∈ n.candidates := by
    intro x
    rw [hmem₄, hset.mem]
    change _ ∧ x ∈ n₁.candidates ↔ _
    rw [hmem₁, mem_singleton]
  refine ⟨?_, fun x hx => ?_, fun x hx hdesc => ?_, ?_, hmem, ?_, ?_⟩
  · have hwork := hinv.nChainWork h
    change IsHeader _ (if h ∈ descendants then { n₃.index h with
      nSequenceId := min (n₃.index h).nSequenceId 0 } else n₃.index h)
    rw [hentry₃]
    split <;> exact ⟨hwork, rfl, rfl, rfl, rfl⟩
  · change ∃ sequence, (if x ∈ descendants then { n₃.index x with
      nSequenceId := min (n₃.index x).nSequenceId 0 } else n₃.index x) = _
    rw [hothers₃ x hx]
    split
    · exact ⟨_, rfl⟩
    · exact ⟨(n.index x).nSequenceId, rfl⟩
  · change (if x ∈ descendants then _ else n₃.index x) = _
    rw [if_neg hdesc, hothers₃ x hx]
  · refine hinv.distinct.congr fun x => Eq.trans ?_ (haddress₃ x)
    dsimp only
    split <;> rfl
  · refine Sorted.congr hsorted₄ fun x hx y hy => ?_
    rw [lt, less]
    dsimp only
    rw [if_neg ((hmem₄ x).mp hx).1, if_neg ((hmem₄ y).mp hy).1]
    rfl
  · have hframe := hset.frame
    clear_value n₃
    obtain ⟨index, bodies, linked, marked, candidates, tip, connected, final, release⟩ := n₃
    cases hframe
    rfl

theorem Inv.discard {descendants : List Uint256}
    (hnot : ∀ x ∈ h :: descendants, x ∉ n.connected)
    (hdiscards : Discards p facts n h descendants n') : n'.Inv p facts quiet := by
  have hframe := hdiscards.frame
  obtain ⟨index, bodies, linked, marked, candidates, tip, connected, final, release⟩ := n'
  cases hframe
  have hbodies : ∀ x, x ∈ n.bodies.filter (· ≠ h) ↔ x ∈ n.bodies ∧ x ≠ h := by simp
  have hlinked : ∀ x, x ∈ n.linked.filter (fun x => x ≠ h ∧ x ∉ descendants) ↔
      x ∈ n.linked ∧ x ≠ h ∧ x ∉ descendants := by simp
  have hkept : ∀ x ∈ n.connected, x ≠ h ∧ x ∉ descendants := fun x hx =>
    ⟨fun heq => hnot x (heq ▸ mem_cons_self) hx,
      fun hin => hnot x (mem_cons_of_mem h hin) hx⟩
  refine { hinv with
    distinct := hdiscards.distinct
    linked := fun x hx => ?_
    candidates := fun x hx => ?_
    connected := fun x hx =>
      ⟨(hlinked x).mpr ⟨(hinv.connected x hx).1, hkept x hx⟩, (hinv.connected x hx).2⟩
    headers := fun x hx => ?_
    measured := fun x hx => ?_
    settled := fun hpos x hx => ?_
    sorted := hdiscards.sorted
    covered := fun hquiet x hx hunmarked hout => ?_ }
  · obtain ⟨hx, hxh, -⟩ := (hlinked x).mp hx
    exact (hbodies x).mpr ⟨hinv.linked x hx, hxh⟩
  · obtain ⟨hdesc, hxh, hx⟩ := (hdiscards.mem x).mp hx
    exact (hlinked x).mpr ⟨hinv.candidates x hx, hxh, hdesc⟩
  · by_cases hxh : x = h
    · rw [hxh]
      exact hdiscards.header
    · obtain ⟨sequence, hentry⟩ := hdiscards.numbered x hxh
      have hheader := hinv.headers x fun hin => hx ((hbodies x).mpr ⟨hin, hxh⟩)
      rw [hentry]
      exact { hheader with }
  · obtain ⟨hx, hxh⟩ := (hbodies x).mp hx
    obtain ⟨sequence, hentry⟩ := hdiscards.numbered x hxh
    rw [hentry]
    exact isMeasured_sequence (hinv.measured x hx) sequence
  · rw [hdiscards.others x (hkept x hx).1 (hkept x hx).2]
    exact hinv.settled hpos x hx
  · obtain ⟨hxlinked, hxh, hdesc⟩ := (hlinked x).mp hx
    obtain ⟨t, ht, hworse⟩ := hinv.covered hquiet x hxlinked hunmarked fun hin =>
      hout ((hdiscards.mem x).mpr ⟨hdesc, hxh, hin⟩)
    refine ⟨t, ht, ?_⟩
    rw [lt, less, hdiscards.others x hxh hdesc, hdiscards.others t (hkept t ht).1 (hkept t ht).2]
    exact hworse

omit hinv

section Refresh

variable (held : Bool) (address : ℕ)

/-- The verdict of a refresh: what was decided, if the quorum is needed, or a new judgement. -/
def refreshedVerdict (p : CertParams) (f : ForkFacts) (e : BlockEntry) (held : Bool) :
    Option Bool :=
  let judged := posJudgeCertified p f e.posCountersigs (posQuorumAfter p f held)
  if judged.2 && e.posCertDecided.isSome then e.posCertDecided else judged.1

theorem refreshedEntry_eq (hpos : p.conPos = true) :
    refreshedEntry p f e held address = { e with
      nSequenceId := 0
      address := address
      posCertified := (refreshedVerdict p f e held).getD true
      posCertKnown := (refreshedVerdict p f e held).isSome } := by
  rw [refreshedEntry, hpos]
  rfl

theorem refreshedEntry_of_not_conPos (hpos : p.conPos = false) :
    refreshedEntry p f e held address = { e with nSequenceId := 0, address := address } := by
  rw [refreshedEntry, hpos]
  rfl

theorem refreshedEntry_address : (refreshedEntry p f e held address).address = address := by
  unfold refreshedEntry
  split <;> rfl

/-- Without members or a parent, the answer is no. -/
theorem refreshedEntry_posCertified_false (hpos : p.conPos = true)
    (hnone : e.posCountersigs = 0 ∨ f.hasParent = false) :
    (refreshedEntry p f e held address).posCertified = false := by
  have hjudge : ∀ quorum, posJudgeCertified p f e.posCountersigs quorum = (some false, false) := by
    intro quorum
    rw [posJudgeCertified, if_pos]
    rcases hnone with hzero | hparent
    · rw [hzero]
      simp
    · rw [hparent]
      rfl
  simp [refreshedEntry_eq held address hpos, refreshedVerdict, hjudge]

theorem isHeader_refreshed (hheader : IsHeader f e) :
    IsHeader f (refreshedEntry p f e held address) := by
  cases hpos : p.conPos with
  | false =>
    rw [refreshedEntry_of_not_conPos held address hpos]
    exact { hheader with }
  | true =>
    have hcertified := refreshedEntry_posCertified_false (f := f) held address hpos
      (.inl hheader.posCountersigs)
    rw [refreshedEntry_eq held address hpos] at hcertified ⊢
    exact { hheader with posCertified := hcertified }

theorem refreshedVerdict_eq (hmeasured : IsMeasured p f e) {v : Bool}
    (hv : refreshedVerdict p f e held = some v) : v = certifiedAnswer p f e.posCountersigs := by
  simp only [refreshedVerdict] at hv
  split at hv
  · exact hmeasured.decided v hv
  · exact posJudgeCertified_eq hv

theorem isMeasured_refreshed (hmeasured : IsMeasured p f e) :
    IsMeasured p f (refreshedEntry p f e held address) := by
  cases hpos : p.conPos with
  | false =>
    rw [refreshedEntry_of_not_conPos held address hpos]
    exact { hmeasured with }
  | true =>
    have hgenesis := fun hparent => refreshedEntry_posCertified_false (f := f) (e := e)
      held address hpos (.inr hparent)
    rw [refreshedEntry_eq held address hpos] at hgenesis ⊢
    refine { hmeasured with optimistic := fun hanswer _ => ?_, genesis := hgenesis }
    dsimp only at hanswer ⊢
    cases hverdict : refreshedVerdict p f e held with
    | none => rfl
    | some v => exact (refreshedVerdict_eq held hmeasured hverdict).trans hanswer

theorem isSettled_refreshed (hpos : p.conPos = true) (hmeasured : IsMeasured p f e)
    (hsettled : IsSettled p f e) : IsSettled p f (refreshedEntry p f e held address) := by
  rw [refreshedEntry_eq held address hpos]
  refine ⟨?_, hsettled.kept⟩
  dsimp only
  have hsome : (refreshedVerdict p f e held).isSome := by
    simp only [refreshedVerdict]
    cases hneeded : (posJudgeCertified p f e.posCountersigs (posQuorumAfter p f held)).2 with
    | false => exact isSome_of_not_byParent hneeded
    | true =>
      rw [posJudgeCertified_byParent _ f.quorum] at hneeded
      rw [hsettled.kept hneeded]
      rfl
  obtain ⟨v, hv⟩ := Option.isSome_iff_exists.mp hsome
  rw [hv]
  exact refreshedVerdict_eq held hmeasured hv

end Refresh

/-- At a restart, the candidates are the valid blocks. -/
theorem Inv.restart (hinv : n.Inv p facts quiet) (held : Uint256 → Bool) {address : Uint256 → ℕ}
    (hdistinct : Function.Injective address) : (n.restart p facts held address).Inv p facts quiet := by
  set m : ForkNode := { n with
    index := fun h => refreshedEntry p (facts h) (n.index h) (held h) (address h)
    candidates := [] } with hm
  have hdistinct' : m.Distinct := by
    intro x y hxy
    have hxy' : (refreshedEntry p (facts x) (n.index x) (held x) (address x)).address =
        (refreshedEntry p (facts y) (n.index y) (held y) (address y)).address := hxy
    rw [refreshedEntry_address, refreshedEntry_address] at hxy'
    exact hdistinct hxy'
  obtain ⟨hsorted, hmem⟩ := insertAll_spec (n := m) (p := p) hdistinct' List.Pairwise.nil
    fun h => !n.marked h
  refine ⟨hinv.tree, hdistinct', hinv.linked, ?_, hinv.connected, hinv.parents, hinv.tip,
    fun x hx => isHeader_refreshed _ _ (hinv.headers x hx),
    fun x hx => isMeasured_refreshed _ _ (hinv.measured x hx), ?_, hsorted, ?_⟩
  · exact fun x hx => ((hmem x).mp hx).elim And.left nofun
  · intro hpos x hx
    have hbody := hinv.linked x (hinv.connected x hx).1
    exact isSettled_refreshed _ _ hpos (hinv.measured x hbody) (hinv.settled hpos x hx)
  · intro _ x hx hunmarked hout
    refine (hout ((hmem x).mpr (.inl ⟨hx, ?_⟩))).elim
    rw [show n.marked x = false from hunmarked]
    rfl

end ForkNode

end Sequentia
