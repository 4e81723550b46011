import Sequentia.Chain.BlockTree
import Sequentia.Chain.CandidateEvents

/-!
# The best candidate

Looking for the best candidate erases candidates that are refused or failed, and keeps the
invariant of nodes. If the finality gate refuses nothing, what is left last is the best of all
valid blocks, so that nodes with the same valid blocks and the same answers agree on it. The gate
itself goes by what was connected first: of two certified siblings, a node keeps the one that was
final when the other arrived.
-/

namespace Sequentia

open OrderedSet List

variable {facts : Uint256 → ForkFacts}

namespace ForkNode

variable {p : CertParams} {quiet : Bool} {n n' : ForkNode} {h : Uint256}

theorem length_eraseAll_lt (hinv : n.Inv p facts quiet) (hs : List Uint256) (hin : h ∈ hs)
    (hcandidate : h ∈ n.candidates) :
    (n.eraseAll p hs).candidates.length < n.candidates.length := by
  have hsub : ∀ (hs l : List Uint256),
      (hs.foldl (fun l h => OrderedSet.erase (n.lt p) h l) l).Sublist l := by
    intro hs
    induction hs with
    | nil => exact List.Sublist.refl
    | cons y hs ih => exact fun l => (ih _).trans (erase_sublist _ _ _)
  obtain ⟨-, hmem⟩ := eraseAll_spec hinv.distinct hinv.sorted hs
  refine Nat.lt_of_le_of_ne (hsub hs n.candidates).length_le fun hlength => ?_
  have heq : (n.eraseAll p hs).candidates = n.candidates :=
    (hsub hs n.candidates).eq_of_length hlength
  rw [← heq, hmem] at hcandidate
  exact hcandidate.1 hin

theorem Inv.marked_of_onChain (hinv : n.Inv p facts quiet) {x : Uint256}
    (hx : n.onChain facts x = true) : n.marked x = false := by
  unfold onChain isOnChain at hx
  split at hx
  · cases hx
  · next t htip => exact (hinv.connected t (hinv.tip t htip)).2 x (of_decide_eq_true hx)

/-- Below a block of the active chain, nothing is off it. -/
theorem branch_eq_nil (htree : IsTree facts) (hh : n.onChain facts h = true) :
    n.branch facts h = [] := by
  unfold onChain isOnChain at hh
  split at hh
  · cases hh
  · next t htip =>
    refine filter_eq_nil_iff.mpr fun x hx => ?_
    rw [onChain, htip]
    simpa [isOnChain] using htree.path_subset (of_decide_eq_true hh) hx

theorem branch_eq_cons (hh : n.onChain facts h = false) :
    n.branch facts h = h :: ((facts h).ancestors.filter fun x => !n.onChain facts x) :=
  filter_cons_of_pos (by rw [hh]; rfl)

/-- A candidate above a marked block is erased with its branch. -/
theorem mem_failed_branch (htree : IsTree facts) {q : Uint256 → Bool} {test : Uint256}
    {rest : List Uint256} (htest : (n.branch facts h).dropWhile q = test :: rest) :
    h ∈ (n.branch facts h).takeWhile q ++ [test] := by
  cases hon : n.onChain facts h with
  | true =>
    rw [branch_eq_nil htree hon] at htest
    cases htest
  | false =>
    rw [branch_eq_cons hon] at htest ⊢
    by_cases hq : q h = true
    · rw [takeWhile_cons_of_pos hq]
      exact mem_cons_self
    · rw [dropWhile_cons_of_neg hq] at htest
      rw [(List.cons.inj htest).1]
      exact mem_append_right _ (mem_singleton_self _)

theorem onChain_of_refuses (hrefuses : n.refuses p facts h = true) :
    n.onChain facts h = false := by
  rw [← Bool.not_eq_true]
  intro hon
  unfold onChain at hon
  unfold refuses posFinalityGateRefuses at hrefuses
  simp only [hon, Bool.true_or, if_true] at hrefuses
  split at hrefuses
  · cases hrefuses
  · split at hrefuses <;> cases hrefuses

theorem refuses_of_refuses {hs gone : List Uint256} {x : Uint256}
    (hrefuses : ForkNode.refuses p facts { n.eraseAll p gone with
      marked := fun y => n.marked y || decide (y ∈ hs) } x = true) :
    n.refuses p facts x = true := by
  unfold refuses posFinalityGateRefuses at *
  split at hrefuses
  · cases hrefuses
  · next hposition =>
    rw [if_neg hposition]
    dsimp only [eraseAll] at hrefuses
    cases hfinal : n.final with
    | none =>
      rw [hfinal] at hrefuses
      cases hrefuses
    | some f =>
      rw [hfinal] at hrefuses
      dsimp only at hrefuses ⊢
      by_cases hin : f ∈ hs
      · simp [hin] at hrefuses
      · simpa only [hin, decide_false, Bool.or_false] using hrefuses

/-- What looking for the best candidate leaves. -/
structure Searched (p : CertParams) (facts : Uint256 → ForkFacts) (quiet : Bool)
    (n n' : ForkNode) : Prop where
  inv : n'.Inv p facts quiet
  index : n'.index = n.index
  valid : ∀ x, n'.Valid facts x ↔ n.Valid facts x

theorem Inv.eraseRefused (hinv : n.Inv p facts quiet) (hquiet : quiet = false)
    (hs : List Uint256) : Searched p facts quiet n (n.eraseAll p hs) := by
  obtain ⟨hsorted, hmem⟩ := eraseAll_spec hinv.distinct hinv.sorted hs
  exact ⟨{ hinv with
    candidates := fun x hx => hinv.candidates x ((hmem x).mp hx).2
    sorted := hsorted
    covered := fun hquiet' => by cases hquiet.symm.trans hquiet' }, rfl, fun x => Iff.rfl⟩

theorem Inv.eraseFailed (hinv : n.Inv p facts quiet) {test : Uint256} {rest : List Uint256}
    (htest : (n.branch facts h).dropWhile (fun x => !n.marked x) = test :: rest) :
    Searched p facts quiet n { n.eraseAll p
        ((n.branch facts h).takeWhile (fun x => !n.marked x) ++ [test]) with
      marked := fun x => n.marked x ||
        decide (x ∈ (n.branch facts h).takeWhile fun x => !n.marked x) } := by
  have hmarked : n.marked test = true := by
    have hhead := List.head?_dropWhile_not (fun x => !n.marked x) (n.branch facts h)
    rw [htest] at hhead
    simpa using hhead
  -- Whatever has a block of the branch on its path has the marked one as well.
  have hbelow : ∀ x y, y ∈ path facts x →
      y ∈ (n.branch facts h).takeWhile (fun x => !n.marked x) → test ∈ path facts x :=
    fun x y hy hbranch =>
      hinv.tree.path_subset hy
        (Forest.mem_path_of_takeWhile (F := hinv.tree.forest) hbranch htest)
  refine ⟨hinv.mark ?_ ?_, rfl, fun x => ?_⟩
  · intro _ x hx
    rcases mem_append.mp hx with hx | hx
    · exact .inr hx
    · rw [mem_singleton.mp hx]
      exact .inl hmarked
  · intro t ht x hx hin
    have hvalid := (hinv.connected t ht).2 test (hbelow t x hx hin)
    rw [hmarked] at hvalid
    cases hvalid
  · refine and_congr_right fun _ => ⟨fun hvalid y hy => ?_, fun hvalid y hy => ?_⟩
    · exact (Bool.or_eq_false_iff.mp (hvalid y hy)).1
    · refine Bool.or_eq_false_iff.mpr ⟨hvalid y hy, decide_eq_false fun hin => ?_⟩
      have htest' := hvalid test (hbelow x y hy hin)
      rw [hmarked] at htest'
      cases htest'

theorem Inv.searched_refl (hinv : n.Inv p facts quiet) : Searched p facts quiet n n :=
  ⟨hinv, rfl, fun _ => Iff.rfl⟩

theorem Searched.trans {n₁ n₂ n₃ : ForkNode} (h₁ : Searched p facts quiet n₁ n₂)
    (h₂ : Searched p facts quiet n₂ n₃) : Searched p facts quiet n₁ n₃ :=
  ⟨h₂.inv, h₂.index.trans h₁.index, fun x => (h₂.valid x).trans (h₁.valid x)⟩

theorem findMostWorkChain_spec (turns : ℕ) (hinv : n.Inv p facts quiet)
    (hquiet : quiet = true → n.Quiet p facts) :
    Searched p facts quiet n (ForkNode.findMostWorkChain p facts turns n) ∧
      (n.candidates.length ≤ turns → ∀ c,
        (ForkNode.findMostWorkChain p facts turns n).candidates.getLast? = some c →
        n.Valid facts c) := by
  induction turns generalizing n with
  | zero =>
    refine ⟨hinv.searched_refl, fun hlength c hc => ?_⟩
    rw [ForkNode.findMostWorkChain, eq_nil_of_length_eq_zero (Nat.le_zero.mp hlength)] at hc
    cases hc
  | succ turns ih =>
    rw [ForkNode.findMostWorkChain]
    split
    · next hnone =>
      refine ⟨hinv.searched_refl, fun _ c hc => ?_⟩
      rw [hnone] at hc
      cases hc
    · next last hlast =>
      have hcandidate : last ∈ n.candidates := mem_of_getLast? hlast
      split
      · next hrefuses =>
        have hloud : quiet = false := by
          cases quiet with
          | false => rfl
          | true =>
            rw [hquiet rfl last hcandidate] at hrefuses
            cases hrefuses
        have hoff := onChain_of_refuses hrefuses
        have hstep := hinv.eraseRefused hloud (n.branch facts last)
        obtain ⟨hsearched, hlast'⟩ := ih hstep.inv fun heq => by
          rw [hloud] at heq
          cases heq
        refine ⟨hstep.trans hsearched, fun hlength c hc => ?_⟩
        refine (hstep.valid c).mp (hlast' ?_ c hc)
        have hshorter := length_eraseAll_lt hinv (n.branch facts last)
          (by rw [branch_eq_cons hoff]; exact mem_cons_self) hcandidate
        omega
      · dsimp only
        split
        · next hclean =>
          refine ⟨hinv.searched_refl, fun _ c hc => ?_⟩
          rw [hlast] at hc
          obtain rfl := Option.some.inj hc
          refine ⟨hinv.candidates _ hcandidate, fun x hx => ?_⟩
          cases hon : n.onChain facts x with
          | true => exact hinv.marked_of_onChain hon
          | false =>
            have hbranch : x ∈ n.branch facts last := mem_filter.mpr ⟨hx, by rw [hon]; rfl⟩
            simpa using dropWhile_eq_nil_iff.mp hclean x hbranch
        · next test rest htest =>
          have hstep := hinv.eraseFailed htest
          obtain ⟨hsearched, hlast'⟩ := ih hstep.inv fun heq x hx => by
            rw [← Bool.not_eq_true]
            intro hrefuses
            obtain ⟨-, hmem⟩ := eraseAll_spec hinv.distinct hinv.sorted
              ((n.branch facts last).takeWhile (fun x => !n.marked x) ++ [test])
            have hquiet' := hquiet heq x ((hmem x).mp hx).2
            rw [refuses_of_refuses hrefuses] at hquiet'
            cases hquiet'
          refine ⟨hstep.trans hsearched, fun hlength c hc => ?_⟩
          refine (hstep.valid c).mp (hlast' ?_ c hc)
          have hshorter := length_eraseAll_lt hinv (h := last)
            ((n.branch facts last).takeWhile (fun x => !n.marked x) ++ [test])
            ?_ hcandidate
          · change (n.eraseAll p _).candidates.length ≤ turns
            omega
          · exact mem_failed_branch hinv.tree htest

/-- An event keeps the invariant. -/
theorem Inv.step (hinv : n.Inv p facts quiet) (hstep : Step p facts quiet n n') :
    n'.Inv p facts quiet := by
  cases hstep with
  | header h hbody => exact hinv.header hbody
  | body h countersigs held hbody => exact hinv.body hbody countersigs held
  | link h sequence hbody hnew => exact hinv.link hbody hnew sequence
  | connect h hparent hlinked hvalid => exact hinv.connect hparent hlinked hvalid
  | disconnect htip => exact hinv.disconnect htip
  | prune htip => exact hinv.prune htip
  | findMostWorkChain hquiet => exact (findMostWorkChain_spec _ hinv hquiet).1.inv
  | fail hs gone hgone hnot => exact hinv.fail hgone hnot
  | discard h descendants hnot => exact hinv.discard hnot (hinv.discards descendants)
  | invalidate hs gone t hgone htip => exact hinv.invalidate htip
  | reconsider h htip hancestors => exact hinv.reconsider htip
  | release r => exact hinv.release r _
  | revoke => exact { hinv with }
  | finalize f hfinal => exact { hinv with }
  | restart held address hdistinct => exact hinv.restart held hdistinct

/-- A history keeps the invariant. -/
theorem inv_of_reachable (htree : IsTree facts) (hreach : Reachable p facts quiet n) :
    n.Inv p facts quiet := by
  induction hreach with
  | initial address hdistinct => exact inv_initial htree hdistinct
  | step _ hstep ih => exact ih.step hstep

theorem Inv.best_spec (hinv : n.Inv p facts true) (hquiet : n.Quiet p facts) :
    match n.best p facts with
    | none => ∀ x, ¬n.Valid facts x
    | some m => n.Valid facts m ∧ ∀ x, n.Valid facts x → x ≠ m → n.lt p x m = true := by
  obtain ⟨hsearched, hlast⟩ := findMostWorkChain_spec n.candidates.length hinv fun _ => hquiet
  unfold best
  set m := ForkNode.findMostWorkChain p facts n.candidates.length n with hm
  have hlt : m.lt p = n.lt p := by
    funext x y
    rw [lt, lt, hsearched.index]
  have htotal := totalOn_lt (p := p) hinv.distinct
  -- The best of the valid blocks is a candidate: nothing valid is better.
  have hmax : ∀ x, n.Valid facts x → ∃ b ∈ m.candidates, n.Valid facts b ∧
      ∀ y, n.Valid facts y → y ≠ b → n.lt p y b = true := by
    intro x hx
    classical
    have hvalid : ∀ y, y ∈ n.linked.filter (fun y => decide (n.Valid facts y)) ↔
        n.Valid facts y := by
      intro y
      rw [mem_filter, decide_eq_true_iff]
      exact ⟨fun hy => hy.2, fun hy => ⟨hy.1, hy⟩⟩
    obtain ⟨b, hb, hbest⟩ := exists_max htotal (fun _ _ => trivial)
      (ne_nil_of_mem ((hvalid x).mpr hx))
    rw [hvalid] at hb
    refine ⟨b, ?_, hb, fun y hy hne => hbest y ((hvalid y).mpr hy) hne⟩
    by_contra hnot
    have hb' := (hsearched.valid b).mpr hb
    obtain ⟨t, ht, hworse⟩ := hsearched.inv.covered rfl b hb'.1
      (hb'.2 b mem_cons_self) hnot
    rw [hlt] at hworse
    have htvalid := (hsearched.valid t).mp (hsearched.inv.connected t ht)
    have hne : t ≠ b := by
      rintro rfl
      rw [htotal.irrefl t trivial] at hworse
      cases hworse
    have hback := hbest t ((hvalid t).mpr htvalid) hne
    rw [htotal.asymm trivial trivial hback] at hworse
    cases hworse
  cases hbest : m.candidates.getLast? with
  | none =>
    intro x hx
    obtain ⟨b, hb, -⟩ := hmax x hx
    rw [List.getLast?_eq_none_iff.mp hbest] at hb
    cases hb
  | some c =>
    have hc := hlast le_rfl c hbest
    obtain ⟨b, hb, -, hall⟩ := hmax c hc
    obtain ⟨-, habove⟩ := hsearched.inv.sorted.lt_getLast? hbest
    have heq : c = b := by
      by_contra hne
      have hup := hall c hc hne
      have hdown := habove b hb (Ne.symm hne)
      rw [hlt, htotal.asymm trivial trivial hup] at hdown
      cases hdown
    rw [heq]
    exact ⟨heq ▸ hc, hall⟩

/-- The keys of valid blocks are the same on all nodes, but for the answers. -/
theorem Inv.lt_congr (hpos : p.conPos = true) (hinv : n.Inv p facts quiet)
    (hinv' : n'.Inv p facts quiet) (hvalid : ∀ x, n.Valid facts x ↔ n'.Valid facts x)
    (hcertified : ∀ x, n.Valid facts x → (n.index x).posCertified = (n'.index x).posCertified)
    {x y : Uint256} (hx : n.Valid facts x) (hy : n.Valid facts y) (hne : x ≠ y) :
    n.lt p x y = n'.lt p x y := by
  have hkeys : ∀ z, n.Valid facts z → (n.index z).nChainWork = (n'.index z).nChainWork ∧
      (n.index z).posCertified = (n'.index z).posCertified ∧
      (n.index z).posVrfScore = (n'.index z).posVrfScore := by
    intro z hz
    have hmeasured := hinv.measured z (hinv.linked z hz.1)
    have hmeasured' := hinv'.measured z (hinv'.linked z ((hvalid z).mp hz).1)
    exact ⟨hmeasured.nChainWork.trans hmeasured'.nChainWork.symm, hcertified z hz,
      hmeasured.posVrfScore.trans hmeasured'.posVrfScore.symm⟩
  rw [lt, lt, hpos]
  exact less_congr hne (hkeys x hx) (hkeys y hy)

end ForkNode

open ForkNode

/-- The comparator is a strict total order, the candidates stay sorted along every history, and
nodes with the same valid blocks and the same answers have the same best candidate, however they
came by them, if their finality gates refuse none of the candidates. -/
theorem candidates_converge (p : CertParams) (htree : IsTree facts) :
    (∀ index : Uint256 → BlockEntry, (Function.Injective fun h => (index h).address) →
      TotalOn (less p.conPos index) fun _ => True) ∧
    (∀ quiet n, Reachable p facts quiet n → Sorted (n.lt p) n.candidates) ∧
    (p.conPos = true → ∀ n n', Reachable p facts true n → Reachable p facts true n' →
      n.Quiet p facts → n'.Quiet p facts →
      (∀ x, n.Valid facts x ↔ n'.Valid facts x) →
      (∀ x, n.Valid facts x → (n.index x).posCertified = (n'.index x).posCertified) →
      n.best p facts = n'.best p facts) := by
  refine ⟨fun _ hdistinct => totalOn_less hdistinct,
    fun _ _ hreach => (inv_of_reachable htree hreach).sorted, ?_⟩
  intro hpos n n' hreach hreach' hquiet hquiet' hvalid hcertified
  have hinv := inv_of_reachable htree hreach
  have hinv' := inv_of_reachable htree hreach'
  have hspec := hinv.best_spec hquiet
  have hspec' := hinv'.best_spec hquiet'
  cases hbest : n.best p facts with
  | none =>
    rw [hbest] at hspec
    cases hbest' : n'.best p facts with
    | none => rfl
    | some m' =>
      rw [hbest'] at hspec'
      exact (hspec m' ((hvalid m').mpr hspec'.1)).elim
  | some m =>
    rw [hbest] at hspec
    cases hbest' : n'.best p facts with
    | none =>
      rw [hbest'] at hspec'
      exact (hspec' m ((hvalid m).mp hspec.1)).elim
    | some m' =>
      rw [hbest'] at hspec'
      have hm' := (hvalid m').mpr hspec'.1
      by_contra hne
      have hne' : m ≠ m' := fun heq => hne (congrArg some heq)
      have hup := hspec.2 m' hm' (Ne.symm hne')
      have hdown := hspec'.2 m ((hvalid m).mp hspec.1) hne'
      rw [← hinv.lt_congr hpos hinv' hvalid hcertified hspec.1 hm' hne'] at hdown
      rw [(totalOn_lt hinv.distinct).asymm trivial trivial hdown] at hup
      cases hup

/-- Two certified blocks above the first block of the chain, the second with the better score. -/
def rivalFacts (h : Uint256) : ForkFacts where
  nChainWork := if h = 1 ∨ h = 2 then 2 else 1
  pprev := if h = 1 ∨ h = 2 then some 0 else none
  ancestors := if h = 1 ∨ h = 2 then [0] else []
  challengeParses := true
  escapingStallAllowed := false
  quorum := 2
  vrfScore := if h = 1 then some 9 else some 5

/-- Public committees on an anchored chain. -/
def rivalParams : CertParams := ⟨true, true, true, true, true, 5, true⟩

theorem rivalFacts_isTree : IsTree rivalFacts := by
  intro h
  unfold rivalFacts
  by_cases hh : h = 1 ∨ h = 2
  · dsimp only
    rw [if_pos hh, if_pos hh]
    decide +kernel
  · dsimp only
    rw [if_neg hh, if_neg hh]

/-- A certified body arrives, and its block is linked. -/
def rivalArrives (n : ForkNode) (h : Uint256) (sequence : ℤ) : ForkNode :=
  { n.setPosForkChoiceKeys rivalParams rivalFacts h 2 true with bodies := h :: n.bodies }.link
    rivalParams h sequence

def rivalConnects (n : ForkNode) (h : Uint256) : ForkNode :=
  { (if rivalParams.conPos && (rivalFacts h).hasParent then
      n.posRecordCertified rivalParams rivalFacts h (rivalFacts h).quorum else n) with
    tip := some h
    connected := h :: n.connected }

/-- A node with the first block of the chain. -/
def rivalGenesis : ForkNode :=
  rivalConnects (rivalArrives (initial rivalFacts fun h => h.val.toNat) 0 1) 0

/-- A node on which one of the blocks is connected. -/
def rivalFirst (first : Uint256) : ForkNode :=
  rivalConnects (rivalArrives rivalGenesis first 2) first

/-- A node on which a block is connected, and final or not, when the other one arrives. -/
def rivalNode (final : Option Uint256) (first second : Uint256) : ForkNode :=
  rivalArrives { rivalFirst first with final := final } second 3

section Rivals

variable {quiet : Bool} {n : ForkNode} {h : Uint256}

theorem reachable_rivalArrives (hreach : Reachable rivalParams rivalFacts quiet n)
    (hbody : h ∉ n.bodies) (hnew : h ∉ n.linked) (sequence : ℤ)
    (hlinked : (n.setPosForkChoiceKeys rivalParams rivalFacts h 2 true).linked = n.linked) :
    Reachable rivalParams rivalFacts quiet (rivalArrives n h sequence) :=
  (hreach.step (.body h 2 true hbody)).step
    (.link h sequence mem_cons_self (by rw [hlinked]; exact hnew))

theorem reachable_rivalGenesis : Reachable rivalParams rivalFacts quiet rivalGenesis := by
  have hinitial : Reachable rivalParams rivalFacts quiet
      (initial rivalFacts fun h => h.val.toNat) := .initial _ fun x y hxy => by
    cases x
    cases y
    exact congrArg Uint256.mk (BitVec.eq_of_toNat_eq hxy)
  refine (reachable_rivalArrives hinitial ?_ ?_ 1 rfl).step (.connect 0 ?_ ?_ ?_)
  all_goals decide +kernel

theorem reachable_rivalFirst {first : Uint256} (hfirst : first = 1 ∨ first = 2) :
    Reachable rivalParams rivalFacts quiet (rivalFirst first) := by
  rcases hfirst with rfl | rfl <;>
  · refine (reachable_rivalArrives reachable_rivalGenesis ?_ ?_ 2 rfl).step (.connect _ ?_ ?_ ?_)
    all_goals decide +kernel

theorem reachable_rivalNode {first second : Uint256} {final : Option Uint256}
    (hrivals : first = 1 ∧ second = 2 ∨ first = 2 ∧ second = 1)
    (hfinal : final = none ∨ final = some first) :
    Reachable rivalParams rivalFacts quiet (rivalNode final first second) := by
  have hfinalized : Reachable rivalParams rivalFacts quiet
      { rivalFirst first with final := final } := by
    refine (reachable_rivalFirst (hrivals.imp And.left And.left)).step (.finalize final ?_)
    rintro h rfl
    obtain hnone | hsome := hfinal
    · cases hnone
    · cases hsome
      right
      rcases hrivals with ⟨rfl, -⟩ | ⟨rfl, -⟩ <;> decide +kernel
  rcases hrivals with ⟨rfl, rfl⟩ | ⟨rfl, rfl⟩
  · exact reachable_rivalArrives hfinalized (show 2 ∉ (rivalFirst 1).bodies by decide +kernel)
      (show 2 ∉ (rivalFirst 1).linked by decide +kernel) 3 rfl
  · exact reachable_rivalArrives hfinalized (show 1 ∉ (rivalFirst 2).bodies by decide +kernel)
      (show 1 ∉ (rivalFirst 2).linked by decide +kernel) 3 rfl

/-- Both blocks are valid and certified, whichever comes first. -/
theorem rivalNode_same {final final' : Option Uint256}
    (hfinal : final = none ∧ final' = none ∨ final = some 1 ∧ final' = some 2) :
    (∀ x, (rivalNode final 1 2).Valid rivalFacts x ↔ (rivalNode final' 2 1).Valid rivalFacts x) ∧
      ∀ x, (rivalNode final 1 2).Valid rivalFacts x →
        ((rivalNode final 1 2).index x).posCertified =
          ((rivalNode final' 2 1).index x).posCertified := by
  have hlinked : (rivalNode final 1 2).linked = [2, 1, 0] := rfl
  have hlinked' : (rivalNode final' 2 1).linked = [1, 2, 0] := rfl
  have hmarked : (rivalNode final 1 2).marked = fun _ => false := rfl
  have hmarked' : (rivalNode final' 2 1).marked = fun _ => false := rfl
  refine ⟨fun x => ?_, fun x hx => ?_⟩
  · rw [Valid, Valid, hlinked, hlinked', hmarked, hmarked']
    exact and_congr_left fun _ => (List.Perm.swap 1 2 [0]).mem_iff
  · have hall : ∀ x ∈ [(2 : Uint256), 1, 0], ((rivalNode final 1 2).index x).posCertified =
        ((rivalNode final' 2 1).index x).posCertified := by
      rcases hfinal with ⟨rfl, rfl⟩ | ⟨rfl, rfl⟩ <;> decide +kernel
    exact hall x hx.1

end Rivals

/-- Nodes on which different blocks are final when the other one arrives keep to them. -/
theorem rivals_diverge :
    ¬∀ (p : CertParams) (facts : Uint256 → ForkFacts) (n n' : ForkNode), IsTree facts →
      p.conPos = true → Reachable p facts false n → Reachable p facts false n' →
      (∀ x, n.Valid facts x ↔ n'.Valid facts x) →
      (∀ x, n.Valid facts x → (n.index x).posCertified = (n'.index x).posCertified) →
      n.best p facts = n'.best p facts := by
  intro hclaim
  obtain ⟨hvalid, hcertified⟩ := rivalNode_same (.inr ⟨rfl, rfl⟩)
  have heq := hclaim rivalParams rivalFacts (rivalNode (some 1) 1 2) (rivalNode (some 2) 2 1)
    rivalFacts_isTree rfl (reachable_rivalNode (.inl ⟨rfl, rfl⟩) (.inr rfl))
    (reachable_rivalNode (.inr ⟨rfl, rfl⟩) (.inr rfl)) hvalid hcertified
  revert heq
  decide +kernel

/-- Without a final block, the order of arrival does not matter. -/
theorem rivals_converge : (rivalNode none 1 2).best rivalParams rivalFacts = some 2 ∧
      (rivalNode none 1 2).best rivalParams rivalFacts =
        (rivalNode none 2 1).best rivalParams rivalFacts := by
  obtain ⟨hvalid, hcertified⟩ := rivalNode_same (.inl ⟨rfl, rfl⟩)
  exact ⟨by decide +kernel, (candidates_converge rivalParams rivalFacts_isTree).2.2 rfl _ _
    (reachable_rivalNode (.inl ⟨rfl, rfl⟩) (.inl rfl))
    (reachable_rivalNode (.inr ⟨rfl, rfl⟩) (.inl rfl)) (fun _ _ => rfl) (fun _ _ => rfl) hvalid
    hcertified⟩

end Sequentia
