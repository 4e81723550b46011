import Sequentia.Anchor.Caches
import Sequentia.Anchor.Recovery

/-!
# Holding back a block beside an orphaned one

Before a producer builds on its tip it asks `AnchorCertifiedSiblingPending` whether a child of the
tip that carries a quorum, or has a descendant that does, may still be restored. The search settles
on the first such child in the order of the block index and looks for a quorum afterwards.
-/

namespace Sequentia.Anchor

open List

/-- What `AnchorCertifiedSiblingPending` reads. -/
structure SiblingIndex where
  /-- `g_con_pos`, `g_con_bitcoin_anchor` and `g_validate_anchor`. -/
  anchored : Bool
  /-- `m_block_index`, in the order of its enumeration. -/
  blockIndex : List Uint256
  flags : Uint256 → FailureFlags
  /-- `m_anchor_height` and `m_anchor_hash`. -/
  anchor : Uint256 → ℕ × Uint256
  posCertKnown : Uint256 → Bool
  posCertified : Uint256 → Bool
  /-- `g_anchor_invalidated`. -/
  invalidated : List Uint256
  /-- `g_anchor_stale_cache`. -/
  stale : List (ℕ × Uint256)

namespace SiblingIndex

variable (F : Forest Uint256) (s : SiblingIndex) (tip : Uint256) (childHeight : ℕ)

def posCarriesQuorum (h : Uint256) : Bool := s.posCertKnown h && s.posCertified h

/-- The entries of the recovery set that could still be restored. -/
def roots : List Uint256 :=
  s.invalidated.filter fun h =>
    s.blockIndex.contains h && F.height h ≤ childHeight &&
      !((s.flags h).mask && !(s.flags h).anchor) && !s.stale.contains (s.anchor h)

/-- A child of the tip that descends from a root. -/
def occupies (p : Uint256) : Bool :=
  F.height p == childHeight && F.parent p == some tip &&
    (s.roots F childHeight).any fun root => F.atHeight p (F.height root) == some root

/-- A block or one above it carries a quorum. -/
def guarded (target : Uint256) : Bool :=
  s.posCarriesQuorum target || s.blockIndex.any fun p => childHeight < F.height p &&
    s.posCarriesQuorum p && F.atHeight p childHeight == some target

def anchorCertifiedSiblingPending : Option Uint256 :=
  if !s.anchored then none
  else if s.invalidated.isEmpty then none
  else if (s.roots F childHeight).isEmpty then none
  else (s.blockIndex.find? (s.occupies F tip childHeight)).bind fun target =>
    if s.guarded F childHeight target then some target else none

/-- A block that was orphaned by its anchor and may still be restored. -/
structure Recoverable (h : Uint256) : Prop where
  orphaned : h ∈ s.invalidated
  known : h ∈ s.blockIndex
  /-- Nobody but the watcher marked it. -/
  marks : (s.flags h).mask = true → (s.flags h).anchor = true
  /-- Its anchor is not known to be off the parent's best chain. -/
  fresh : s.anchor h ∉ s.stale

/-- A child of the tip on a branch under such a block. -/
structure OrphanedChild (c : Uint256) : Prop where
  known : c ∈ s.blockIndex
  parent : F.parent c = some tip
  under : ∃ root, s.Recoverable root ∧ root ∈ F.path c

def Guarded (c : Uint256) : Prop := ∃ d ∈ s.blockIndex, c ∈ F.path d ∧ s.posCarriesQuorum d = true

variable {F s tip} {c : Uint256}

theorem mem_roots (hc : F.height c = childHeight) {root : Uint256} (hroot : root ∈ F.path c) :
    root ∈ s.roots F childHeight ↔ s.Recoverable root := by
  have hle : F.height root ≤ childHeight := hc ▸ Forest.height_le hroot
  simp only [roots, mem_filter, Bool.and_eq_true, contains_iff_mem, decide_eq_true_eq,
    Bool.not_eq_true', Bool.and_eq_false_iff, Bool.not_eq_false']
  constructor
  · rintro ⟨horphaned, ⟨⟨hknown, -⟩, hmarks⟩, hfresh⟩
    exact ⟨horphaned, hknown, fun hmask => hmarks.resolve_left (by simp [hmask]), by
      simpa using hfresh⟩
  · rintro ⟨horphaned, hknown, hmarks, hfresh⟩
    refine ⟨horphaned, ⟨⟨hknown, hle⟩, ?_⟩, by simpa using hfresh⟩
    cases hmask : (s.flags root).mask with
    | false => exact .inl rfl
    | true => exact .inr (hmarks hmask)

theorem occupies_iff : c ∈ s.blockIndex ∧ s.occupies F tip (F.height tip + 1) c = true ↔
    s.OrphanedChild F tip c := by
  simp only [occupies, Bool.and_eq_true, any_eq_true, beq_iff_eq, Forest.atHeight_eq_some_iff,
    and_true]
  constructor
  · rintro ⟨hknown, ⟨hheight, hparent⟩, root, hroot, hpath⟩
    exact ⟨hknown, hparent, root, (mem_roots _ hheight hpath).mp hroot, hpath⟩
  · rintro ⟨hknown, hparent, root, hroot, hpath⟩
    have hheight := Forest.height_child hparent
    exact ⟨hknown, ⟨hheight, hparent⟩, root, (mem_roots _ hheight hpath).mpr hroot, hpath⟩

theorem guarded_iff (hchild : s.OrphanedChild F tip c) :
    s.guarded F (F.height tip + 1) c = true ↔ s.Guarded F c := by
  have hheight := Forest.height_child hchild.parent
  simp only [guarded, Bool.or_eq_true, any_eq_true, Bool.and_eq_true, decide_eq_true_eq,
    beq_iff_eq, Forest.atHeight_eq_some_iff]
  constructor
  · rintro (hcarries | ⟨p, hp, ⟨-, hcarries⟩, hpath, -⟩)
    · exact ⟨c, hchild.known, Forest.mem_path_self c, hcarries⟩
    · exact ⟨p, hp, hpath, hcarries⟩
  · rintro ⟨d, hd, hpath, hcarries⟩
    rcases mem_cons.mp hpath with rfl | habove
    · exact .inl hcarries
    · exact .inr ⟨d, hd, ⟨hheight ▸ Forest.height_lt habove, hcarries⟩, hpath, hheight⟩

/-- The producer is told to wait just when the branch of the child found first has a quorum. -/
theorem pending_iff (hanchored : s.anchored = true) :
    (s.anchorCertifiedSiblingPending F tip (F.height tip + 1)).isSome = true ↔
      ∃ c, s.blockIndex.find? (s.occupies F tip (F.height tip + 1)) = some c ∧
        s.OrphanedChild F tip c ∧ s.Guarded F c := by
  unfold anchorCertifiedSiblingPending
  cases hfind : s.blockIndex.find? (s.occupies F tip (F.height tip + 1)) with
  | none => simp
  | some c =>
    have hchild := occupies_iff.mp ⟨mem_of_find?_eq_some hfind, find?_some hfind⟩
    obtain ⟨root, hroot, hpath⟩ := hchild.under
    have hin := (mem_roots _ (Forest.height_child hchild.parent) hpath).mpr hroot
    rw [hanchored, if_neg (by decide), if_neg (by simpa using ne_nil_of_mem hroot.orphaned),
      if_neg (by simpa using ne_nil_of_mem hin), Option.bind_some]
    by_cases hguarded : s.Guarded F c
    · simp [(guarded_iff hchild).mpr hguarded, hguarded, hchild]
    · simp [mt (guarded_iff hchild).mp hguarded, hguarded]

/-- The producer is told to wait exactly when an orphaned child of its tip that may be restored has
a quorum on its branch, whatever the order of the block index, just when all such children agree
on that. -/
theorem sibling_hold_iff (hanchored : s.anchored = true) :
    (∀ order, order.Perm s.blockIndex →
      (({ s with blockIndex := order }.anchorCertifiedSiblingPending F tip
          (F.height tip + 1)).isSome = true ↔
        ∃ c, s.OrphanedChild F tip c ∧ s.Guarded F c)) ↔
    ∀ c c', s.OrphanedChild F tip c → s.OrphanedChild F tip c' → s.Guarded F c →
      s.Guarded F c' := by
  -- Neither property depends on the order.
  have hsame : ∀ {order : List Uint256}, order.Perm s.blockIndex → ∀ c,
      ({ s with blockIndex := order }.OrphanedChild F tip c ↔ s.OrphanedChild F tip c) ∧
        ({ s with blockIndex := order }.Guarded F c ↔ s.Guarded F c) := by
    intro order hperm c
    refine ⟨⟨fun h => ⟨hperm.mem_iff.mp h.known, h.parent, h.under.imp fun _ h =>
        ⟨{ h.1 with known := hperm.mem_iff.mp h.1.known }, h.2⟩⟩,
      fun h => ⟨hperm.mem_iff.mpr h.known, h.parent, h.under.imp fun _ h =>
        ⟨{ h.1 with known := hperm.mem_iff.mpr h.1.known }, h.2⟩⟩⟩, ?_⟩
    exact exists_congr fun d => and_congr_left' hperm.mem_iff
  constructor
  · intro hall c c' hc hc' hguarded
    -- An enumeration that starts with the second child.
    have hperm : (c' :: s.blockIndex.erase c').Perm s.blockIndex :=
      (perm_cons_erase hc'.known).symm
    have htold := (hall _ hperm).mpr ⟨c, hc, hguarded⟩
    obtain ⟨t, ht, -, hg⟩ :=
      (pending_iff (s := { s with blockIndex := c' :: s.blockIndex.erase c' }) hanchored).mp htold
    rw [find?_cons_of_pos (occupies_iff.mpr ((hsame hperm c').1.mpr hc')).2] at ht
    obtain rfl := Option.some.inj ht
    exact (hsame hperm c').2.mp hg
  · intro hagree order hperm
    rw [pending_iff (s := { s with blockIndex := order }) hanchored]
    constructor
    · rintro ⟨c, -, hc, hg⟩
      exact ⟨c, (hsame hperm c).1.mp hc, (hsame hperm c).2.mp hg⟩
    · rintro ⟨c, hc, hg⟩
      have hfound := find?_isSome.mpr ⟨c, occupies_iff.mpr ((hsame hperm c).1.mpr hc)⟩
      obtain ⟨t, ht⟩ := Option.isSome_iff_exists.mp hfound
      have hchild := occupies_iff.mp ⟨mem_of_find?_eq_some ht, find?_some ht⟩
      exact ⟨t, ht, hchild,
        (hsame hperm t).2.mpr (hagree c t hc ((hsame hperm t).1.mp hchild) hg)⟩

/-- Two orphaned siblings, of which the given ones carry a quorum. -/
def siblings (certified : Uint256 → Bool) : SiblingIndex where
  anchored := true
  blockIndex := [1, 2, 3]
  flags h := if h = 1 then {} else { valid := true, anchor := true }
  anchor h := (7, h)
  posCertKnown _ := true
  posCertified := certified
  invalidated := [2, 3]
  stale := []

/-- The sibling without a quorum is found first and hides the other one. -/
theorem sibling_hides_quorum :
    let s := siblings (· == 3)
    s.anchored = true ∧ s.OrphanedChild forkChain 1 3 ∧ s.Guarded forkChain 3 ∧
      s.anchorCertifiedSiblingPending forkChain 1 (forkChain.height 1 + 1) = none :=
  ⟨rfl, ⟨by decide, rfl, 3, ⟨by decide, by decide, fun _ => rfl, by decide⟩, by decide⟩,
    ⟨3, by decide, by decide, rfl⟩, by decide⟩

/-- Siblings that both carry a quorum. -/
theorem sibling_hold_iff_both :
    ((siblings fun _ => true).anchorCertifiedSiblingPending forkChain 1
      (forkChain.height 1 + 1)).isSome = true := by
  refine ((sibling_hold_iff (s := siblings fun _ => true) rfl).mpr ?_ _ (.refl _)).mpr
    ⟨2, ⟨by decide, rfl, 2, ⟨by decide, by decide, fun _ => rfl, by decide⟩, by decide⟩,
      2, by decide, by decide, rfl⟩
  intro c c' _ hc' _
  exact ⟨c', hc'.known, Forest.mem_path_self c', rfl⟩

end SiblingIndex

end Sequentia.Anchor
