import Sequentia.Chain.Candidates

/-!
# Paths in the tree of blocks

The blocks of a tree are a forest: following the parents of a block leads to its ancestors and at
last to a block without a parent.
-/

namespace Sequentia

variable {facts : Uint256 → ForkFacts}

/-- `nHeight`: how many ancestors a block has. -/
def nHeight (facts : Uint256 → ForkFacts) (h : Uint256) : ℕ := (facts h).ancestors.length

namespace IsTree

def forest (htree : IsTree facts) : Forest Uint256 where
  parent h := (facts h).pprev
  ancestors h := (facts h).ancestors
  ancestors_eq h := by
    rw [htree h]
    cases (facts h).pprev <;> rfl

variable (htree : IsTree facts)

include htree

theorem ancestors_eq {h q : Uint256} (hprev : (facts h).pprev = some q) :
    (facts h).ancestors = path facts q := by
  rw [htree h, hprev]
  rfl

theorem ancestors_eq_nil {h : Uint256} (hprev : (facts h).pprev = none) :
    (facts h).ancestors = [] := by
  rw [htree h, hprev]

theorem path_eq {h q : Uint256} (hprev : (facts h).pprev = some q) :
    path facts h = h :: path facts q := by
  rw [path, htree.ancestors_eq hprev]

theorem mem_path_of_parent {h q x : Uint256}
    (hprev : (facts h).pprev = some q) (hx : x ∈ path facts q) : x ∈ path facts h := by
  rw [htree.path_eq hprev]
  exact List.mem_cons_of_mem h hx

theorem induct {P : Uint256 → Prop}
    (root : ∀ h, (facts h).pprev = none → P h)
    (child : ∀ h q, (facts h).pprev = some q → P q → P h) (h : Uint256) : P h :=
  htree.forest.induct root child h

theorem path_subset {x t : Uint256} (hx : x ∈ path facts t) :
    path facts x ⊆ path facts t :=
  Forest.path_subset (F := htree.forest) hx

/-- Higher blocks of a path come first. -/
theorem nHeight_lt {h x : Uint256} (hx : x ∈ (facts h).ancestors) :
    nHeight facts x < nHeight facts h :=
  Forest.height_lt (F := htree.forest) hx

theorem nHeight_pos {h q : Uint256} (hprev : (facts h).pprev = some q) :
    0 < nHeight facts h := by
  rw [nHeight, htree.ancestors_eq hprev]
  exact Nat.succ_pos _

/-- Nothing on the path of the first block is above it. -/
theorem nHeight_eq_zero {h x : Uint256} (hprev : (facts h).pprev = none)
    (hx : x ∈ path facts h) : nHeight facts x = 0 := by
  rw [path, htree.ancestors_eq_nil hprev, List.mem_singleton] at hx
  rw [hx, nHeight, htree.ancestors_eq_nil hprev]
  rfl

theorem not_mem_path_parent {h q : Uint256}
    (hprev : (facts h).pprev = some q) : h ∉ path facts q := by
  intro hmem
  rw [← htree.ancestors_eq hprev] at hmem
  exact absurd (htree.nHeight_lt hmem) (lt_irrefl _)

omit htree

end IsTree

end Sequentia
