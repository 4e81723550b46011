import Sequentia.Swaps.SwapFile

/-!
# The file of swaps keeps the open ones

The invariant behind the durability of the swap file: passes keep apart, the record of a conversion
is its own, and every open swap is in the file and in every copy of it, or waits for its first save.
Each event is shown to keep it.
-/

namespace Sequentia

open List Option

/-- A conversion has sent the swap's asset leg and a save of the record is due or under way. -/
def SwapFileState.Unsaved (st : SwapFileState) (f : XchainSwap) : Prop :=
  ∃ i, st.tasks i = some (.converting f true) ∨ ∃ all, st.tasks i = some (.saving f all)

/-- Two passes do not both hold a copy of the file, and are not of the same conversion. -/
def SwapTask.Apart (task task' : SwapTask) : Prop :=
  (task.copy = none ∨ task'.copy = none) ∧
    ∀ r s, task.record = some r → task'.record = some s → r.key ≠ s.key

/-- The record of a conversion is new, or that of the swap it funded. -/
def SwapFileState.Owns (st : SwapFileState) (s : XchainSwap) : Prop :=
  s.state = .btcLocked ∧ (∀ f ∈ st.funded, f.key ≠ s.key) ∨ s.state = .seqFunded ∧ s ∈ st.funded

/-- The swap has been funded, and neither claimed nor refunded. -/
def SwapFileState.IsOpen (st : SwapFileState) (f : XchainSwap) : Prop :=
  f ∈ st.funded ∧ f.fundingOutpoint ∉ st.finished

/-- What every event keeps. -/
structure SwapFileState.Inv (st : SwapFileState) : Prop where
  /-- The passes keep apart. -/
  apart : ∀ i j task task', i ≠ j → st.tasks i = some task → st.tasks j = some task' →
    task.Apart task'
  owns : ∀ i task s, st.tasks i = some task → task.record = some s → st.Owns s
  funded_key : ∀ f ∈ st.funded, ∀ g ∈ st.funded, f.key = g.key → f = g
  in_file : (∀ i task, st.tasks i = some task → task.isStoring = false) →
    ∀ f, st.IsOpen f → HasLive st.file f ∨ st.Unsaved f
  /-- So has every copy, but for the swaps of conversions that are still to save. -/
  in_copy : ∀ i task all, st.tasks i = some task → task.copy = some all →
    ∀ f, st.IsOpen f → HasLive all f ∨ ∃ j, st.tasks j = some (.converting f true)

section Passes

variable {st : SwapFileState} {i : ℕ}

/-- The passes after one of them changed. -/
theorem tasks_set (st : SwapFileState) (i : ℕ) (task : Option SwapTask) (j : ℕ) :
    (st.set i task).tasks j = if j = i then task else st.tasks j :=
  Function.update_apply ..

theorem tasks_set_of_ne {task : Option SwapTask} {j : ℕ} (hne : j ≠ i) :
    (st.set i task).tasks j = st.tasks j := by
  rw [tasks_set, if_neg hne]

theorem tasks_set_self (st : SwapFileState) (i : ℕ) (task : Option SwapTask) :
    (st.set i task).tasks i = task := by
  rw [tasks_set, if_pos rfl]

variable {task task' : SwapTask} {new : Option SwapTask} {f : XchainSwap}

theorem SwapTask.Apart.symm (hapart : task.Apart task') : task'.Apart task :=
  ⟨hapart.1.symm, fun r s hr hs => (hapart.2 s r hs hr).symm⟩

theorem SwapTask.Apart.of_same {other : SwapTask} (hapart : task.Apart other)
    (hcopy : task.copy = none → task'.copy = none)
    (hrecord : ∀ r', task'.record = some r' → ∃ r, task.record = some r ∧ r.key = r'.key) :
    task'.Apart other := by
  refine ⟨hapart.1.imp_left hcopy, fun r' s hr' hs => ?_⟩
  obtain ⟨r, hr, hkey⟩ := hrecord r' hr'
  rw [← hkey]
  exact hapart.2 r s hr hs

/-- The passes stay apart if the changed one keeps apart from the others. -/
theorem apart_set
    (hapart : ∀ i j task task', i ≠ j → st.tasks i = some task → st.tasks j = some task' →
      task.Apart task')
    (hnew : ∀ task, new = some task → ∀ j task', j ≠ i → st.tasks j = some task' →
      task.Apart task') :
    ∀ j k task task', j ≠ k → (st.set i new).tasks j = some task →
      (st.set i new).tasks k = some task' → task.Apart task' := by
  intro j k task task' hne hj hk
  by_cases hji : j = i
  · subst hji
    rw [tasks_set_self] at hj
    rw [tasks_set_of_ne hne.symm] at hk
    exact hnew task hj k task' hne.symm hk
  · rw [tasks_set_of_ne hji] at hj
    by_cases hki : k = i
    · subst hki
      rw [tasks_set_self] at hk
      exact (hnew task' hk j task hji hj).symm
    · rw [tasks_set_of_ne hki] at hk
      exact hapart j k task task' hne hj hk

theorem owns_set (howns : ∀ i task s, st.tasks i = some task → task.record = some s → st.Owns s)
    (hnew : ∀ task s, new = some task → task.record = some s → st.Owns s) :
    ∀ j task s, (st.set i new).tasks j = some task → task.record = some s →
      (st.set i new).Owns s := by
  intro j task s hj hs
  by_cases hji : j = i
  · subst hji
    rw [tasks_set_self] at hj
    exact hnew task s hj hs
  · rw [tasks_set_of_ne hji] at hj
    exact howns j task s hj hs

/-- A save that is due stays due when another pass changes. -/
theorem due_set {before : Option SwapTask} (htask : st.tasks i = before)
    (hnot : before ≠ some (.converting f true)) (hdue : ∃ k, st.tasks k = some (.converting f true)) :
    ∃ k, (st.set i new).tasks k = some (.converting f true) := by
  obtain ⟨k, hk⟩ := hdue
  refine ⟨k, (tasks_set_of_ne ?_).trans hk⟩
  rintro rfl
  exact hnot (htask.symm.trans hk)

/-- Where no pass holds a copy, an unsaved swap is one whose save is due. -/
theorem SwapFileState.Unheld.converting (hunheld : st.Unheld) (hunsaved : st.Unsaved f) :
    ∃ j, st.tasks j = some (.converting f true) := by
  obtain ⟨j, hconverting | ⟨all, hsaving⟩⟩ := hunsaved
  · exact ⟨j, hconverting⟩
  · exact absurd (hunheld j _ hsaving) (by simp [SwapTask.copy])

/-- Where no pass holds a copy, the file is not truncated. -/
theorem SwapFileState.Unheld.not_storing (hunheld : st.Unheld) (i : ℕ) (task : SwapTask)
    (htask : st.tasks i = some task) : task.isStoring = false := by
  have hcopy := hunheld i task htask
  cases task with
  | storing conversion all => cases hcopy
  | converting s due => rfl
  | saving s all => rfl
  | resuming visited rest dirty => rfl

theorem SwapFileState.Owns.ne_of_btcLocked {s : XchainSwap} (howns : st.Owns s)
    (hstate : s.state = .btcLocked) (hf : f ∈ st.funded) : f.key ≠ s.key := by
  rcases howns with ⟨-, hnew⟩ | ⟨hfunded, -⟩
  · exact hnew f hf
  · rw [hstate] at hfunded
    cases hfunded

theorem SwapFileState.Inv.eq_of_key (hinv : st.Inv) {s : XchainSwap} (howns : st.Owns s)
    (hf : f ∈ st.funded) (hkey : f.key = s.key) : f = s ∧ s.state = .seqFunded := by
  rcases howns with ⟨-, hnew⟩ | ⟨hfunded, hs⟩
  · exact absurd hkey (hnew f hf)
  · exact ⟨hinv.funded_key f hf s hs hkey, hfunded⟩

/-- An open swap stays in the file when a pass changes that has not truncated it, and the swap
stays unsaved if it was. -/
theorem SwapFileState.Inv.in_file_set (hinv : st.Inv) (hf : st.IsOpen f)
    (hstoring : ∀ task, st.tasks i = some task → task.isStoring = false)
    (hunsaved : (st.tasks i = some (.converting f true) ∨
        ∃ all, st.tasks i = some (.saving f all)) →
      new = some (.converting f true) ∨ ∃ all, new = some (.saving f all))
    (hnone : ∀ j task, (st.set i new).tasks j = some task → task.isStoring = false) :
    HasLive st.file f ∨ (st.set i new).Unsaved f := by
  have hbefore : ∀ j task, st.tasks j = some task → task.isStoring = false := by
    intro j task hj
    by_cases hji : j = i
    · exact hstoring task (hji ▸ hj)
    · exact hnone j task (by rwa [tasks_set_of_ne hji])
  refine (hinv.in_file hbefore f hf).imp_right ?_
  rintro ⟨j, hj⟩
  refine ⟨j, ?_⟩
  by_cases hji : j = i
  · subst hji
    rw [tasks_set_self]
    exact hunsaved hj
  · rwa [tasks_set_of_ne hji]

/-- An open swap stays in every copy when a pass changes that has it in its own, and a save of the
swap that was due still is. -/
theorem SwapFileState.Inv.in_copy_set (hinv : st.Inv) (hf : st.IsOpen f)
    (hcopy : ∀ task all, new = some task → task.copy = some all →
      HasLive all f ∨ ∃ j, (st.set i new).tasks j = some (.converting f true))
    (hdue : st.tasks i = some (.converting f true) → new = some (.converting f true) ∨ st.Unheld)
    {j : ℕ} {all : List XchainSwap} (hj : (st.set i new).tasks j = some task)
    (hall : task.copy = some all) :
    HasLive all f ∨ ∃ j, (st.set i new).tasks j = some (.converting f true) := by
  by_cases hji : j = i
  · subst hji
    rw [tasks_set_self] at hj
    exact hcopy task all hj hall
  · rw [tasks_set_of_ne hji] at hj
    refine (hinv.in_copy j task all hj hall f hf).imp_right ?_
    rintro ⟨k, hk⟩
    refine ⟨k, ?_⟩
    by_cases hki : k = i
    · subst hki
      rw [tasks_set_self]
      rcases hdue hk with hnew | hunheld
      · exact hnew
      · rw [hunheld j task hj] at hall
        cases hall
    · rwa [tasks_set_of_ne hki]

theorem SwapFileState.Inv.durable (hinv : st.Inv) (hquiet : st.Quiet) : st.Durable := by
  have hnone : ∀ j task, st.tasks j = some task → task.isStoring = false := by
    intro j task hj
    have hj' := hquiet j
    rw [hj] at hj'
    cases task with
    | storing conversion all => exact hj'.elim
    | converting s due => rfl
    | saving s all => rfl
    | resuming visited rest dirty => rfl
  intro f hf hopen
  refine (hinv.in_file hnone f ⟨hf, hopen⟩).resolve_right ?_
  rintro ⟨j, hj | ⟨all, hj⟩⟩
  · have hj' := hquiet j
    rw [hj] at hj'
    exact absurd (hj' (hinv.eq_of_key (hinv.owns j _ f hj rfl) hf rfl).2) (by decide)
  · have hj' := hquiet j
    rw [hj] at hj'
    exact hj' (hinv.eq_of_key (hinv.owns j _ f hj rfl) hf rfl).2

end Passes

section Steps

variable {crypto : Crypto} {st : SwapFileState} {i : ℕ} {s : XchainSwap}

variable (hinv : st.Inv)

include hinv

theorem SwapFileState.Inv.start (htask : st.tasks i = none)
    (hstate : s.state = .btcLocked) (hfresh : ∀ f ∈ st.funded, f.key ≠ s.key)
    (hother : ∀ i task r, st.tasks i = some task → task.record = some r → r.key ≠ s.key) :
    (st.set i (some (.converting s true))).Inv where
  apart := by
    refine apart_set hinv.apart ?_
    rintro _ ⟨⟩ j task' - hj
    refine ⟨Or.inl rfl, fun r t hr ht => ?_⟩
    cases hr
    exact (hother j task' t hj ht).symm
  owns := by
    refine owns_set hinv.owns ?_
    rintro _ r ⟨⟩ hr
    cases hr
    exact Or.inl ⟨hstate, hfresh⟩
  funded_key := hinv.funded_key
  in_file hnone f hf := hinv.in_file_set hf (by simp [htask]) (by simp [htask]) hnone
  in_copy j task all hj hall f hf :=
    hinv.in_copy_set hf (by rintro _ all ⟨⟩ hall; cases hall) (by simp [htask]) hj hall

/-- A conversion that has not funded reads the parent chain. -/
theorem SwapFileState.Inv.look {due : Bool}
    (htask : st.tasks i = some (.converting s due)) (hstate : s.state = .btcLocked) (height : ℤ)
    (due' : Bool) :
    (st.set i (some (.converting { s with btcLegHeight := height } due'))).Inv := by
  have howns := hinv.owns i _ s htask rfl
  have hnot : ∀ f ∈ st.funded, s ≠ f := by
    rintro f hf rfl
    exact howns.ne_of_btcLocked hstate hf rfl
  constructor
  · refine apart_set hinv.apart ?_
    rintro _ ⟨⟩ j task' hne hj
    refine (hinv.apart i j _ _ hne.symm htask hj).of_same (fun _ => rfl) ?_
    intro r' hr'
    cases hr'
    exact ⟨s, rfl, rfl⟩
  · refine owns_set hinv.owns ?_
    rintro _ r ⟨⟩ hr
    cases hr
    exact Or.inl ⟨hstate, fun f hf => howns.ne_of_btcLocked hstate hf⟩
  · exact hinv.funded_key
  · intro hnone f hf
    exact hinv.in_file_set hf (by simp [htask, SwapTask.isStoring])
      (by simp [htask, hnot f hf.1]) hnone
  · intro j task all hj hall f hf
    exact hinv.in_copy_set hf (by rintro _ all ⟨⟩ hall; cases hall) (by simp [htask, hnot f hf.1])
      hj hall

theorem SwapFileState.Inv.load
    (htask : st.tasks i = some (.converting s true)) (hunheld : st.Unheld)
    (hdropped : ∀ r ∈ (replaceSwap s st.file).take ((replaceSwap s st.file).length - 100),
      r.terminal = true) :
    (st.set i (some (.saving s (saveSwap st.file s)))).Inv := by
  have howns := hinv.owns i _ s htask rfl
  -- The swap being saved is in the list that is going to be written.
  have hself : s.state = .seqFunded → HasLive (saveSwap st.file s) s := fun hfunded =>
    ⟨s, mem_saveSwap hdropped (mem_replaceSwap_self s st.file)
      (liveRecord_self hfunded).not_terminal, liveRecord_self hfunded⟩
  constructor
  · refine apart_set hinv.apart ?_
    rintro _ ⟨⟩ j task' hne hj
    have hapart := hinv.apart i j _ _ hne.symm htask hj
    exact ⟨Or.inr (hunheld j task' hj), hapart.2⟩
  · refine owns_set hinv.owns ?_
    rintro _ r ⟨⟩ hr
    cases hr
    exact howns
  · exact hinv.funded_key
  · intro hnone f hf
    refine hinv.in_file_set hf (hunheld.not_storing i) ?_ hnone
    rw [htask]
    rintro (h | ⟨all, h⟩)
    · cases h
      exact Or.inr ⟨_, rfl⟩
    · cases h
  · intro j task all hj hall f hf
    refine hinv.in_copy_set hf ?_ (fun _ => Or.inr hunheld) hj hall
    rintro _ all ⟨⟩ hall
    cases hall
    by_cases hkey : f.key = s.key
    · obtain ⟨rfl, hfunded⟩ := hinv.eq_of_key howns hf.1 hkey
      exact Or.inl (hself hfunded)
    · rcases hinv.in_file hunheld.not_storing f hf with ⟨r, hr, hlive⟩ | hunsaved
      · exact Or.inl ⟨r, mem_saveSwap hdropped (mem_replaceSwap hr (hlive.2.1 ▸ hkey))
          hlive.not_terminal, hlive⟩
      · refine Or.inr (due_set htask ?_ (hunheld.converting hunsaved))
        rintro ⟨⟩
        exact hkey rfl

theorem SwapFileState.Inv.resume (htask : st.tasks i = none)
    (hunheld : st.Unheld) : (st.set i (some (.resuming [] st.file false))).Inv where
  apart := by
    refine apart_set hinv.apart ?_
    rintro _ ⟨⟩ j task' - hj
    exact ⟨Or.inr (hunheld j task' hj), fun r t hr => by cases hr⟩
  owns := by
    refine owns_set hinv.owns ?_
    rintro _ r ⟨⟩ hr
    cases hr
  funded_key := hinv.funded_key
  in_file hnone f hf := hinv.in_file_set hf (by simp [htask]) (by simp [htask]) hnone
  in_copy j task all hj hall f hf := by
    refine hinv.in_copy_set hf ?_ (by simp [htask]) hj hall
    rintro _ all ⟨⟩ hall
    cases hall
    exact (hinv.in_file hunheld.not_storing f hf).imp_right fun hunsaved =>
      due_set htask nofun (hunheld.converting hunsaved)

theorem SwapFileState.Inv.visit {visited rest : List XchainSwap} {dirty : Bool}
    (htask : st.tasks i = some (.resuming visited (s :: rest) dirty)) (view : ResumeView)
    (dirty' : Bool) :
    SwapFileState.Inv { st.set i
      (some (.resuming (visited ++ [(resumeSwap crypto view s).1]) rest dirty')) with
      finished := if s.state = .seqFunded ∧ (resumeSwap crypto view s).1.state ≠ .seqFunded then
        s.fundingOutpoint :: st.finished else st.finished } := by
  have hopen : ∀ {f : XchainSwap} {fin : List (Option COutPoint)},
      f ∈ st.funded ∧ f.fundingOutpoint ∉ fin → st.finished ⊆ fin → st.IsOpen f :=
    fun hf hsub => ⟨hf.1, fun hmem => hf.2 (hsub hmem)⟩
  have hsub : st.finished ⊆ if s.state = .seqFunded ∧
      (resumeSwap crypto view s).1.state ≠ .seqFunded then
      s.fundingOutpoint :: st.finished else st.finished := by
    split
    · exact subset_cons_self ..
    · exact List.Subset.refl _
  constructor
  · refine apart_set hinv.apart ?_
    rintro _ ⟨⟩ j task' hne hj
    refine (hinv.apart i j _ _ hne.symm htask hj).of_same (fun h => by cases h) fun r' hr' => ?_
    cases hr'
  · refine owns_set hinv.owns ?_
    rintro _ r ⟨⟩ hr
    cases hr
  · exact hinv.funded_key
  · intro hnone f hf
    exact hinv.in_file_set (hopen hf hsub) (by simp [htask, SwapTask.isStoring]) (by simp [htask])
      hnone
  · intro j task all hj hall f hf
    refine hinv.in_copy_set (hopen hf hsub) ?_ (by simp [htask]) hj hall
    rintro _ all ⟨⟩ hall
    cases hall
    rcases hinv.in_copy i _ _ htask rfl f (hopen hf hsub) with ⟨r, hr, hlive⟩ | hdue
    · rcases mem_append.mp hr with hr | hr
      · exact Or.inl ⟨r, by simp [hr], hlive⟩
      · rcases mem_cons.mp hr with rfl | hr
        · by_cases hstate : (resumeSwap crypto view r).1.state = .seqFunded
          · exact Or.inl ⟨_, by simp, liveRecord_resumeSwap hlive hstate⟩
          · -- The swap was finished, so it is not open any more.
            refine absurd ?_ hf.2
            rw [if_pos ⟨hlive.1, hstate⟩, hlive.2.2.2.2.2]
            exact mem_cons_self
        · exact Or.inl ⟨r, by simp [hr], hlive⟩
    · exact Or.inr (due_set htask nofun hdue)

theorem SwapFileState.Inv.truncate {task : SwapTask} {all : List XchainSwap}
    (htask : st.tasks i = some task) (hcopy : task.copy = some all) :
    SwapFileState.Inv { st.set i (some (.storing task.record all)) with file := [] } := by
  have hnot : ∀ f, task ≠ .converting f true := by
    rintro f rfl
    cases hcopy
  constructor
  · refine apart_set hinv.apart ?_
    rintro _ ⟨⟩ j task' hne hj
    exact (hinv.apart i j _ _ hne.symm htask hj).of_same (fun h => by simp [hcopy] at h)
      fun r' hr' => ⟨r', hr', rfl⟩
  · refine owns_set hinv.owns ?_
    rintro _ r ⟨⟩ hr
    exact hinv.owns i task r htask hr
  · exact hinv.funded_key
  · intro hnone
    have hstoring := hnone i _ (tasks_set_self st i (some (.storing task.record all)))
    cases hstoring
  · intro j task' all' hj hall f hf
    refine hinv.in_copy_set (f := f) hf ?_ (by simp [htask, hnot f]) hj hall
    rintro _ _ ⟨⟩ ⟨⟩
    exact (hinv.in_copy i task all htask hcopy f hf).imp_right
      (due_set htask fun heq => hnot f (Option.some.inj heq))

theorem SwapFileState.Inv.write {conversion : Option XchainSwap}
    {all : List XchainSwap} (htask : st.tasks i = some (.storing conversion all)) :
    SwapFileState.Inv { st.set i (conversion.map fun s => .converting s false) with
      file := all } := by
  constructor
  · refine apart_set hinv.apart ?_
    intro task hnew j task' hne hj
    obtain ⟨s, rfl, rfl⟩ := map_eq_some_iff.mp hnew
    exact (hinv.apart i j _ _ hne.symm htask hj).of_same (fun _ => rfl) fun r' hr' => ⟨r', hr', rfl⟩
  · refine owns_set hinv.owns ?_
    intro task r hnew hr
    obtain ⟨s, rfl, rfl⟩ := map_eq_some_iff.mp hnew
    exact hinv.owns i _ r htask hr
  · exact hinv.funded_key
  · intro _ f hf
    exact (hinv.in_copy i _ all htask rfl f hf).imp_right fun hdue =>
      (due_set htask nofun hdue).imp fun _ => Or.inl
  · intro j task all' hj hall f hf
    refine hinv.in_copy_set (f := f) hf ?_ (by simp [htask]) hj hall
    intro task' _ hnew hcopy
    obtain ⟨s, -, rfl⟩ := map_eq_some_iff.mp hnew
    cases hcopy

/-- A conversion sends its asset leg: its swap is open, and unsaved. -/
theorem SwapFileState.Inv.broadcast {due : Bool}
    (htask : st.tasks i = some (.converting s due)) (hstate : s.state = .btcLocked)
    (redeem : CScript) (outpoint : COutPoint) :
    SwapFileState.Inv { st.set i (some (.converting (s.fund redeem outpoint) true)) with
      funded := s.fund redeem outpoint :: st.funded } := by
  have howns := hinv.owns i _ s htask rfl
  have hnot : ∀ f ∈ st.funded, s ≠ f := by
    rintro f hf rfl
    exact howns.ne_of_btcLocked hstate hf rfl
  constructor
  · refine apart_set hinv.apart ?_
    rintro _ ⟨⟩ j task' hne hj
    refine (hinv.apart i j _ _ hne.symm htask hj).of_same (fun _ => rfl) fun r' hr' => ?_
    cases hr'
    exact ⟨s, rfl, rfl⟩
  · intro j task r hj hr
    by_cases hji : j = i
    · subst hji
      cases (tasks_set_self st j _).symm.trans hj
      cases hr
      exact Or.inr ⟨rfl, mem_cons_self⟩
    · have hj' : st.tasks j = some task := (tasks_set_of_ne hji).symm.trans hj
      rcases hinv.owns j task r hj' hr with ⟨hlocked, hnew⟩ | ⟨hfunded, hmem⟩
      · refine Or.inl ⟨hlocked, fun f hf => ?_⟩
        rcases mem_cons.mp hf with rfl | hf
        · exact (hinv.apart i j _ _ (Ne.symm hji) htask hj').2 s r rfl hr
        · exact hnew f hf
      · exact Or.inr ⟨hfunded, mem_cons_of_mem _ hmem⟩
  · intro f hf g hg hkey
    rcases mem_cons.mp hf with rfl | hf <;> rcases mem_cons.mp hg with rfl | hg
    · rfl
    · exact absurd hkey.symm (howns.ne_of_btcLocked hstate hg)
    · exact absurd hkey (howns.ne_of_btcLocked hstate hf)
    · exact hinv.funded_key f hf g hg hkey
  · intro hnone f hf
    rcases mem_cons.mp hf.1 with rfl | hmem
    · exact Or.inr ⟨i, Or.inl (tasks_set_self ..)⟩
    · exact hinv.in_file_set (f := f) ⟨hmem, hf.2⟩ (by simp [htask, SwapTask.isStoring])
        (by simp [htask, hnot f hmem]) hnone
  · intro j task all hj hall f hf
    rcases mem_cons.mp hf.1 with rfl | hmem
    · exact Or.inr ⟨i, tasks_set_self ..⟩
    · exact hinv.in_copy_set (f := f) ⟨hmem, hf.2⟩ (by rintro _ all ⟨⟩ hall; cases hall)
        (by simp [htask, hnot f hmem]) hj hall

theorem SwapFileState.Inv.finish {task : SwapTask}
    (htask : st.tasks i = some task) (hstoring : task.isStoring = false)
    (hsaved : ∀ f ∈ st.funded, task ≠ .converting f true ∧ ∀ all, task ≠ .saving f all) :
    (st.set i none).Inv where
  apart := apart_set hinv.apart fun _ h => by cases h
  owns := owns_set hinv.owns fun _ _ h => by cases h
  funded_key := hinv.funded_key
  in_file hnone f hf := hinv.in_file_set hf (by simp [htask, hstoring])
    (by simp [htask, hsaved f hf.1]) hnone
  in_copy j task all hj hall f hf := hinv.in_copy_set hf (fun _ _ h => by cases h)
    (by simp [htask, hsaved f hf.1]) hj hall

/-- The node stops at a quiet moment. -/
theorem SwapFileState.Inv.crash (hquiet : st.Quiet) :
    SwapFileState.Inv { st with tasks := fun _ => none } where
  apart _ _ _ _ _ h := by cases h
  owns _ _ _ h := by cases h
  funded_key := hinv.funded_key
  in_file _ f hf := Or.inl (hinv.durable hquiet f hf.1 hf.2)
  in_copy _ _ _ h := by cases h

theorem SwapFileState.Inv.next {event : SwapFileEvent} {st' : SwapFileState}
    (horderly : st.Orderly event) (hnext : st.next crypto event = some st') : st'.Inv := by
  revert hnext
  fun_cases SwapFileState.next crypto st event <;> rintro ⟨⟩
  case case1 htask hstate => exact hinv.start htask hstate horderly.1 horderly.2
  case case4 htask hstate => exact hinv.look htask hstate _ _
  case case7 htask => exact hinv.load htask horderly.1 (horderly.2 _ htask)
  case case9 htask => exact hinv.resume htask horderly
  case case11 htask _ => exact hinv.visit htask _ _
  case case13 htask => exact hinv.truncate htask rfl
  case case14 visited htask =>
    exact hinv.truncate htask (show SwapTask.copy _ = some visited by simp [SwapTask.copy])
  case case16 htask => exact hinv.write htask
  case case18 htask hstate => exact hinv.broadcast htask hstate _ _
  case case22 i s due htask hdone =>
    refine hinv.finish htask rfl fun f hf => ⟨?_, fun all h => by cases h⟩
    rintro ⟨⟩
    exact hdone ⟨(hinv.eq_of_key (hinv.owns i _ _ htask rfl) hf rfl).2, rfl⟩
  case case23 htask => exact hinv.finish htask rfl fun f _ => ⟨nofun, fun _ => nofun⟩
  case case25 => exact hinv.crash horderly

omit hinv

end Steps

/-- A node that has never converted anything. -/
def emptySwapFile : SwapFileState := ⟨[], fun _ => none, [], []⟩

/-- A conversion before its asset leg is sent. -/
def lockedSwap : XchainSwap :=
  { fundedSwap with state := .btcLocked, seqFundTxid := none, time := 19000 }

def saveEvents (i : ℕ) : List SwapFileEvent := [.load i, .truncate i, .write i]

/-- One conversion up to the send of its asset leg. -/
def sendEvents : List SwapFileEvent :=
  .start 0 lockedSwap :: saveEvents 0 ++ [.broadcast 0 [] ⟨⟨9⟩, 0⟩]

theorem orderly_alone {st : SwapFileState} (s : XchainSwap)
    (htasks : ∀ j, st.tasks j = if j = 0 then some (.converting s true) else none)
    (hshort : st.file.length < 100) : st.Orderly (.load 0) := by
  refine ⟨fun j task hj => ?_, fun s' _ r hr => ?_⟩
  · rw [htasks j] at hj
    split at hj
    · cases hj
      rfl
    · cases hj
  · have hlength : ∀ all : List XchainSwap, (replaceSwap s' all).length ≤ all.length + 1 := by
      intro all
      induction all with
      | nil => exact le_refl 1
      | cons e all ih =>
        rw [replaceSwap]
        split
        · exact Nat.le_succ _
        · exact Nat.succ_le_succ ih
    have := hlength st.file
    rw [Nat.sub_eq_zero_of_le (by omega), take_zero] at hr
    cases hr

end Sequentia
