import HeapRetention.Proofs.Cancellation

/-! What the dominator stage asks of the scratch space. It books its lists in order and stops at the first one
that cannot be made, so the lists that it asks for are all that it learns of the space. A stage that nobody
stops is canceled only by one of these lists that is refused with a cancellation, and always by such a one. -/
namespace HeapRetention

namespace ScratchSpace
variable {space other : ScratchSpace} {requests : List ListRequest}

/-- The lists that are asked for in order, up to the first one that cannot be made. -/
def asked (s : ScratchSpace) : List ListRequest → List ListRequest
  | [] => []
  | r :: rs =>
    match s.check r with
    | .error _ => [r]
    | .ok () => r :: s.asked rs

theorem asked_sublist (space : ScratchSpace) (requests : List ListRequest) :
    (space.asked requests).Sublist requests := by
  induction requests with
  | nil => exact .slnil
  | cons r requests ih =>
    rw [asked]
    split
    · exact List.singleton_sublist.mpr List.mem_cons_self
    · exact ih.cons_cons r

theorem asked_of_reserve (h : space.reserve requests = .ok ()) : space.asked requests = requests := by
  induction requests with
  | nil => rfl
  | cons r requests ih =>
    rw [reserve] at h
    rw [asked]
    cases hr : space.check r with
    | error f =>
      rw [hr] at h
      cases h
    | ok _ =>
      rw [hr] at h
      exact congrArg (r :: ·) (ih h)

/-- Booking lists tells nothing about a scratch space but how it answers to those that were asked for. -/
theorem asked_congr (h : ∀ r ∈ space.asked requests, other.check r = space.check r) :
    other.asked requests = space.asked requests ∧ other.reserve requests = space.reserve requests := by
  induction requests with
  | nil => exact ⟨rfl, rfl⟩
  | cons r requests ih =>
    have hhead : r ∈ space.asked (r :: requests) := by
      rw [asked]
      split
      · exact List.mem_cons_self
      · exact List.mem_cons_self
    have hr := h r hhead
    rw [asked, reserve, asked, reserve, hr]
    cases hspace : space.check r with
    | error f => exact ⟨rfl, rfl⟩
    | ok _ =>
      have htail : ∀ r' ∈ space.asked requests, other.check r' = space.check r' := by
        intro r' hr'
        apply h
        rw [asked, hspace]
        exact List.mem_cons_of_mem _ hr'
      obtain ⟨hasked, hreserve⟩ := ih htail
      exact ⟨congrArg (r :: ·) hasked, hreserve⟩

end ScratchSpace

namespace Postorder.Search

end Postorder.Search

namespace DominatorStage
variable {g : FlowGraph} {traversal : Traversal} {space other : ScratchSpace} {slices : List Slice}
  {j : Journal} {p : Postorder} {x : EdgeIndex} {tree : DominatorTree} {limit : Nat}

/-- The lists that the stage asks for: those of the numbering and, unless it ends before, those of the
index. -/
def requests (g : FlowGraph) (traversal : Traversal) (space : ScratchSpace) (slices : List Slice)
    (j : Journal) : List ListRequest :=
  let room := room g traversal
  if longMax < room then []
  else space.asked (numberingLists g.run.objectCount room) ++
    match number g room space with
    | .error _ => []
    | .ok p =>
      if (checkpoint (announce p j) slices 0.2).1 then []
      else space.asked (indexLists p.edgeCount room)

theorem reserve_of_number (h : number g limit space = .ok p) :
    ¬longMax < limit ∧ space.reserve (numberingLists g.run.objectCount limit) = .ok () := by
  unfold number at h
  split at h
  · cases h
  · next hroom =>
    split at h
    · cases h
    · next hreserve => exact ⟨hroom, hreserve⟩

theorem reserve_of_index (h : index g limit space p = .ok x) :
    space.reserve (indexLists p.edgeCount limit) = .ok () := by
  unfold index at h
  split at h
  · cases h
  · next hreserve => exact hreserve

/-- The stage asks a scratch space for nothing else: whatever answers to these lists in the same way is asked
for the same lists and leads to the same result. -/
theorem requests_congr
    (h : ∀ r ∈ requests g traversal space slices j, other.check r = space.check r) :
    requests g traversal other slices j = requests g traversal space slices j ∧
      compute g traversal other slices j = compute g traversal space slices j := by
  rw [compute_eq, compute_eq]
  unfold requests at h ⊢
  dsimp only at h ⊢
  by_cases hroom : longMax < room g traversal
  · have hnumber : ∀ s, number g (room g traversal) s = .error (.crash .overflow) := fun _ => if_pos hroom
    simp only [if_pos hroom, hnumber, and_self]
  · rw [if_neg hroom] at h ⊢
    rw [if_neg hroom]
    obtain ⟨hasked, hreserve⟩ := ScratchSpace.asked_congr fun r hr => h r (List.mem_append_left _ hr)
    have hnumber : number g (room g traversal) other = number g (room g traversal) space := by
      unfold number
      rw [hreserve]
    rw [hasked, hnumber]
    cases hn : number g (room g traversal) space with
    | error f => exact ⟨rfl, rfl⟩
    | ok p =>
      rw [hn] at h
      dsimp only at h ⊢
      unfold beyond
      dsimp only
      cases hstop : (checkpoint (announce p j) slices 0.2).1 with
      | true => exact ⟨rfl, rfl⟩
      | false =>
        rw [hstop] at h
        obtain ⟨hmore, hindexed⟩ := ScratchSpace.asked_congr fun r hr => h r (List.mem_append_right _ hr)
        have hindex : index g (room g traversal) other p = index g (room g traversal) space p := by
          unfold index
          rw [hindexed]
        unfold connect
        rw [hindex]
        exact ⟨congrArg _ hmore, rfl⟩

/-- A stage that comes to its end was given all its lists. -/
theorem requests_of_compute (h : (compute g traversal space slices j).2 = .ok tree) :
    requests g traversal space slices j = numberingLists g.run.objectCount (room g traversal) ++
      indexLists tree.stats.numberedEdges (room g traversal) := by
  obtain ⟨p, x, hp, -, rfl⟩ := compute_ok (Prod.ext rfl h)
  -- part by part: none has failed, so all lists of each part were asked for
  rw [compute_eq] at h
  cases hn : number g (room g traversal) space with
  | error f =>
    rw [hn] at h
    cases h
  | ok q =>
    have hsame : q = p := Except.ok.inj ((number_ok hn).symm.trans hp)
    subst hsame
    obtain ⟨hroom, hreserve⟩ := reserve_of_number hn
    rw [hn] at h
    unfold beyond at h
    dsimp only at h
    cases hstop : (checkpoint (announce q j) slices 0.2).1 with
    | true =>
      rw [hstop] at h
      cases h
    | false =>
      rw [hstop] at h
      unfold connect at h
      cases hi : index g (room g traversal) space q with
      | error f =>
        rw [hi] at h
        cases h
      | ok x =>
        have hindexed := ScratchSpace.asked_of_reserve (reserve_of_index hi)
        unfold requests
        dsimp only
        rw [if_neg hroom, hn]
        dsimp only
        rw [hstop, ScratchSpace.asked_of_reserve hreserve]
        exact congrArg _ hindexed

end DominatorStage

namespace Analysis
variable {input : AnalysisInput} {run : Run} {t : Traversal} {available : Nat} {slices : List Slice}
  {journal : Journal}

/-- The analysis lets the dominator stage run with so many bytes left. -/
structure Admits (input : AnalysisInput) (run : Run) (t : Traversal) (available : Nat) : Prop where
  wanted : run.config.dominator.includeDominatorTree = true
  answer : input.space.available = .ok available
  spare : hasSpace available (DominatorStage.estimate t.visitedCount t.summary.edgeCount)
    run.config.dominator.diskSpaceThreshold = true

/-- A stage that is let run decides the outcome. -/
theorem Admits.dominatorOutcome_eq (h : Admits input run t available) :
    (dominatorOutcome input run t slices journal).2 =
      stageView (DominatorStage.compute (.of run input.snapshot t) t input.space slices journal).2 := by
  unfold dominatorOutcome
  dsimp only
  rw [h.wanted, h.answer]
  dsimp only
  rw [h.spare]
  obtain ⟨j', r⟩ := DominatorStage.compute (.of run input.snapshot t) t input.space slices journal
  match r with
  | .ok _ => rfl
  | .error (.crash _) => rfl
  | .error (.error e) => cases e <;> rfl

end Analysis

end HeapRetention
