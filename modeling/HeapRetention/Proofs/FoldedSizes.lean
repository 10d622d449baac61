import HeapRetention.Proofs.HeapConservation
import HeapRetention.Proofs.SpanningForest
import HeapRetention.Proofs.SubtreeSums

/-! What the fold over the visit order adds up. The order is gone through from its end, so the objects behind
an object have handed their sizes on when its own turn comes. In the end every object holds the sizes of those
from which parents lead to it, cut off at a full word. -/
namespace HeapRetention

/-- The size of `q` gets to `b` when the objects of `done` hand on their sizes to their parents. -/
def Run.Hands (run : Run) (done : List ObjectId) : ObjectId → ObjectId → Prop :=
  Relation.ReflTransGen fun a b => a ∈ done ∧ run.parent? a = some b ∧ b ≠ a

section
variable {run : Run} {done : List ObjectId} {a b p q : ObjectId}

theorem Run.hands_nil_iff : run.Hands [] q b ↔ q = b := by
  constructor
  · intro h
    rcases Relation.ReflTransGen.cases_head h with he | ⟨c, hc, -⟩
    · exact he
    · exact absurd hc.1 List.not_mem_nil
  · rintro rfl
    exact .refl

/-- Whoever has not handed on its size yet keeps what it has. -/
theorem Run.Hands.eq_of_notMem (h : run.Hands done a b) (ha : a ∉ done) : a = b := by
  rcases Relation.ReflTransGen.cases_head h with he | ⟨c, hc, -⟩
  · exact he
  · exact absurd hc.1 ha

/-- A size is in one place only. -/
theorem Run.Hands.eq_of_notMem_of_notMem (ha : run.Hands done q a) (hb : run.Hands done q b) (hna : a ∉ done)
    (hnb : b ∉ done) : a = b := by
  have hunique : Relator.RightUnique fun a b => a ∈ done ∧ run.parent? a = some b ∧ b ≠ a := by
    intro a b c hb hc
    exact Option.some.inj (hb.2.1.symm.trans hc.2.1)
  rcases Relation.ReflTransGen.total_of_right_unique hunique ha hb with hab | hba
  · exact Run.Hands.eq_of_notMem hab hna
  · exact (Run.Hands.eq_of_notMem hba hnb).symm

/-- What one more object hands on: all that has come to it, and only to its parent. -/
theorem Run.hands_cons_iff (hp : run.parent? a = some p) (hpa : p ≠ a) (hpd : p ∉ done) :
    run.Hands (a :: done) q b ↔ run.Hands done q b ∨ (p = b ∧ run.Hands done q a) := by
  have hmono : ∀ {c}, run.Hands done q c → run.Hands (a :: done) q c := fun h =>
    Relation.ReflTransGen.mono (fun _ _ hstep => ⟨List.mem_cons_of_mem a hstep.1, hstep.2⟩) _ _ h
  constructor
  · intro h
    unfold Hands at h
    induction h with
    | refl => exact Or.inl .refl
    | @tail c d _ hstep ih =>
      obtain ⟨hc, hcd, hne⟩ := hstep
      rcases ih with hin | ⟨rfl, -⟩
      · rcases List.mem_cons.mp hc with rfl | hc
        · exact Or.inr ⟨Option.some.inj (hp.symm.trans hcd), hin⟩
        · exact Or.inl (hin.tail ⟨hc, hcd, hne⟩)
      -- the parent is not among those that have handed on their sizes
      · rcases List.mem_cons.mp hc with he | hc
        · exact absurd he hpa
        · exact absurd hc hpd
  · rintro (h | ⟨rfl, h⟩)
    · exact hmono h
    · exact (hmono h).tail ⟨List.mem_cons_self, hp, hpa⟩

/-- An object that is its own parent hands nothing on. -/
theorem Run.hands_cons_self_iff (hp : run.parent? a = some a) :
    run.Hands (a :: done) q b ↔ run.Hands done q b := by
  have hsame : ∀ c d, (c ∈ a :: done ∧ run.parent? c = some d ∧ d ≠ c) ↔
      (c ∈ done ∧ run.parent? c = some d ∧ d ≠ c) := by
    intro c d
    refine ⟨fun ⟨hc, hcd, hne⟩ => ⟨?_, hcd, hne⟩, fun ⟨hc, h⟩ => ⟨List.mem_cons_of_mem a hc, h⟩⟩
    rcases List.mem_cons.mp hc with rfl | hc
    · exact absurd (Option.some.inj (hcd.symm.trans hp)) hne
    · exact hc
  unfold Hands
  simp only [hsame]

end

theorem addUnits_min (u v : Nat) : addUnits (min wordMax u) (min wordMax v) = min wordMax (u + v) := by
  unfold addUnits
  omega

/-- A visit order in which every object comes behind its parent, or is its own. -/
structure Run.ParentsFirst (run : Run) (order : List ObjectId) : Prop where
  nodup : order.Nodup
  parent : ∀ before a after, order = before ++ a :: after →
    ∃ p, run.parent? a = some p ∧ (p = a ∨ p ∈ before)

/-- The sizes once the objects of `done` have handed theirs on. -/
structure Run.FoldedTo (run : Run) (order : List ObjectId) (own : ObjectId → Nat) (done : List ObjectId)
    (sizes : Slots) : Prop where
  capacity : sizes.capacity = run.objectCount + 2
  get : ∀ b, sizes.get b =
    min wordMax (sumBelow (run.objectCount + 1) own fun q => q ∈ order ∧ run.Hands done q b)

section
variable {run : Run} {order before done : List ObjectId} {own : ObjectId → Nat} {sizes : Slots} {a : ObjectId}

theorem Run.foldSize_eq (run : Run) (sizes : Slots) {p : ObjectId} (hp : run.parent? a = some p) :
    ({ run with sizes } : Run).foldSize a =
      { run with sizes := if p = a then sizes else sizes.put p (addUnits (sizes.get p) (sizes.get a)) } := by
  obtain ⟨hclaimed, rfl⟩ := Run.parent?_eq_some_iff.mp hp
  unfold foldSize
  dsimp only
  by_cases hself : run.parents.get a = a
  · rw [if_pos (Or.inl hself), if_pos hself]
  · rw [if_neg fun h => h.elim hself hclaimed.2, if_neg hself]

/-- One more object hands on its size. -/
theorem Run.FoldedTo.step (horder : run.ParentsFirst order) (heq : order = before ++ a :: done)
    (hvalid : ∀ id ∈ order, run.isValid id = true) (h : run.FoldedTo order own done sizes) :
    ∃ sizes', ({ run with sizes } : Run).foldSize a = { run with sizes := sizes' } ∧
      run.FoldedTo order own (a :: done) sizes' := by
  obtain ⟨p, hp, hfirst⟩ := horder.parent before a done heq
  have hnodup := horder.nodup
  rw [heq] at hnodup
  obtain ⟨-, htail, hcross⟩ := List.nodup_append.mp hnodup
  have ha : a ∉ done := (List.nodup_cons.mp htail).1
  refine ⟨_, run.foldSize_eq sizes hp, ?_⟩
  rcases hfirst with rfl | hbefore
  · rw [if_pos rfl]
    refine ⟨h.capacity, fun b => ?_⟩
    simp only [Run.hands_cons_self_iff hp]
    exact h.get b
  · have hpa : p ≠ a := hcross p hbefore a List.mem_cons_self
    have hpd : p ∉ done := fun hin => hcross p hbefore p (List.mem_cons_of_mem a hin) rfl
    have hmem : p ∈ order := by
      rw [heq]
      exact List.mem_append_left _ hbefore
    have hroom : p < sizes.capacity := by
      obtain ⟨-, hle⟩ := (run.isValid_iff p).mp (hvalid p hmem)
      rw [h.capacity]
      exact Nat.lt_add_right 1 (Nat.lt_succ_of_le hle)
    rw [if_neg hpa]
    refine ⟨(Slots.capacity_put _ _ _).trans h.capacity, fun b => ?_⟩
    simp only [Slots.get_put, hroom, and_true, Run.hands_cons_iff hp hpa hpd, and_or_left]
    by_cases hb : p = b
    · subst hb
      -- no size has come to the object and to its parent as well
      have hapart : ∀ q, ¬((q ∈ order ∧ run.Hands done q p) ∧ q ∈ order ∧ run.Hands done q a) :=
        fun q hand => hpa (hand.1.2.eq_of_notMem_of_notMem hand.2.2 hpd ha)
      simp only [if_true, true_and]
      rw [sumBelow_or hapart, h.get, h.get, addUnits_min]
    · simp only [hb, if_false, false_and, and_false, or_false]
      exact h.get b

/-- The fold leaves with every object the sizes of those that parents lead from to it. -/
theorem Run.FoldedTo.foldr (horder : run.ParentsFirst order) (hvalid : ∀ id ∈ order, run.isValid id = true)
    (hstart : run.FoldedTo order own [] run.sizes) (done before : List ObjectId) (heq : order = before ++ done) :
    ∃ sizes, done.foldr (fun id r => r.foldSize id) run = { run with sizes := sizes } ∧
      run.FoldedTo order own done sizes := by
  induction done generalizing before with
  | nil => exact ⟨run.sizes, rfl, hstart⟩
  | cons a done ih =>
    obtain ⟨sizes, hrun, hfolded⟩ := ih (before ++ [a]) (by rw [heq, List.append_assoc]; rfl)
    rw [List.foldr_cons, hrun]
    exact hfolded.step horder heq hvalid

end

namespace Walk
variable {t : Terrain} {fresh : Run} {w : Walk} {segment : Phase → List ObjectId} {held : List ObjectId}

section
variable (h : Inv t fresh w segment [] held) (hp : Planted t w)
include h hp

theorem Inv.parentsFirst : w.run.ParentsFirst (Phase.gather segment) := by
  refine ⟨h.nodup_gather, fun before a after heq => ?_⟩
  have ha : (Phase.gather segment)[before.length]? = some a := by
    rw [heq, List.getElem?_append_right (Nat.le_refl _), Nat.sub_self]
    rfl
  obtain ⟨hparent, hfirst⟩ := h.parent_of_getElem? hp ha
  refine ⟨_, hparent, hfirst.imp_right ?_⟩
  rintro ⟨j, hj, hjd⟩
  rw [heq, List.getElem?_append_left hj] at hjd
  exact List.mem_of_getElem? hjd

/-- Parents of visited objects are visited, so all of a chain hands on its sizes. -/
theorem Inv.hands_iff_climbs {q b : ObjectId} (hq : q ∈ Phase.gather segment) :
    w.run.Hands (Phase.gather segment) q b ↔ w.run.Climbs q b := by
  constructor
  · exact fun hh => Relation.ReflTransGen.mono (fun _ _ hstep => hstep.2.1) _ _ hh
  · intro hc
    have hall : w.run.Hands (Phase.gather segment) q b ∧ b ∈ Phase.gather segment := by
      unfold Run.Climbs at hc
      induction hc with
      | refl => exact ⟨.refl, hq⟩
      | @tail c d _ hcd ih =>
        obtain ⟨hh, hc⟩ := ih
        by_cases he : d = c
        · exact he ▸ ⟨hh, hc⟩
        · refine ⟨hh.tail ⟨hc, hcd, he⟩, ?_⟩
          obtain ⟨p, hp', hvisited⟩ := h.sized_parent hp (h.sizeUnits_ne_zero_iff.mpr hc)
          rw [hcd] at hp'
          cases hp'
          exact h.sizeUnits_ne_zero_iff.mp hvisited
    exact hall.1

end

theorem Inv.foldedTo_start (h : Inv t fresh w segment [] held) :
    w.run.FoldedTo (Phase.gather segment) (fun q => sizeInUnits (t.graph.sizeOf q)) [] w.run.sizes := by
  have hcount : w.run.objectCount = fresh.objectCount := h.ledger.objectCount
  refine ⟨by rw [h.visits.capacity_sizes, hcount], fun b => ?_⟩
  simp only [Run.hands_nil_iff]
  rw [h.visits.sizes]
  by_cases hb : b ∈ Phase.gather segment
  · have hvalid := (h.ledger.valid_iff b).mp (h.ledger.claimed b (List.mem_append_left _ hb)).1
    have hown : sizeInUnits (t.graph.sizeOf b) ≤ wordMax := sizeInUnits_le (t.graph.sizeOf_le b)
    have honly : ∀ q, 0 < q → q < w.run.objectCount + 1 → (q ∈ Phase.gather segment ∧ q = b ↔ q = b) := by
      intro q _ _
      refine ⟨fun hand => hand.2, ?_⟩
      rintro rfl
      exact ⟨hb, rfl⟩
    rw [if_pos hb, sumBelow_congr honly, sumBelow_single hvalid.1 (by have := hvalid.2; omega),
      Nat.min_eq_right hown]
  · rw [if_neg hb, sumBelow_none, Nat.min_zero]
    rintro q _ _ ⟨hq, rfl⟩
    exact hb hq

end Walk

/-- Once sizes are folded, a visited object has the size of its subtree: the own sizes of all visited objects
from which parents lead to it, itself among them, cut off at a full word. An object that was not visited has
none. Nothing but sizes changes, in the run or in what the traversal has found. -/
theorem foldSizes_subtree {graph : HeapGraph} {fresh run : Run} {traversal : Traversal} (hf : fresh.IsFresh)
    (ht : Traversed graph fresh run traversal) :
    (∀ x ∈ run.visitOrder traversal.visitedCount, (run.foldSizes traversal.visitedCount).sizeUnits x =
      min wordMax (sumBelow (run.objectCount + 1) (fun q => sizeInUnits (graph.sizeOf q))
        fun q => q ∈ run.visitOrder traversal.visitedCount ∧ run.Climbs q x)) ∧
    (∀ x, x ∉ run.visitOrder traversal.visitedCount →
      (run.foldSizes traversal.visitedCount).sizeUnits x = 0) ∧
    (∃ sizes, run.foldSizes traversal.visitedCount = { run with sizes := sizes }) ∧
    ∀ input dominators a, Analysis.finish input run traversal dominators = .ok a →
      a.run = run.foldSizes traversal.visitedCount ∧ a.traversal = traversal := by
  have hk := Walk.kept_planted (.of graph fresh) fresh
  have hstart : Walk.Planted (.of graph fresh) (fresh.opening graph) := Walk.planted_start hf _
  obtain ⟨w, segment, held, hw, -, hp, rfl, hresult⟩ := exists_walk_keeping hk hstart hf ht
  have hvalid : ∀ id ∈ Phase.gather segment, w.run.isValid id = true := fun id hid =>
    (hw.ledger.claimed id (List.mem_append_left _ hid)).1
  obtain ⟨sizes, hfolded, hsizes⟩ := Run.FoldedTo.foldr (hw.parentsFirst hp) hvalid hw.foldedTo_start
    (Phase.gather segment) [] rfl
  have hrun : w.run.foldSizes traversal.visitedCount = { w.run with sizes := sizes } := by
    unfold Run.foldSizes
    rw [(Walk.traversal_eq hresult).1, hw.visits.order, List.foldl_reverse]
    exact hfolded
  have hclimbs : ∀ x q, q ∈ Phase.gather segment ∧ w.run.Hands (Phase.gather segment) q x ↔
      q ∈ Phase.gather segment ∧ w.run.Climbs q x :=
    fun x q => and_congr_right fun hq => hw.hands_iff_climbs hp hq
  rw [hrun, (Walk.traversal_eq hresult).1, hw.visits.order]
  refine ⟨fun x hx => ?_, fun x hx => ?_, ⟨sizes, rfl⟩, fun input dominators a ha => ?_⟩
  · have hunits : ({ w.run with sizes := sizes } : Run).sizeUnits x = sizes.get x := if_pos (hvalid x hx)
    rw [hunits, hsizes.get]
    simp only [hclimbs]
    rfl
  · have hnone : sizes.get x = 0 := by
      rw [hsizes.get, sumBelow_none, Nat.min_zero]
      -- from a visited object parents lead to visited ones only
      rintro q _ _ ⟨hq, hh⟩
      rcases Relation.ReflTransGen.cases_tail hh with rfl | ⟨c, -, hc, hcx, -⟩
      · exact hx hq
      · obtain ⟨p, hparent, hvisited⟩ := hw.sized_parent hp (hw.sizeUnits_ne_zero_iff.mpr hc)
        rw [hcx] at hparent
        cases hparent
        exact hx (hw.sizeUnits_ne_zero_iff.mp hvisited)
    unfold Run.sizeUnits
    rw [hnone, ite_self]
  · obtain ⟨full, -, hfound, -⟩ := Analysis.finish_eq_ok ha
    rw [← hrun]
    exact ⟨hfound.run, hfound.traversal⟩

set_option maxRecDepth 10000 in
theorem foldSizes_subtree_layeredHeap : layeredRun.IsFresh ∧ ∃ run traversal,
    Traversed layeredHeap layeredRun run traversal ∧
    run.visitOrder traversal.visitedCount = [1, 2, 6, 7, 8, 3, 9, 4, 5] ∧
    (List.range' 1 9).map (run.foldSizes traversal.visitedCount).sizeUnits = [10, 4, 2, 4, 2, 2, 6, 4, 2] ∧
    (∀ x ∈ run.visitOrder traversal.visitedCount, (run.foldSizes traversal.visitedCount).sizeUnits x =
      min wordMax (sumBelow (run.objectCount + 1) (fun q => sizeInUnits (layeredHeap.sizeOf q))
        fun q => q ∈ run.visitOrder traversal.visitedCount ∧ run.Climbs q x)) ∧
    (∀ x, x ∉ run.visitOrder traversal.visitedCount →
      (run.foldSizes traversal.visitedCount).sizeUnits x = 0) ∧
    (∃ sizes, run.foldSizes traversal.visitedCount = { run with sizes := sizes }) ∧
    ∀ input dominators a, Analysis.finish input run traversal dominators = .ok a →
      a.run = run.foldSizes traversal.visitedCount ∧ a.traversal = traversal := by
  have hfresh : layeredRun.IsFresh := ⟨{}, 9, layeredHeap.tree?, { available := .ok 1000 }, rfl⟩
  have hsizes : (layeredRun.traverse layeredHeap [] {}).result.toOption.any (fun traversal =>
      (layeredRun.traverse layeredHeap [] {}).run.visitOrder traversal.visitedCount =
          [1, 2, 6, 7, 8, 3, 9, 4, 5] ∧
        (List.range' 1 9).map
            ((layeredRun.traverse layeredHeap [] {}).run.foldSizes traversal.visitedCount).sizeUnits =
          [10, 4, 2, 4, 2, 2, 6, 4, 2]) = true := by
    decide +kernel
  obtain ⟨traversal, hresult, hsizes⟩ := exists_ok_of_any hsizes
  obtain ⟨horder, hunits⟩ := of_decide_eq_true hsizes
  have ht := traversed_of_result hresult
  exact ⟨hfresh, _, traversal, ht, horder, hunits, foldSizes_subtree hfresh ht⟩

end HeapRetention
