import HeapRetention.Proofs.ForestGrowth
import HeapRetention.Proofs.PhaseLayers

/-! The forest that a traversal leaves behind. Its trees stand on the declared roots and on the sentinel,
every visited object is in one of them, and in the order of visits parents come before their children. A
traversal that was stopped leaves a forest over what it has visited as well. -/
namespace HeapRetention

/-- An object that is met when parents are taken again and again. -/
def Run.Climbs (run : Run) : ObjectId → ObjectId → Prop :=
  Relation.ReflTransGen fun a b => run.parent? a = some b

/-- What holds of the first `count` visits of a run. -/
structure Run.SpanningForest (t : Terrain) (run : Run) (count : Nat) : Prop where
  distinct : ∀ i < count, ∀ j < count, run.visitedAt i = run.visitedAt j → i = j
  parent : ∀ i < count, ∃ id p, run.visitedAt i = .ok id ∧ run.parent? id = some p ∧
    (p = id ∨ ∃ j < i, run.visitedAt j = .ok p)
  /-- Parents lead to a declared root or to the sentinel, and end there. -/
  top : ∀ i < count, ∃ id top, run.visitedAt i = .ok id ∧ run.Climbs id top ∧
    run.parent? top = some top ∧ InHeap run.objectCount top ∧ (t.Seed .strongLocal top ∨ top = t.sentinel)
  sized : ∀ id, run.sizeUnits id ≠ 0 ↔ ∃ i < count, run.visitedAt i = .ok id
  claimed : t.options.onlyStrongReferences = false → ∀ id p, run.parent? id = some p →
    ∃ i < count, run.visitedAt i = .ok id

theorem Run.parent?_eq_some_iff {run : Run} {id p : ObjectId} :
    run.parent? id = some p ↔ run.IsClaimed id ∧ run.parents.get id = p := by
  simp only [parent?, IsClaimed, Bool.and_eq_true, bne_iff_ne]
  constructor
  · intro h
    split at h
    · next hand => exact ⟨hand, Option.some.inj h⟩
    · cases h
  · rintro ⟨hand, rfl⟩
    exact if_pos hand

namespace Walk
variable {t : Terrain} {fresh : Run} {w : Walk} {segment : Phase → List ObjectId}
  {opened held : List ObjectId} {id : ObjectId} {i : Nat}

section
variable (h : Inv t fresh w segment opened held)
include h

theorem Inv.visitedAt_iff :
    i < w.visitedCount ∧ w.run.visitedAt i = .ok id ↔ (Phase.gather segment)[i]? = some id := by
  have hroom := h.visitedCount_lt
  rw [← h.visits.order]
  unfold Run.visitOrder Run.visitedAt Slots.read
  rw [h.visits.capacity_visited, List.getElem?_map]
  by_cases hi : i < w.visitedCount
  · rw [if_pos (by omega), List.getElem?_range hi, and_iff_right hi, Option.map_some, Option.some_inj,
      Except.ok.injEq]
  · rw [List.getElem?_eq_none (by rw [List.length_range]; omega)]
    exact iff_of_false (fun hand => hi hand.1) fun hnone => nomatch hnone

theorem Inv.exists_visitedAt_iff :
    (∃ i < w.visitedCount, w.run.visitedAt i = .ok id) ↔ id ∈ Phase.gather segment := by
  rw [List.mem_iff_getElem?]
  exact exists_congr fun i => h.visitedAt_iff

theorem Inv.exists_of_lt (hi : i < w.visitedCount) : ∃ id, (Phase.gather segment)[i]? = some id := by
  have hlen : (Phase.gather segment).length = w.visitedCount := by
    rw [← h.visits.order, Run.visitOrder, List.length_map, List.length_range]
  exact ⟨_, List.getElem?_eq_getElem (hlen ▸ hi)⟩

theorem Inv.sizeUnits_ne_zero_iff : w.run.sizeUnits id ≠ 0 ↔ id ∈ Phase.gather segment := by
  rw [← h.wasVisited_iff]
  unfold Run.sizeUnits Run.wasVisited
  rw [Bool.and_eq_true, bne_iff_ne]
  split
  · next hvalid => rw [and_iff_right hvalid]
  · next hvalid => exact iff_of_false (fun hne => hne rfl) fun hand => hvalid hand.1

variable (hp : Planted t w)
include hp

theorem Inv.parent_of_getElem? (hi : (Phase.gather segment)[i]? = some id) :
    w.run.parent? id = some (w.run.parents.get id) ∧
      (w.run.parents.get id = id ∨ ∃ j < i, (Phase.gather segment)[j]? = some (w.run.parents.get id)) := by
  have hforest := hp.forest
  rw [h.visits.order] at hforest
  have hclaimed := hforest.claimed id (List.mem_of_getElem? hi)
  refine ⟨Run.parent?_eq_some_iff.mpr ⟨hclaimed, rfl⟩, (hforest.earlier i id hi).imp_right fun hin => ?_⟩
  obtain ⟨j, hj, heq⟩ := List.mem_take_iff_getElem.mp hin
  exact ⟨j, by omega, by rw [← heq, List.getElem?_eq_getElem]⟩

/-- Parents have smaller places in the order of visits, so they come to an end. -/
theorem Inv.exists_top (hi : (Phase.gather segment)[i]? = some id) :
    ∃ top, w.run.Climbs id top ∧ w.run.parent? top = some top ∧ InHeap w.run.objectCount top ∧
      (t.Seed .strongLocal top ∨ top = t.sentinel) := by
  induction i using Nat.strongRecOn generalizing id with
  | ind i ih =>
    obtain ⟨hparent, hself | ⟨j, hj, hjd⟩⟩ := h.parent_of_getElem? hp hi
    · have hclaimed := (Run.parent?_eq_some_iff.mp hparent).1
      rw [hself] at hparent
      exact ⟨id, .refl, hparent, (w.run.isValid_iff id).mp hclaimed.1,
        (hp.forest.top id hclaimed hself).local_or_sentinel⟩
    · obtain ⟨top, hclimb, htop⟩ := ih j hj hjd
      exact ⟨top, .head hparent hclimb, htop⟩

/-- Whatever has a size has a parent with a size. -/
theorem Inv.sized_parent (hid : w.run.sizeUnits id ≠ 0) :
    ∃ p, w.run.parent? id = some p ∧ w.run.sizeUnits p ≠ 0 := by
  obtain ⟨i, hi⟩ := List.mem_iff_getElem?.mp (h.sizeUnits_ne_zero_iff.mp hid)
  obtain ⟨hparent, hself | ⟨j, -, hj⟩⟩ := h.parent_of_getElem? hp hi
  · rw [hself] at hparent
    exact ⟨id, hparent, hid⟩
  · exact ⟨_, hparent, h.sizeUnits_ne_zero_iff.mpr (List.mem_of_getElem? hj)⟩

end

theorem Inv.spanningForest (h : Inv t fresh w segment [] held) (hend : w.phase = .finished)
    (hp : Planted t w) : w.run.SpanningForest t w.visitedCount where
  distinct i hi j hj he := by
    obtain ⟨id, hid⟩ := h.exists_of_lt hi
    have hvisited := (h.visitedAt_iff.mpr hid).2
    have hid' := h.visitedAt_iff.mp ⟨hj, he ▸ hvisited⟩
    exact (List.getElem?_inj (List.getElem?_eq_some_iff.mp hid).1 h.nodup_gather).mp (hid.trans hid'.symm)
  parent i hi := by
    obtain ⟨id, hid⟩ := h.exists_of_lt hi
    obtain ⟨hparent, hbefore⟩ := h.parent_of_getElem? hp hid
    refine ⟨id, _, (h.visitedAt_iff.mpr hid).2, hparent, hbefore.imp_right ?_⟩
    rintro ⟨j, hj, hjd⟩
    exact ⟨j, hj, (h.visitedAt_iff.mpr hjd).2⟩
  top i hi := by
    obtain ⟨id, hid⟩ := h.exists_of_lt hi
    obtain ⟨top, htop⟩ := h.exists_top hp hid
    exact ⟨id, top, (h.visitedAt_iff.mpr hid).2, htop⟩
  sized id := h.sizeUnits_ne_zero_iff.trans h.exists_visitedAt_iff.symm
  claimed honly id p hid := by
    -- nothing is held back any more, and the last phase lets everything in
    have hadmits : t.Admits w.phase id := by
      rw [hend]
      exact ⟨fun _ => by decide, fun _ => ⟨by decide, honly⟩⟩
    have hmem := h.mem_of_claimed (Run.parent?_eq_some_iff.mp hid).1 hadmits
    exact h.exists_visitedAt_iff.mpr (hmem.resolve_right List.not_mem_nil)

end Walk

variable {graph : HeapGraph} {fresh : Run}

/-- A traversal leaves a forest over what it visited; one that stops early, because it was canceled or for
any other reason, leaves no visited object without a visited parent. -/
theorem traverse_spanningForest (hf : fresh.IsFresh) :
    (∀ run traversal, Traversed graph fresh run traversal →
      run.SpanningForest (.of graph fresh) traversal.visitedCount) ∧
    ∀ slices journal id, (fresh.traverse graph slices journal).run.sizeUnits id ≠ 0 →
      ∃ p, (fresh.traverse graph slices journal).run.parent? id = some p ∧
        (fresh.traverse graph slices journal).run.sizeUnits p ≠ 0 := by
  have hk := Walk.kept_planted (.of graph fresh) fresh
  have hstart : Walk.Planted (.of graph fresh) (fresh.opening graph) := Walk.planted_start hf _
  constructor
  · intro run traversal ht
    obtain ⟨w, segment, held, hinv, hend, hp, rfl, hresult⟩ := exists_walk_keeping hk hstart hf ht
    rw [(Walk.traversal_eq hresult).1]
    exact hinv.spanningForest hend hp
  · intro slices journal id hid
    obtain ⟨segment, held, hinv, hp, -⟩ := exists_inv_walked hk hstart hf slices journal
    rw [Run.run_traverse] at hid ⊢
    exact hinv.sized_parent hp hid

/-- A traversal that is stopped after its second wave. -/
def stoppedVisits : TraversalAttempt :=
  layeredRun.traverse layeredHeap [] { patience? := some 1 }

set_option maxRecDepth 10000 in
theorem traverse_spanningForest_layeredHeap : layeredRun.IsFresh ∧
    (∃ run traversal, Traversed layeredHeap layeredRun run traversal ∧
      (List.range' 1 9).map run.parent? =
        [some 1, some 1, some 2, some 1, some 4, some 6, some 7, some 7, some 8] ∧
      run.SpanningForest (.of layeredHeap layeredRun) traversal.visitedCount) ∧
    stoppedVisits.result = .error (.error .canceled) ∧
    (List.range' 1 9).map stoppedVisits.run.sizeUnits = [2, 2, 0, 0, 0, 0, 0, 0, 0] ∧
    ∀ id, stoppedVisits.run.sizeUnits id ≠ 0 →
      ∃ p, stoppedVisits.run.parent? id = some p ∧ stoppedVisits.run.sizeUnits p ≠ 0 := by
  have hfresh : layeredRun.IsFresh := ⟨{}, 9, layeredHeap.tree?, { available := .ok 1000 }, rfl⟩
  have hparents : (layeredRun.traverse layeredHeap [] {}).result.toOption.any (fun _ =>
      (List.range' 1 9).map (layeredRun.traverse layeredHeap [] {}).run.parent? =
        [some 1, some 1, some 2, some 1, some 4, some 6, some 7, some 7, some 8]) = true := by
    decide +kernel
  have hstopped : stoppedVisits.result = .error (.error .canceled) := by
    decide +kernel
  obtain ⟨traversal, hresult, hparents⟩ := exists_ok_of_any hparents
  have ht := traversed_of_result hresult
  obtain ⟨hended, hany⟩ := @traverse_spanningForest layeredHeap layeredRun hfresh
  exact ⟨hfresh, ⟨_, traversal, ht, of_decide_eq_true hparents, hended _ traversal ht⟩, hstopped,
    by decide +kernel, hany [] { patience? := some 1 }⟩

end HeapRetention
