import HeapRetention.Proofs.DominatorsMet

/-! The numbers of the search are those of a postorder: an edge goes down to a smaller number unless its end
leads back to its start. While the search runs, the end of such an edge is still open, and the open objects
above it are the way back; none of them gets its number after it. -/
namespace HeapRetention

/-- The objects that the visited roots lead to. -/
inductive FlowGraph.Reached (g : FlowGraph) : ObjectId → Prop
  | root {id : ObjectId} (h : id ∈ g.roots) : Reached g id
  | step {u v : ObjectId} (hu : Reached g u) (h : v ∈ g.targets u) : Reached g v

namespace Postorder.Search
variable {g : FlowGraph} {s : Search} {opened : List ObjectId} {objects numbers : Slots}
  {count id t u y : Nat}

/-- Whether an object gets its number no later than another: it has the smaller number, the other being open
perhaps, or it was opened after the other and both are open. -/
def Precedes (numbers : Slots) (opened : List ObjectId) (y t : ObjectId) : Prop :=
  y = t ∨ numbers.get y ≠ 0 ∧ numbers.get y < numbers.get t ∨ [y, t].Sublist opened

/-- A way from an object to another through objects that get their numbers no later than the first. -/
def LeadsBack (g : FlowGraph) (numbers : Slots) (opened : List ObjectId) (t : ObjectId) :
    ObjectId → Prop :=
  Relation.ReflTransGen (fun x y => y ∈ g.targets x ∧ Precedes numbers opened y t) t

/-- Edges from numbered objects go to smaller numbers or lead back. -/
def Retreating (g : FlowGraph) (numbers : Slots) (opened : List ObjectId) : Prop :=
  ∀ u, numbers.get u ≠ 0 → numbers.get u ≠ openMark → ∀ t ∈ g.targets u,
    numbers.get t < numbers.get u ∨ LeadsBack g numbers opened t u

theorem Recorded.le_openMark (h : Recorded g objects numbers count opened) (id : ObjectId) :
    numbers.get id ≤ openMark := by
  have hlt := h.count_lt
  by_cases h0 : numbers.get id = 0
  · omega
  · by_cases hm : numbers.get id = openMark
    · omega
    · have := (h.object_number id h0 hm).1
      omega

/-- From an open object those opened after it lead to the last one. -/
theorem leads_to_top (hne : ∀ x ∈ id :: opened, x ≠ 0)
    (hlinked : (id :: opened).IsChain fun a b => a ∈ g.outlets b) (ht : t ∈ id :: opened) :
    Relation.ReflTransGen (fun x y => y ∈ g.targets x ∧ (y = t ∨ [y, t].Sublist (id :: opened))) t id := by
  induction opened generalizing id with
  | nil =>
    rw [List.mem_singleton.mp ht]
  | cons next opened ih =>
    rcases List.mem_cons.mp ht with rfl | ht
    · exact Relation.ReflTransGen.refl
    · obtain ⟨hout, hrest⟩ := List.isChain_cons_cons.mp hlinked
      have hway := ih (fun x hx => hne x (List.mem_cons_of_mem id hx)) hrest ht
      have hstep : id ∈ g.targets next := by
        unfold FlowGraph.outlets at hout
        rwa [if_neg (hne next (List.mem_cons_of_mem id List.mem_cons_self))] at hout
      refine Relation.ReflTransGen.tail
        (Relation.ReflTransGen.mono (fun _ _ h => ⟨h.1, h.2.imp_right fun hs => hs.cons id⟩) _ _ hway)
        ⟨hstep, Or.inr ?_⟩
      exact List.cons_sublist_cons.mpr (List.singleton_sublist.mpr ht)

section
variable (h : Recorded g objects numbers count opened) (hvis : g.run.wasVisited id = true)
  (hnew : numbers.get id = 0)
include h hvis hnew

theorem Precedes.mark (hp : Precedes numbers opened y t) :
    Precedes (numbers.put id openMark) (id :: opened) y t := by
  rcases hp with rfl | ⟨hy, hlt⟩ | hsub
  · exact Or.inl rfl
  · have hidy : id ≠ y := fun he => hy (he ▸ hnew)
    have hidt : id ≠ t := fun he => by rw [← he, hnew] at hlt; exact Nat.not_lt_zero _ hlt
    refine Or.inr (Or.inl ?_)
    rw [h.get_put hvis, h.get_put hvis, if_neg hidy, if_neg hidt]
    exact ⟨hy, hlt⟩
  · exact Or.inr (Or.inr (hsub.cons id))

/-- An object that is met now has no number yet, so nothing changes for those that have one. -/
theorem Retreating.mark (hr : Retreating g numbers opened) :
    Retreating g (numbers.put id openMark) (id :: opened) := by
  intro u h0 hm t ht
  have hidu : id ≠ u := by
    rintro rfl
    rw [h.get_put hvis, if_pos rfl] at hm
    exact hm rfl
  rw [h.get_put hvis, if_neg hidu] at h0 hm
  have hout : t ∈ g.outlets u := by
    unfold FlowGraph.outlets
    rwa [if_neg (wasVisited_bounds (h.visited u h0)).1]
  have hidt : id ≠ t := fun he => h.targets u h0 hm t hout (he ▸ hnew)
  rw [h.get_put hvis, h.get_put hvis, if_neg hidt, if_neg hidu]
  exact (hr u h0 hm t ht).imp_right
    (Relation.ReflTransGen.mono (fun _ _ hstep => ⟨hstep.1, hstep.2.mark h hvis hnew⟩) _ _)

end

section
variable (h : Recorded g objects numbers count (id :: opened)) (hroom : count + 2 ≤ wordMax)
include h hroom

theorem Precedes.close (hp : Precedes numbers (id :: opened) y t) :
    Precedes (numbers.put id (count + 1)) opened y t := by
  have hmark : openMark = wordMax := rfl
  have hopen : numbers.get id = openMark := (h.mem_opened id).mp List.mem_cons_self
  have hvis := h.visited id (h.ne_zero_of_open List.mem_cons_self)
  have hout := (List.nodup_cons.mp h.nodup).1
  rcases hp with rfl | ⟨hy, hlt⟩ | hsub
  · exact Or.inl rfl
  · -- the first of the two is numbered; the second one may be the object that is closed
    have htop := h.le_openMark t
    have hidy : id ≠ y := by
      rintro rfl
      omega
    have hyclosed : numbers.get y ≠ openMark := by omega
    have hle := (h.object_number y hy hyclosed).1
    refine Or.inr (Or.inl ?_)
    rw [h.get_put hvis, h.get_put hvis, if_neg hidy]
    refine ⟨hy, ?_⟩
    split
    · exact Nat.lt_succ_of_le hle
    · exact hlt
  · by_cases hidy : id = y
    · -- the object that is closed gets its number before all that stay open
      have ht : t ∈ opened := by
        rw [← hidy] at hsub
        exact List.singleton_sublist.mp (List.cons_sublist_cons.mp hsub)
      have hidt : id ≠ t := fun he => hout (he ▸ ht)
      have htopen := (h.mem_opened t).mp (List.mem_cons_of_mem id ht)
      refine Or.inr (Or.inl ?_)
      rw [← hidy, h.get_put hvis, h.get_put hvis, if_pos rfl, if_neg hidt]
      omega
    · refine Or.inr (Or.inr ?_)
      cases hsub with
      | cons _ hsub => exact hsub
      | cons_cons _ _ => exact absurd rfl hidy

/-- The last open object gets the next number. Its targets have smaller ones, or they are open, and then the
open objects above them lead back to it. -/
theorem Retreating.close (hr : Retreating g numbers (id :: opened))
    (hmet : ∀ t ∈ g.targets id, numbers.get t ≠ 0)
    (hlinked : (id :: opened).IsChain fun a b => a ∈ g.outlets b) :
    Retreating g (numbers.put id (count + 1)) opened := by
  have hopen : numbers.get id = openMark := (h.mem_opened id).mp List.mem_cons_self
  have hvis := h.visited id (h.ne_zero_of_open List.mem_cons_self)
  intro u h0 hm t ht
  by_cases hidu : id = u
  · subst hidu
    by_cases htopen : numbers.get t = openMark
    · have hway := leads_to_top (fun x hx => (wasVisited_bounds (h.visited x (h.ne_zero_of_open hx))).1)
        hlinked ((h.mem_opened t).mpr htopen)
      refine Or.inr (Relation.ReflTransGen.mono (fun _ y hstep => ⟨hstep.1, ?_⟩) _ _ hway)
      exact Precedes.close h hroom (hstep.2.imp_right Or.inr)
    · have hle := (h.object_number t (hmet t ht) htopen).1
      have hidt : id ≠ t := fun he => htopen (he ▸ hopen)
      rw [h.get_put hvis, h.get_put hvis, if_pos rfl, if_neg hidt]
      exact Or.inl (Nat.lt_succ_of_le hle)
  · rw [h.get_put hvis, if_neg hidu] at h0 hm
    rcases hr u h0 hm t ht with hlt | hway
    · have hidt : id ≠ t := by
        rintro rfl
        have := h.le_openMark u
        omega
      rw [h.get_put hvis, h.get_put hvis, if_neg hidt, if_neg hidu]
      exact Or.inl hlt
    · exact Or.inr (Relation.ReflTransGen.mono (fun _ _ hstep => ⟨hstep.1, hstep.2.close h hroom⟩) _ _ hway)

end

/-- Every turn of the search keeps what is known about the edges from numbered objects. -/
theorem kept_retreating (g : FlowGraph) : Kept g fun s opened => Retreating g s.numbers opened where
  skip _ hr _ _ _ := hr
  enter h hr _ _ hvis hnew := hr.mark h.toRecorded hvis hnew
  leave {s opened top next below} h hr hfr hp hroom := by
    have hstacked := h.toStacked
    rw [hfr] at hstacked
    have hid := (wasVisited_bounds (h.visited top.node (h.ne_zero_of_open List.mem_cons_self))).1
    refine hr.close h.toRecorded hroom (fun t ht => ?_) hstacked.linked.left_of_append
    have hout : t ∈ g.outlets top.node := by
      unfold FlowGraph.outlets
      rwa [if_neg hid]
    rcases hstacked.met top List.mem_cons_self t hout with hne | hpend
    · exact hne
    · rw [hp] at hpend
      exact absurd hpend List.not_mem_nil

end Postorder.Search

namespace Postorder
variable {g : FlowGraph} {p : Postorder} {room : Nat}

/-- The numbered objects are those that the roots lead to. -/
theorem Numbers.numbered_iff_reached (hn : p.Numbers g) {id : ObjectId} :
    p.numbers.get id ≠ 0 ↔ g.Reached id := by
  constructor
  · intro hid
    -- from the super root down: the number of a predecessor is larger
    induction hk : p.superRoot - p.numbers.get id using Nat.strong_induction_on generalizing id with
    | _ k ih =>
      rcases hn.parent id hid with hroot | ⟨u, ht, hlt⟩
      · exact .root hroot
      · have hless := hn.number_lt u
        exact .step (ih _ (by omega) (by omega) rfl) ht
  · intro hr
    induction hr with
    | root h => exact hn.roots _ h
    | step _ h ih => exact hn.targets _ ih _ h

/-- Once the search has ended the way back passes numbered objects with no larger numbers. -/
theorem retreats_ofGraph (hroots : ∀ id ∈ g.roots, g.run.wasVisited id = true)
    (hrun : ofGraph g room = .ok p) {u t : ObjectId} (hu : p.numbers.get u ≠ 0) (ht : t ∈ g.targets u) :
    p.numbers.get t < p.numbers.get u ∨
      Relation.ReflTransGen (fun x y => y ∈ g.targets x ∧ p.numbers.get y ≠ 0 ∧
        p.numbers.get y ≤ p.numbers.get t) t u := by
  have hn := numbers_ofGraph hroots hrun
  unfold ofGraph at hrun
  split at hrun
  · cases hrun
  · next last hlast =>
    cases hrun
    have hstart : Search.Retreating g (Search.start g).numbers [] :=
      fun u h0 => absurd (Slots.get_create _ u) h0
    obtain ⟨h, hr, -⟩ := (Search.inv_start g).proceed_kept (Search.kept_retreating g) hroots hstart hlast
    have hclosed : last.numbers.get u ≠ openMark :=
      fun heq => absurd ((h.mem_opened u).mpr heq) List.not_mem_nil
    refine (hr u hu hclosed t ht).imp_right (Relation.ReflTransGen.mono ?_ _ _)
    rintro x y ⟨hy, rfl | ⟨hne, hlt⟩ | hsub⟩
    · exact ⟨hy, hn.targets u hu y ht, Nat.le_refl _⟩
    · exact ⟨hy, hne, Nat.le_of_lt hlt⟩
    · exact absurd (List.sublist_nil.mp hsub) (List.cons_ne_nil _ _)

end Postorder

variable {snapshot : Snapshot} {fresh run : Run} {traversal : Traversal} {tree : DominatorTree}

namespace DominatorTree
variable {g : FlowGraph} {id k : Nat}

theorem objectAt?_eq_some_iff (hn : tree.postorder.Numbers g) :
    tree.objectAt? k = some id ↔ tree.node? id = some k := by
  rw [node?_eq_some_iff hn]
  unfold objectAt?
  constructor
  · intro h
    split at h
    · next hand =>
      cases h
      exact ⟨hn.number_object k (Nat.pos_of_ne_zero hand.1) hand.2, hand.1⟩
    · cases h
  · rintro ⟨rfl, hne⟩
    rw [if_pos ⟨hne, hn.number_lt id⟩]
    exact congrArg some (hn.object_number id hne)

theorem exists_objectAt? (tree : DominatorTree) :
    (∃ id, tree.objectAt? k = some id) ↔ 0 < k ∧ k < tree.superRoot := by
  unfold objectAt?
  split
  · next hand => exact iff_of_true ⟨_, rfl⟩ ⟨Nat.pos_of_ne_zero hand.1, hand.2⟩
  · next hand =>
    refine iff_of_false ?_ fun h => hand ⟨Nat.pos_iff_ne_zero.mp h.1, h.2⟩
    rintro ⟨id, h⟩
    cases h

end DominatorTree

/-- The numbers of a dominator tree are those of a postorder over the objects that the visited roots lead to.
Numbers and objects determine each other; whatever was not met from the super root has a predecessor with a
larger number; and an edge goes to a smaller number, or to its own start, or its end leads back to its start
through objects whose numbers are no larger than that of the end. -/
theorem numbering_isPostorder (hf : fresh.IsFresh) (ht : Traversed snapshot.graph fresh run traversal)
    (hc : Computed snapshot run traversal tree) :
    (∀ id, (∃ k, tree.node? id = some k) ↔ (FlowGraph.of run snapshot traversal).Reached id) ∧
    (∀ k, (∃ id, tree.objectAt? k = some id) ↔ 0 < k ∧ k < tree.superRoot) ∧
    (∀ k id, tree.objectAt? k = some id ↔ tree.node? id = some k) ∧
    (∀ id k, tree.node? id = some k → id ∈ (FlowGraph.of run snapshot traversal).roots ∨
      ∃ u m, id ∈ (FlowGraph.of run snapshot traversal).targets u ∧ tree.node? u = some m ∧ k < m) ∧
    ∀ u v a b, v ∈ (FlowGraph.of run snapshot traversal).targets u → tree.node? u = some a →
      tree.node? v = some b → b < a ∨ v = u ∨
        Relation.ReflTransGen (fun x y => y ∈ (FlowGraph.of run snapshot traversal).targets x ∧
          ∃ m, tree.node? y = some m ∧ m ≤ b) v u := by
  obtain ⟨hn, -⟩ := exists_index hf ht hc
  have hroots : ∀ id ∈ (FlowGraph.of run snapshot traversal).roots, run.wasVisited id = true :=
    fun id hid => (List.mem_filter.mp hid).2
  refine ⟨fun id => ?_, fun k => tree.exists_objectAt?, fun k id => DominatorTree.objectAt?_eq_some_iff hn,
    fun id k hid => ?_, fun u v a b hv hu hb => ?_⟩
  · rw [← hn.numbered_iff_reached]
    simp only [DominatorTree.node?_eq_some_iff hn, exists_eq_left']
    rfl
  · obtain ⟨rfl, hne⟩ := (DominatorTree.node?_eq_some_iff hn).mp hid
    refine (hn.parent id hne).imp_right ?_
    rintro ⟨u, hu, hlt⟩
    exact ⟨u, _, hu, (DominatorTree.node?_eq_some_iff hn).mpr ⟨rfl, Nat.ne_zero_of_lt hlt⟩, hlt⟩
  · obtain ⟨rfl, hune⟩ := (DominatorTree.node?_eq_some_iff hn).mp hu
    obtain ⟨rfl, hvne⟩ := (DominatorTree.node?_eq_some_iff hn).mp hb
    refine (Postorder.retreats_ofGraph hroots (ofGraph_of_computed hc) hune hv).imp_right fun hway => ?_
    refine Or.inr (Relation.ReflTransGen.mono (fun x y hstep => ⟨hstep.1, _, ?_, hstep.2.2⟩) _ _ hway)
    exact (DominatorTree.node?_eq_some_iff hn).mpr ⟨rfl, hstep.2.1⟩

theorem numbering_isPostorder_crossedHeap : crossedRun.IsFresh ∧ ∃ traversal tree,
    Traversed crossedHeap crossedRun crossedVisits traversal ∧
    Computed { graph := crossedHeap } crossedVisits traversal tree ∧
    (List.range' 1 6).map tree.node? = [some 6, some 5, some 4, some 3, some 2, some 1] ∧
    (∀ id, (∃ k, tree.node? id = some k) ↔
      (FlowGraph.of crossedVisits { graph := crossedHeap } traversal).Reached id) ∧
    (∀ k, (∃ id, tree.objectAt? k = some id) ↔ 0 < k ∧ k < tree.superRoot) ∧
    (∀ k id, tree.objectAt? k = some id ↔ tree.node? id = some k) ∧
    (∀ id k, tree.node? id = some k →
      id ∈ (FlowGraph.of crossedVisits { graph := crossedHeap } traversal).roots ∨
      ∃ u m, id ∈ (FlowGraph.of crossedVisits { graph := crossedHeap } traversal).targets u ∧
        tree.node? u = some m ∧ k < m) ∧
    ∀ u v a b, v ∈ (FlowGraph.of crossedVisits { graph := crossedHeap } traversal).targets u →
      tree.node? u = some a → tree.node? v = some b → b < a ∨ v = u ∨
        Relation.ReflTransGen (fun x y =>
          y ∈ (FlowGraph.of crossedVisits { graph := crossedHeap } traversal).targets x ∧
          ∃ m, tree.node? y = some m ∧ m ≤ b) v u := by
  obtain ⟨traversal, tree, ht, hc, -, -, -, hnodes, -⟩ := exists_crossed
  exact ⟨crossedRun_isFresh, traversal, tree, ht, hc, hnodes,
    @numbering_isPostorder { graph := crossedHeap } _ _ _ _ crossedRun_isFresh ht hc⟩

end HeapRetention
