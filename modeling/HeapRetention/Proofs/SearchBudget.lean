import HeapRetention.Proofs.EdgeBudget
import HeapRetention.Proofs.StrongNodes

/-! The search for postorder numbers keeps within its means. An object is entered once, so the edges met and
those of the objects that were not met yet are always all edges; hence the frames have room, no word is ever
full, and the search comes to its end before it runs out of turns. -/
namespace HeapRetention

theorem sum_map_filter_ne_zero (ids : List ObjectId) (f : ObjectId → Nat) :
    ((ids.filter fun id => f id ≠ 0).map f).sum = (ids.map f).sum := by
  induction ids with
  | nil => rfl
  | cons id ids ih =>
    rw [List.filter_cons]
    by_cases h0 : f id = 0
    · simp only [h0, ne_eq, not_true_eq_false, decide_false, Bool.false_eq_true, if_false, List.map_cons,
        List.sum_cons, Nat.zero_add]
      exact ih
    · simp only [h0, ne_eq, not_false_eq_true, decide_true, if_true, List.map_cons, List.sum_cons]
      rw [ih]

/-- A sum over distinct objects grows no smaller over a list with all of them that count. -/
theorem sum_map_le_of_mem {ids others : List ObjectId} {f : ObjectId → Nat} (hids : ids.Nodup)
    (hsub : ∀ id ∈ ids, f id ≠ 0 → id ∈ others) : (ids.map f).sum ≤ (others.map f).sum := by
  have hsubset : (ids.filter fun id => f id ≠ 0) ⊆ others := by
    intro id hid
    obtain ⟨hin, hne⟩ := List.mem_filter.mp hid
    exact hsub id hin (of_decide_eq_true hne)
  obtain ⟨inside, hperm, hsublist⟩ := List.subperm_of_subset (hids.filter _) hsubset
  rw [← sum_map_filter_ne_zero, ← (hperm.map f).sum_eq]
  exact (hsublist.map f).sum_le_sum fun _ _ => Nat.zero_le _

theorem SyntheticTree.sum_children_le (tree : SyntheticTree) {ids : List ObjectId} (hids : ids.Nodup) :
    (ids.map fun id => (tree.children id).length).sum ≤ tree.edgeCount := by
  have hkeys : (tree.childrenOf.keys.map fun id => (tree.children id).length).sum = tree.edgeCount := by
    have hsizes : ∀ p ∈ tree.childrenOf.toList,
        ((fun id => (tree.children id).length) ∘ Prod.fst) p = p.2.size := by
      rintro ⟨parent, cs⟩ hp
      rw [Std.TreeMap.mem_toList_iff_getElem?_eq_some] at hp
      dsimp only [Function.comp]
      unfold children children?
      rw [Std.TreeMap.get?_eq_getElem?, hp]
      exact Array.length_toList
    unfold edgeCount
    rw [Std.TreeMap.foldl_eq_foldl_toList, ← Std.TreeMap.map_fst_toList_eq_keys, List.map_map,
      List.map_congr_left hsizes, ← total_eq_sum]
    unfold total
    rw [List.foldl_map]
  rw [← hkeys]
  apply sum_map_le_of_mem hids
  intro id _ hne
  rw [Std.TreeMap.mem_keys]
  by_contra hnot
  unfold children children? at hne
  rw [Std.TreeMap.get?_eq_getElem?, Std.TreeMap.getElem?_eq_none hnot] at hne
  exact hne rfl

namespace FlowGraph
variable (g : FlowGraph)

/-- A visited object that is not in the heap has no slots. -/
theorem sum_strongReferences_le :
    (g.nodes.map fun id => (g.snapshot.graph.strongReferences id).length).sum ≤
      (g.snapshot.graph.objectIds.map fun id => (g.snapshot.graph.strongReferences id).length).sum := by
  apply sum_map_le_of_mem g.nodup_nodes
  intro id hid hne
  obtain ⟨hpos, -⟩ := Postorder.Search.wasVisited_bounds (mem_nodes_iff.mp hid)
  by_contra hnot
  -- a number beyond the heap describes an object without slots
  have hrecord : g.snapshot.graph.record? id = none := by
    unfold HeapGraph.record?
    rw [if_neg hpos]
    apply Array.getElem?_eq_none
    unfold HeapGraph.objectIds at hnot
    rw [List.mem_range'_1] at hnot
    have hcount : g.snapshot.graph.objectCount = g.snapshot.graph.objects.size := rfl
    omega
  unfold HeapGraph.strongReferences HeapGraph.referentSlot? HeapGraph.references at hne
  rw [hrecord] at hne
  exact hne rfl

theorem sum_syntheticChildren_le :
    (g.nodes.map fun id => ((g.run.syntheticChildren? id).getD []).length).sum ≤
      (g.run.tree?.map SyntheticTree.edgeCount).getD 0 := by
  unfold Run.syntheticChildren?
  cases htree : g.run.tree? with
  | none =>
    simp only [Option.bind_none, ite_self, Option.getD_none, List.length_nil, List.map_const',
      List.sum_replicate_nat, Nat.mul_zero, Nat.zero_le]
  | some tree =>
    calc (g.nodes.map fun id => ((if g.run.config.traverse.includeSyntheticTreeEdges then
            (some tree).bind (·.children? id) else none).getD []).length).sum
      _ ≤ (g.nodes.map fun id => (tree.children id).length).sum := by
          apply List.sum_le_sum
          intro id _
          split
          · exact Nat.le_refl _
          · exact Nat.zero_le _
      _ ≤ tree.edgeCount := tree.sum_children_le g.nodup_nodes

/-- The bound on the turns of the search covers all edges. -/
theorem edgeTotal_le_edgeBound : g.roots.length + g.edgeTotal ≤ g.edgeBound := by
  have hslots := g.sum_strongReferences_le
  have hchildren := g.sum_syntheticChildren_le
  have htargets : g.edgeTotal ≤ (g.nodes.map fun id => (g.snapshot.graph.strongReferences id).length).sum +
      (g.nodes.map fun id => ((g.run.syntheticChildren? id).getD []).length).sum := by
    rw [← List.sum_map_add]
    apply List.sum_le_sum
    intro id _
    rw [← List.length_append]
    exact List.length_filter_le _ _
  unfold edgeBound
  dsimp only
  rw [total_eq_sum]
  omega

end FlowGraph

namespace Postorder.Search
variable {g : FlowGraph} {s : Search} {opened rest : List ObjectId} {top next : Frame}
  {below : List Frame} {objects numbers : Slots} {count id room : Nat}

/-- The objects of the graph that the search has not met yet. -/
def unmet (g : FlowGraph) (numbers : Slots) : List ObjectId :=
  g.nodes.filter fun id => numbers.get id = 0

theorem mem_unmet_iff : id ∈ unmet g numbers ↔ g.run.wasVisited id = true ∧ numbers.get id = 0 := by
  unfold unmet
  rw [List.mem_filter, FlowGraph.mem_nodes_iff, decide_eq_true_iff]

theorem nodup_unmet (g : FlowGraph) (numbers : Slots) : (unmet g numbers).Nodup :=
  g.nodup_nodes.filter _

theorem Recorded.unmet_mark (h : Recorded g objects numbers count opened)
    (hvis : g.run.wasVisited id = true) (hnew : numbers.get id = 0) :
    (unmet g numbers).Perm (id :: unmet g (numbers.put id openMark)) := by
  have hmark : openMark ≠ 0 := by decide
  have hnot : id ∉ unmet g (numbers.put id openMark) := by
    rw [mem_unmet_iff, h.get_put hvis, if_pos rfl]
    exact fun hand => hmark hand.2
  apply (List.perm_ext_iff_of_nodup (nodup_unmet _ _) (List.nodup_cons.mpr ⟨hnot, nodup_unmet _ _⟩)).mpr
  intro v
  rw [List.mem_cons, mem_unmet_iff, mem_unmet_iff, h.get_put hvis]
  by_cases he : id = v
  · rw [← he]
    simp only [hvis, hnew, and_self, true_or]
  · rw [if_neg he, or_iff_right fun hv => he hv.symm]

/-- An object that is open was met before. -/
theorem Recorded.unmet_close (h : Recorded g objects numbers count opened)
    (hvis : g.run.wasVisited id = true) (hmet : numbers.get id ≠ 0) :
    unmet g (numbers.put id (count + 1)) = unmet g numbers := by
  apply List.filter_congr
  intro v _
  rw [h.get_put hvis]
  split
  · next he =>
    rw [← he]
    simp only [hmet, Nat.succ_ne_zero]
  · rfl

/-- What the search has spent: its edges are those of the super root and of the objects that it met, and the
frames hold no more than that. -/
structure Accounts (g : FlowGraph) (s : Search) : Prop where
  edges : s.edgeCount + ((unmet g s.numbers).map fun id => (g.targets id).length).sum =
    g.roots.length + g.edgeTotal
  entries : s.entries ≤ s.edgeCount

/-- The turns that the search may still take: one for each edge and one for each object. -/
def turnsLeft (g : FlowGraph) (s : Search) : Nat :=
  (s.frames.map fun fr => fr.pending.length).sum + s.frames.length +
    ((unmet g s.numbers).map fun id => (g.targets id).length + 1).sum

theorem accounts_start (g : FlowGraph) : Accounts g (.start g) := by
  have hunmet : unmet g (Search.start g).numbers = g.nodes := by
    apply List.filter_eq_self.mpr
    intro id _
    exact decide_eq_true (Slots.get_create _ id)
  constructor
  · rw [hunmet]
    rfl
  · exact Nat.le_refl _

theorem turnsLeft_start (g : FlowGraph) : turnsLeft g (.start g) < g.edgeBound + g.run.objectCount + 3 := by
  have hunmet : (unmet g (Search.start g).numbers).length ≤ g.run.objectCount := by
    calc (unmet g (Search.start g).numbers).length
      _ ≤ g.nodes.length := List.length_filter_le _ _
      _ ≤ g.run.objectIds.length := List.length_filter_le _ _
      _ = g.run.objectCount := List.length_range'
  have hedges := (accounts_start g).edges
  have hroots : (Search.start g).edgeCount = g.roots.length := rfl
  have hframes : ((Search.start g).frames.map fun fr => fr.pending.length).sum +
      (Search.start g).frames.length = g.roots.length + 1 := by
    simp only [start, List.map_singleton, List.sum_singleton, List.length_reverse, List.length_singleton]
  have hbound := g.edgeTotal_le_edgeBound
  unfold turnsLeft
  rw [hframes, List.sum_map_add, List.map_const', List.sum_replicate_nat, Nat.mul_one]
  omega

/-- With room for all edges there is room for the frames. -/
theorem Accounts.entries_le (h : Accounts g s) (hroom : g.roots.length + g.edgeTotal ≤ room) :
    s.entries ≤ room := by
  calc s.entries
    _ ≤ s.edgeCount := h.entries
    _ ≤ g.roots.length + g.edgeTotal := Nat.le.intro h.edges
    _ ≤ room := hroom

theorem Accounts.skip (h : Accounts g s) (frames : List Frame) : Accounts g { s with frames := frames } :=
  ⟨h.edges, h.entries⟩

section
variable (hinv : Inv g s opened) (h : Accounts g s)
include hinv h

theorem Accounts.enter (hvis : g.run.wasVisited id = true) (hnew : s.numbers.get id = 0)
    (below : List Frame) : Accounts g (s.enter id (g.targets id) below) := by
  have hsum := ((hinv.unmet_mark hvis hnew).map fun id => (g.targets id).length).sum_eq
  rw [List.map_cons, List.sum_cons] at hsum
  have hedges := h.edges
  constructor
  · unfold Search.enter
    dsimp only
    omega
  · exact Nat.add_le_add_right h.entries _

theorem Accounts.leave (hvis : g.run.wasVisited top.node = true) (hmet : s.numbers.get top.node ≠ 0)
    (below : List Frame) : Accounts g (s.leave top below) := by
  constructor
  · unfold Search.leave
    dsimp only
    rw [hinv.unmet_close hvis hmet]
    exact h.edges
  · exact Nat.le_trans (Nat.sub_le _ _) h.entries

end

section
variable (hinv : Inv g s opened) (hfr : s.frames = top :: below)
include hinv hfr

theorem turnsLeft_enter (hp : top.pending = id :: rest) (hvis : g.run.wasVisited id = true)
    (hnew : s.numbers.get id = 0) :
    turnsLeft g (s.enter id (g.targets id) ({ top with pending := rest } :: below)) < turnsLeft g s := by
  have hsum := ((hinv.unmet_mark hvis hnew).map fun id => (g.targets id).length + 1).sum_eq
  rw [List.map_cons, List.sum_cons] at hsum
  unfold turnsLeft
  rw [hfr, hsum]
  simp only [Search.enter, List.map_cons, List.sum_cons, List.length_cons, List.length_reverse, hp]
  omega

theorem turnsLeft_leave (hp : top.pending = []) (hvis : g.run.wasVisited top.node = true)
    (hmet : s.numbers.get top.node ≠ 0) : turnsLeft g (s.leave top below) < turnsLeft g s := by
  unfold turnsLeft Search.leave
  dsimp only
  rw [hinv.unmet_close hvis hmet, hfr]
  simp only [List.map_cons, List.sum_cons, List.length_cons, hp, List.length_nil]
  omega

end

theorem turnsLeft_skip (hfr : s.frames = top :: below) (hp : top.pending = id :: rest) :
    turnsLeft g { s with frames := { top with pending := rest } :: below } < turnsLeft g s := by
  unfold turnsLeft
  rw [hfr]
  simp only [List.map_cons, List.sum_cons, List.length_cons, hp]
  omega

/-- With room for all edges the search comes to its end. -/
theorem proceed_ok (hroots : ∀ id ∈ g.roots, g.run.wasVisited id = true)
    (hreads : ∀ id, g.snapshot.breaksAt id = none) (hcount : g.run.objectCount < wordMax)
    (hroom : g.roots.length + g.edgeTotal ≤ room) (hword : room ≤ wordMax) {fuel : Nat}
    (hinv : Inv g s opened) (h : Accounts g s) (hfuel : turnsLeft g s < fuel) :
    ∃ last, proceed g room fuel s = .ok last := by
  -- every turn leaves one less to take
  induction fuel generalizing s opened with
  | zero => exact absurd hfuel (Nat.not_lt_zero _)
  | succ fuel ih =>
    rw [proceed]
    have hstacked := hinv.toStacked
    cases hfr : s.frames with
    | nil => exact ⟨s, rfl⟩
    | cons top below =>
      rw [hfr] at hstacked
      cases hp : top.pending with
      | nil =>
        cases below with
        | nil => exact ⟨s, by simp only [hp]⟩
        | cons next below =>
          obtain ⟨id, opened, rfl⟩ := hstacked.exists_top
          obtain ⟨rfl, -⟩ := List.cons.inj hstacked.stack
          -- the object on top is open and has no number yet, so there is one left for it
          have hnumber := hinv.count_add_length_le
          rw [List.length_cons] at hnumber
          have hmet := hinv.ne_zero_of_open List.mem_cons_self
          have hvis := hinv.visited top.node hmet
          have hmore : s.count + 2 ≤ wordMax := by omega
          have hless := turnsLeft_leave hinv hfr hp hvis hmet
          simp only [hp, Nat.not_lt.mpr hmore, if_false]
          exact ih (hinv.leave hfr hp hmore) (h.leave hinv hvis hmet _) (by omega)
      | cons id rest =>
        simp only [hp]
        by_cases hmet : s.numbers.get id = 0
        · have hout := hstacked.pending top List.mem_cons_self id (hp ▸ List.mem_cons_self)
          have hvis := wasVisited_of_outlets hroots hout
          have hsucc : g.successors id = .ok (g.targets id) := by
            unfold FlowGraph.successors
            rw [hreads]
          have hentered := h.enter hinv hvis hmet ({ top with pending := rest } :: below)
          have hfits : s.entries + (g.targets id).length ≤ room := hentered.entries_le hroom
          have hcheck := checkRoom_eq_ok_iff.mpr ⟨hfits, Nat.le_trans hfits hword⟩
          have hless := turnsLeft_enter hinv hfr hp hvis hmet
          simp only [hmet, ne_eq, not_true_eq_false, if_false, hsucc, hcheck]
          exact ih (hinv.enter hroots hfr hp hmet) hentered (by omega)
        · have hless := turnsLeft_skip (g := g) hfr hp
          simp only [hmet, ne_eq, not_false_eq_true, if_true]
          exact ih (hinv.skip hfr hp hmet) (h.skip _) (by omega)

theorem kept_accounts (g : FlowGraph) : Kept g fun s _ => Accounts g s where
  skip _ h _ _ _ := h.skip _
  enter hinv h _ _ hvis hnew := h.enter hinv hvis hnew _
  leave {s opened top next below} hinv h _ _ _ := by
    have hmet := hinv.ne_zero_of_open List.mem_cons_self
    exact h.leave hinv (hinv.visited top.node hmet) hmet _

end Postorder.Search

namespace Postorder
variable {p : Postorder} {g : FlowGraph}

theorem Numbers.perm_numbered (hp : p.Numbers g) :
    (g.nodes.filter fun id => !decide (p.numbers.get id = 0)).Perm p.numbered := by
  apply (List.perm_ext_iff_of_nodup (g.nodup_nodes.filter _) hp.nodup_numbered).mpr
  intro id
  rw [List.mem_filter, FlowGraph.mem_nodes_iff, hp.mem_numbered, Bool.not_eq_true', decide_eq_false_iff_not]
  exact and_iff_right_of_imp (hp.visited id)

/-- How large a numbering is: there is a number for each object at most, and the edges are those of the super
root and of the objects that have numbers. -/
structure Sized (p : Postorder) (g : FlowGraph) : Prop where
  objects : p.objects.capacity = g.run.objectCount + 3
  numbers : p.numbers.capacity = g.run.objectCount + 3
  superRoot : p.superRoot ≤ g.run.objectCount + 1
  word : p.superRoot ≤ wordMax
  edges : p.edgeCount = g.roots.length + (p.nodes.map fun node => (g.targets (p.objects.get node)).length).sum

/-- However much room there was, a numbering meets no more edges than there are. -/
theorem sized_ofGraph {room : Nat} (hroots : ∀ id ∈ g.roots, g.run.wasVisited id = true)
    (h : ofGraph g room = .ok p) : p.Sized g ∧ p.edgeCount ≤ g.roots.length + g.edgeTotal := by
  have hnumbers := numbers_ofGraph hroots h
  unfold ofGraph at h
  split at h
  · cases h
  · next last hlast =>
    cases h
    obtain ⟨hinv, haccounts, -⟩ := (Search.inv_start g).proceed_kept (Search.kept_accounts g) hroots
      (Search.accounts_start g) hlast
    have hmet : (g.nodes.filter fun id => !decide (last.numbers.get id = 0)).Perm
        ((List.range' 1 last.count).map last.objects.get) := hnumbers.perm_numbered
    have hsplit : ((Search.unmet g last.numbers).map fun id => (g.targets id).length).sum +
        (((List.range' 1 last.count).map last.objects.get).map fun id => (g.targets id).length).sum =
        g.edgeTotal := by
      rw [← (hmet.map fun id => (g.targets id).length).sum_eq, ← List.sum_append, ← List.map_append]
      exact ((List.filter_append_perm _ g.nodes).map _).sum_eq
    have hedges := haccounts.edges
    rw [List.map_map] at hsplit
    refine ⟨⟨hinv.capacity_objects, hinv.capacity_numbers, ?_, hinv.count_lt, ?_⟩, Nat.le.intro hedges⟩
    · exact Nat.succ_le_succ hinv.count_le
    · change last.edgeCount = g.roots.length + ((List.range' 1 last.count).map
        ((fun id => (g.targets id).length) ∘ last.objects.get)).sum
      omega

/-- With room for all edges the numbering succeeds. -/
theorem ofGraph_ok {room : Nat} (hroots : ∀ id ∈ g.roots, g.run.wasVisited id = true)
    (hreads : ∀ id, g.snapshot.breaksAt id = none) (hcount : g.run.objectCount < wordMax)
    (hroom : g.roots.length + g.edgeTotal ≤ room) (hword : room ≤ wordMax) : ∃ p, ofGraph g room = .ok p := by
  obtain ⟨last, hlast⟩ := Search.proceed_ok hroots hreads hcount hroom hword (Search.inv_start g)
    (Search.accounts_start g) (Search.turnsLeft_start g)
  refine ⟨⟨last.objects, last.numbers, last.count + 1, last.edgeCount, last.maxDepth⟩, ?_⟩
  unfold ofGraph
  rw [hlast]

end Postorder
end HeapRetention
