import HeapRetention.Proofs.DirtyCards
import HeapRetention.Proofs.PassLists
import HeapRetention.Proofs.PackedEdges
import HeapRetention.Proofs.StageResult

/-! What the counters of the passes stand for. In a pass every number that the chunks of the table cover comes
up once or is passed over with its card. A number that comes up has no node, or its node lies right below the
super root, or the node is recomputed; so each node is accounted for once. The counter of what is passed over
takes in more than nodes: the numbers that have none are counted with their cards. -/
namespace HeapRetention

/-- What a visit makes of a number. -/
inductive VisitKind where
  /-- There is no such node. -/
  | vacant
  /-- The immediate dominator of the node already is the super root. -/
  | topped
  | recomputed
  deriving DecidableEq

namespace Fixpoint

def visitKind (root : Nat) (idoms : Slots) (node : Nat) : VisitKind :=
  if node = 0 ∨ root ≤ node then .vacant
  else if idoms.get node = root then .topped
  else .recomputed

/-- The numbers, among some that come up in order, whose visits are of one kind. -/
def visitsOf (x : EdgeIndex) (root : Nat) (kind : VisitKind) : Slots → List Nat → List Nat
  | _, [] => []
  | idoms, node :: rest =>
    if visitKind root idoms node = kind then
      node :: visitsOf x root kind (visitIdoms x root idoms node) rest
    else visitsOf x root kind (visitIdoms x root idoms node) rest

/-- How many predecessors some nodes have. -/
def incomingEdges (x : EdgeIndex) (nodes : List Nat) : Nat :=
  (nodes.map fun node => (x.incoming node).length).sum

/-- Whether a number is that of a node. -/
def isNode (root number : Nat) : Bool :=
  number ≠ 0 ∧ number < root

variable {x : EdgeIndex} {root : Nat}

theorem visitsOf_append (kind : VisitKind) (upper lower : List Nat) (idoms : Slots) :
    visitsOf x root kind idoms (upper ++ lower) =
      visitsOf x root kind idoms upper ++ visitsOf x root kind (upper.foldl (visitIdoms x root) idoms) lower := by
  induction upper generalizing idoms with
  | nil => rfl
  | cons node upper ih =>
    rw [List.cons_append, visitsOf, visitsOf, ih]
    split <;> rfl

theorem recomputed_singleton (x : EdgeIndex) (root : Nat) (idoms : Slots) (node : Nat) :
    visitsOf x root .recomputed idoms [node] =
      if node = 0 ∨ root ≤ node ∨ idoms.get node = root then [] else [node] := by
  rw [visitsOf, visitsOf]
  unfold visitKind
  by_cases hnone : node = 0 ∨ root ≤ node
  · rw [if_pos hnone, if_neg VisitKind.noConfusion, if_pos (by omega)]
  · rw [if_neg hnone]
    by_cases htop : idoms.get node = root
    · rw [if_pos htop, if_neg VisitKind.noConfusion, if_pos (Or.inr (Or.inr htop))]
    · rw [if_neg htop, if_pos rfl, if_neg (by omega)]

/-- A visit to a node recomputes it or finds the super root right above it. -/
theorem perm_visitsOf (x : EdgeIndex) (root : Nat) (visits : List Nat) (idoms : Slots) :
    (visitsOf x root .recomputed idoms visits ++ visitsOf x root .topped idoms visits).Perm
      (visits.filter (isNode root)) := by
  -- along the visits, each with the list that the ones before leave behind; where there is no node neither
  -- side gains
  induction visits generalizing idoms with
  | nil => exact List.Perm.refl _
  | cons node visits ih =>
    have hrest := ih (visitIdoms x root idoms node)
    rw [visitsOf, visitsOf, List.filter_cons]
    unfold visitKind isNode
    by_cases hnone : node = 0 ∨ root ≤ node
    · rw [if_pos hnone, if_neg VisitKind.noConfusion, if_neg VisitKind.noConfusion, if_neg (by simp; omega)]
      exact hrest
    · rw [if_neg hnone, if_pos (show decide (node ≠ 0 ∧ node < root) = true by simp; omega)]
      by_cases htop : idoms.get node = root
      · rw [if_pos htop, if_neg VisitKind.noConfusion, if_pos rfl]
        exact List.perm_middle.trans (hrest.cons node)
      · rw [if_neg htop, if_pos rfl, if_neg VisitKind.noConfusion]
        exact hrest.cons node

/-- A pass: the immediate dominators that it starts from, and the numbers that come up. -/
structure Pass where
  idoms : Slots
  visits : List Nat

namespace Pass

def recomputed (x : EdgeIndex) (root : Nat) (p : Pass) : List Nat :=
  visitsOf x root .recomputed p.idoms p.visits

/-- The nodes that are left alone because the super root already is right above them. -/
def topped (x : EdgeIndex) (root : Nat) (p : Pass) : List Nat :=
  visitsOf x root .topped p.idoms p.visits

/-- The numbers on the chunks of the table that do not come up. -/
def passedOver (root : Nat) (p : Pass) : List Nat :=
  (List.range (CardTable.covering root).span).filter fun a => a ∉ p.visits

/-- The nodes that are passed over. -/
def spared (root : Nat) (p : Pass) : List Nat :=
  (p.passedOver root).filter (isNode root)

/-- The numbers without a node that are passed over. -/
def phantoms (root : Nat) (p : Pass) : List Nat :=
  (p.passedOver root).filter fun a => !isNode root a

end Pass

/-- The passes that are made, the first one first. -/
def passes (x : EdgeIndex) (root : Nat) : (limit : Nat) → Fixpoint → List Pass
  | 0, _ => []
  | limit + 1, f =>
    ⟨f.idoms, f.passSchedule x root⟩ ::
      if (f.pass x root).counts.changed = 0 then [] else passes x root limit (f.pass x root)

/-- Numbers that come up once at most, and only on cards of the table. -/
structure Pass.OnCards (root : Nat) (p : Pass) : Prop where
  descending : p.visits.Pairwise (· > ·)
  below : ∀ a ∈ p.visits, a < (CardTable.covering root).count * (CardTable.covering root).cardSize

/-- The counters of a pass. -/
structure Pass.Counted (x : EdgeIndex) (root : Nat) (p : Pass) (c : PassCounts) : Prop where
  updates : c.updates = (p.recomputed x root).length
  edges : c.intersections + c.skipped + c.updates = incomingEdges x (p.recomputed x root)
  saved : c.saved = (p.passedOver root).length

namespace Pass
variable {p : Pass} {n : Nat}

theorem reach_le_span (root : Nat) : (CardTable.covering root).count * (CardTable.covering root).cardSize ≤
    (CardTable.covering root).span :=
  Nat.mul_le_mul_right _ (CardTable.count_le_size_chunks root)

/-- What comes up and what is passed over are all numbers on the chunks. -/
theorem OnCards.perm (h : p.OnCards root) :
    (p.visits ++ p.passedOver root).Perm (List.range (CardTable.covering root).span) := by
  have hnodup : p.visits.Nodup := h.descending.imp Nat.ne_of_gt
  have hvisits : p.visits.Perm ((List.range (CardTable.covering root).span).filter fun a => a ∈ p.visits) := by
    refine (List.perm_ext_iff_of_nodup hnodup (List.nodup_range.filter _)).mpr fun a => ?_
    rw [List.mem_filter, List.mem_range, decide_eq_true_iff]
    exact (and_iff_right_of_imp fun ha => Nat.lt_of_lt_of_le (h.below a ha) (reach_le_span root)).symm
  have hsplit := List.filter_append_perm (fun a => decide (a ∈ p.visits))
    (List.range (CardTable.covering root).span)
  simp only [← decide_not] at hsplit
  exact (hvisits.append_right _).trans hsplit

theorem filter_isNode_range (h : root ≤ n) :
    ((List.range n).filter (isNode root)).Perm (List.range' 1 (root - 1)) := by
  refine (List.perm_ext_iff_of_nodup (List.nodup_range.filter _) List.nodup_range').mpr fun a => ?_
  rw [List.mem_filter, List.mem_range, List.mem_range'_1]
  unfold isNode
  rw [decide_eq_true_iff]
  omega

/-- Every node is accounted for once. -/
theorem OnCards.nodes (h : p.OnCards root) (x : EdgeIndex) :
    (p.recomputed x root ++ p.topped x root ++ p.spared root).Perm (List.range' 1 (root - 1)) := by
  have hspan : root ≤ (CardTable.covering root).span :=
    Nat.le_trans (Nat.le_of_lt (CardTable.lt_count_mul_cardSize root)) (reach_le_span root)
  have hvisited := (perm_visitsOf x root p.visits p.idoms).append_right (p.spared root)
  refine hvisited.trans (List.Perm.trans ?_ (filter_isNode_range hspan))
  unfold spared
  rw [← List.filter_append]
  exact h.perm.filter _

theorem length_passedOver (p : Pass) (root : Nat) :
    (p.passedOver root).length = (p.spared root).length + (p.phantoms root).length := by
  have hsplit := (List.filter_append_perm (isNode root) (p.passedOver root)).length_eq
  rwa [List.length_append, eq_comm] at hsplit

/-- The numbers beyond the last card are passed over. -/
theorem OnCards.beyond_le (h : p.OnCards root) : (CardTable.covering root).span -
    (CardTable.covering root).count * (CardTable.covering root).cardSize ≤ (p.phantoms root).length := by
  have hreach := reach_le_span root
  have hroot := CardTable.lt_count_mul_cardSize root
  have hbelow := h.below
  unfold phantoms passedOver
  generalize (CardTable.covering root).count * (CardTable.covering root).cardSize = reach at *
  generalize (CardTable.covering root).span = span at *
  have hbeyond : List.range' reach (span - reach) ⊆
      ((List.range span).filter fun a => a ∉ p.visits).filter fun a => !isNode root a := by
    intro a ha
    have hbounds := List.mem_range'_1.mp ha
    have hout : a ∉ p.visits := fun hin => Nat.not_lt_of_le hbounds.1 (hbelow a hin)
    have hnone : isNode root a = false := decide_eq_false (by omega)
    rw [List.mem_filter, List.mem_filter, List.mem_range, decide_eq_true_iff, hnone]
    exact ⟨⟨by omega, hout⟩, rfl⟩
  have hlength := (List.subperm_of_subset List.nodup_range' hbeyond).length_le
  rwa [List.length_range'] at hlength

end Pass

end Fixpoint

/-- The predecessors that are left are taken in or passed over, one by one, as long as none of them is
missing. -/
theorem Meeting.join_spent (idoms : Slots) (root : Nat) {rest : List Nat} (h : ∀ p ∈ rest, p ≠ 0)
    (m : Meeting) :
    (join idoms root m rest).intersections + (join idoms root m rest).skipped =
      m.intersections + m.skipped + rest.length := by
  induction rest generalizing m with
  | nil => rfl
  | cons p rest ih =>
    rw [join, if_neg (h p List.mem_cons_self)]
    dsimp only
    rw [PassLists.meet_eq, List.length_cons]
    generalize PassLists.meet idoms root m.idom p = idom
    by_cases hroot : idom = root
    · rw [if_pos hroot]
      dsimp only
      omega
    · rw [if_neg hroot, ih fun u hu => h u (List.mem_cons_of_mem p hu)]
      dsimp only
      omega

namespace Fixpoint

/-- What some steps of a pass make of the counters: the numbers in `visits` come up, and `numbers` of them
come up or are passed over. -/
structure Spends (x : EdgeIndex) (root : Nat) (visits : List Nat) (numbers : Nat) (f f' : Fixpoint) : Prop where
  idoms : f'.idoms = visits.foldl (visitIdoms x root) f.idoms
  cards : f'.cards.Fits root
  updates : f'.counts.updates = f.counts.updates + (visitsOf x root .recomputed f.idoms visits).length
  edges : f'.counts.intersections + f'.counts.skipped + f'.counts.updates =
    f.counts.intersections + f.counts.skipped + f.counts.updates +
      incomingEdges x (visitsOf x root .recomputed f.idoms visits)
  saved : f'.counts.saved + visits.length = f.counts.saved + numbers

variable {edge : Nat → Nat → Prop} {x : EdgeIndex} {root node : Nat} {f f' f'' : Fixpoint}
  {visits later : List Nat} {m n : Nat}

theorem Spends.refl (x : EdgeIndex) (hf : f.cards.Fits root) : Spends x root [] 0 f f :=
  ⟨rfl, hf, rfl, rfl, rfl⟩

theorem Spends.trans (h : Spends x root visits m f f') (h' : Spends x root later n f' f'') :
    Spends x root (visits ++ later) (m + n) f f'' := by
  have hsplit : visitsOf x root .recomputed f.idoms (visits ++ later) =
      visitsOf x root .recomputed f.idoms visits ++ visitsOf x root .recomputed f'.idoms later := by
    rw [h.idoms]
    exact visitsOf_append .recomputed visits later f.idoms
  exact {
    idoms := by
      rw [h'.idoms, h.idoms, List.foldl_append]
    cards := h'.cards
    updates := by
      rw [h'.updates, h.updates, hsplit, List.length_append, Nat.add_assoc]
    edges := by
      have hedges : incomingEdges x (visitsOf x root .recomputed f.idoms (visits ++ later)) =
          incomingEdges x (visitsOf x root .recomputed f.idoms visits) +
            incomingEdges x (visitsOf x root .recomputed f'.idoms later) := by
        rw [hsplit]
        unfold incomingEdges
        rw [List.map_append, List.sum_append]
      rw [h'.edges, h.edges, hedges, Nat.add_assoc]
    saved := by
      rw [List.length_append]
      have hsaved := h.saved
      have hsaved' := h'.saved
      omega }

/-- Numbers that are passed over do not come up. -/
theorem spends_save (hf : f.cards.Fits root) (n : Nat) : Spends x root [] n f (f.save n) :=
  ⟨rfl, hf, rfl, rfl, rfl⟩

section
variable (hx : x.Describes edge root)
  (hcards : ∀ p, 0 < p → p < root → ∀ c ∈ x.cardsAfter p, c < (CardTable.covering root).count)
include hx hcards

/-- A node that is recomputed meets all of its predecessors but the first, or passes over them. -/
theorem update_counts (hf : f.cards.Fits root) (h0 : 0 < node) (hn : node < root) :
    (f.update x root node).cards.Fits root ∧
      (f.update x root node).counts.updates = f.counts.updates + 1 ∧
      (f.update x root node).counts.intersections + (f.update x root node).counts.skipped + 1 =
        f.counts.intersections + f.counts.skipped + (x.incoming node).length ∧
      (f.update x root node).counts.saved = f.counts.saved := by
  obtain ⟨p, rest, hincoming, -, -, -, hrest, -⟩ := hx.incoming_eq_cons h0 hn
  have hmet := Meeting.join_spent f.idoms root (fun u hu => Nat.ne_of_gt (hrest u hu).1) ⟨p, 0, 0⟩
  dsimp only at hmet
  unfold update
  rw [hincoming, List.length_cons]
  dsimp only
  split
  · exact ⟨hf, rfl, by dsimp only; omega, rfl⟩
  · exact ⟨hf.marks (hcards node h0 hn), rfl, by dsimp only; omega, rfl⟩

theorem spends_visit (hf : f.cards.Fits root) (node : Nat) : Spends x root [node] 1 f (f.visit x root node) := by
  have hidoms := idoms_visit x root f node
  have hone := recomputed_singleton x root f.idoms node
  by_cases hskip : node = 0 ∨ root ≤ node ∨ f.idoms.get node = root
  · have hvisit : f.visit x root node = f := if_pos hskip
    rw [if_pos hskip] at hone
    rw [hvisit] at hidoms ⊢
    refine ⟨hidoms, hf, ?_, ?_, rfl⟩
    · rw [hone]
      rfl
    · rw [hone]
      rfl
  · have hvisit : f.visit x root node = f.update x root node := if_neg hskip
    obtain ⟨hfits, hupdates, hedges, hsaved⟩ := update_counts hx hcards hf (show 0 < node by omega) (by omega)
    have hincoming : incomingEdges x [node] = (x.incoming node).length := rfl
    rw [if_neg hskip] at hone
    rw [hvisit] at hidoms ⊢
    refine ⟨hidoms, hfits, ?_, ?_, ?_⟩
    · rw [hone, hupdates]
      rfl
    · rw [hone, hupdates, hincoming]
      omega
    · rw [hsaved]
      rfl

theorem spends_visitRange (base size : Nat) (hf : f.cards.Fits root) :
    Spends x root (List.range' base size).reverse size f (visitRange x root base size f) := by
  induction size generalizing f with
  | zero => exact .refl x hf
  | succ size ih =>
    -- the largest number comes first
    have hvisit := spends_visit hx hcards hf (base + size)
    have hboth := hvisit.trans (ih hvisit.cards)
    rwa [Nat.add_comm 1 size, List.singleton_append, ← List.reverse_concat, ← List.range'_1_concat] at hboth

theorem spends_visitCard (hf : f.cards.Fits root) (card : Nat) :
    Spends x root (f.cardSchedule card) (CardTable.covering root).cardSize f (f.visitCard x root card) := by
  have hrange := spends_visitRange hx hcards (card * f.cards.cardSize) f.cards.cardSize
    (f := { f with cards := f.cards.clear card }) (hf.clear card)
  have hspends : Spends x root (f.cardSchedule card) f.cards.cardSize f (f.visitCard x root card) :=
    ⟨hrange.idoms, hrange.cards, hrange.updates, hrange.edges, hrange.saved⟩
  rwa [hf.cardSize_eq] at hspends

theorem spends_visitChunk (index : Nat) (chunk : UInt64) (bits : Nat) (hf : f.cards.Fits root) :
    Spends x root (chunkSchedule x root index chunk bits f) (bits * (CardTable.covering root).cardSize) f
      (visitChunk x root index chunk bits f) := by
  induction bits generalizing f with
  | zero =>
    rw [Nat.zero_mul]
    exact .refl x hf
  | succ bits ih =>
    rw [visitChunk, chunkSchedule, Nat.succ_mul, Nat.add_comm (bits * _)]
    split
    · rw [hf.cardSize_eq]
      have hsave : Spends x root [] (CardTable.covering root).cardSize f _ := spends_save hf _
      exact hsave.trans (ih hsave.cards)
    · have hcard := spends_visitCard hx hcards hf (index * 64 + bits)
      exact hcard.trans (ih hcard.cards)

theorem spends_visitChunks (chunks : Nat) (hf : f.cards.Fits root) :
    Spends x root (chunksSchedule x root chunks f) (chunks * 64 * (CardTable.covering root).cardSize) f
      (visitChunks x root chunks f) := by
  -- a chunk that is zero and one that is visited account for the same numbers
  induction chunks generalizing f with
  | zero =>
    rw [Nat.zero_mul]
    exact .refl x hf
  | succ index ih =>
    rw [visitChunks, chunksSchedule, Nat.succ_mul, Nat.add_mul, Nat.add_comm (index * 64 * _)]
    split
    · have hsave : Spends x root [] (64 * (CardTable.covering root).cardSize) f
          (f.save (f.cards.cardSize * 64)) := by
        rw [hf.cardSize_eq, Nat.mul_comm]
        exact spends_save hf _
      exact hsave.trans (ih hsave.cards)
    · have hchunk := spends_visitChunk hx hcards index (f.cards.chunk index) 64 hf
      exact hchunk.trans (ih hchunk.cards)

/-- The numbers that come up in a pass lie on cards of the table. -/
theorem below_chunksSchedule (chunks : Nat) (hf : f.cards.Fits root) :
    ∀ a ∈ chunksSchedule x root chunks f,
      a < (CardTable.covering root).count * (CardTable.covering root).cardSize := by
  have hsize : 0 < (CardTable.covering root).cardSize := powerOfTwo_pos _
  induction chunks generalizing f with
  | zero => exact fun a ha => absurd ha List.not_mem_nil
  | succ index ih =>
    rw [chunksSchedule]
    split
    · exact ih (f := f.save _) hf
    · intro a ha
      rcases List.mem_append.mp ha with ha | ha
      · rw [chunkSchedule_eq 64 hf.cardSize_eq, mem_numbersOf hsize, CardTable.mem_setCards] at ha
        obtain ⟨hge, hlt, hset⟩ := ha
        apply (Nat.div_lt_iff_lt_mul hsize).mp
        apply hf.below
        rw [CardTable.isDirty_iff]
        -- the chunk is that of the card
        have hindex : a / (CardTable.covering root).cardSize / 64 = index := by omega
        rwa [hindex]
      · exact ih (spends_visitChunk hx hcards index _ 64 hf).cards a ha

/-- What a pass counts as saved are the numbers on the chunks that do not come up. -/
theorem pass_counted (hf : f.cards.Fits root) : (f.pass x root).cards.Fits root ∧
    Pass.OnCards root ⟨f.idoms, f.passSchedule x root⟩ ∧
    Pass.Counted x root ⟨f.idoms, f.passSchedule x root⟩ (f.pass x root).counts := by
  have hspends := spends_visitChunks hx hcards f.cards.chunks.size (f := { f with counts := {} }) hf
  have honcards : Pass.OnCards root ⟨f.idoms, f.passSchedule x root⟩ :=
    ⟨(descends_passSchedule x root f).1, below_chunksSchedule hx hcards _ (f := { f with counts := {} }) hf⟩
  have hperm := honcards.perm.length_eq
  -- together with those that come up, they are all numbers on the chunks
  have hspan : f.cards.chunks.size * 64 * (CardTable.covering root).cardSize = (CardTable.covering root).span := by
    rw [hf.size]
    rfl
  have hsaved := hspends.saved
  rw [hspan, Nat.zero_add] at hsaved
  rw [List.length_append, List.length_range] at hperm
  refine ⟨hspends.cards, honcards, hspends.updates.trans (Nat.zero_add _), hspends.edges.trans (Nat.zero_add _), ?_⟩
  change (f.pass x root).counts.saved + (f.passSchedule x root).length = _ at hsaved
  dsimp only at hperm
  omega

theorem passes_counted (limit : Nat) (hf : f.cards.Fits root) :
    (∀ p ∈ passes x root limit f, p.OnCards root) ∧
      List.Forall₂ (Pass.Counted x root) (passes x root limit f) (solve x root limit f).2 := by
  induction limit generalizing f with
  | zero => exact ⟨fun p hp => absurd hp List.not_mem_nil, List.Forall₂.nil⟩
  | succ limit ih =>
    obtain ⟨hfits, honcards, hcounted⟩ := pass_counted hx hcards hf
    obtain ⟨hlater, hcounts⟩ := ih hfits
    rw [passes, solve]
    dsimp only
    split
    · exact ⟨List.forall_mem_singleton.mpr honcards, .cons hcounted .nil⟩
    · exact ⟨List.forall_mem_cons.mpr ⟨honcards, hlater⟩, .cons hcounted hcounts⟩

end

section
variable {g : FlowGraph} {p : Postorder} (hp : p.Numbers g)
  (hindex : EdgeIndex.ofGraph g p (.covering p.superRoot) = .ok x)
include hp hindex

theorem cardsAfter_lt_count (h0 : 0 < node) (hn : node < p.superRoot) :
    ∀ c ∈ x.cardsAfter node, c < (CardTable.covering p.superRoot).count := by
  rw [(IndexLists.lists_ofGraph hp.superRoot_pos hindex h0 hn).2]
  intro c hc
  obtain ⟨a, ha, rfl⟩ := List.mem_map.mp hc
  obtain ⟨id, -, rfl⟩ := List.mem_map.mp ha
  have hle : p.numbers.get id ≤ p.superRoot := Nat.le_of_lt (hp.number_lt id)
  rw [CardTable.cardOf_covering hle]
  exact CardTable.shiftRight_lt_count hle

theorem incomingEdges_eq (hroots : g.roots.Pairwise (· < ·)) {nodes : List Nat}
    (hnodes : ∀ n ∈ nodes, 0 < n ∧ n < p.superRoot) :
    incomingEdges x nodes = (nodes.map fun n => (IndexLists.predecessors g p n).length).sum := by
  unfold incomingEdges
  congr 1
  refine List.map_congr_left fun n hmem => ?_
  obtain ⟨h0, hn⟩ := hnodes n hmem
  exact ((IndexLists.lists_ofGraph hp.superRoot_pos hindex h0 hn).1.trans
    (IndexLists.wordsOf_perm hp hroots h0 hn)).length_eq

end

variable {ps : List Pass} {counts : List PassCounts}

/-- What the passes count in turn adds up. -/
theorem total_counted (h : List.Forall₂ (Pass.Counted x root) ps counts) {g : PassCounts → Nat} {f : Pass → Nat}
    (hgf : ∀ p c, p.Counted x root c → g c = f p) :
    total (counts.map g) = (ps.map f).sum := by
  rw [total_eq_sum]
  induction h with
  | nil => rfl
  | cons hcounted _ ih => rw [List.map_cons, List.map_cons, List.sum_cons, List.sum_cons, ih, hgf _ _ hcounted]

theorem total_updates (h : List.Forall₂ (Pass.Counted x root) ps counts) :
    total (counts.map (·.updates)) = (ps.map fun p => (p.recomputed x root).length).sum :=
  total_counted h fun _ _ hc => hc.updates

theorem total_saved (h : List.Forall₂ (Pass.Counted x root) ps counts) : total (counts.map (·.saved)) =
    (ps.map fun p => (p.spared root).length + (p.phantoms root).length).sum :=
  total_counted h fun p _ hc => hc.saved.trans (p.length_passedOver root)

theorem total_edges (h : List.Forall₂ (Pass.Counted x root) ps counts) :
    total (counts.map (·.intersections)) + total (counts.map (·.skipped)) + total (counts.map (·.updates)) =
      (ps.map fun p => incomingEdges x (p.recomputed x root)).sum := by
  rw [total_eq_sum, total_eq_sum, total_eq_sum, ← List.sum_map_add, ← List.sum_map_add, ← total_eq_sum]
  exact total_counted h fun _ _ hc => hc.edges

/-- The nodes of all passes, each of them as often as there are passes. -/
theorem sum_nodes (h : ∀ p ∈ ps, p.OnCards root) (x : EdgeIndex) :
    (ps.map fun p => (p.recomputed x root).length).sum + (ps.map fun p => (p.topped x root).length).sum +
      (ps.map fun p => (p.spared root).length).sum = ps.length * (root - 1) := by
  induction ps with
  | nil => exact (Nat.zero_mul _).symm
  | cons p ps ih =>
    obtain ⟨hp, hps⟩ := List.forall_mem_cons.mp h
    have hnodes := (hp.nodes x).length_eq
    rw [List.length_append, List.length_append, List.length_range'] at hnodes
    have hrest := ih hps
    simp only [List.map_cons, List.sum_cons, List.length_cons, Nat.succ_mul]
    omega

/-- What is counted beyond the nodes are the numbers without one; what is not counted are the visits to nodes
right below the super root. -/
theorem total_balance (h : ∀ p ∈ ps, p.OnCards root) (hc : List.Forall₂ (Pass.Counted x root) ps counts) :
    total (counts.map (·.updates)) + total (counts.map (·.saved)) + (ps.map fun p => (p.topped x root).length).sum =
      ps.length * (root - 1) + (ps.map fun p => (p.phantoms root).length).sum := by
  rw [← sum_nodes h x, total_updates hc, total_saved hc, List.sum_map_add]
  omega

/-- A single chunk has thirty-two cards more than thirty nodes need. -/
theorem beyond_of_le (hroot : root ≤ 31) : 32 ≤ (CardTable.covering root).span -
    (CardTable.covering root).count * (CardTable.covering root).cardSize := by
  have hsmall : root ≤ shortMax := Nat.le_trans hroot (by decide)
  have hsize : (CardTable.covering root).cardSize = 1 := congrArg powerOfTwo (if_pos hsmall)
  have hcount : (CardTable.covering root).count = root + 1 := by
    rw [CardTable.count_covering, show CardTable.bitsFor root = 0 from if_pos hsmall, Nat.shiftRight_zero]
  have hchunks := CardTable.count_le_size_chunks root
  unfold CardTable.span
  rw [hsize, hcount] at *
  omega

/-- On few nodes every pass passes over more numbers without a node than it has nodes. -/
theorem sum_topped_lt (h : ∀ p ∈ ps, p.OnCards root) (x : EdgeIndex) (hroot : root ≤ 31) (hsome : ps ≠ []) :
    (ps.map fun p => (p.topped x root).length).sum < (ps.map fun p => (p.phantoms root).length).sum := by
  refine List.sum_lt_sum_of_ne_nil hsome _ _ fun p hp => ?_
  have hnodes := ((h p hp).nodes x).length_eq
  have hphantoms := Nat.le_trans (beyond_of_le hroot) (h p hp).beyond_le
  rw [List.length_append, List.length_append, List.length_range'] at hnodes
  omega

end Fixpoint

variable {snapshot : Snapshot} {fresh run : Run} {traversal : Traversal} {tree : DominatorTree}

/-- The statistics add up what the passes count. -/
theorem counters_eq (hc : Computed snapshot run traversal tree) {x : EdgeIndex}
    (hx : EdgeIndex.ofGraph (.of run snapshot traversal) tree.postorder (.covering tree.superRoot) = .ok x)
    {counts : List PassCounts} (hcounts : (Fixpoint.solve x tree.superRoot
      run.config.dominator.maxDominatorIterations (.start tree.superRoot)).2 = counts) :
    tree.stats.updates = total (counts.map (·.updates)) ∧
      tree.stats.intersections = total (counts.map (·.intersections)) ∧
      tree.stats.skipped = total (counts.map (·.skipped)) ∧
      tree.stats.saved = total (counts.map (·.saved)) ∧
      tree.stats.cardCount = (CardTable.covering tree.superRoot).count ∧
      tree.stats.cardSize = (CardTable.covering tree.superRoot).cardSize := by
  subst hcounts
  obtain ⟨space, slices, j, j', hcompute⟩ := hc
  obtain ⟨p, y, -, hy, rfl⟩ := DominatorStage.compute_ok hcompute
  cases hy.symm.trans hx
  exact ⟨rfl, rfl, rfl, rfl, rfl, rfl⟩

open Fixpoint in
/-- The counters balance. In every pass each node is recomputed, or lies right below the super root, or is
passed over with its card, and each recomputation takes in or passes over all predecessors but one. The
counter of what is passed over adds to the nodes the numbers that have none; so together with the
recomputations it stays within one unit for each node and pass exactly if there are no more of these than
there are visits to nodes right below the super root. Every pass counts all numbers beyond the last card, and
on up to thirty nodes that is too many. -/
theorem passes_account (hf : fresh.IsFresh) (ht : Traversed snapshot.graph fresh run traversal)
    (hc : Computed snapshot run traversal tree) :
    ∃ x ps, EdgeIndex.ofGraph (.of run snapshot traversal) tree.postorder (.covering tree.superRoot) = .ok x ∧
      ps = passes x tree.superRoot fresh.config.dominator.maxDominatorIterations (start tree.superRoot) ∧
      tree.stats.iterations = ps.length ∧
      (∀ p ∈ ps, (p.recomputed x tree.superRoot ++ p.topped x tree.superRoot ++ p.spared tree.superRoot).Perm
        (List.range' 1 tree.nodeCount)) ∧
      tree.stats.updates = (ps.map fun p => (p.recomputed x tree.superRoot).length).sum ∧
      tree.stats.saved =
        (ps.map fun p => (p.spared tree.superRoot).length + (p.phantoms tree.superRoot).length).sum ∧
      tree.stats.intersections + tree.stats.skipped + tree.stats.updates =
        (ps.map fun p => ((p.recomputed x tree.superRoot).map fun node =>
          (IndexLists.predecessors (.of run snapshot traversal) tree.postorder node).length).sum).sum ∧
      (tree.stats.updates + tree.stats.saved ≤ tree.stats.iterations * tree.nodeCount ↔
        (ps.map fun p => (p.phantoms tree.superRoot).length).sum ≤
          (ps.map fun p => (p.topped x tree.superRoot).length).sum) ∧
      (∀ p ∈ ps, (CardTable.covering tree.superRoot).span - tree.stats.cardCount * tree.stats.cardSize ≤
        (p.phantoms tree.superRoot).length) ∧
      (0 < tree.stats.iterations → tree.nodeCount ≤ 30 →
        tree.stats.iterations * tree.nodeCount < tree.stats.updates + tree.stats.saved) := by
  obtain ⟨hn, x, hindex, hx, -, hiterations, -⟩ := exists_index hf ht hc
  obtain ⟨w, segment, held, hinv, -, hrun, -⟩ := exists_walk hf ht
  have hlimit : run.config.dominator.maxDominatorIterations = fresh.config.dominator.maxDominatorIterations := by
    rw [← hrun, hinv.visits.heap.config]
  have hcards := fun p h0 hlt => @cardsAfter_lt_count x p _ _ hn hindex h0 hlt
  obtain ⟨honcards, hcounted⟩ := passes_counted hx hcards fresh.config.dominator.maxDominatorIterations
    (f := start tree.superRoot) (CardTable.fits_covering tree.superRoot)
  obtain ⟨hupdates, hintersections, hskipped, hsaved, hcount, hsize⟩ := counters_eq hc hindex
    (congrArg (fun limit => (solve x tree.superRoot limit (start tree.superRoot)).2) hlimit)
  rw [← hcounted.length_eq] at hiterations
  generalize hps : passes x tree.superRoot fresh.config.dominator.maxDominatorIterations (start tree.superRoot) = ps
    at honcards hcounted hiterations
  have hbalance := total_balance honcards hcounted
  have hmet := total_edges hcounted
  rw [← hupdates, ← hsaved, ← hiterations] at hbalance
  rw [← hintersections, ← hskipped, ← hupdates] at hmet
  -- `nodeCount` is the super root less one
  change _ = tree.stats.iterations * tree.nodeCount + _ at hbalance
  refine ⟨x, ps, hindex, hps.symm, hiterations, fun p hp => (honcards p hp).nodes x,
    hupdates.trans (total_updates hcounted), hsaved.trans (total_saved hcounted), ?_, by omega, ?_,
    fun hsome hfew => ?_⟩
  · rw [hmet]
    congr 1
    refine List.map_congr_left fun p hp => incomingEdges_eq hn hindex (roots_ascend hf ht) fun n hmem => ?_
    have hin := ((honcards p hp).nodes x).subset (List.mem_append_left _ (List.mem_append_left _ hmem))
    have hbounds := List.mem_range'_1.mp hin
    have hroot : tree.postorder.superRoot = tree.superRoot := rfl
    omega
  · rw [hcount, hsize]
    exact fun p hp => (honcards p hp).beyond_le
  · have hroot : tree.superRoot ≤ 31 := Nat.le_add_of_sub_le hfew
    have hlt := sum_topped_lt honcards x hroot (List.ne_nil_of_length_pos (hiterations ▸ hsome))
    omega

/-- A heap with one object. -/
def loneHeap : HeapGraph where
  classes := .ofList [{ name := "Node" }]
  objects := #[{ classId := 1, size := 4 }]
  roots := [{ id := 1 }]

def loneRun : Run where
  config := { dominator := { maxDominatorIterations := 1 } }
  objectCount := 1
  parents := .create 3
  sizes := .create 3
  visited := .create 3
  roles := .create 3

theorem loneRun_isFresh : loneRun.IsFresh :=
  ⟨loneRun.config, 1, none, { available := .ok 1000 }, rfl⟩

def loneVisits : Run :=
  (loneRun.traverse loneHeap [] {}).run

set_option maxRecDepth 10000 in
theorem exists_lone : ∃ traversal tree, Traversed loneHeap loneRun loneVisits traversal ∧
    Computed { graph := loneHeap } loneVisits traversal tree ∧
    tree.nodeCount = 1 ∧ tree.stats.iterations = 1 ∧ tree.stats.updates = 1 ∧ tree.stats.saved = 61 :=
  exists_computed loneRun { graph := loneHeap } { available := .ok 1000 } _ (by decide +kernel)

open Fixpoint in
/-- The only pass recomputes the only node and counts as saved the sixty-one numbers beyond the last card. -/
theorem passes_account_loneHeap : loneRun.IsFresh ∧ ∃ traversal tree,
    Traversed loneHeap loneRun loneVisits traversal ∧
    Computed { graph := loneHeap } loneVisits traversal tree ∧
    0 < tree.stats.iterations ∧ tree.nodeCount ≤ 30 ∧
    tree.stats.iterations * tree.nodeCount < tree.stats.updates + tree.stats.saved ∧
    ∃ x ps, EdgeIndex.ofGraph (.of loneVisits { graph := loneHeap } traversal) tree.postorder
        (.covering tree.superRoot) = .ok x ∧
      ps = passes x tree.superRoot 1 (start tree.superRoot) ∧ 1 = ps.length ∧
      (∀ p ∈ ps, (p.recomputed x tree.superRoot ++ p.topped x tree.superRoot ++ p.spared tree.superRoot).Perm
        (List.range' 1 1)) ∧
      1 = (ps.map fun p => (p.recomputed x tree.superRoot).length).sum ∧
      61 = (ps.map fun p => (p.spared tree.superRoot).length + (p.phantoms tree.superRoot).length).sum ∧
      (1 + 61 ≤ 1 * 1 ↔ (ps.map fun p => (p.phantoms tree.superRoot).length).sum ≤
        (ps.map fun p => (p.topped x tree.superRoot).length).sum) := by
  obtain ⟨traversal, tree, ht, hc, hcount, hiterations, hupdates, hsaved⟩ := exists_lone
  obtain ⟨x, ps, hindex, hps, hlength, hnodes, hrecomputed, hpassed, -, hbound, -, hexceeds⟩ :=
    @passes_account { graph := loneHeap } _ _ _ _ loneRun_isFresh ht hc
  have hsome : 0 < tree.stats.iterations := hiterations ▸ Nat.one_pos
  have hfew : tree.nodeCount ≤ 30 := hcount ▸ by decide
  have hlt := hexceeds hsome hfew
  rw [hiterations, hcount, hupdates, hsaved] at hbound
  rw [hiterations] at hlength
  rw [hcount] at hnodes
  rw [hupdates] at hrecomputed
  rw [hsaved] at hpassed
  exact ⟨loneRun_isFresh, traversal, tree, ht, hc, hsome, hfew, hlt, x, ps, hindex, hps, hlength, hnodes, hrecomputed,
    hpassed, hbound⟩

/-- The nodes saved and recomputed can be more than there are nodes in all passes. -/
theorem saved_exceeds_nodes : ¬∀ (snapshot : Snapshot) (fresh run : Run) (traversal : Traversal)
    (tree : DominatorTree), fresh.IsFresh → Traversed snapshot.graph fresh run traversal →
    Computed snapshot run traversal tree →
    tree.stats.updates + tree.stats.saved ≤ tree.stats.iterations * tree.nodeCount := by
  intro hall
  obtain ⟨traversal, tree, ht, hc, hcount, hiterations, hupdates, hsaved⟩ := exists_lone
  have hbound := hall { graph := loneHeap } loneRun loneVisits traversal tree loneRun_isFresh ht hc
  rw [hcount, hiterations, hupdates, hsaved] at hbound
  exact absurd hbound (by decide)

end HeapRetention
