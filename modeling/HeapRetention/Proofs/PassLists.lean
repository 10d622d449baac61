import HeapRetention.Proofs.CardScan
import HeapRetention.Proofs.IndexLists
import HeapRetention.Proofs.VisitSchedule

/-! The passes over the lists of the index. The immediate dominators lie in one of the lists; every access is
checked, and so are the counters, which run on from pass to pass. A pass visits a node once at most, so it
does no more than one unit of work for each node of the card table and for each edge; that bounds the counters
of all passes together, and the passes find what `Fixpoint` finds. -/
namespace HeapRetention
namespace PassLists

/-- The node where two chains meet. -/
def climb (idoms : Slots) : (fuel a b : Nat) → Except Crash Nat
  | 0, _, _ => .error .stalled
  | fuel + 1, a, b =>
    if a = b then .ok a
    else if a < b then
      if a = 0 then .ok b
      else do
        let up ← idoms.read a
        climb idoms fuel up b
    else if b = 0 then .ok a
    else do
      let up ← idoms.read b
      climb idoms fuel a up

/-- Takes in the predecessors that are left. -/
def join (idoms : Slots) (superRoot : Nat) : Meeting → List Nat → Except Crash Meeting
  | m, [] => .ok m
  | m, p :: rest =>
    if p = 0 then .ok m
    else do
      let intersections ← fit longMax (m.intersections + 1)
      let found ← climb idoms (2 * superRoot + 4) m.idom p
      let idom := if found = 0 then m.idom else found
      if idom = superRoot then
        let skipped ← fit longMax (m.skipped + rest.length)
        return ⟨idom, intersections, skipped⟩
      else join idoms superRoot ⟨idom, intersections, m.skipped⟩ rest

/-- Recomputes a node. -/
def update (l : IndexLists) (superRoot : Nat) (f : Fixpoint) (node : Nat) : Except Crash Fixpoint := do
  let updates ← fit longMax (f.counts.updates + 1)
  let incoming ← l.incoming node
  match incoming with
  | [] => return { f with counts := { f.counts with updates } }
  | p :: rest =>
    let m ← join f.idoms superRoot ⟨p, f.counts.intersections, f.counts.skipped⟩ rest
    let counts := { f.counts with updates, intersections := m.intersections, skipped := m.skipped }
    let idom ← f.idoms.read node
    if m.idom = idom then return { f with counts }
    else
      let idoms ← f.idoms.store node m.idom
      let refs ← l.cardsAfter node
      let changed ← fit longMax (counts.changed + 1)
      return ⟨idoms, refs.foldl CardTable.mark f.cards, { counts with changed }⟩

/-- Recomputes a node unless it is none or its immediate dominator is the super root. -/
def visit (l : IndexLists) (superRoot : Nat) (f : Fixpoint) (node : Nat) : Except Crash Fixpoint :=
  if node = 0 ∨ superRoot ≤ node then .ok f
  else do
    let idom ← f.idoms.read node
    if idom = superRoot then return f
    else update l superRoot f node

def visitRange (l : IndexLists) (superRoot base : Nat) : (size : Nat) → Fixpoint → Except Crash Fixpoint
  | 0, f => .ok f
  | size + 1, f => do
    let node ← fit longMax (base + size)
    let f ← visit l superRoot f node
    visitRange l superRoot base size f

/-- Passes over nodes on clean cards. -/
def save (f : Fixpoint) (nodes : Nat) : Except Crash Fixpoint := do
  let saved ← fit longMax (f.counts.saved + nodes)
  return { f with counts := { f.counts with saved } }

def visitCard (l : IndexLists) (superRoot : Nat) (f : Fixpoint) (card : Nat) : Except Crash Fixpoint := do
  let base ← fit longMax (card * f.cards.cardSize)
  visitRange l superRoot base f.cards.cardSize { f with cards := f.cards.clear card }

def visitChunk (l : IndexLists) (superRoot index : Nat) (chunk : UInt64) :
    (bits : Nat) → Fixpoint → Except Crash Fixpoint
  | 0, f => .ok f
  | bits + 1, f => do
    let f ← if chunk &&& CardTable.bit bits = 0 then save f f.cards.cardSize
      else visitCard l superRoot f (index * 64 + bits)
    visitChunk l superRoot index chunk bits f

def visitChunks (l : IndexLists) (superRoot : Nat) : (chunks : Nat) → Fixpoint → Except Crash Fixpoint
  | 0, f => .ok f
  | index + 1, f => do
    let chunk ← f.cards.readChunk index
    let f ← if chunk = 0 then save f (f.cards.cardSize * 64) else visitChunk l superRoot index chunk 64 f
    visitChunks l superRoot index f

/-- One pass over all dirty cards. The changes are counted anew, the other counts run on. -/
def pass (l : IndexLists) (superRoot : Nat) (f : Fixpoint) : Except Crash Fixpoint :=
  visitChunks l superRoot f.cards.chunks.size { f with counts := { f.counts with changed := 0 } }

/-- Passes until one changes nothing, `limit` at most, with the number of passes. -/
def solve (l : IndexLists) (superRoot : Nat) :
    (limit iterations : Nat) → Fixpoint → Except Crash (Fixpoint × Nat)
  | 0, iterations, f => .ok (f, iterations)
  | limit + 1, iterations, f => do
    let f ← pass l superRoot f
    let iterations ← fit longMax (iterations + 1)
    if f.counts.changed = 0 then return (f, iterations)
    else solve l superRoot limit iterations f

/-- Immediate dominators that are known are larger than their nodes. -/
def Ascends (idoms : Slots) (root : Nat) : Prop :=
  ∀ a < root, idoms.get a ≠ 0 → a < idoms.get a ∧ idoms.get a ≤ root

/-- How far a node can climb. -/
def height (root a : Nat) : Nat :=
  if a = 0 then 0 else root + 1 - a

variable {words idoms : Slots} {root fuel a b node : Nat}

theorem height_le (root a : Nat) : height root a ≤ root := by
  unfold height
  split
  · exact Nat.zero_le root
  · omega

theorem height_idom (h : Ascends idoms root) (h0 : a ≠ 0) (ha : a < root) :
    height root (idoms.get a) < height root a ∧ idoms.get a ≤ root := by
  unfold height
  rw [if_neg h0]
  by_cases hk : idoms.get a = 0
  · rw [if_pos hk]
    omega
  · obtain ⟨hup, hle⟩ := h a ha hk
    rw [if_neg hk]
    omega

theorem Ascends.put (h : Ascends idoms root) (hcapacity : node < idoms.capacity) (hup : node < b)
    (hle : b ≤ root) : Ascends (idoms.put node b) root := by
  intro a ha hk
  by_cases he : node = a
  · rw [← he, Slots.get_put_self hcapacity]
    exact ⟨hup, hle⟩
  · rw [Slots.get_put_of_ne he] at hk ⊢
    exact h a ha hk

/-- What is left of a candidate that meets a predecessor; if they never meet the candidate stays. -/
def meet (idoms : Slots) (root idom p : Nat) : Nat :=
  if intersect idoms root idom p = 0 then idom else intersect idoms root idom p

theorem meet_eq (idoms : Slots) (root idom p : Nat) :
    (if intersect idoms root idom p = 0 then idom else intersect idoms root idom p) =
      meet idoms root idom p :=
  rfl

section
variable (hsame : words.SameTo root idoms) (h : Ascends idoms root)
include hsame h

/-- Two nodes meet before the turns run out, and no lower than either of them. -/
theorem climb_ok (ha : a ≤ root) (hb : b ≤ root) (hfuel : height root a + height root b < fuel) :
    climb words fuel a b = .ok (nearestCommon idoms fuel a b) ∧ a ≤ nearestCommon idoms fuel a b ∧
      b ≤ nearestCommon idoms fuel a b ∧ nearestCommon idoms fuel a b ≤ root := by
  -- whichever of the two climbs gets lower in height, and what it reaches is no smaller
  induction fuel generalizing a b with
  | zero => omega
  | succ fuel ih =>
    rw [climb, nearestCommon]
    by_cases heq : a = b
    · rw [if_pos heq, if_pos heq]
      exact ⟨rfl, Nat.le_refl a, heq.ge, ha⟩
    · rw [if_neg heq, if_neg heq]
      by_cases hlt : a < b
      · rw [if_pos hlt, if_pos hlt]
        by_cases h0 : a = 0
        · rw [if_pos h0, if_pos h0]
          exact ⟨rfl, Nat.le_of_lt hlt, Nat.le_refl b, hb⟩
        · rw [if_neg h0, if_neg h0]
          obtain ⟨hless, hle⟩ := height_idom h h0 (by omega)
          obtain ⟨hmeet, -, hright, htop⟩ := ih hle hb (by omega)
          rw [hsame.read_ok ha, ok_bind]
          exact ⟨hmeet, Nat.le_trans (Nat.le_of_lt hlt) hright, hright, htop⟩
      · rw [if_neg hlt, if_neg hlt]
        by_cases h0 : b = 0
        · rw [if_pos h0, if_pos h0]
          exact ⟨rfl, Nat.le_refl a, by omega, ha⟩
        · rw [if_neg h0, if_neg h0]
          obtain ⟨hless, hle⟩ := height_idom h h0 (by omega)
          obtain ⟨hmeet, hleft, -, htop⟩ := ih ha hle (by omega)
          rw [hsame.read_ok hb, ok_bind]
          exact ⟨hmeet, hleft, Nat.le_trans (by omega) hleft, htop⟩

theorem meet_ok (ha : a ≤ root) (hb : b ≤ root) :
    climb words (2 * root + 4) a b = .ok (intersect idoms root a b) ∧ a ≤ meet idoms root a b ∧
      meet idoms root a b ≤ root := by
  have hturns := height_le root a
  have hturns' := height_le root b
  obtain ⟨hmeet, hleft, -, htop⟩ :=
    climb_ok hsame h ha hb (show height root a + height root b < 2 * root + 4 by omega)
  refine ⟨hmeet, ?_⟩
  unfold meet
  split
  · exact ⟨Nat.le_refl a, ha⟩
  · exact ⟨hleft, htop⟩

/-- Predecessors are taken in or passed over, each once. -/
theorem join_ok {m : Meeting} {rest : List Nat} (hm : m.idom ≤ root) (hrest : ∀ u ∈ rest, u ≤ root)
    (hcounts : m.intersections + m.skipped + rest.length ≤ longMax) :
    join words root m rest = .ok (Meeting.join idoms root m rest) ∧
      m.idom ≤ (Meeting.join idoms root m rest).idom ∧ (Meeting.join idoms root m rest).idom ≤ root ∧
      (Meeting.join idoms root m rest).intersections + (Meeting.join idoms root m rest).skipped ≤
        m.intersections + m.skipped + rest.length := by
  induction rest generalizing m with
  | nil => exact ⟨rfl, Nat.le_refl _, hm, Nat.le_refl _⟩
  | cons p rest ih =>
    rw [List.length_cons] at hcounts
    have hp : p ≤ root := hrest p List.mem_cons_self
    rw [join, Meeting.join]
    by_cases h0 : p = 0
    · rw [if_pos h0, if_pos h0]
      exact ⟨rfl, Nat.le_refl _, hm, Nat.le_add_right _ _⟩
    · rw [if_neg h0, if_neg h0]
      obtain ⟨hclimb, hleft, htop⟩ := meet_ok hsame h hm hp
      rw [fit_ok (by omega), ok_bind, hclimb, ok_bind]
      dsimp only
      rw [meet_eq]
      generalize meet idoms root m.idom p = idom at *
      by_cases hroot : idom = root
      · rw [if_pos hroot, if_pos hroot, fit_ok (by omega), ok_bind]
        refine ⟨rfl, hleft, htop, ?_⟩
        dsimp only
        rw [List.length_cons]
        omega
      · rw [if_neg hroot, if_neg hroot]
        obtain ⟨hjoin, hge, hle, hspent⟩ := @ih ⟨idom, m.intersections + 1, m.skipped⟩ htop
          (fun u hu => hrest u (List.mem_cons_of_mem p hu)) (by dsimp only; omega)
        refine ⟨hjoin, Nat.le_trans hleft hge, hle, ?_⟩
        rw [List.length_cons]
        dsimp only at hspent ⊢
        omega

end

/-- The counts of a meeting run on from where they were. -/
theorem join_counts (idoms : Slots) (root idom i s : Nat) (rest : List Nat) :
    Meeting.join idoms root ⟨idom, i, s⟩ rest =
      ⟨(Meeting.join idoms root ⟨idom, 0, 0⟩ rest).idom,
        i + (Meeting.join idoms root ⟨idom, 0, 0⟩ rest).intersections,
        s + (Meeting.join idoms root ⟨idom, 0, 0⟩ rest).skipped⟩ := by
  induction rest generalizing idom i s with
  | nil => rfl
  | cons p rest ih =>
    rw [Meeting.join, Meeting.join]
    by_cases h0 : p = 0
    · rw [if_pos h0, if_pos h0]
      rfl
    · rw [if_neg h0, if_neg h0]
      dsimp only
      rw [meet_eq]
      generalize meet idoms root idom p = next
      by_cases hroot : next = root
      · rw [if_pos hroot, if_pos hroot, Nat.zero_add, Nat.zero_add]
      · rw [if_neg hroot, if_neg hroot, ih, ih next (0 + 1) 0]
        dsimp only
        rw [Nat.zero_add, Nat.zero_add, Nat.add_assoc]

end PassLists

namespace PassCounts

/-- All that a pass counts but changes. -/
def work (c : PassCounts) : Nat :=
  c.updates + c.intersections + c.saved + c.skipped

/-- Counts that run on from those of earlier passes. -/
def after (before c : PassCounts) : PassCounts where
  updates := before.updates + c.updates
  changed := c.changed
  intersections := before.intersections + c.intersections
  saved := before.saved + c.saved
  skipped := before.skipped + c.skipped

/-- The counts once a node has met its predecessors. -/
def met (c : PassCounts) (m : Meeting) : PassCounts :=
  { c with
    updates := c.updates + 1
    intersections := c.intersections + m.intersections
    skipped := c.skipped + m.skipped }

theorem work_after (before c : PassCounts) : (before.after c).work = before.work + c.work := by
  unfold work after
  dsimp only
  omega

theorem after_met (before c : PassCounts) (m : Meeting) :
    (before.after c).met m = before.after (c.met m) := by
  unfold met after
  simp only [Nat.add_assoc]

end PassCounts

namespace PassLists

/-- The lists show a fixpoint; `before` has the counts of earlier passes, and the cards are packed as in
`t`. -/
structure Agrees (root : Nat) (t : CardTable) (before : PassCounts) (words f : Fixpoint) : Prop where
  idoms : words.idoms.SameTo root f.idoms
  ascends : Ascends f.idoms root
  cards : words.cards = f.cards
  shape : f.cards.bits = t.bits ∧ f.cards.chunks.size = t.chunks.size
  counts : words.counts = before.after f.counts
  changed : f.counts.changed ≤ f.counts.updates

/-- The work on the nodes below each node: one unit for every node and for each of its predecessors. -/
structure Budget (x : EdgeIndex) (root : Nat) (W : Nat → Nat) : Prop where
  visit : ∀ n, 0 < n → n < root → W n + 1 + (x.incoming n).length ≤ W (n + 1)
  save : ∀ n, W n + 1 ≤ W (n + 1)

/-- Lists that show the predecessors and cards of every node. -/
def Reads (l : IndexLists) (x : EdgeIndex) (root : Nat) : Prop :=
  ∀ n, 0 < n → n < root → l.incoming n = .ok (x.incoming n) ∧ l.cardsAfter n = .ok (x.cardsAfter n)

/-- If there is room for the work on the nodes from `lo` to `hi`, the lists follow a step from `f` to `f'`,
and it does not work more than that. -/
def Follows (root : Nat) (t : CardTable) (W : Nat → Nat) (before : PassCounts) (lo hi : Nat)
    (run : Except Crash Fixpoint) (f f' : Fixpoint) : Prop :=
  before.work + f.counts.work + W hi ≤ longMax + W lo → ∃ words, run = .ok words ∧
    Agrees root t before words f' ∧ f'.counts.work + W lo ≤ f.counts.work + W hi

variable {edge : Nat → Nat → Prop} {root node lo mid hi : Nat} {x : EdgeIndex} {t : CardTable} {W : Nat → Nat}
  {before : PassCounts} {words f f' f'' : Fixpoint} {l : IndexLists} {run : Except Crash Fixpoint}
  {next : Fixpoint → Except Crash Fixpoint}

theorem Agrees.cardSize (h : Agrees root t before words f) : f.cards.cardSize = t.cardSize := by
  unfold CardTable.cardSize
  rw [h.shape.1]

theorem Budget.le_add (h : Budget x root W) (lo n : Nat) : W lo + n ≤ W (lo + n) := by
  induction n with
  | zero => exact Nat.le_refl _
  | succ n ih =>
    have hmore := h.save (lo + n)
    change _ ≤ W (lo + n + 1)
    omega

theorem Budget.mono (h : Budget x root W) (hle : lo ≤ hi) : W lo ≤ W hi := by
  obtain ⟨n, rfl⟩ := Nat.exists_eq_add_of_le hle
  exact Nat.le_of_add_right_le (h.le_add lo n)

/-- The larger nodes come first. -/
theorem Follows.bind (hW : Budget x root W) (hlo : lo ≤ mid)
    (h : Follows root t W before mid hi run f f')
    (hnext : ∀ words, Agrees root t before words f' → Follows root t W before lo mid (next words) f' f'') :
    Follows root t W before lo hi (run >>= next) f f'' := by
  intro hroom
  have hbelow := hW.mono hlo
  obtain ⟨words, hrun, hagrees, hspent⟩ := h (by omega)
  obtain ⟨last, hlast, hdone, hmore⟩ := hnext words hagrees (by omega)
  refine ⟨last, ?_, hdone, by omega⟩
  rw [hrun, ok_bind, hlast]

theorem save_ok (hW : Budget x root W) (h : Agrees root t before words f) (lo nodes : Nat) :
    Follows root t W before lo (lo + nodes) (save words nodes) f (f.save nodes) := by
  intro hroom
  have hspend := hW.le_add lo nodes
  have hcounts := h.counts
  have hsaved : words.counts.saved = before.saved + f.counts.saved := by
    rw [hcounts]
    rfl
  unfold PassCounts.work at hroom
  refine ⟨{ words with counts := { words.counts with saved := words.counts.saved + nodes } }, ?_, ?_, ?_⟩
  · unfold save
    rw [fit_ok (by omega)]
    rfl
  · refine ⟨h.idoms, h.ascends, h.cards, h.shape, ?_, h.changed⟩
    dsimp only
    rw [hcounts]
    unfold PassCounts.after Fixpoint.save
    dsimp only
    rw [Nat.add_assoc]
  · unfold Fixpoint.save PassCounts.work
    dsimp only
    omega

/-- A node keeps its immediate dominator, or it gets the one that its predecessors agree on and its
successors are marked. -/
theorem update_of_incoming {p : Nat} {rest : List Nat} {m : Meeting} (hincoming : x.incoming node = p :: rest)
    (hm : Meeting.join f.idoms root ⟨p, 0, 0⟩ rest = m) : f.update x root node =
      if m.idom = f.idoms.get node then { f with counts := f.counts.met m }
      else ⟨f.idoms.put node m.idom, (x.cardsAfter node).foldl CardTable.mark f.cards,
        { f.counts.met m with changed := f.counts.changed + 1 }⟩ := by
  unfold Fixpoint.update
  rw [hincoming]
  dsimp only
  rw [hm]
  rfl

/-- The predecessors of a node are joined, and there is room for that: the node pays for its update, and each
predecessor that is joined or skipped for itself. The lists count on from earlier passes, the fixpoint counts
from zero. -/
theorem met_ok {p : Nat} {rest : List Nat} (hx : x.Describes edge root) (hW : Budget x root W)
    (h : Agrees root t before words f) (h0 : 0 < node) (hlt : node < root)
    (hincoming : x.incoming node = p :: rest)
    (hroom : before.work + f.counts.work + W (node + 1) ≤ longMax + W node) :
    ∃ m, Meeting.join f.idoms root ⟨p, 0, 0⟩ rest = m ∧
      join words.idoms root ⟨p, words.counts.intersections, words.counts.skipped⟩ rest =
        .ok ⟨m.idom, words.counts.intersections + m.intersections, words.counts.skipped + m.skipped⟩ ∧
      node < m.idom ∧ m.idom ≤ root ∧ (f.counts.met m).work + W node ≤ f.counts.work + W (node + 1) := by
  obtain ⟨q, others, hq, hlarger, hle, -, hrest, -⟩ := hx.incoming_eq_cons h0 hlt
  cases hincoming.symm.trans hq
  have hspend := hW.visit node h0 hlt
  rw [hincoming, List.length_cons] at hspend
  have hspent : words.counts.intersections + words.counts.skipped =
      before.intersections + f.counts.intersections + (before.skipped + f.counts.skipped) := by
    rw [h.counts, PassCounts.after]
  unfold PassCounts.work at hroom
  obtain ⟨hjoin, hge, htop, hmet⟩ := @join_ok words.idoms f.idoms root h.idoms h.ascends
    ⟨p, words.counts.intersections, words.counts.skipped⟩ rest hle
    (fun u hu => Nat.le_trans (hrest u hu).2.1 hle) (by dsimp only; omega)
  rw [join_counts] at hjoin hge htop hmet
  refine ⟨_, rfl, hjoin, Nat.lt_of_lt_of_le hlarger hge, htop, ?_⟩
  unfold PassCounts.met PassCounts.work
  dsimp only at hmet ⊢
  omega

section
variable (hx : x.Describes edge root) (hl : Reads l x root) (hW : Budget x root W) (hword : root ≤ wordMax)
include hx hl hW hword

/-- A node is recomputed: its predecessors are joined, and only a new result is written. -/
theorem update_ok (h : Agrees root t before words f) (h0 : 0 < node) (hlt : node < root) :
    Follows root t W before node (node + 1) (update l root words node) f (f.update x root node) := by
  intro hroom
  obtain ⟨p, rest, hincoming, -⟩ := hx.incoming_eq_cons h0 hlt
  obtain ⟨m, hm, hjoin, hlarger, htop, hwork⟩ := met_ok hx hW h h0 hlt hincoming hroom
  obtain ⟨hreads, hcards⟩ := hl node h0 hlt
  rw [hincoming] at hreads
  have hspend := hW.visit node h0 hlt
  have hchanged := h.changed
  have hcounts := h.counts
  have hupdates : words.counts.updates = before.updates + f.counts.updates := by
    rw [hcounts, PassCounts.after]
  have hchanges : words.counts.changed = f.counts.changed := by rw [hcounts, PassCounts.after]
  unfold PassCounts.work at hroom
  have hgrows := Fixpoint.update_grows x root f node
  have hshape := And.intro (hgrows.bits.trans h.shape.1) (hgrows.size.trans h.shape.2)
  rw [update_of_incoming hincoming hm] at hshape ⊢
  -- a result that the list has already is not written, so nothing is marked either
  by_cases hsame : m.idom = f.idoms.get node
  · rw [if_pos hsame] at hshape ⊢
    refine ⟨{ words with counts := words.counts.met m }, ?_, ?_, hwork⟩
    · unfold update
      rw [fit_ok (by omega), ok_bind, hreads, ok_bind]
      dsimp only
      rw [hjoin, ok_bind, h.idoms.read_ok (Nat.le_of_lt hlt), ok_bind, if_pos hsame]
      rfl
    · refine ⟨h.idoms, h.ascends, h.cards, hshape, ?_, Nat.le_succ_of_le hchanged⟩
      dsimp only
      rw [hcounts, PassCounts.after_met]
  · rw [if_neg hsame] at hshape ⊢
    refine ⟨⟨words.idoms.put node m.idom, (x.cardsAfter node).foldl CardTable.mark words.cards,
      { words.counts.met m with changed := words.counts.changed + 1 }⟩, ?_, ?_, hwork⟩
    · unfold update
      rw [fit_ok (by omega), ok_bind, hreads, ok_bind]
      dsimp only
      rw [hjoin, ok_bind, h.idoms.read_ok (Nat.le_of_lt hlt), ok_bind, if_neg hsame,
        h.idoms.store_ok (Nat.le_of_lt hlt) (by dsimp only; omega), ok_bind, hcards, ok_bind,
        fit_ok (by omega)]
      rfl
    · have hup := h.ascends.put (Nat.lt_trans hlt h.idoms.capacity.2) hlarger htop
      refine ⟨h.idoms.put _ _, hup, ?_, hshape, ?_, Nat.succ_le_succ hchanged⟩
      · dsimp only
        rw [h.cards]
      · dsimp only
        rw [hchanges, hcounts, PassCounts.after_met]
        rfl

theorem visit_ok (h : Agrees root t before words f) (node : Nat) :
    Follows root t W before node (node + 1) (visit l root words node) f (f.visit x root node) := by
  have hpass : ∀ run, run = .ok words → Follows root t W before node (node + 1) run f f := by
    intro run hrun _
    have hmore := hW.mono (Nat.le_succ node)
    exact ⟨words, hrun, h, Nat.add_le_add_left hmore _⟩
  unfold visit Fixpoint.visit
  by_cases hout : node = 0 ∨ root ≤ node
  · rw [if_pos hout, if_pos (by omega)]
    exact hpass _ rfl
  · rw [if_neg hout, h.idoms.read_ok (by omega), ok_bind]
    by_cases hroot : f.idoms.get node = root
    · rw [if_pos hroot, if_pos (Or.inr (Or.inr hroot))]
      exact hpass _ rfl
    · rw [if_neg hroot, if_neg (by omega)]
      exact update_ok hx hl hW hword h (by omega) (by omega)

theorem visitRange_ok (h : Agrees root t before words f) {base size : Nat} (hfits : base + size ≤ longMax) :
    Follows root t W before base (base + size) (visitRange l root base size words) f
      (Fixpoint.visitRange x root base size f) := by
  induction size generalizing words f with
  | zero => exact fun _ => ⟨words, rfl, h, Nat.le_refl _⟩
  | succ size ih =>
    rw [visitRange, fit_ok (by omega), ok_bind]
    exact (visit_ok hx hl hW hword h (base + size)).bind hW (Nat.le_add_right base size)
      fun words hwords => ih hwords (by omega)

theorem visitCard_ok (h : Agrees root t before words f) {card : Nat}
    (hfits : (card + 1) * t.cardSize ≤ longMax) :
    Follows root t W before (card * t.cardSize) ((card + 1) * t.cardSize) (visitCard l root words card) f
      (f.visitCard x root card) := by
  rw [Nat.succ_mul] at hfits ⊢
  unfold visitCard Fixpoint.visitCard
  rw [h.cards, h.cardSize, fit_ok (by omega), ok_bind]
  have hcleared : Agrees root t before ⟨words.idoms, f.cards.clear card, words.counts⟩
      ⟨f.idoms, f.cards.clear card, f.counts⟩ :=
    ⟨h.idoms, h.ascends, rfl,
      ⟨h.shape.1, (CardTable.size_chunks_clear f.cards card).trans h.shape.2⟩, h.counts, h.changed⟩
  exact visitRange_ok hx hl hW hword hcleared hfits

theorem visitChunk_ok (h : Agrees root t before words f) {index bits : Nat} (chunk : UInt64)
    (hfits : (index * 64 + bits) * t.cardSize ≤ longMax) :
    Follows root t W before (index * 64 * t.cardSize) ((index * 64 + bits) * t.cardSize)
      (visitChunk l root index chunk bits words) f (Fixpoint.visitChunk x root index chunk bits f) := by
  induction bits generalizing words f with
  | zero => exact fun _ => ⟨words, rfl, h, Nat.le_refl _⟩
  | succ bits ih =>
    -- the card of the highest bit comes first, so the work that is left lies below it
    have hlow : index * 64 * t.cardSize ≤ (index * 64 + bits) * t.cardSize :=
      Nat.mul_le_mul_right _ (Nat.le_add_right _ bits)
    have hmore : (index * 64 + (bits + 1)) * t.cardSize = (index * 64 + bits) * t.cardSize + t.cardSize := by
      rw [← Nat.add_assoc, Nat.succ_mul]
    rw [visitChunk, Fixpoint.visitChunk]
    by_cases hclean : chunk &&& CardTable.bit bits = 0
    · rw [if_pos hclean, if_pos hclean, h.cards, h.cardSize, hmore]
      exact (save_ok hW h _ _).bind hW hlow fun words hwords => ih hwords (by omega)
    · rw [if_neg hclean, if_neg hclean]
      exact (visitCard_ok hx hl hW hword h hfits).bind hW hlow fun words hwords => ih hwords (by omega)

theorem visitChunks_ok (h : Agrees root t before words f) {chunks : Nat} (hchunks : chunks ≤ t.chunks.size)
    (hfits : chunks * 64 * t.cardSize ≤ longMax) :
    Follows root t W before 0 (chunks * 64 * t.cardSize) (visitChunks l root chunks words) f
      (Fixpoint.visitChunks x root chunks f) := by
  induction chunks generalizing words f with
  | zero =>
    intro _
    rw [Nat.zero_mul]
    exact ⟨words, rfl, h, Nat.le_refl _⟩
  | succ index ih =>
    have hmore : (index + 1) * 64 * t.cardSize = index * 64 * t.cardSize + t.cardSize * 64 := by
      rw [Nat.succ_mul, Nat.add_mul, Nat.mul_comm 64]
    have hread : f.cards.readChunk index = .ok (f.cards.chunk index) := if_pos (by rw [h.shape.2]; omega)
    rw [visitChunks, Fixpoint.visitChunks, h.cards, hread, ok_bind]
    dsimp only
    by_cases hclean : f.cards.chunk index = 0
    · rw [if_pos hclean, if_pos hclean, h.cardSize, hmore]
      exact (save_ok hW h _ _).bind hW (Nat.zero_le _) fun words hwords => ih hwords (by omega) (by omega)
    · have hchunk : (index * 64 + 64) * t.cardSize = (index + 1) * 64 * t.cardSize := by
        rw [Nat.succ_mul index]
      rw [if_neg hclean, if_neg hclean, ← hchunk]
      exact (visitChunk_ok hx hl hW hword h _ (by rw [hchunk]; exact hfits)).bind hW (Nat.zero_le _)
        fun words hwords => ih hwords (by omega) (by omega)

/-- A pass goes on from the counts of the passes before. -/
theorem pass_ok (h : Agrees root t before words f) (hfits : t.span ≤ longMax) (hzero : W 0 = 0)
    (hroom : words.counts.work + W t.span ≤ longMax) :
    ∃ words', pass l root words = .ok words' ∧ Agrees root t words.counts words' (f.pass x root) ∧
      (f.pass x root).counts.work ≤ W t.span := by
  have hstart : Agrees root t words.counts { words with counts := { words.counts with changed := 0 } }
      { f with counts := {} } :=
    ⟨h.idoms, h.ascends, h.cards, h.shape, rfl, Nat.le_refl 0⟩
  obtain ⟨words', hrun, hdone, hspent⟩ := visitChunks_ok hx hl hW hword hstart (Nat.le_refl _) hfits
    (by rw [hzero]; exact hroom)
  rw [hzero] at hspent
  unfold pass Fixpoint.pass
  rw [h.shape.2, show words.cards.chunks.size = t.chunks.size by rw [h.cards, h.shape.2]]
  exact ⟨words', hrun, hdone, hspent.trans (Nat.le_of_eq (Nat.zero_add _))⟩

end

/-- The counts of all passes are sums of those of each pass. -/
structure Totals (start last : PassCounts) (passes : List PassCounts) : Prop where
  updates : last.updates = start.updates + total (passes.map (·.updates))
  intersections : last.intersections = start.intersections + total (passes.map (·.intersections))
  saved : last.saved = start.saved + total (passes.map (·.saved))
  skipped : last.skipped = start.skipped + total (passes.map (·.skipped))

theorem Agrees.totals (h : Agrees root t before words f) {last : PassCounts} {passes : List PassCounts}
    (hlast : Totals words.counts last passes) : Totals before last (f.counts :: passes) := by
  have hcounts := h.counts
  constructor
  · rw [hlast.updates, hcounts, List.map_cons, total_cons, ← Nat.add_assoc]
    rfl
  · rw [hlast.intersections, hcounts, List.map_cons, total_cons, ← Nat.add_assoc]
    rfl
  · rw [hlast.saved, hcounts, List.map_cons, total_cons, ← Nat.add_assoc]
    rfl
  · rw [hlast.skipped, hcounts, List.map_cons, total_cons, ← Nat.add_assoc]
    rfl

/-- All passes together stay within the lists, and no counter overflows. -/
theorem solve_ok (hx : x.Describes edge root) (hl : Reads l x root) (hW : Budget x root W)
    (hword : root ≤ wordMax) (hfits : t.span ≤ longMax) (hzero : W 0 = 0) {limit iterations : Nat}
    (h : Agrees root t before words f) (hlimit : iterations + limit ≤ longMax)
    (hroom : words.counts.work + limit * W t.span ≤ longMax) :
    ∃ last, solve l root limit iterations words =
        .ok (last, iterations + (Fixpoint.solve x root limit f).2.length) ∧
      (∃ earlier, Agrees root t earlier last (Fixpoint.solve x root limit f).1) ∧
      Totals words.counts last.counts (Fixpoint.solve x root limit f).2 := by
  -- each pass spends what the table has room for at most, and `limit` of them are paid for
  induction limit generalizing words f before iterations with
  | zero => exact ⟨words, rfl, ⟨before, h⟩, rfl, rfl, rfl, rfl⟩
  | succ limit ih =>
    rw [Nat.succ_mul] at hroom
    obtain ⟨words', hpass, hnext, hspent⟩ := pass_ok hx hl hW hword h hfits hzero (by omega)
    have hwork : words'.counts.work = words.counts.work + (f.pass x root).counts.work := by
      rw [hnext.counts, PassCounts.work_after]
    have hchanged : words'.counts.changed = (f.pass x root).counts.changed := by
      rw [hnext.counts, PassCounts.after]
    rw [solve, Fixpoint.solve, hpass, ok_bind, fit_ok (by omega), ok_bind, hchanged]
    dsimp only
    by_cases hdone : (f.pass x root).counts.changed = 0
    · rw [if_pos hdone, if_pos hdone]
      exact ⟨words', rfl, ⟨words.counts, hnext⟩, hnext.totals ⟨rfl, rfl, rfl, rfl⟩⟩
    · rw [if_neg hdone, if_neg hdone]
      have hleft : iterations + 1 + limit ≤ longMax := by omega
      obtain ⟨last, hlast, hagrees, htotals⟩ := ih hnext hleft (by omega)
      refine ⟨last, ?_, hagrees, hnext.totals htotals⟩
      rw [hlast]
      dsimp only
      rw [List.length_cons, Nat.add_assoc, Nat.add_comm 1]

/-- The work on the nodes below one: the nodes and the edges that lead to them. -/
def workBelow (g : FlowGraph) (p : Postorder) (node : Nat) : Nat :=
  node + PackedLists.ahead (IndexLists.before (IndexLists.edgesAt g p) p.superRoot) node

theorem workBelow_zero (g : FlowGraph) (p : Postorder) : workBelow g p 0 = 0 :=
  (Nat.zero_add _).trans (PackedLists.ahead_zero _)

theorem workBelow_le {g : FlowGraph} {p : Postorder} (hp : p.Numbers g) (hs : p.Sized g)
    (hroots : g.roots.Pairwise (· < ·)) (node : Nat) : workBelow g p node ≤ node + p.edgeCount := by
  apply Nat.add_le_add_left
  rw [← IndexLists.length_before_edges hp hs hroots]
  exact PackedLists.ahead_le_length _ node

theorem budget_ofGraph {g : FlowGraph} {p : Postorder} (hpos : 0 < p.superRoot)
    (hx : EdgeIndex.ofGraph g p (.covering p.superRoot) = .ok x) :
    Budget x p.superRoot (workBelow g p) := by
  constructor
  · intro n h0 hlt
    have hlength := (IndexLists.lists_ofGraph hpos hx h0 hlt).1.length_eq
    unfold workBelow
    rw [PackedLists.ahead_succ, hlength]
    omega
  · intro n
    have hmore := PackedLists.ahead_mono (IndexLists.before (IndexLists.edgesAt g p) p.superRoot)
      (Nat.le_succ n)
    change n + PackedLists.ahead _ n + 1 ≤ n + 1 + PackedLists.ahead _ n.succ
    omega

/-- The lists that the passes start with show that nothing is known yet. -/
theorem agrees_start {cursors : Slots} (h : root < cursors.capacity) :
    Agrees root (.covering root) {} ⟨(cursors.zero (root + 1)).put root root, .covering root, {}⟩
      (.start root) := by
  refine ⟨(Slots.SameTo.zero h).put root root, ?_, rfl, ⟨rfl, rfl⟩, rfl, Nat.le_refl 0⟩
  intro a ha hk
  have hnone : (Fixpoint.start root).idoms.get a = 0 := by
    unfold Fixpoint.start
    rw [Slots.get_put_of_ne (by omega), Slots.get_create]
  exact absurd hnone hk

/-- With less than `2^31` passes over an index no counter comes near the end of its word. -/
theorem passes_ok {g : FlowGraph} {p : Postorder} (hp : p.Numbers g) (hsorted : g.roots.Pairwise (· < ·))
    (hs : p.Sized g) (hcount : g.run.objectCount < wordMax) (hedges : p.edgeCount ≤ wordMax)
    (hx : EdgeIndex.ofGraph g p (.covering p.superRoot) = .ok x) (hl : l.Indexes g p) {cursors : Slots}
    (hcursors : cursors.capacity = g.run.objectCount + 3) {limit : Nat} (hlimit : limit < powerOfTwo 31) :
    ∃ last, solve l p.superRoot limit 0
        ⟨(cursors.zero (p.superRoot + 1)).put p.superRoot p.superRoot, .covering p.superRoot, {}⟩ =
          .ok (last, (Fixpoint.solve x p.superRoot limit (.start p.superRoot)).2.length) ∧
      last.idoms.SameTo p.superRoot (Fixpoint.solve x p.superRoot limit (.start p.superRoot)).1.idoms ∧
      Ascends (Fixpoint.solve x p.superRoot limit (.start p.superRoot)).1.idoms p.superRoot ∧
      Totals {} last.counts (Fixpoint.solve x p.superRoot limit (.start p.superRoot)).2 := by
  have hbound := hs.superRoot
  have hword : p.superRoot ≤ wordMax := by omega
  have hreads : Reads l x p.superRoot := fun n h0 hlt => hl.reads hp hsorted hx h0 hlt
  have hspan := CardTable.span_covering_le hword
  have hlong : wordMax + 1 ≤ longMax := by decide
  have hbits : powerOfTwo 31 ≤ longMax := by decide
  have hwork := workBelow_le hp hs hsorted (CardTable.covering p.superRoot).span
  have hroom : limit * workBelow g p (CardTable.covering p.superRoot).span ≤ longMax := by
    calc limit * workBelow g p (CardTable.covering p.superRoot).span
      _ ≤ (powerOfTwo 31 - 1) * (wordMax + 1 + wordMax) :=
          Nat.mul_le_mul (Nat.le_sub_one_of_lt hlimit) (by omega)
      _ ≤ longMax := by decide
  obtain ⟨last, hsolve, ⟨earlier, hagrees⟩, htotals⟩ :=
    solve_ok (EdgeIndex.describes_ofGraph hp hsorted hx) hreads (budget_ofGraph hp.superRoot_pos hx) hword
      (Nat.le_trans hspan hlong) (workBelow_zero g p)
      (agrees_start (show p.superRoot < cursors.capacity by omega)) (show 0 + limit ≤ longMax by omega)
      (Nat.le_trans (Nat.le_of_eq (Nat.zero_add _)) hroom)
  rw [Nat.zero_add] at hsolve
  exact ⟨last, hsolve, hagrees.idoms, hagrees.ascends, htotals⟩

end PassLists
end HeapRetention
