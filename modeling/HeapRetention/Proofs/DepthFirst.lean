import HeapRetention.Dominance.Postorder
import Mathlib.Data.List.Chain
import Mathlib.Data.List.Nodup
import Mathlib.Data.List.Perm.Subperm

/-! What the depth first search keeps. Open objects form a path from the super root; an object that has a
number has only targets that were met, and it was met from the super root or from an object that is still
open or has a larger number. -/
namespace HeapRetention

/-- Where the edges from an object lead; the number `0`, which is no object, stands for the super root. -/
def FlowGraph.outlets (g : FlowGraph) (id : ObjectId) : List ObjectId :=
  if id = 0 then g.roots else g.targets id

theorem FlowGraph.targets_of_successors {g : FlowGraph} {id : ObjectId} {successors : List ObjectId}
    (h : g.successors id = .ok successors) : successors = g.targets id := by
  unfold FlowGraph.successors at h
  split at h
  · cases h
  · exact (Except.ok.inj h).symm

namespace Postorder

/-- A numbering of exactly the objects that the roots lead to. Every object but those met from the super
root has a predecessor with a larger number. -/
structure Numbers (p : Postorder) (g : FlowGraph) : Prop where
  superRoot_pos : 0 < p.superRoot
  number_object : ∀ k, 0 < k → k < p.superRoot → p.numbers.get (p.objects.get k) = k
  number_lt : ∀ id, p.numbers.get id < p.superRoot
  object_number : ∀ id, p.numbers.get id ≠ 0 → p.objects.get (p.numbers.get id) = id
  visited : ∀ id, p.numbers.get id ≠ 0 → g.run.wasVisited id = true
  roots : ∀ id ∈ g.roots, p.numbers.get id ≠ 0
  targets : ∀ id, p.numbers.get id ≠ 0 → ∀ t ∈ g.targets id, p.numbers.get t ≠ 0
  parent : ∀ id, p.numbers.get id ≠ 0 →
    id ∈ g.roots ∨ ∃ u, id ∈ g.targets u ∧ p.numbers.get id < p.numbers.get u

namespace Search

/-- The frames of the search; the list names the open objects, the latest one first. -/
structure Stacked (g : FlowGraph) (numbers : Slots) (frames : List Frame) (opened : List ObjectId) :
    Prop where
  stack : frames.map Frame.node = opened ++ [0]
  pending : ∀ fr ∈ frames, ∀ t ∈ fr.pending, t ∈ g.outlets fr.node
  met : ∀ fr ∈ frames, ∀ t ∈ g.outlets fr.node, numbers.get t ≠ 0 ∨ t ∈ fr.pending
  linked : (opened ++ [0]).IsChain fun a b => a ∈ g.outlets b

/-- The numbers that the search has given, with a mark on the open objects. -/
structure Recorded (g : FlowGraph) (objects numbers : Slots) (count : Nat) (opened : List ObjectId) :
    Prop where
  capacity_objects : objects.capacity = g.run.objectCount + 3
  capacity_numbers : numbers.capacity = g.run.objectCount + 3
  count_lt : count < openMark
  mem_opened : ∀ id, id ∈ opened ↔ numbers.get id = openMark
  nodup : opened.Nodup
  visited : ∀ id, numbers.get id ≠ 0 → g.run.wasVisited id = true
  number_object : ∀ k, 0 < k → k ≤ count → numbers.get (objects.get k) = k
  object_number : ∀ id, numbers.get id ≠ 0 → numbers.get id ≠ openMark →
    numbers.get id ≤ count ∧ objects.get (numbers.get id) = id
  targets : ∀ id, numbers.get id ≠ 0 → numbers.get id ≠ openMark → ∀ t ∈ g.outlets id, numbers.get t ≠ 0
  parent : ∀ id, numbers.get id ≠ 0 → numbers.get id ≠ openMark →
    ∃ u, id ∈ g.outlets u ∧ (u = 0 ∨ numbers.get id < numbers.get u)

structure Inv (g : FlowGraph) (s : Search) (opened : List ObjectId) : Prop extends
  Stacked g s.numbers s.frames opened, Recorded g s.objects s.numbers s.count opened

variable {g : FlowGraph} {s : Search} {opened rest : List ObjectId} {top next : Frame}
  {below : List Frame} {objects numbers numbers' : Slots} {count id : Nat}

theorem wasVisited_bounds (h : g.run.wasVisited id = true) : id ≠ 0 ∧ id ≤ g.run.objectCount := by
  unfold Run.wasVisited Run.isValid at h
  simp only [Bool.and_eq_true, bne_iff_ne, ne_eq, decide_eq_true_eq] at h
  exact h.1

theorem wasVisited_of_outlets (hroots : ∀ id ∈ g.roots, g.run.wasVisited id = true) {u : Nat}
    (h : id ∈ g.outlets u) : g.run.wasVisited id = true := by
  unfold FlowGraph.outlets at h
  split at h
  · exact hroots id h
  · exact (List.mem_filter.mp h).2

theorem Recorded.ne_zero_of_open (h : Recorded g objects numbers count opened) (hid : id ∈ opened) :
    numbers.get id ≠ 0 := by
  rw [(h.mem_opened id).mp hid]
  decide

/-- No object has two numbers, and none that is open has one yet; so there are enough objects for both. -/
theorem Recorded.count_add_length_le (h : Recorded g objects numbers count opened) :
    count + opened.length ≤ g.run.objectCount := by
  have hlt := h.count_lt
  have hnumber : ∀ k ∈ List.range' 1 count, numbers.get (objects.get k) = k := by
    intro k hk
    have hbounds := List.mem_range'_1.mp hk
    exact h.number_object k hbounds.1 (by omega)
  have hnodup : ((List.range' 1 count).map objects.get ++ opened).Nodup := by
    apply List.Nodup.append _ h.nodup
    · intro id hid hopen
      obtain ⟨k, hk, rfl⟩ := List.mem_map.mp hid
      have hmark := (h.mem_opened _).mp hopen
      have hbounds := List.mem_range'_1.mp hk
      rw [hnumber k hk] at hmark
      omega
    · apply List.Nodup.map_on _ List.nodup_range'
      intro k hk m hm heq
      rw [← hnumber k hk, ← hnumber m hm, heq]
  have hsub : (List.range' 1 count).map objects.get ++ opened ⊆ List.range' 1 g.run.objectCount := by
    intro id hid
    have hne : numbers.get id ≠ 0 := by
      rcases List.mem_append.mp hid with hin | hopen
      · obtain ⟨k, hk, rfl⟩ := List.mem_map.mp hin
        have hbounds := List.mem_range'_1.mp hk
        rw [hnumber k hk]
        omega
      · exact h.ne_zero_of_open hopen
    obtain ⟨hpos, hle⟩ := wasVisited_bounds (h.visited id hne)
    exact List.mem_range'_1.mpr ⟨Nat.pos_of_ne_zero hpos, by omega⟩
  have hle := (List.subperm_of_subset hnodup hsub).length_le
  rwa [List.length_append, List.length_map, List.length_range', List.length_range'] at hle

theorem Recorded.count_le (h : Recorded g objects numbers count opened) : count ≤ g.run.objectCount :=
  Nat.le_of_add_right_le h.count_add_length_le

theorem Recorded.get_put (h : Recorded g objects numbers count opened) (hvis : g.run.wasVisited id = true)
    (n t : Nat) : (numbers.put id n).get t = if id = t then n else numbers.get t := by
  have hle := (wasVisited_bounds hvis).2
  rw [Slots.get_put, h.capacity_numbers]
  simp only [show id < g.run.objectCount + 3 by omega, and_true]

theorem Recorded.put_ne_zero (h : Recorded g objects numbers count opened) (hvis : g.run.wasVisited id = true)
    {n t : Nat} (hn : n ≠ 0) (ht : numbers.get t ≠ 0) : (numbers.put id n).get t ≠ 0 := by
  rw [h.get_put hvis]
  split
  · exact hn
  · exact ht

/-- A new object gets the mark of the open ones. -/
theorem Recorded.mark (h : Recorded g objects numbers count opened) (hvis : g.run.wasVisited id = true)
    (hnew : numbers.get id = 0) : Recorded g objects (numbers.put id openMark) count (id :: opened) := by
  have hget := h.get_put hvis openMark
  have hmark : openMark ≠ 0 := by decide
  have hkeep : ∀ t, numbers.get t ≠ 0 → (numbers.put id openMark).get t = numbers.get t := by
    intro t ht
    rw [hget, if_neg fun he => ht (by rw [← he, hnew])]
  -- what is not marked now was not marked before, and has kept its number
  have hold : ∀ t, (numbers.put id openMark).get t ≠ 0 → (numbers.put id openMark).get t ≠ openMark →
      numbers.get t ≠ 0 ∧ numbers.get t ≠ openMark := by
    intro t h0 hm
    rw [hget] at h0 hm
    by_cases he : id = t
    · rw [if_pos he] at hm
      exact absurd rfl hm
    · rw [if_neg he] at h0 hm
      exact ⟨h0, hm⟩
  exact {
    capacity_objects := h.capacity_objects
    capacity_numbers := (Slots.capacity_put _ _ _).trans h.capacity_numbers
    count_lt := h.count_lt
    mem_opened := by
      intro t
      rw [hget, List.mem_cons, h.mem_opened t]
      by_cases he : id = t
      · rw [if_pos he]
        exact iff_of_true (Or.inl he.symm) rfl
      · rw [if_neg he, or_iff_right fun h => he h.symm]
    nodup := by
      refine List.nodup_cons.mpr ⟨?_, h.nodup⟩
      rw [h.mem_opened, hnew]
      exact hmark.symm
    visited := by
      intro t ht
      by_cases he : id = t
      · exact he ▸ hvis
      · rw [hget, if_neg he] at ht
        exact h.visited t ht
    number_object := by
      intro k h0 hk
      have hnum := h.number_object k h0 hk
      exact (hkeep (objects.get k) (by rw [hnum]; omega)).trans hnum
    object_number := by
      intro t h0 hm
      obtain ⟨h0', hm'⟩ := hold t h0 hm
      rw [hkeep t h0']
      exact h.object_number t h0' hm'
    targets := by
      intro t h0 hm u hu
      obtain ⟨h0', hm'⟩ := hold t h0 hm
      have hne := h.targets t h0' hm' u hu
      rwa [hkeep u hne]
    parent := by
      intro t h0 hm
      obtain ⟨h0', hm'⟩ := hold t h0 hm
      obtain ⟨u, hu, hor⟩ := h.parent t h0' hm'
      refine ⟨u, hu, hor.imp_right fun hlt => ?_⟩
      rwa [hkeep t h0', hkeep u (by omega)] }

theorem Recorded.get_put_objects (h : Recorded g objects numbers count opened) (id k : Nat) :
    (objects.put (count + 1) id).get k = if count + 1 = k then id else objects.get k := by
  have hcount := h.count_le
  rw [Slots.get_put, h.capacity_objects]
  simp only [show count + 1 < g.run.objectCount + 3 by omega, and_true]

/-- The numbers below the next one stay where they are, and the next one goes to an open object. -/
theorem Recorded.number_object_put (h : Recorded g objects numbers count opened)
    (hopen : numbers.get id = openMark) {k : Nat} (h0 : 0 < k) (hk : k ≤ count + 1) :
    (numbers.put id (count + 1)).get ((objects.put (count + 1) id).get k) = k := by
  have hvis := h.visited id (by rw [hopen]; decide)
  rw [h.get_put hvis, h.get_put_objects]
  by_cases he : count + 1 = k
  · rw [if_pos he, if_pos rfl, he]
  · have hnum := h.number_object k h0 (by omega)
    have hlt := h.count_lt
    -- an object with a number below the next one is not open
    have hother : id ≠ objects.get k := by
      intro heq
      rw [← heq, hopen] at hnum
      omega
    rw [if_neg he, if_neg hother, hnum]

/-- A parent with a larger number, or with the mark of the open ones, still has a larger number once an open
object gets the next one. -/
theorem Recorded.parent_put (h : Recorded g objects numbers count opened)
    (hopen : numbers.get id = openMark) {t : Nat} (h0 : numbers.get t ≠ 0)
    (hm : numbers.get t ≠ openMark) :
    ∃ u, t ∈ g.outlets u ∧ (u = 0 ∨ numbers.get t < (numbers.put id (count + 1)).get u) := by
  have hvis := h.visited id (by rw [hopen]; decide)
  have hlast := (h.object_number t h0 hm).1
  obtain ⟨u, hu, hor⟩ := h.parent t h0 hm
  refine ⟨u, hu, hor.imp_right fun hlt => ?_⟩
  rw [h.get_put hvis]
  split
  · omega
  · exact hlt

/-- The latest open object gets the next number once all of its targets were met. -/
theorem Recorded.close (h : Recorded g objects numbers count (id :: opened)) (hroom : count + 2 ≤ wordMax)
    (hmet : ∀ t ∈ g.outlets id, numbers.get t ≠ 0)
    (hparent : ∃ u, id ∈ g.outlets u ∧ (u = 0 ∨ u ∈ opened)) :
    Recorded g (objects.put (count + 1) id) (numbers.put id (count + 1)) (count + 1) opened := by
  have hmark : openMark = wordMax := rfl
  have hopen : numbers.get id = openMark := (h.mem_opened id).mp List.mem_cons_self
  have hvis := h.visited id (by rw [hopen]; decide)
  have hcount := h.count_le
  obtain ⟨hout, hnodup⟩ := List.nodup_cons.mp h.nodup
  have hget := h.get_put hvis (count + 1)
  have hself : (numbers.put id (count + 1)).get id = count + 1 := by rw [hget, if_pos rfl]
  have hkeep : ∀ t, id ≠ t → (numbers.put id (count + 1)).get t = numbers.get t :=
    fun t ht => by rw [hget, if_neg ht]
  have hne : ∀ t, numbers.get t ≠ 0 → (numbers.put id (count + 1)).get t ≠ 0 :=
    fun _ ht => h.put_ne_zero hvis (Nat.succ_ne_zero count) ht
  exact {
    capacity_objects := (Slots.capacity_put _ _ _).trans h.capacity_objects
    capacity_numbers := (Slots.capacity_put _ _ _).trans h.capacity_numbers
    count_lt := by omega
    mem_opened := by
      intro t
      by_cases he : id = t
      · rw [← he, hself]
        exact iff_of_false hout (by omega)
      · rw [hkeep t he, ← h.mem_opened t, List.mem_cons, or_iff_right fun h => he h.symm]
    nodup := hnodup
    visited := by
      intro t ht
      by_cases he : id = t
      · exact he ▸ hvis
      · rw [hkeep t he] at ht
        exact h.visited t ht
    number_object := fun k h0 hk => h.number_object_put hopen h0 hk
    object_number := by
      intro t h0 hm
      rw [h.get_put_objects]
      by_cases he : id = t
      · rw [← he, hself, if_pos rfl]
        exact ⟨Nat.le_refl _, rfl⟩
      · rw [hkeep t he] at h0 hm ⊢
        obtain ⟨hlast, hback⟩ := h.object_number t h0 hm
        rw [if_neg (by omega)]
        exact ⟨by omega, hback⟩
    targets := by
      intro t h0 hm u hu
      by_cases he : id = t
      · exact hne u (hmet u (he ▸ hu))
      · rw [hkeep t he] at h0 hm
        exact hne u (h.targets t h0 hm u hu)
    parent := by
      intro t h0 hm
      by_cases he : id = t
      · obtain ⟨u, hu, hor⟩ := hparent
        refine ⟨u, he ▸ hu, hor.imp_right fun hin => ?_⟩
        -- the parent still has its mark, which is above all numbers
        have hnot : id ≠ u := fun heq => hout (heq ▸ hin)
        have hbig := (h.mem_opened u).mp (List.mem_cons_of_mem id hin)
        rw [← he, hself, hkeep _ hnot, hbig]
        omega
      · rw [hkeep t he] at h0 hm ⊢
        exact h.parent_put hopen h0 hm }

/-- The frames below the top one, after numbers were given. -/
theorem Stacked.pop (h : Stacked g numbers (top :: below) (id :: opened))
    (hkeep : ∀ t, numbers.get t ≠ 0 → numbers'.get t ≠ 0) : Stacked g numbers' below opened where
  stack := (List.cons.inj h.stack).2
  pending := fun fr hin => h.pending fr (List.mem_cons_of_mem top hin)
  met := fun fr hin t ht => (h.met fr (List.mem_cons_of_mem top hin) t ht).imp_left (hkeep t)
  linked := by
    have hlinked := h.linked
    rw [List.cons_append] at hlinked
    exact hlinked.tail

theorem Stacked.advance (h : Stacked g numbers (top :: below) opened) (hp : top.pending = id :: rest)
    (hkeep : ∀ t, numbers.get t ≠ 0 → numbers'.get t ≠ 0) (hmet : numbers'.get id ≠ 0) :
    Stacked g numbers' ({ top with pending := rest } :: below) opened where
  stack := h.stack
  pending := by
    intro fr hin t ht
    rcases List.mem_cons.mp hin with rfl | hin
    · exact h.pending top List.mem_cons_self t (hp ▸ List.mem_cons_of_mem id ht)
    · exact h.pending fr (List.mem_cons_of_mem top hin) t ht
  met := by
    intro fr hin t ht
    rcases List.mem_cons.mp hin with rfl | hin
    · rcases h.met top List.mem_cons_self t ht with hne | hpend
      · exact Or.inl (hkeep t hne)
      · rw [hp] at hpend
        rcases List.mem_cons.mp hpend with rfl | hpend
        · exact Or.inl hmet
        · exact Or.inr hpend
    · exact (h.met fr (List.mem_cons_of_mem top hin) t ht).imp_left (hkeep t)
  linked := h.linked

theorem Stacked.push (h : Stacked g numbers (top :: below) opened) (hid : id ≠ 0)
    (hout : id ∈ g.outlets top.node) : Stacked g numbers
      (⟨id, (g.targets id).length, (g.targets id).reverse⟩ :: top :: below) (id :: opened) := by
  have houtlets : g.outlets id = g.targets id := if_neg hid
  exact {
    stack := congrArg (id :: ·) h.stack
    pending := by
      intro fr hin t ht
      rcases List.mem_cons.mp hin with rfl | hin
      · rw [houtlets]
        exact List.mem_reverse.mp ht
      · exact h.pending fr hin t ht
    met := by
      intro fr hin t ht
      rcases List.mem_cons.mp hin with rfl | hin
      · rw [houtlets] at ht
        exact Or.inr (List.mem_reverse.mpr ht)
      · exact h.met fr hin t ht
    linked := by
      have hlinked := h.linked
      have hstack := h.stack
      rw [List.map_cons] at hstack
      rw [List.cons_append]
      rw [← hstack] at hlinked ⊢
      exact hlinked.cons_cons hout }

theorem inv_start (g : FlowGraph) : Inv g (.start g) [] := by
  have hzero : ∀ id, (Search.start g).numbers.get id = 0 := fun id => Slots.get_create _ id
  exact {
    stack := rfl
    pending := fun fr hfr t ht => by
      rw [List.mem_singleton.mp hfr] at ht ⊢
      exact List.mem_reverse.mp ht
    met := fun fr hfr t ht => by
      rw [List.mem_singleton.mp hfr] at ht ⊢
      exact Or.inr (List.mem_reverse.mpr ht)
    linked := List.isChain_singleton 0
    capacity_objects := rfl
    capacity_numbers := rfl
    count_lt := by
      change 0 < openMark
      decide
    mem_opened := fun id => by
      rw [hzero]
      exact iff_of_false List.not_mem_nil (by decide)
    nodup := List.nodup_nil
    visited := fun id hne => absurd (hzero id) hne
    number_object := fun k h0 hk => absurd (Nat.lt_of_lt_of_le h0 hk) (Nat.lt_irrefl 0)
    object_number := fun id hne => absurd (hzero id) hne
    targets := fun id hne => absurd (hzero id) hne
    parent := fun id hne => absurd (hzero id) hne }

theorem Inv.skip (h : Inv g s opened) (hfr : s.frames = top :: below) (hp : top.pending = id :: rest)
    (hmet : s.numbers.get id ≠ 0) :
    Inv g { s with frames := { top with pending := rest } :: below } opened := by
  have hstacked := h.toStacked
  rw [hfr] at hstacked
  exact ⟨hstacked.advance hp (fun _ ht => ht) hmet, h.toRecorded⟩

theorem Inv.enter (hroots : ∀ id ∈ g.roots, g.run.wasVisited id = true) (h : Inv g s opened)
    (hfr : s.frames = top :: below) (hp : top.pending = id :: rest) (hnew : s.numbers.get id = 0) :
    Inv g (s.enter id (g.targets id) ({ top with pending := rest } :: below)) (id :: opened) := by
  have hstacked := h.toStacked
  rw [hfr] at hstacked
  have hout : id ∈ g.outlets top.node := hstacked.pending top List.mem_cons_self id (hp ▸ List.mem_cons_self)
  have hvis := wasVisited_of_outlets hroots hout
  have hrecorded := h.toRecorded.mark hvis hnew
  have hmarked := hrecorded.ne_zero_of_open List.mem_cons_self
  have hadvanced := hstacked.advance hp (fun _ ht => h.put_ne_zero hvis (by decide) ht) hmarked
  exact ⟨hadvanced.push (wasVisited_bounds hvis).1 hout, hrecorded⟩

/-- The object on top has no successor left and gets the next number. -/
theorem Inv.leave (h : Inv g s (id :: opened)) (hfr : s.frames = top :: next :: below)
    (hp : top.pending = []) (hroom : s.count + 2 ≤ wordMax) :
    Inv g (s.leave top (next :: below)) opened := by
  have hstacked := h.toStacked
  rw [hfr] at hstacked
  have hstack := hstacked.stack
  rw [List.cons_append, List.map_cons] at hstack
  obtain ⟨rfl, hrest⟩ := List.cons.inj hstack
  have hmet : ∀ t ∈ g.outlets top.node, s.numbers.get t ≠ 0 := by
    intro t ht
    rcases hstacked.met top List.mem_cons_self t ht with hne | hpend
    · exact hne
    · rw [hp] at hpend
      exact absurd hpend List.not_mem_nil
  -- the frame below the top one is the super root or still open
  have hparent : ∃ u, top.node ∈ g.outlets u ∧ (u = 0 ∨ u ∈ opened) := by
    have hlinked := hstacked.linked
    rw [List.cons_append, ← hrest, List.map_cons] at hlinked
    refine ⟨next.node, (List.isChain_cons_cons.mp hlinked).1, ?_⟩
    have hin : next.node ∈ opened ++ [0] := by
      rw [← hrest]
      exact List.mem_cons_self
    exact (List.mem_append.mp hin).symm.imp_left List.mem_singleton.mp
  have hvis := h.visited top.node (h.ne_zero_of_open List.mem_cons_self)
  have hpopped := hstacked.pop fun _ ht => h.put_ne_zero hvis (Nat.succ_ne_zero s.count) ht
  exact ⟨hpopped, h.toRecorded.close hroom hmet hparent⟩

theorem Stacked.bottom (h : Stacked g numbers [top] opened) : opened = [] ∧ top.node = 0 := by
  have hstack := h.stack
  cases opened with
  | nil => exact ⟨rfl, (List.cons.inj hstack).1⟩
  | cons id opened =>
    have hlen := congrArg List.length hstack
    simp only [List.map_cons, List.map_nil, List.length_cons, List.length_append, List.length_nil] at hlen
    omega

theorem Stacked.exists_top (h : Stacked g numbers (top :: next :: below) opened) :
    ∃ id rest, opened = id :: rest := by
  cases opened with
  | nil => exact absurd (congrArg List.length h.stack) (by simp)
  | cons id rest => exact ⟨id, rest, rfl⟩

theorem checkRoom_eq_ok_iff {room added : Nat} :
    s.checkRoom room added = .ok () ↔ s.entries + added ≤ room ∧ s.entries + added ≤ wordMax := by
  unfold checkRoom
  split
  · next hroom => exact iff_of_false nofun fun h => Nat.not_le.mpr hroom h.1
  · split
    · next hword => exact iff_of_false nofun fun h => Nat.not_le.mpr hword h.2
    · exact iff_of_true rfl (by omega)

/-- What a search that ends as `last` does in its next turn: it is over, or the object on top is done, or the
successor that comes next was met before, or that successor is opened. -/
inductive Turn (g : FlowGraph) (room fuel : Nat) (last : Search) : Search → List ObjectId → Prop
  | finish {s : Search} {top : Frame} : s.frames = [top] → top.pending = [] → top.node = 0 → last = s →
      Turn g room fuel last s []
  | leave {s : Search} {top next : Frame} {below : List Frame} {opened : List ObjectId} :
      s.frames = top :: next :: below → top.pending = [] → s.count + 2 ≤ wordMax →
      Search.proceed g room fuel (s.leave top (next :: below)) = .ok last →
      Turn g room fuel last s (top.node :: opened)
  | skip {s : Search} {top : Frame} {below : List Frame} {id : ObjectId} {rest opened : List ObjectId} :
      s.frames = top :: below → top.pending = id :: rest → g.run.wasVisited id = true → s.numbers.get id ≠ 0 →
      Search.proceed g room fuel { s with frames := { top with pending := rest } :: below } = .ok last →
      Turn g room fuel last s opened
  | enter {s : Search} {top : Frame} {below : List Frame} {id : ObjectId} {rest opened : List ObjectId} :
      s.frames = top :: below → top.pending = id :: rest → g.run.wasVisited id = true → s.numbers.get id = 0 →
      g.successors id = .ok (g.targets id) → s.checkRoom room (g.targets id).length = .ok () →
      Search.proceed g room fuel (s.enter id (g.targets id) ({ top with pending := rest } :: below)) = .ok last →
      Turn g room fuel last s opened

theorem Inv.turn (hroots : ∀ id ∈ g.roots, g.run.wasVisited id = true) {room fuel : Nat} {last : Search}
    (h : Inv g s opened) (hrun : Search.proceed g room (fuel + 1) s = .ok last) :
    Turn g room fuel last s opened := by
  -- the turn is read off the top frame; where it fails there is no result
  rw [Search.proceed] at hrun
  have hstacked := h.toStacked
  cases hfr : s.frames with
  | nil =>
    rw [hfr] at hstacked
    exact absurd hstacked.stack.symm (List.append_ne_nil_of_right_ne_nil _ (List.cons_ne_nil 0 []))
  | cons top below =>
    rw [hfr] at hrun hstacked
    cases hp : top.pending with
    | nil =>
      cases below with
      | nil =>
        simp only [hp] at hrun
        obtain ⟨rfl, hroot⟩ := hstacked.bottom
        exact .finish hfr hp hroot (Except.ok.inj hrun).symm
      | cons next below =>
        simp only [hp] at hrun
        obtain ⟨id, opened, rfl⟩ := hstacked.exists_top
        obtain ⟨rfl, -⟩ := List.cons.inj hstacked.stack
        split at hrun
        · cases hrun
        · next hroom => exact .leave hfr hp (Nat.not_lt.mp hroom) hrun
    | cons id rest =>
      simp only [hp] at hrun
      have hout := hstacked.pending top List.mem_cons_self id (hp ▸ List.mem_cons_self)
      have hvis := wasVisited_of_outlets hroots hout
      split at hrun
      · next hmet => exact .skip hfr hp hvis hmet hrun
      · next hnew =>
        split at hrun
        · cases hrun
        · next successors hsucc =>
          obtain rfl := FlowGraph.targets_of_successors hsucc
          split at hrun
          · cases hrun
          · next hcheck => exact .enter hfr hp hvis (Decidable.not_not.mp hnew) hsucc hcheck hrun

/-- A property of the search and its open objects that every turn keeps. -/
structure Kept (g : FlowGraph) (P : Search → List ObjectId → Prop) : Prop where
  skip : ∀ {s opened top below id rest}, Inv g s opened → P s opened → s.frames = top :: below →
    top.pending = id :: rest → s.numbers.get id ≠ 0 →
    P { s with frames := { top with pending := rest } :: below } opened
  enter : ∀ {s opened top below id rest}, Inv g s opened → P s opened → s.frames = top :: below →
    top.pending = id :: rest → g.run.wasVisited id = true → s.numbers.get id = 0 →
    P (s.enter id (g.targets id) ({ top with pending := rest } :: below)) (id :: opened)
  leave : ∀ {s opened top next below}, Inv g s (top.node :: opened) → P s (top.node :: opened) →
    s.frames = top :: next :: below → top.pending = [] → s.count + 2 ≤ wordMax →
    P (s.leave top (next :: below)) opened

/-- A search that comes to its end has closed every object and looked at every edge of the super root, and
what every turn keeps holds at the end. -/
theorem Inv.proceed_kept {P : Search → List ObjectId → Prop} (hkept : Kept g P)
    (hroots : ∀ id ∈ g.roots, g.run.wasVisited id = true) {room fuel : Nat} {last : Search}
    (h : Inv g s opened) (hP : P s opened) (hrun : Search.proceed g room fuel s = .ok last) :
    Inv g last [] ∧ P last [] ∧ ∀ id ∈ g.roots, last.numbers.get id ≠ 0 := by
  induction fuel generalizing s opened with
  | zero => cases hrun
  | succ fuel ih =>
    cases h.turn hroots hrun with
    | finish hfr hp hroot hlast =>
      subst hlast
      refine ⟨h, hP, fun id hin => ?_⟩
      have hmet := h.met _ (hfr ▸ List.mem_singleton_self _) id
      rw [hroot, hp] at hmet
      exact (hmet hin).resolve_right List.not_mem_nil
    | leave hfr hp hroom hrun => exact ih (h.leave hfr hp hroom) (hkept.leave h hP hfr hp hroom) hrun
    | skip hfr hp hvis hmet hrun => exact ih (h.skip hfr hp hmet) (hkept.skip h hP hfr hp hmet) hrun
    | enter hfr hp hvis hnew hsucc hcheck hrun =>
      exact ih (h.enter hroots hfr hp hnew) (hkept.enter h hP hfr hp hvis hnew) hrun

theorem Inv.proceed (hroots : ∀ id ∈ g.roots, g.run.wasVisited id = true) {room fuel : Nat} {last : Search}
    (h : Inv g s opened) (hrun : Search.proceed g room fuel s = .ok last) :
    Inv g last [] ∧ ∀ id ∈ g.roots, last.numbers.get id ≠ 0 := by
  have hkept : Kept g fun _ _ => True :=
    ⟨fun _ _ _ _ _ => trivial, fun _ _ _ _ _ _ => trivial, fun _ _ _ _ _ => trivial⟩
  obtain ⟨hlast, -, hmet⟩ := h.proceed_kept hkept hroots trivial hrun
  exact ⟨hlast, hmet⟩

end Search

/-- A finished search numbers what the roots lead to. -/
theorem numbers_ofGraph {g : FlowGraph} (hroots : ∀ id ∈ g.roots, g.run.wasVisited id = true) {room : Nat}
    {p : Postorder} (hrun : ofGraph g room = .ok p) : p.Numbers g := by
  unfold ofGraph at hrun
  split at hrun
  · cases hrun
  · next last hlast =>
    cases hrun
    obtain ⟨h, hroot⟩ := (Search.inv_start g).proceed hroots hlast
    have hclosed : ∀ id, last.numbers.get id ≠ openMark :=
      fun id heq => absurd ((h.mem_opened id).mpr heq) List.not_mem_nil
    have houtlets : ∀ id t, last.numbers.get id ≠ 0 → t ∈ g.targets id → t ∈ g.outlets id := by
      intro id t hne ht
      unfold FlowGraph.outlets
      rwa [if_neg (Search.wasVisited_bounds (h.visited id hne)).1]
    refine ⟨Nat.succ_pos _, fun k h0 hk => h.number_object k h0 (Nat.le_of_lt_succ hk), fun id => ?_,
      fun id hne => (h.object_number id hne (hclosed id)).2, h.visited, hroot,
      fun id hne t ht => h.targets id hne (hclosed id) t (houtlets id t hne ht), fun id hne => ?_⟩
    · by_cases hne : last.numbers.get id = 0
      · change last.numbers.get id < last.count + 1
        omega
      · have := (h.object_number id hne (hclosed id)).1
        change last.numbers.get id < last.count + 1
        omega
    · obtain ⟨u, hu, hor⟩ := h.parent id hne (hclosed id)
      unfold FlowGraph.outlets at hu
      split at hu
      · exact Or.inl hu
      · next hne0 => exact Or.inr ⟨u, hu, hor.resolve_left hne0⟩

end Postorder
end HeapRetention
