import HeapRetention.Proofs.CheckedWords
import HeapRetention.Proofs.SearchBudget

/-! The search for postorder numbers over its scratch lists: the frames lie side by side in one list of
successors, with the offset of each frame and the number of its successors that are left in two others. Every
access is checked; the search never leaves its lists and numbers the objects as `Postorder.Search` does. -/
namespace HeapRetention

/-- The lists of the search, each filled from its beginning. -/
structure SearchLists where
  objects : Slots
  numbers : Slots
  /-- The open objects. -/
  nodeStack : Slots
  /-- The successors of all frames. -/
  childStack : Slots
  /-- Where the successors of a frame begin; behind the last frame, where its own end. -/
  offsets : Slots
  /-- How many successors of a frame are left. -/
  sizes : Slots
  entries : Nat
  nodes : Nat := 0
  frames : Nat := 1
  next : Nat := 1
  edgeCount : Nat
  maxDepth : Nat := 0

namespace SearchLists

/-- Puts successors on a stack of `entries` of them. -/
def pushAll (room : Nat) : Slots → (entries : Nat) → List ObjectId → Except Failure Slots
  | stack, _, [] => .ok stack
  | stack, entries, id :: rest =>
    if room ≤ entries then .error (.error (.capacityExceeded "childStack" room))
    else
      match stack.store entries id with
      | .error c => .error (.crash c)
      | .ok stack => pushAll room stack (entries + 1) rest

/-- The lists with the roots as the only frame. -/
def start (g : FlowGraph) (room : Nat) : Except Failure SearchLists := do
  let blank := Slots.create (g.run.objectCount + 3)
  let childStack ← (Slots.create room).storeAll 0 g.roots
  let sizes ← blank.store 0 g.roots.length
  let offsets ← blank.store 0 0
  let offsets ← offsets.store 1 g.roots.length
  return {
    objects := blank, numbers := blank, nodeStack := blank, childStack, offsets, sizes
    entries := g.roots.length
    edgeCount := g.roots.length }

/-- The lists with the roots in `childStack`. -/
def started (g : FlowGraph) (childStack : Slots) : SearchLists :=
  let blank := Slots.create (g.run.objectCount + 3)
  { objects := blank
    numbers := blank
    nodeStack := blank
    childStack := childStack
    offsets := (blank.put 0 0).put 1 g.roots.length
    sizes := blank.put 0 g.roots.length
    entries := g.roots.length
    edgeCount := g.roots.length }

/-- Opens an object: a frame with its successors. -/
def enter (g : FlowGraph) (room : Nat) (l : SearchLists) (id : ObjectId) : Except Failure SearchLists := do
  let numbers ← l.numbers.store id Postorder.openMark
  let nodeStack ← l.nodeStack.store l.nodes id
  let successors ← g.successors id
  let childStack ← pushAll room l.childStack l.entries successors
  let sizes ← l.sizes.store l.frames successors.length
  let base ← l.offsets.read l.frames
  let offsets ← l.offsets.store (l.frames + 1) (base + successors.length)
  let edgeCount ← fit longMax (l.edgeCount + successors.length)
  return { l with
    numbers, nodeStack, childStack, sizes, offsets, edgeCount
    entries := l.entries + successors.length
    nodes := l.nodes + 1
    frames := l.frames + 1
    maxDepth := max l.maxDepth (l.frames + 1) }

/-- The lists once an object is open. -/
def entered (l : SearchLists) (id : ObjectId) (childStack : Slots) (width : Nat) : SearchLists :=
  { l with
    numbers := l.numbers.put id Postorder.openMark
    nodeStack := l.nodeStack.put l.nodes id
    childStack := childStack
    sizes := l.sizes.put l.frames width
    offsets := l.offsets.put (l.frames + 1) (l.entries + width)
    edgeCount := l.edgeCount + width
    entries := l.entries + width
    nodes := l.nodes + 1
    frames := l.frames + 1
    maxDepth := max l.maxDepth (l.frames + 1) }

/-- Takes the last successor that is left of the frame on top. -/
def look (g : FlowGraph) (room : Nat) (l : SearchLists) (top left : Nat) : Except Failure SearchLists := do
  let base ← l.offsets.read top
  let id ← l.childStack.read (base + left - 1)
  let sizes ← l.sizes.store top (left - 1)
  let number ← l.numbers.read id
  if number ≠ 0 then return { l with sizes }
  enter g room { l with sizes } id

/-- Drops the frame on top and gives its object a number. -/
def leave (l : SearchLists) (top : Nat) : Except Failure SearchLists := do
  let entries ← l.offsets.read top
  if l.nodes = 0 then return { l with entries, frames := top }
  let id ← l.nodeStack.read (l.nodes - 1)
  let objects ← l.objects.store l.next id
  let numbers ← l.numbers.store id l.next
  let next ← fit wordMax (l.next + 1)
  return { l with objects, numbers, entries, next, nodes := l.nodes - 1, frames := top }

/-- The lists once the object on top has its number. -/
def left (l : SearchLists) (id : ObjectId) (top entries : Nat) : SearchLists :=
  { l with
    objects := l.objects.put l.next id
    numbers := l.numbers.put id l.next
    entries := entries
    next := l.next + 1
    nodes := l.nodes - 1
    frames := top }

/-- Goes on until the frame of the roots is done. -/
def proceed (g : FlowGraph) (room : Nat) : Nat → SearchLists → Except Failure SearchLists
  | 0, _ => .error (.crash .stalled)
  | fuel + 1, l =>
    if l.frames = 0 then .ok l
    else do
      let left ← l.sizes.read (l.frames - 1)
      if left ≠ 0 then
        let l ← l.look g room (l.frames - 1) left
        proceed g room fuel l
      else if l.frames = 1 then return { l with frames := 0 }
      else
        let l ← l.leave (l.frames - 1)
        proceed g room fuel l

/-- The whole search. -/
def search (g : FlowGraph) (room : Nat) : Except Failure SearchLists := do
  let l ← start g room
  l.proceed g room (g.edgeBound + g.run.objectCount + 3)

theorem pushAll_eq {room entries : Nat} {stack : Slots} {ids : List ObjectId}
    (h : entries + ids.length ≤ room) :
    pushAll room stack entries ids = liftM (stack.storeAll entries ids) := by
  induction ids generalizing stack entries with
  | nil => rfl
  | cons id ids ih =>
    rw [List.length_cons] at h
    rw [pushAll, Slots.storeAll, if_neg (by omega)]
    cases stack.store entries id with
    | error c => rfl
    | ok stack => exact ih (by omega)

/-- What is pushed on a stack lies behind all that is there. -/
theorem row_reverse_cons_iff {f : Nat → Nat} {v : Nat} {vs : List Nat} :
    Row f (v :: vs).reverse ↔ Row f vs.reverse ∧ f vs.length = v := by
  rw [List.reverse_cons, row_append_iff, row_singleton_iff, Nat.add_zero, List.length_reverse]

/-- The frames, the latest first, in their lists: the successors of the earliest lie at the beginning, and
those of all together take `entries` words. -/
inductive Laid (childStack offsets sizes : Slots) : List Frame → (entries : Nat) → Prop
  | nil : Laid childStack offsets sizes [] 0
  | cons {fr : Frame} {below : List Frame} {base : Nat} : Laid childStack offsets sizes below base →
      offsets.get below.length = base → sizes.get below.length = fr.pending.length →
      fr.pending.length ≤ fr.width →
      (∀ i v, fr.pending.reverse[i]? = some v → childStack.get (base + i) = v) →
      Laid childStack offsets sizes (fr :: below) (base + fr.width)

variable {childStack childStack' offsets offsets' sizes sizes' : Slots} {frames below : List Frame}
  {entries : Nat}

/-- What lies beyond the frames does not matter. -/
theorem Laid.congr (h : Laid childStack offsets sizes frames entries)
    (hc : ∀ i < entries, childStack'.get i = childStack.get i)
    (ho : ∀ i < frames.length, offsets'.get i = offsets.get i)
    (hs : ∀ i < frames.length, sizes'.get i = sizes.get i) :
    Laid childStack' offsets' sizes' frames entries := by
  induction h with
  | nil => exact .nil
  | @cons fr below base _ hbase hsize hwidth hpending ih =>
    simp only [List.length_cons] at ho hs
    refine .cons (ih ?_ ?_ ?_) ?_ ?_ hwidth ?_
    · exact fun i hi => hc i (by omega)
    · exact fun i hi => ho i (by omega)
    · exact fun i hi => hs i (by omega)
    · rw [ho _ (Nat.lt_succ_self _), hbase]
    · rw [hs _ (Nat.lt_succ_self _), hsize]
    · have hrow : Row (fun i => childStack.get (base + i)) fr.pending.reverse := hpending
      refine hrow.congr fun i hi => hc _ ?_
      rw [List.length_reverse] at hi
      omega

open Postorder (Search) in
/-- Lists that show a search. -/
structure Shows (g : FlowGraph) (room : Nat) (l : SearchLists) (s : Search) (opened : List ObjectId) :
    Prop where
  objects : l.objects = s.objects
  numbers : l.numbers = s.numbers
  counts : l.entries = s.entries ∧ l.next = s.count + 1 ∧ l.edgeCount = s.edgeCount ∧ l.maxDepth = s.maxDepth
  nodes : l.nodes = opened.length
  frames : l.frames = s.frames.length ∧ s.depth = s.frames.length
  capacity : l.nodeStack.capacity = g.run.objectCount + 3 ∧ l.offsets.capacity = g.run.objectCount + 3 ∧
    l.sizes.capacity = g.run.objectCount + 3 ∧ l.childStack.capacity = room
  piled : ∀ i id, opened.reverse[i]? = some id → l.nodeStack.get i = id
  laid : Laid l.childStack l.offsets l.sizes s.frames s.entries
  ends : l.offsets.get s.frames.length = s.entries

section
open Postorder Search
variable {g : FlowGraph} {room id : Nat} {l : SearchLists} {s : Search} {opened rest : List ObjectId}
  {top next : Frame}

theorem Laid.exists_base {fr : Frame} (h : Laid childStack offsets sizes (fr :: below) entries) :
    ∃ base, entries = base + fr.width ∧ Laid childStack offsets sizes below base ∧
      offsets.get below.length = base ∧ sizes.get below.length = fr.pending.length ∧
      fr.pending.length ≤ fr.width ∧ Row (fun i => childStack.get (base + i)) fr.pending.reverse := by
  cases h with
  | cons hbelow hbase hsize hwidth hpending => exact ⟨_, rfl, hbelow, hbase, hsize, hwidth, hpending⟩

theorem length_frames (h : Search.Inv g s opened) : s.frames.length = opened.length + 1 := by
  have hstack := congrArg List.length h.stack
  rwa [List.length_map, List.length_append, List.length_singleton] at hstack

theorem Shows.frames_eq (h : Shows g room l s opened) (hinv : Search.Inv g s opened)
    (hfr : s.frames = top :: below) :
    l.frames = below.length + 1 ∧ below.length = opened.length ∧ opened.length ≤ g.run.objectCount := by
  have hframes := h.frames.1
  have hdeep := length_frames hinv
  have hnumbered := hinv.count_add_length_le
  rw [hfr, List.length_cons] at hframes hdeep
  exact ⟨hframes, Nat.succ.inj hdeep, by omega⟩

/-- The successor that comes next is read. -/
theorem Shows.look (h : Shows g room l s opened) (hinv : Search.Inv g s opened)
    (hfr : s.frames = top :: below) (hp : top.pending = id :: rest) (hid : id ≤ g.run.objectCount)
    (hentries : s.entries ≤ room) (hword : s.entries ≤ wordMax) :
    l.sizes.read below.length = .ok (rest.length + 1) ∧
    l.look g room below.length (rest.length + 1) =
      if s.numbers.get id ≠ 0 then .ok { l with sizes := l.sizes.put below.length rest.length }
      else enter g room { l with sizes := l.sizes.put below.length rest.length } id := by
  obtain ⟨-, hcapOffsets, hcapSizes, hcapChildren⟩ := h.capacity
  obtain ⟨-, hdeep, hmost⟩ := h.frames_eq hinv hfr
  have hlaid := h.laid
  rw [hfr] at hlaid
  obtain ⟨base, hends, -, hbase, hsize, hwidth, hpending⟩ := hlaid.exists_base
  rw [hp, List.length_cons] at hsize hwidth
  -- the frame has its successors the other way round, so the next one is the last that is left
  rw [hp, row_reverse_cons_iff] at hpending
  have hlast := hpending.2
  have hread : l.numbers.read id = .ok (s.numbers.get id) := by
    rw [h.numbers]
    apply Slots.read_ok
    rw [hinv.capacity_numbers]
    omega
  constructor
  · rw [Slots.read_ok (by omega), hsize]
  · unfold SearchLists.look
    rw [Slots.read_ok (by omega), hbase, liftM_ok, ok_bind, Nat.add_succ_sub_one,
      Slots.read_ok (by omega), hlast, liftM_ok, ok_bind, Nat.add_sub_cancel,
      Slots.store_ok (by omega) (by omega), liftM_ok, ok_bind, hread, liftM_ok, ok_bind]
    rfl

/-- The frame has one successor less then. -/
theorem Shows.skip (h : Shows g room l s opened) (hinv : Search.Inv g s opened)
    (hfr : s.frames = top :: below) (hp : top.pending = id :: rest) :
    Shows g room { l with sizes := l.sizes.put below.length rest.length }
      { s with frames := { top with pending := rest } :: below } opened := by
  obtain ⟨hcapNodes, hcapOffsets, hcapSizes, hcapChildren⟩ := h.capacity
  obtain ⟨-, hdeep, hmost⟩ := h.frames_eq hinv hfr
  have hframes := h.frames
  have hends := h.ends
  have hlaid := h.laid
  rw [hfr] at hframes hends hlaid
  obtain ⟨base, hentries, hbelow, hbase, -, hwidth, hpending⟩ := hlaid.exists_base
  rw [hp] at hwidth hpending
  rw [row_reverse_cons_iff] at hpending
  have hunder := hbelow.congr (fun _ _ => rfl) (fun _ _ => rfl)
    fun i hi => @Slots.get_put_of_ne l.sizes below.length i (by omega) rest.length
  refine ⟨h.objects, h.numbers, h.counts, h.nodes, hframes, ?_, h.piled, ?_, hends⟩
  · exact ⟨hcapNodes, hcapOffsets, (Slots.capacity_put _ _ _).trans hcapSizes, hcapChildren⟩
  · dsimp only
    rw [hentries]
    have hself : (l.sizes.put below.length rest.length).get below.length = rest.length :=
      Slots.get_put_self (by omega) _
    exact .cons hunder hbase hself (Nat.le_of_succ_le hwidth) hpending.1

section
variable (h : Shows g room l s opened) (hlen : s.frames.length = opened.length + 1)
  (hmore : opened.length < g.run.objectCount)
include h hlen hmore

/-- To open an object that was not met yet, its successors are put where those of all frames end. -/
theorem Shows.enter (hcapacity : s.numbers.capacity = g.run.objectCount + 3)
    (hid : id ≤ g.run.objectCount) (htargets : ∀ v ∈ g.targets id, v ≤ g.run.objectCount)
    (hcount : g.run.objectCount ≤ wordMax) (hsucc : g.successors id = .ok (g.targets id))
    (hentries : s.entries + (g.targets id).length ≤ room)
    (hword : s.entries + (g.targets id).length ≤ wordMax)
    (hedges : s.edgeCount + (g.targets id).length ≤ longMax) :
    ∃ childStack, l.enter g room id = .ok (l.entered id childStack (g.targets id).length) ∧
      childStack.capacity = room ∧ Row (fun i => childStack.get (s.entries + i)) (g.targets id) ∧
      ∀ j < s.entries, childStack.get j = l.childStack.get j := by
  obtain ⟨hcapNodes, hcapOffsets, hcapSizes, hcapChildren⟩ := h.capacity
  obtain ⟨hframes, -⟩ := h.frames
  obtain ⟨hbase, -, hedge, -⟩ := h.counts
  have hnodes := h.nodes
  have hends := h.ends
  obtain ⟨childStack, hpush, hcapPushed, hpushed, hkept⟩ :=
    @Slots.storeAll_ok l.childStack l.entries (g.targets id) (by omega)
      fun v hv => Nat.le_trans (htargets v hv) (by omega)
  -- every number goes to a place that its list has, and it is a word
  have hnumbers : l.numbers.store id openMark = .ok (l.numbers.put id openMark) := by
    apply Slots.store_ok _ (Nat.le_refl wordMax)
    rw [h.numbers, hcapacity]
    omega
  have hstack : l.nodeStack.store l.nodes id = .ok (l.nodeStack.put l.nodes id) :=
    Slots.store_ok (by omega) (by omega)
  have hsizes : l.sizes.store l.frames (g.targets id).length =
      .ok (l.sizes.put l.frames (g.targets id).length) :=
    Slots.store_ok (by omega) (by omega)
  have hread : l.offsets.read l.frames = .ok l.entries := by
    rw [Slots.read_ok (by omega), hframes, hends, hbase]
  have hoffsets : l.offsets.store (l.frames + 1) (l.entries + (g.targets id).length) =
      .ok (l.offsets.put (l.frames + 1) (l.entries + (g.targets id).length)) :=
    Slots.store_ok (by omega) (by omega)
  have hfit : fit longMax (l.edgeCount + (g.targets id).length) = .ok (l.edgeCount + (g.targets id).length) :=
    fit_ok (by omega)
  have hpushAll : pushAll room l.childStack l.entries (g.targets id) = _ := pushAll_eq (by omega)
  rw [hpush, liftM_ok] at hpushAll
  refine ⟨childStack, ?_, hcapPushed.trans hcapChildren, hbase ▸ hpushed, fun j hj => hkept j (Or.inl ?_)⟩
  · unfold SearchLists.enter
    simp only [hnumbers, hstack, hsucc, hpushAll, hsizes, hread, hoffsets, hfit, liftM_ok, ok_bind]
    rfl
  · rwa [hbase]

/-- The lists show the open object then. -/
theorem Shows.entered {childStack : Slots} (hcapacity : childStack.capacity = room)
    (hpushed : Row (fun i => childStack.get (s.entries + i)) (g.targets id))
    (hkept : ∀ j < s.entries, childStack.get j = l.childStack.get j) :
    Shows g room (l.entered id childStack (g.targets id).length) (s.enter id (g.targets id) s.frames)
      (id :: opened) := by
  obtain ⟨hcapNodes, hcapOffsets, hcapSizes, -⟩ := h.capacity
  obtain ⟨hframes, hdepth⟩ := h.frames
  obtain ⟨hbase, hnext, hedge, hdeepest⟩ := h.counts
  have hnodes := h.nodes
  exact {
    objects := h.objects
    numbers := congrArg (Slots.put · id openMark) h.numbers
    counts := by
      refine ⟨?_, hnext, ?_, ?_⟩
      · exact congrArg (· + (g.targets id).length) hbase
      · exact congrArg (· + (g.targets id).length) hedge
      · dsimp only [SearchLists.entered, Search.enter]
        rw [hdeepest, hframes, hdepth]
    nodes := congrArg (· + 1) hnodes
    frames := ⟨congrArg (· + 1) hframes, congrArg (· + 1) hdepth⟩
    capacity := ⟨(Slots.capacity_put _ _ _).trans hcapNodes, (Slots.capacity_put _ _ _).trans hcapOffsets,
      (Slots.capacity_put _ _ _).trans hcapSizes, hcapacity⟩
    piled := by
      have hpiled : Row l.nodeStack.get opened.reverse := h.piled
      have hroom : l.nodes < l.nodeStack.capacity := by omega
      refine row_reverse_cons_iff.mpr ⟨hpiled.congr fun i hi => ?_, ?_⟩
      · rw [List.length_reverse] at hi
        exact Slots.get_put_of_ne (by omega) _
      · rw [← hnodes]
        exact Slots.get_put_self hroom _
    laid := by
      -- the new frame begins where those below it end
      have hlaid : Laid childStack (l.offsets.put (l.frames + 1) (l.entries + (g.targets id).length))
          (l.sizes.put l.frames (g.targets id).length) s.frames s.entries :=
        h.laid.congr hkept (fun i hi => Slots.get_put_of_ne (by omega) _)
          fun i hi => Slots.get_put_of_ne (by omega) _
      dsimp only [SearchLists.entered, Search.enter]
      refine .cons hlaid ?_ ?_ ?_ ?_
      · rw [Slots.get_put_of_ne (by omega), h.ends]
      · rw [← hframes, Slots.get_put_self (by omega), List.length_reverse]
      · rw [List.length_reverse]
      · rw [List.reverse_reverse]
        exact hpushed
    ends := by
      dsimp only [SearchLists.entered, Search.enter]
      rw [List.length_cons, ← hframes, ← hbase]
      exact Slots.get_put_self (by omega) _ }

end

/-- The object on top is found on the stack of the open ones, and there are words for its number. -/
theorem Shows.leave (h : Shows g room l s (top.node :: opened)) (hinv : Search.Inv g s (top.node :: opened))
    (hfr : s.frames = top :: below) (hcount : g.run.objectCount ≤ wordMax) (hmore : s.count + 2 ≤ wordMax) :
    l.leave below.length = .ok (l.left top.node below.length (s.entries - top.width)) := by
  obtain ⟨hcapNodes, hcapOffsets, -⟩ := h.capacity
  obtain ⟨-, hnext, -⟩ := h.counts
  obtain ⟨-, hdeep, hmost⟩ := h.frames_eq hinv hfr
  have hnumbered := hinv.count_add_length_le
  have hnodes := h.nodes
  have hlaid := h.laid
  rw [hfr] at hlaid
  rw [List.length_cons] at hdeep hmost hnodes hnumbered
  obtain ⟨base, hends, -, hoffset, -⟩ := hlaid.exists_base
  have hentries : base = s.entries - top.width := (Nat.sub_eq_of_eq_add hends).symm
  -- the open objects are piled up in the order in which they were opened
  have hpile : l.nodeStack.get (l.nodes - 1) = top.node := by
    rw [hnodes, Nat.add_sub_cancel]
    exact (row_reverse_cons_iff.mp h.piled).2
  have hmet := hinv.ne_zero_of_open List.mem_cons_self
  have hid := (wasVisited_bounds (hinv.visited _ hmet)).2
  have hobjects : l.objects.store l.next top.node = .ok (l.objects.put l.next top.node) := by
    apply Slots.store_ok _ (by omega)
    rw [h.objects, hinv.capacity_objects]
    omega
  have hnumbers : l.numbers.store top.node l.next = .ok (l.numbers.put top.node l.next) := by
    apply Slots.store_ok _ (by omega)
    rw [h.numbers, hinv.capacity_numbers]
    omega
  have hfit : fit wordMax (l.next + 1) = .ok (l.next + 1) := fit_ok (by omega)
  unfold SearchLists.leave
  rw [Slots.read_ok (by omega), hoffset, hentries, liftM_ok, ok_bind, if_neg (by omega),
    Slots.read_ok (by omega), hpile]
  simp only [hobjects, hnumbers, hfit, liftM_ok, ok_bind]
  rfl

/-- The lists show the search without the frame on top then. -/
theorem Shows.left (h : Shows g room l s (top.node :: opened)) (hfr : s.frames = top :: below) :
    Shows g room (l.left top.node below.length (s.entries - top.width)) (s.leave top below) opened := by
  obtain ⟨hbase, hnext, hedge, hdeepest⟩ := h.counts
  have hnodes := h.nodes
  have hdepth := h.frames.2
  have hlaid := h.laid
  rw [hfr] at hdepth hlaid
  obtain ⟨base, hends, hlaid, hoffset, -⟩ := hlaid.exists_base
  have hentries : base = s.entries - top.width := (Nat.sub_eq_of_eq_add hends).symm
  rw [hentries] at hlaid hoffset
  exact {
    objects := by
      dsimp only [SearchLists.left, Search.leave]
      rw [h.objects, hnext]
    numbers := by
      dsimp only [SearchLists.left, Search.leave]
      rw [h.numbers, hnext]
    counts := ⟨rfl, congrArg (· + 1) hnext, hedge, hdeepest⟩
    nodes := congrArg (· - 1) hnodes
    frames := ⟨rfl, congrArg (· - 1) hdepth⟩
    capacity := h.capacity
    piled := (row_reverse_cons_iff.mp h.piled).1
    laid := hlaid
    ends := hoffset }

/-- What is left of the lists once the search is over. -/
structure Finished (g : FlowGraph) (room : Nat) (l : SearchLists) (p : Postorder) : Prop where
  objects : l.objects = p.objects
  numbers : l.numbers = p.numbers
  counts : l.next = p.superRoot ∧ l.edgeCount = p.edgeCount ∧ l.maxDepth = p.maxDepth
  capacity : l.nodeStack.capacity = g.run.objectCount + 3 ∧ l.offsets.capacity = g.run.objectCount + 3 ∧
    l.sizes.capacity = g.run.objectCount + 3 ∧ l.childStack.capacity = room

/-- A frame of which no successor is left is found to be done. -/
theorem Shows.read_done (h : Shows g room l s opened) (hinv : Search.Inv g s opened)
    (hfr : s.frames = top :: below) (hp : top.pending = []) : l.sizes.read below.length = .ok 0 := by
  obtain ⟨-, -, hcapSizes, -⟩ := h.capacity
  obtain ⟨-, hdeep, hmost⟩ := h.frames_eq hinv hfr
  have hlaid := h.laid
  rw [hfr] at hlaid
  obtain ⟨base, -, -, -, hsize, -⟩ := hlaid.exists_base
  rw [Slots.read_ok (by omega), hsize, hp]
  rfl

/-- As long as the search goes on its lists show it. -/
theorem proceed_shows (hroots : ∀ id ∈ g.roots, g.run.wasVisited id = true)
    (hcount : g.run.objectCount ≤ wordMax) (hroom : g.roots.length + g.edgeTotal ≤ room)
    (hlong : room ≤ longMax) {fuel : Nat} {last : Search} (h : Shows g room l s opened)
    (hinv : Search.Inv g s opened) (haccounts : Accounts g s) (hword : s.entries ≤ wordMax)
    (hrun : Search.proceed g room fuel s = .ok last) :
    ∃ l', l.proceed g room fuel = .ok l' ∧
      Finished g room l' ⟨last.objects, last.numbers, last.count + 1, last.edgeCount, last.maxDepth⟩ := by
  -- both searches take the same turns
  induction fuel generalizing l s opened with
  | zero => cases hrun
  | succ fuel ih =>
    rw [SearchLists.proceed]
    have hentries := haccounts.entries_le hroom
    cases hinv.turn hroots hrun with
    | finish hfr hp _ hlast =>
      subst hlast
      obtain ⟨hframes, -⟩ := h.frames_eq hinv hfr
      rw [hframes, if_neg (Nat.succ_ne_zero _), Nat.add_sub_cancel, h.read_done hinv hfr hp, liftM_ok, ok_bind,
        if_neg (not_not_intro rfl)]
      exact ⟨_, if_pos rfl, h.objects, h.numbers, h.counts.2, h.capacity⟩
    | leave hfr hp hmore hrun =>
      obtain ⟨hframes, -⟩ := h.frames_eq hinv hfr
      have hmet := hinv.ne_zero_of_open List.mem_cons_self
      have hleave := haccounts.leave hinv (hinv.visited _ hmet) hmet
      rw [hframes, if_neg (Nat.succ_ne_zero _), Nat.add_sub_cancel, h.read_done hinv hfr hp, liftM_ok, ok_bind,
        if_neg (not_not_intro rfl), if_neg (by rw [List.length_cons]; omega), h.leave hinv hfr hcount hmore,
        ok_bind]
      exact ih (h.left hfr) (hinv.leave hfr hp hmore) (hleave _) (Nat.le_trans (Nat.sub_le _ _) hword) hrun
    | skip hfr hp hvis hmet hrun =>
      obtain ⟨hframes, -⟩ := h.frames_eq hinv hfr
      obtain ⟨hread, hlook⟩ := h.look hinv hfr hp (wasVisited_bounds hvis).2 hentries hword
      rw [hframes, if_neg (Nat.succ_ne_zero _), Nat.add_sub_cancel, hread, liftM_ok, ok_bind,
        if_pos (Nat.succ_ne_zero _), hlook, if_pos hmet, ok_bind]
      exact ih (h.skip hinv hfr hp) (hinv.skip hfr hp hmet) (haccounts.skip _) hword hrun
    | enter hfr hp hvis hnew hsucc hcheck hrun =>
      obtain ⟨hframes, -⟩ := h.frames_eq hinv hfr
      have hid := (wasVisited_bounds hvis).2
      obtain ⟨hread, hlook⟩ := h.look hinv hfr hp hid hentries hword
      have hskipped := h.skip hinv hfr hp
      have hentered := hinv.enter hroots hfr hp hnew
      have hspent := haccounts.enter hinv hvis hnew
      have hmore := hentered.count_add_length_le
      rw [List.length_cons] at hmore
      have hlen : (_ :: _ : List Frame).length = opened.length + 1 := hfr ▸ length_frames hinv
      obtain ⟨hspace, hfull⟩ := checkRoom_eq_ok_iff.mp hcheck
      have hedges := Nat.le.intro (hspent []).edges
      obtain ⟨childStack, henter, hcapacity, hpushed, hkept⟩ := hskipped.enter hlen (by omega)
        hinv.capacity_numbers hid (fun v hv => (wasVisited_bounds (List.mem_filter.mp hv).2).2) hcount hsucc
        hspace hfull (Nat.le_trans hedges (Nat.le_trans hroom hlong))
      rw [hframes, if_neg (Nat.succ_ne_zero _), Nat.add_sub_cancel, hread, liftM_ok, ok_bind,
        if_pos (Nat.succ_ne_zero _), hlook, if_neg (not_not_intro hnew), henter, ok_bind]
      exact ih (hskipped.entered hlen (by omega) hcapacity hpushed hkept) hentered (hspent _) hfull hrun

/-- Roots are distinct objects, so there is a word for their number. -/
theorem length_roots_le (hroots : ∀ id ∈ g.roots, g.run.wasVisited id = true)
    (hsorted : g.roots.Pairwise (· < ·)) : g.roots.length ≤ g.run.objectCount := by
  have hnodup : g.roots.Nodup := hsorted.imp Nat.ne_of_lt
  have hsubset : g.roots ⊆ List.range' 1 g.run.objectCount := by
    intro id hid
    have hbounds := wasVisited_bounds (hroots id hid)
    exact List.mem_range'_1.mpr (by omega)
  have hlength := (List.subperm_of_subset hnodup hsubset).length_le
  rwa [List.length_range'] at hlength

theorem shows_start (hroom : g.roots.length ≤ room) (hword : g.roots.length ≤ wordMax)
    (hcount : g.run.objectCount ≤ wordMax) (hroots : ∀ id ∈ g.roots, g.run.wasVisited id = true) :
    ∃ l, SearchLists.start g room = .ok l ∧ Shows g room l (.start g) [] := by
  have hblank : (Slots.create (g.run.objectCount + 3)).capacity = g.run.objectCount + 3 := rfl
  have hcreated : (Slots.create room).capacity = room := rfl
  have hids : ∀ v ∈ g.roots, v ≤ wordMax :=
    fun v hv => Nat.le_trans (wasVisited_bounds (hroots v hv)).2 (by omega)
  obtain ⟨childStack, hpush, hcapacity, hpushed, -⟩ :=
    @Slots.storeAll_ok (.create room) 0 g.roots (by omega) hids
  have hsizes := Slots.store_ok (s := .create (g.run.objectCount + 3)) (i := 0) (v := g.roots.length)
    (by omega) (by omega)
  have hfirst := Slots.store_ok (s := .create (g.run.objectCount + 3)) (i := 0) (v := 0) (by omega)
    (Nat.zero_le _)
  have hsecond := Slots.store_ok (s := (Slots.create (g.run.objectCount + 3)).put 0 0) (i := 1)
    (v := g.roots.length) (by rw [Slots.capacity_put]; omega) (by omega)
  refine ⟨started g childStack, ?_, ?_⟩
  · unfold SearchLists.start
    simp only [hpush, hsizes, hfirst, hsecond, liftM_ok, ok_bind]
    rfl
  · refine ⟨rfl, rfl, ⟨rfl, rfl, rfl, rfl⟩, rfl, ⟨rfl, rfl⟩, ?_, ?_, ?_, ?_⟩
    · dsimp only [started]
      rw [Slots.capacity_put, Slots.capacity_put, Slots.capacity_put]
      exact ⟨hblank, hblank, hblank, hcapacity⟩
    · intro i id hid
      cases hid
    · have hends : (Search.start g).entries = 0 + g.roots.length := (Nat.zero_add _).symm
      rw [hends]
      refine .cons .nil ?_ ?_ ?_ ?_
      · dsimp only [started]
        rw [List.length_nil, Slots.get_put_of_ne Nat.one_ne_zero, Slots.get_put_self (by omega)]
      · dsimp only [started]
        rw [List.length_nil, Slots.get_put_self (by omega), List.length_reverse]
      · rw [List.length_reverse]
      · rw [List.reverse_reverse]
        exact hpushed
    · dsimp only [started, Search.start]
      exact Slots.get_put_self (by rw [Slots.capacity_put]; omega) _

/-- The search over its lists numbers the objects as `Postorder.ofGraph` does. -/
theorem search_ok (hroots : ∀ id ∈ g.roots, g.run.wasVisited id = true)
    (hsorted : g.roots.Pairwise (· < ·)) (hcount : g.run.objectCount ≤ wordMax)
    (hroom : g.roots.length + g.edgeTotal ≤ room) (hlong : room ≤ longMax) {p : Postorder}
    (hp : Postorder.ofGraph g room = .ok p) : ∃ l, search g room = .ok l ∧ Finished g room l p := by
  have hword := Nat.le_trans (length_roots_le hroots hsorted) hcount
  obtain ⟨l, hstart, hshows⟩ := shows_start (Nat.le_of_add_right_le hroom) hword hcount hroots
  unfold Postorder.ofGraph at hp
  split at hp
  · cases hp
  · next s hs =>
    cases hp
    obtain ⟨last, hlast, hdone⟩ :=
      proceed_shows hroots hcount hroom hlong hshows (inv_start g) (accounts_start g) hword hs
    refine ⟨last, ?_, hdone⟩
    unfold search
    rw [hstart, ok_bind, hlast]

end

end SearchLists
end HeapRetention
