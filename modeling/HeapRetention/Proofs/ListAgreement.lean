import HeapRetention.Store.Slots
import Mathlib.Data.List.Basic

/-! Lists in memory against lists in files. As long as nobody clears more words than a list has, the two
kinds answer every sequence of calls alike: the bytes of a file show the words that memory holds. To clear
too many words is a crash in memory, and clears the whole list in a file. -/
namespace HeapRetention

/-- A call to a list of words. -/
inductive ListCall where
  | get (i : Nat)
  | set (i v : Nat)
  | clear (len : Nat)
  | capacity
  deriving Repr, DecidableEq

/-- What a call is answered. -/
inductive ListAnswer where
  | word (v : Nat)
  | count (n : Nat)
  | done
  | crash
  deriving Repr, DecidableEq

namespace MappedSlots
variable {m : MappedSlots} {i j k v len : Nat}

theorem read_congr {m' : MappedSlots} (hwidth : m'.width = m.width) (hcapacity : m'.capacity = m.capacity)
    (hbytes : ∀ k < m.width.bytes, m'.byteAt (i * m.width.bytes + k) = m.byteAt (i * m.width.bytes + k)) :
    m'.read i = m.read i := by
  have hword : m'.wordAt i = m.wordAt i := by
    unfold wordAt
    rw [hwidth]
    exact List.map_congr_left fun k hk => hbytes k (List.mem_range.mp hk)
  unfold read
  rw [hwidth, hcapacity, hword]

theorem shape_write {m' : MappedSlots} (h : m.write i v = .ok m') :
    m'.capacity = m.capacity ∧ m'.width = m.width := by
  unfold write at h
  split at h
  · cases h
    exact ⟨rfl, rfl⟩
  · cases h

/-- The word at an index that has been written is the value cut to the width. -/
theorem read_write_self {m' : MappedSlots} (h : m.write i v = .ok m') :
    m'.read i = .ok (m.width.truncate v) := by
  unfold write at h
  split at h
  · next hi =>
    cases h
    have hlength : (m.width.encode v).length = m.width.bytes := length_wordBytes _ _
    have hword : (List.range m.width.bytes).map (fun k =>
        splice m.byteAt (i * m.width.bytes) (m.width.encode v) (i * m.width.bytes + k)) =
        m.width.encode v := by
      apply List.ext_getElem
      · rw [List.length_map, List.length_range, hlength]
      · intro k hk hk'
        rw [List.getElem_map, List.getElem_range]
        unfold splice
        rw [if_pos (Nat.le_add_right _ _), Nat.add_sub_cancel_left, List.getElem?_eq_getElem hk',
          Option.getD_some]
    unfold read wordAt
    rw [if_pos hi, hword]
    unfold WordWidth.decode
    rw [if_pos hlength]
    exact congrArg Except.ok (wordValue_wordBytes _ _)
  · cases h

/-- The bytes of different words do not overlap. -/
theorem read_write_ne {m' : MappedSlots} (h : m.write i v = .ok m') (hij : i ≠ j) :
    m'.read j = m.read j := by
  unfold write at h
  split at h
  · cases h
    refine read_congr rfl rfl fun k hk => ?_
    unfold splice
    dsimp only
    split
    · next hle =>
      have hlt : i < j := by
        by_contra hnot
        have hmul := Nat.mul_le_mul_right m.width.bytes (show j + 1 ≤ i by omega)
        rw [Nat.succ_mul] at hmul
        omega
      have hmul := Nat.mul_le_mul_right m.width.bytes (show i + 1 ≤ j by omega)
      rw [Nat.succ_mul] at hmul
      have hlength : (m.width.encode v).length = m.width.bytes := length_wordBytes _ _
      rw [List.getElem?_eq_none (by omega), Option.getD_none]
    · rfl
  · cases h

theorem decode_zeros (w : WordWidth) : w.decode (List.replicate w.bytes 0) = .ok 0 := by
  cases w <;> rfl

/-- Clearing zeroes the words of the low indices and keeps the others. -/
theorem read_clear (hi : i < m.capacity) :
    (m.clear len).read i = if i < len then .ok 0 else m.read i := by
  by_cases hlen : i < len
  · rw [if_pos hlen]
    have hmul := Nat.mul_le_mul_right m.width.bytes (show i + 1 ≤ min len m.capacity by omega)
    rw [Nat.succ_mul] at hmul
    have hword : (m.clear len).wordAt i = List.replicate m.width.bytes 0 := by
      refine List.eq_replicate_iff.mpr ⟨?_, fun b hb => ?_⟩
      · unfold wordAt
        rw [List.length_map, List.length_range]
        rfl
      · obtain ⟨k, hk, rfl⟩ := List.mem_map.mp hb
        have hlt : k < m.width.bytes := List.mem_range.mp hk
        exact if_pos (show i * m.width.bytes + k < min len m.capacity * m.width.bytes by omega)
    unfold read
    rw [hword]
    exact (if_pos hi).trans (decode_zeros m.width)
  · rw [if_neg hlen]
    have hmul := Nat.mul_le_mul_right m.width.bytes (show min len m.capacity ≤ i by omega)
    exact read_congr rfl rfl fun k _ => if_neg (by omega)

end MappedSlots

namespace WordList
variable {l m : WordList} {c : ListCall} {cs : List ListCall} {width : WordWidth} {capacity : Nat}

/-- The answer to a call, and the list after it. A call that crashes leaves the list as it was. -/
def call (l : WordList) : ListCall → ListAnswer × WordList
  | .get i =>
    match l.read i with
    | .ok v => (.word v, l)
    | .error _ => (.crash, l)
  | .set i v =>
    match l.write i v with
    | .ok l' => (.done, l')
    | .error _ => (.crash, l)
  | .clear len =>
    match l.clear len with
    | .ok l' => (.done, l')
    | .error _ => (.crash, l)
  | .capacity => (.count l.capacity, l)

/-- The answers to some calls one after another. -/
def answers : WordList → List ListCall → List ListAnswer
  | _, [] => []
  | l, c :: cs => (l.call c).1 :: (l.call c).2.answers cs

/-- The list after some calls. -/
def after (l : WordList) (cs : List ListCall) : WordList :=
  cs.foldl (fun l c => (l.call c).2) l

/-- A list in memory and a list in a file with the same words. -/
inductive Twins (width : WordWidth) (capacity : Nat) : WordList → WordList → Prop
  | intro {s : Slots} {f : MappedSlots} (hs : s.capacity = capacity) (hf : f.capacity = capacity)
      (hwidth : f.width = width) (hget : ∀ i < capacity, f.read i = .ok (s.get i)) :
      Twins width capacity (.memory width s) (.mapped f)

theorem twins_create (hl : create false width capacity = .ok l) (hm : create true width capacity = .ok m) :
    Twins width capacity l m := by
  unfold create MappedSlots.create at hl hm
  rw [if_neg (by decide)] at hl
  rw [if_pos rfl] at hm
  split at hl
  · cases hl
    split at hm
    · next f hf =>
      cases hm
      split at hf
      · cases hf
      · cases hf
        refine ⟨rfl, rfl, rfl, fun i hi => ?_⟩
        have hword : MappedSlots.wordAt ⟨width, capacity, fun _ => 0⟩ i = List.replicate width.bytes 0 := by
          unfold MappedSlots.wordAt
          rw [List.map_const', List.length_range]
        unfold MappedSlots.read
        rw [hword, Slots.get_create]
        exact (if_pos hi).trans (MappedSlots.decode_zeros width)
    · cases hm
  · cases hl

section
variable {l' : WordList} {i v len : Nat} {e : Crash}

theorem call_get (h : l.read i = .ok v) : l.call (.get i) = (.word v, l) := by
  rw [call, h]

theorem call_get_crash (h : l.read i = .error e) : l.call (.get i) = (.crash, l) := by
  rw [call, h]

theorem call_set (h : l.write i v = .ok l') : l.call (.set i v) = (.done, l') := by
  rw [call, h]

theorem call_set_crash (h : l.write i v = .error e) : l.call (.set i v) = (.crash, l) := by
  rw [call, h]

theorem call_clear (h : l.clear len = .ok l') : l.call (.clear len) = (.done, l') := by
  rw [call, h]

theorem call_clear_crash (h : l.clear len = .error e) : l.call (.clear len) = (.crash, l) := by
  rw [call, h]

end

theorem call_of_crash (l : WordList) (c : ListCall) (h : (l.call c).1 = .crash) : (l.call c).2 = l := by
  cases c with
  | get i => cases hr : l.read i with
    | ok v => rw [call_get hr]
    | error e => rw [call_get_crash hr]
  | set i v => cases hw : l.write i v with
    | ok l' =>
      rw [call_set hw] at h
      cases h
    | error e => rw [call_set_crash hw]
  | clear len => cases hz : l.clear len with
    | ok l' =>
      rw [call_clear hz] at h
      cases h
    | error e => rw [call_clear_crash hz]
  | capacity => rfl

/-- A call that clears no more words than there are is answered alike and keeps the words the same. -/
theorem Twins.call (h : Twins width capacity l m) (hc : ∀ len, c = .clear len → len ≤ capacity) :
    (l.call c).1 = (m.call c).1 ∧ Twins width capacity (l.call c).2 (m.call c).2 := by
  obtain @⟨s, f, hs, hf, rfl, hget⟩ := h
  cases c with
  | get i =>
    by_cases hi : i < capacity
    · have hmemory : (memory f.width s).read i = .ok (s.get i) := if_pos (hs.symm ▸ hi)
      have hfile : (mapped f).read i = .ok (s.get i) := hget i hi
      rw [call_get hmemory, call_get hfile]
      exact ⟨rfl, hs, hf, rfl, hget⟩
    · have hmemory : (memory f.width s).read i = .error (.indexOutOfBounds i s.capacity) :=
        if_neg (hs.symm ▸ hi)
      have hfile : (mapped f).read i = .error (.indexOutOfBounds i f.capacity) := if_neg (hf.symm ▸ hi)
      rw [call_get_crash hmemory, call_get_crash hfile]
      exact ⟨rfl, hs, hf, rfl, hget⟩
  | set i v =>
    by_cases hi : i < capacity
    · have hmemory : (memory f.width s).write i v = .ok (memory f.width (s.put i (f.width.truncate v))) :=
        congrArg (Functor.map _) (if_pos (hs.symm ▸ hi) : s.write i (f.width.truncate v) = .ok _)
      obtain ⟨f', hf'⟩ : ∃ f', f.write i v = .ok f' := ⟨_, if_pos (hf.symm ▸ hi)⟩
      have hfile : (mapped f).write i v = .ok (mapped f') := congrArg (Functor.map _) hf'
      rw [call_set hmemory, call_set hfile]
      obtain ⟨hcapacity, hwidth⟩ := MappedSlots.shape_write hf'
      refine ⟨rfl, (Slots.capacity_put _ _ _).trans hs, hcapacity.trans hf, hwidth, fun j hj => ?_⟩
      rw [Slots.get_put, hs]
      by_cases hij : i = j
      · rw [if_pos ⟨hij, hi⟩, ← hij, MappedSlots.read_write_self hf']
      · rw [if_neg fun hand => hij hand.1, MappedSlots.read_write_ne hf' hij, hget j hj]
    · have hmemory : (memory f.width s).write i v = .error (.indexOutOfBounds i s.capacity) :=
        congrArg (Functor.map _) (if_neg (hs.symm ▸ hi) : s.write i (f.width.truncate v) = .error _)
      have hfile : (mapped f).write i v = .error (.indexOutOfBounds i f.capacity) :=
        congrArg (Functor.map _) (if_neg (hf.symm ▸ hi) : f.write i v = .error _)
      rw [call_set_crash hmemory, call_set_crash hfile]
      exact ⟨rfl, hs, hf, rfl, hget⟩
  | clear len =>
    have hlen := hc len rfl
    have hmemory : (memory f.width s).clear len = .ok (memory f.width (s.zero len)) :=
      congrArg (Functor.map _) (if_pos (hs.symm ▸ hlen) : s.clear len = .ok _)
    have hfile : (mapped f).clear len = .ok (mapped (f.clear len)) := rfl
    rw [call_clear hmemory, call_clear hfile]
    refine ⟨rfl, hs, hf, rfl, fun i hi => ?_⟩
    rw [MappedSlots.read_clear (hf.symm ▸ hi), Slots.get_zero]
    split
    · rfl
    · exact hget i hi
  | capacity =>
    exact ⟨congrArg ListAnswer.count (hs.trans hf.symm), hs, hf, rfl, hget⟩

theorem Twins.after (h : Twins width capacity l m) (hcs : ∀ len, .clear len ∈ cs → len ≤ capacity) :
    Twins width capacity (l.after cs) (m.after cs) := by
  induction cs generalizing l m with
  | nil => exact h
  | cons c cs ih =>
    have hnext := (h.call (c := c) fun len hc => hcs len (hc ▸ List.mem_cons_self)).2
    exact ih hnext fun len hlen => hcs len (List.mem_cons_of_mem c hlen)

/-- To clear more words than there are is a crash in memory; in a file it zeroes them all. -/
theorem Twins.clear_overlong {len : Nat} (h : Twins width capacity l m) (hlen : capacity < len) :
    l.call (.clear len) = (.crash, l) ∧ (m.call (.clear len)).1 = .done ∧
      ∀ i < capacity, ((m.call (.clear len)).2.call (.get i)).1 = .word 0 := by
  obtain @⟨s, f, hs, hf, rfl, -⟩ := h
  have hmemory : (memory f.width s).clear len = .error (.indexOutOfBounds len s.capacity) :=
    congrArg (Functor.map _) (if_neg (by omega) : s.clear len = .error _)
  have hfile : (mapped f).clear len = .ok (mapped (f.clear len)) := rfl
  rw [call_clear_crash hmemory, call_clear hfile]
  refine ⟨rfl, rfl, fun i hi => ?_⟩
  have hread : (mapped (f.clear len)).read i = .ok 0 := by
    change (f.clear len).read i = .ok 0
    rw [MappedSlots.read_clear (hf.symm ▸ hi), if_pos (by omega)]
  rw [call_get hread]

/-- The first call that clears too many words tells the two lists apart. -/
theorem Twins.answers_iff (h : Twins width capacity l m) :
    l.answers cs = m.answers cs ↔ ∀ len, .clear len ∈ cs → len ≤ capacity := by
  induction cs generalizing l m with
  | nil => exact iff_of_true rfl fun len hlen => absurd hlen List.not_mem_nil
  | cons c cs ih =>
    unfold answers
    rw [List.cons.injEq]
    by_cases hc : ∀ len, c = .clear len → len ≤ capacity
    · obtain ⟨heq, hnext⟩ := h.call hc
      rw [and_iff_right heq, ih hnext]
      simp only [List.mem_cons]
      constructor
      · rintro hrest len (hlen | hlen)
        · exact hc len hlen.symm
        · exact hrest len hlen
      · exact fun hall len hlen => hall len (Or.inr hlen)
    · simp only [not_forall, exists_prop, Nat.not_le] at hc
      obtain ⟨len, rfl, hlen⟩ := hc
      obtain ⟨hcrash, hdone, -⟩ := h.clear_overlong hlen
      refine iff_of_false (fun heq => ?_) fun hall => ?_
      · rw [hcrash, hdone] at heq
        cases heq.1
      · exact absurd (hall len List.mem_cons_self) (Nat.not_le.mpr hlen)

/-- A list in memory and a list in a file, both new and of one size, answer a sequence of calls alike exactly
if none of the calls clears more words than there are. After calls that keep to that, one that does not is a
crash in memory and changes nothing there, while the file takes it and has zeros all over. In both, a call
that crashes changes nothing. -/
theorem answers_eq_iff (hl : create false width capacity = .ok l) (hm : create true width capacity = .ok m) :
    (∀ cs, l.answers cs = m.answers cs ↔ ∀ len, .clear len ∈ cs → len ≤ capacity) ∧
    (∀ cs len, (∀ n, .clear n ∈ cs → n ≤ capacity) → capacity < len →
      (l.after cs).call (.clear len) = (.crash, l.after cs) ∧
        ((m.after cs).call (.clear len)).1 = .done ∧
        ∀ i < capacity, (((m.after cs).call (.clear len)).2.call (.get i)).1 = .word 0) ∧
    ∀ cs c, (((l.after cs).call c).1 = .crash → ((l.after cs).call c).2 = l.after cs) ∧
      (((m.after cs).call c).1 = .crash → ((m.after cs).call c).2 = m.after cs) := by
  have htwins := twins_create hl hm
  refine ⟨fun cs => htwins.answers_iff, fun cs len hcs hlen => ?_, fun cs c => ?_⟩
  · exact (htwins.after hcs).clear_overlong hlen
  · exact ⟨call_of_crash _ c, call_of_crash _ c⟩

theorem answers_eq_iff_short : ∃ l m, create false .short 3 = .ok l ∧ create true .short 3 = .ok m ∧
    l.answers [.set 1 65537, .get 1, .get 3, .clear 2, .get 1] = [.done, .word 1, .crash, .done, .word 0] ∧
    (∀ cs, l.answers cs = m.answers cs ↔ ∀ len, .clear len ∈ cs → len ≤ 3) ∧
    (∀ cs len, (∀ n, .clear n ∈ cs → n ≤ 3) → 3 < len →
      (l.after cs).call (.clear len) = (.crash, l.after cs) ∧
        ((m.after cs).call (.clear len)).1 = .done ∧
        ∀ i < 3, (((m.after cs).call (.clear len)).2.call (.get i)).1 = .word 0) ∧
    ∀ cs c, (((l.after cs).call c).1 = .crash → ((l.after cs).call c).2 = l.after cs) ∧
      (((m.after cs).call c).1 = .crash → ((m.after cs).call c).2 = m.after cs) := by
  have hmemory : create false .short 3 = .ok (memory .short (.create 3)) := rfl
  have hfile : create true .short 3 = .ok (mapped ⟨.short, 3, fun _ => 0⟩) := rfl
  exact ⟨_, _, hmemory, hfile, by decide +kernel, answers_eq_iff hmemory hfile⟩

/-- A list of two words is told to clear three: memory crashes, the file does not. -/
theorem overlong_clear_differs : ∃ l m, create false .long 2 = .ok l ∧ create true .long 2 = .ok m ∧
    l.answers [.clear 3, .capacity] = [.crash, .count 2] ∧
    m.answers [.clear 3, .capacity] = [.done, .count 2] ∧
    ¬∀ cs, l.answers cs = m.answers cs := by
  have hmemory : (memory .long (.create 2)).answers [.clear 3, .capacity] = [.crash, .count 2] := rfl
  have hfile : (mapped ⟨.long, 2, fun _ => 0⟩).answers [.clear 3, .capacity] = [.done, .count 2] := rfl
  refine ⟨_, _, rfl, rfl, hmemory, hfile, fun hall => ?_⟩
  have heq := hall [.clear 3, .capacity]
  rw [hmemory, hfile] at heq
  cases heq

end WordList
end HeapRetention
