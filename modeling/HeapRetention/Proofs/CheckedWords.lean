import HeapRetention.Proofs.Results
import HeapRetention.Store.Slots
import Mathlib.Order.Basic

/-! Scratch lists used word by word. Every access is checked against the capacity of its list, and every
number against the width of the words; a stage whose accesses all succeed stays within its lists. -/
namespace HeapRetention

/-- A number that has to be no more than `max`. -/
def fit (max n : Nat) : Except Crash Nat :=
  if max < n then .error .overflow else .ok n

instance : MonadLift (Except Crash) (Except Failure) where
  monadLift x := x.mapError .crash

namespace Slots

/-- Writes a word of 32 bits; the value has to fit. -/
def store (s : Slots) (i v : Nat) : Except Crash Slots :=
  if wordMax < v then .error .overflow else s.write i v

/-- Writes some words side by side. -/
def storeAll : Slots → (start : Nat) → List Nat → Except Crash Slots
  | s, _, [] => .ok s
  | s, start, v :: vs =>
    match s.store start v with
    | .error c => .error c
    | .ok s => s.storeAll (start + 1) vs

/-- Reads some words that lie side by side. -/
def readAll : Slots → (start count : Nat) → Except Crash (List Nat)
  | _, _, 0 => .ok []
  | s, start, count + 1 => do
    let v ← s.read start
    let vs ← s.readAll (start + 1) count
    return v :: vs

/-- Both lists reach beyond an index, and up to there they have the same words. -/
structure SameTo (last : Nat) (s s' : Slots) : Prop where
  capacity : last < s.capacity ∧ last < s'.capacity
  get : ∀ i ≤ last, s.get i = s'.get i

/-- Adds one to a word. -/
def increment (s : Slots) (i : Nat) : Except Crash Slots := do
  let n ← s.read i
  s.store i (n + 1)

end Slots

/-- The words found one after the other are those of a list. -/
def Row (f : Nat → Nat) (vs : List Nat) : Prop :=
  ∀ i v, vs[i]? = some v → f i = v

section
variable {α : Type} {s : Slots} {i j start v max n : Nat} {vs : List Nat}

theorem liftM_ok (a : α) : (liftM (Except.ok a : Except Crash α) : Except Failure α) = .ok a :=
  rfl

theorem row_singleton_iff {f : Nat → Nat} : Row f [v] ↔ f 0 = v := by
  constructor
  · exact fun h => h 0 v rfl
  · intro h i u hu
    cases i with
    | zero => exact h.trans (Option.some.inj hu)
    | succ i => cases hu

theorem row_append_iff {f : Nat → Nat} {us : List Nat} :
    Row f (us ++ vs) ↔ Row f us ∧ Row (fun i => f (us.length + i)) vs := by
  constructor
  · intro h
    refine ⟨fun i v hv => h i v ?_, fun i v hv => h _ v ?_⟩
    · rw [List.getElem?_append_left (List.getElem?_eq_some_iff.mp hv).1, hv]
    · rw [List.getElem?_append_right (Nat.le_add_right _ _), Nat.add_sub_cancel_left, hv]
  · rintro ⟨hus, hvs⟩ i v hv
    by_cases hi : i < us.length
    · rw [List.getElem?_append_left hi] at hv
      exact hus i v hv
    · have hle := Nat.not_lt.mp hi
      rw [List.getElem?_append_right hle] at hv
      have hat : f (us.length + (i - us.length)) = v := hvs _ v hv
      rwa [Nat.add_sub_cancel' hle] at hat

theorem Row.congr {f f' : Nat → Nat} (h : Row f vs) (hkeep : ∀ i < vs.length, f' i = f i) : Row f' vs :=
  fun i v hv => (hkeep i (List.getElem?_eq_some_iff.mp hv).1).trans (h i v hv)

theorem fit_ok (h : n ≤ max) : fit max n = .ok n :=
  if_neg (Nat.not_lt.mpr h)

theorem fit_of_ok {m : Nat} (h : fit max n = .ok m) : n ≤ max ∧ m = n := by
  unfold fit at h
  split at h
  · cases h
  · next hle =>
    cases h
    exact ⟨Nat.not_lt.mp hle, rfl⟩

namespace Slots

theorem read_ok (h : i < s.capacity) : s.read i = .ok (s.get i) :=
  if_pos h

theorem read_of_ok (h : s.read i = .ok v) : i < s.capacity ∧ v = s.get i := by
  unfold read at h
  split at h
  · next hi =>
    cases h
    exact ⟨hi, rfl⟩
  · cases h

theorem store_of_ok {s' : Slots} (h : s.store i v = .ok s') :
    i < s.capacity ∧ v ≤ wordMax ∧ s' = s.put i v := by
  unfold store write at h
  split at h
  · cases h
  · next hv =>
    split at h
    · next hi =>
      cases h
      exact ⟨hi, Nat.not_lt.mp hv, rfl⟩
    · cases h

theorem get_put_self (h : i < s.capacity) (v : Nat) : (s.put i v).get i = v := by
  rw [get_put, if_pos ⟨rfl, h⟩]

theorem get_put_of_ne (h : i ≠ j) (v : Nat) : (s.put i v).get j = s.get j := by
  rw [get_put, if_neg fun hand => h hand.1]

theorem store_ok (h : i < s.capacity) (hv : v ≤ wordMax) : s.store i v = .ok (s.put i v) := by
  unfold store write
  rw [if_neg (Nat.not_lt.mpr hv), if_pos h]

theorem increment_ok (h : i < s.capacity) (hv : s.get i < wordMax) :
    s.increment i = .ok (s.put i (s.get i + 1)) := by
  unfold increment
  rw [read_ok h, ok_bind, store_ok h hv]

/-- Words written side by side are found there, and no other word changes. -/
theorem storeAll_ok (hroom : start + vs.length ≤ s.capacity) (hvs : ∀ v ∈ vs, v ≤ wordMax) :
    ∃ s', s.storeAll start vs = .ok s' ∧ s'.capacity = s.capacity ∧
      (∀ i v, vs[i]? = some v → s'.get (start + i) = v) ∧
      ∀ j, (j < start ∨ start + vs.length ≤ j) → s'.get j = s.get j := by
  -- along the words: the first one is stored below those that follow it
  induction vs generalizing s start with
  | nil =>
    refine ⟨s, rfl, rfl, ?_, fun _ _ => rfl⟩
    intro i v h
    cases h
  | cons v vs ih =>
    rw [List.length_cons] at hroom
    have hstart : start < s.capacity := by omega
    have hrest := @ih (s.put start v) (start + 1) (by rw [capacity_put]; omega)
      fun u hu => hvs u (List.mem_cons_of_mem v hu)
    obtain ⟨s', hs', hcap, hinside, houtside⟩ := hrest
    rw [capacity_put] at hcap
    refine ⟨s', ?_, hcap, ?_, ?_⟩
    · rw [storeAll, store_ok hstart (hvs v List.mem_cons_self)]
      exact hs'
    · intro i u hu
      cases i with
      | zero =>
        cases hu
        rw [Nat.add_zero, houtside start (Or.inl (Nat.lt_succ_self start)), get_put_self hstart]
      | succ i =>
        rw [← Nat.add_assoc, Nat.add_right_comm]
        exact hinside i u hu
    · intro j hj
      rw [List.length_cons] at hj
      rw [houtside j (by omega), get_put_of_ne (by omega)]

theorem readAll_ok {count : Nat} (h : start + count ≤ s.capacity) :
    s.readAll start count = .ok ((List.range' start count).map s.get) := by
  induction count generalizing start with
  | zero => rfl
  | succ count ih =>
    rw [readAll, read_ok (by omega), ok_bind, ih (by omega), ok_bind]
    rfl

theorem mapM_read_ok {is : List Nat} (h : ∀ i ∈ is, i < s.capacity) :
    is.mapM s.read = .ok (is.map s.get) := by
  induction is with
  | nil => rfl
  | cons i is ih =>
    rw [List.mapM_cons, read_ok (h i List.mem_cons_self), ok_bind,
      ih fun j hj => h j (List.mem_cons_of_mem i hj), ok_bind]
    rfl

theorem clear_ok {len : Nat} (h : len ≤ s.capacity) : s.clear len = .ok (s.zero len) :=
  if_pos h

namespace SameTo
variable {s' : Slots} {last : Nat}

theorem read_ok (h : SameTo last s s') (hi : i ≤ last) : s.read i = .ok (s'.get i) := by
  rw [Slots.read_ok (Nat.lt_of_le_of_lt hi h.capacity.1), h.get i hi]

theorem store_ok (h : SameTo last s s') (hi : i ≤ last) (hv : v ≤ wordMax) :
    s.store i v = .ok (s.put i v) :=
  Slots.store_ok (Nat.lt_of_le_of_lt hi h.capacity.1) hv

theorem put (h : SameTo last s s') (i v : Nat) : SameTo last (s.put i v) (s'.put i v) := by
  have hcapacity := h.capacity
  constructor
  · rw [capacity_put, capacity_put]
    exact hcapacity
  · intro j hj
    by_cases he : i = j
    · rw [← he, get_put_self (by omega), get_put_self (by omega)]
    · rw [get_put_of_ne he, get_put_of_ne he, h.get j hj]

/-- A list that is cleared is as good as a new one. -/
theorem zero (h : last < s.capacity) : SameTo last (s.zero (last + 1)) (.create (last + 1)) := by
  refine ⟨⟨h, Nat.lt_succ_self last⟩, ?_⟩
  intro i hi
  rw [get_zero, if_pos (Nat.lt_succ_of_le hi), get_create]

end SameTo
end Slots
end
end HeapRetention
