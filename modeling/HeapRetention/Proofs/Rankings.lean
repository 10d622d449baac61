import HeapRetention.Numbers
import HeapRetention.Text.HeadBuffer
import Mathlib.Data.List.Sort
import Mathlib.Data.String.Basic

/-! Listings by size, and texts that are made of lines. Sorting by size puts objects in a strict order, so a
listing that stops early has the largest ones. -/
namespace HeapRetention

/-- The order of a listing by size, the larger first and of equal sizes the lesser number. -/
def Outranks (size : Nat → Nat) (a b : Nat) : Prop :=
  size b < size a ∨ (size a = size b ∧ a < b)

/-- Up to `limit` of some objects, those that outrank the others, in order. -/
structure LargestOf (size : Nat → Nat) (limit : Nat) (ids listed : List Nat) : Prop where
  length : listed.length = min limit ids.length
  sub : ∀ a ∈ listed, a ∈ ids
  ordered : listed.Pairwise (Outranks size)
  others : ∀ a ∈ listed, ∀ b ∈ ids, b ∉ listed → Outranks size a b

section
variable {size : Nat → Nat} {a b c : Nat} {ids : List Nat}

theorem largerFirst_iff : largerFirst size a b = true ↔ Outranks size a b ∨ a = b := by
  unfold largerFirst Outranks
  split
  · rw [decide_eq_true_iff]
    omega
  · rw [decide_eq_true_iff]
    constructor
    · exact fun h => Or.inl (Or.inl h)
    · rintro ((h | h) | rfl) <;> omega

theorem Outranks.trans (hab : Outranks size a b) (hbc : Outranks size b c) : Outranks size a c := by
  unfold Outranks at *
  omega

theorem pairwise_largerFirst (size : Nat → Nat) (ids : List Nat) :
    (ids.mergeSort (largerFirst size)).Pairwise fun a b => largerFirst size a b = true := by
  refine List.pairwise_mergeSort (fun a b c hab hbc => ?_) (fun a b => ?_) ids
  · rw [largerFirst_iff] at hab hbc ⊢
    rcases hab with hab | rfl
    · rcases hbc with hbc | rfl
      · exact Or.inl (hab.trans hbc)
      · exact Or.inl hab
    · exact hbc
  · rw [Bool.or_eq_true, largerFirst_iff, largerFirst_iff]
    unfold Outranks
    omega

theorem pairwise_outranks (size : Nat → Nat) (hnodup : ids.Nodup) :
    (ids.mergeSort (largerFirst size)).Pairwise (Outranks size) := by
  have hsorted := pairwise_largerFirst size ids
  have hdistinct := (List.mergeSort_perm ids (largerFirst size)).nodup_iff.mpr hnodup
  exact (hsorted.and hdistinct).imp fun ⟨h, hne⟩ => (largerFirst_iff.mp h).resolve_right hne

theorem largestOf_take (size : Nat → Nat) (limit : Nat) (hnodup : ids.Nodup) :
    LargestOf size limit ids ((ids.mergeSort (largerFirst size)).take limit) := by
  have hperm := List.mergeSort_perm ids (largerFirst size)
  have hordered := pairwise_outranks size hnodup
  refine ⟨?_, fun a ha => hperm.mem_iff.mp (List.mem_of_mem_take ha), hordered.take, fun a ha b hb hnot => ?_⟩
  · rw [List.length_take, hperm.length_eq]
  · -- whatever is not listed comes later in the sorted list
    rw [← List.take_append_drop limit (ids.mergeSort (largerFirst size))] at hordered
    have hb := hperm.mem_iff.mpr hb
    rw [← List.take_append_drop limit (ids.mergeSort (largerFirst size))] at hb
    exact (List.pairwise_append.mp hordered).2.2 a ha b ((List.mem_append.mp hb).resolve_left hnot)

end

namespace Text

/-- A text has another one as a part. -/
def Contains (text part : String) : Prop :=
  ∃ before after, text = before ++ part ++ after

theorem Contains.prepend {text part : String} (h : Contains text part) (before : String) :
    Contains (before ++ text) part := by
  obtain ⟨first, last, rfl⟩ := h
  exact ⟨before ++ first, last, by simp only [String.append_assoc]⟩

theorem Contains.append {text part : String} (h : Contains text part) (after : String) :
    Contains (text ++ after) part := by
  obtain ⟨first, last, rfl⟩ := h
  exact ⟨first, last ++ after, by simp only [String.append_assoc]⟩

/-- Among the joined texts of some items is that of each of them. -/
theorem contains_join {α : Type} (f : α → Option String) {as : List α} {a : α} {part : String}
    (ha : a ∈ as) (hf : f a = some part) : Contains (String.join (as.filterMap f)) part := by
  obtain ⟨upper, lower, rfl⟩ := List.append_of_mem ha
  rw [List.filterMap_append, List.filterMap_cons_some hf, String.join_append, String.join_cons,
    ← String.append_assoc]
  exact ⟨_, _, rfl⟩

/-- A text that keeps only the head of its lines, line by line. -/
theorem headText_eq {α : Type} (limit : Nat) (write : α → String) (items : List α) :
    headText limit write items =
      String.join ((items.take limit).map fun item => write item ++ "\n") ++
        Text.removalNote (items.length - limit) := by
  have hfold : ∀ (items : List α) (text : String),
      items.foldl (fun text item => text ++ write item ++ "\n") text =
        text ++ String.join (items.map fun item => write item ++ "\n") := by
    intro items
    induction items with
    | nil => exact fun text => (String.append_empty).symm
    | cons item items ih =>
      intro text
      rw [List.foldl_cons, ih, List.map_cons, String.join_cons, String.append_assoc, String.append_assoc,
        String.append_assoc]
  unfold headText
  rw [hfold, String.empty_append]

end Text

end HeapRetention
