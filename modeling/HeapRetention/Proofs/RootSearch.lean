import HeapRetention.Dominance.FlowGraph

/-! The list of roots and the search in it. Sorting puts the roots in ascending order, dropping the head
of each repetition makes the order strict, and halving a range of a strictly ascending array never loses
the place of a number. -/
namespace HeapRetention

theorem dedup_of_sorted (l : List Nat) (h : l.Pairwise (· ≤ ·)) :
    (l.foldr (fun a rest => if rest.head? = some a then rest else a :: rest) []).Pairwise (· < ·) ∧
      ∀ x, x ∈ l.foldr (fun a rest => if rest.head? = some a then rest else a :: rest) [] ↔ x ∈ l := by
  induction l with
  | nil => exact ⟨List.Pairwise.nil, fun x => Iff.rfl⟩
  | cons a l ih =>
    obtain ⟨hle, hl⟩ := List.pairwise_cons.mp h
    obtain ⟨hlt, hmem⟩ := ih hl
    rw [List.foldr_cons]
    generalize l.foldr (fun a rest => if rest.head? = some a then rest else a :: rest) [] = rest at hlt hmem ⊢
    by_cases hhead : rest.head? = some a
    · rw [if_pos hhead]
      have hin : a ∈ l := (hmem a).mp (List.mem_of_mem_head? hhead)
      refine ⟨hlt, fun x => ?_⟩
      rw [hmem, List.mem_cons]
      constructor
      · exact Or.inr
      · rintro (rfl | hx)
        · exact hin
        · exact hx
    · rw [if_neg hhead]
      refine ⟨List.pairwise_cons.mpr ⟨?_, hlt⟩, fun x => by rw [List.mem_cons, List.mem_cons, hmem]⟩
      intro y hy
      cases rest with
      | nil => exact absurd hy List.not_mem_nil
      | cons b rest =>
        have hab : a ≤ b := hle b ((hmem b).mp List.mem_cons_self)
        have hne : b ≠ a := fun he => hhead (congrArg some he)
        rcases List.mem_cons.mp hy with rfl | hy
        · omega
        · have := (List.pairwise_cons.mp hlt).1 y hy
          omega

theorem sorted_mergeSort (ids : List Nat) : (ids.mergeSort fun a b => a ≤ b).Pairwise (· ≤ ·) := by
  have h := @List.pairwise_mergeSort Nat (fun a b => decide (a ≤ b))
    (fun a b c hab hbc => decide_eq_true (Nat.le_trans (of_decide_eq_true hab) (of_decide_eq_true hbc)))
    (fun a b => by rw [Bool.or_eq_true, decide_eq_true_iff, decide_eq_true_iff]; exact Nat.le_total a b) ids
  exact h.imp of_decide_eq_true

theorem pairwise_ascending (ids : List Nat) : (ascending ids).Pairwise (· < ·) :=
  (dedup_of_sorted _ (sorted_mergeSort ids)).1

theorem mem_ascending (ids : List Nat) (x : Nat) : x ∈ ascending ids ↔ x ∈ ids :=
  ((dedup_of_sorted _ (sorted_mergeSort ids)).2 x).trans List.mem_mergeSort

namespace FlowGraph

theorem getD_beq_iff (a : Array Nat) (x base : Nat) {size : Nat} (hsize : size = 1) :
    (a.getD base 0 == x) = true ↔ ∃ i, base ≤ i ∧ i < base + size ∧ a.getD i 0 = x := by
  rw [beq_iff_eq]
  constructor
  · exact fun h => ⟨base, Nat.le_refl base, by omega, h⟩
  · rintro ⟨i, h2, h3, h4⟩
    rwa [show base = i by omega]

/-- The search finds a number exactly if it stands in the range. -/
theorem search_iff {a : Array Nat} (ha : ∀ i j, i < j → j < a.size → a.getD i 0 < a.getD j 0) (x : Nat)
    {fuel base size : Nat} (hsize : 0 < size) (hfuel : size ≤ fuel + 1) (hend : base + size ≤ a.size) :
    search a x fuel base size = true ↔ ∃ i, base ≤ i ∧ i < base + size ∧ a.getD i 0 = x := by
  induction fuel generalizing base size with
  | zero => exact getD_beq_iff a x base (by omega)
  | succ fuel ih =>
    unfold search
    by_cases h1 : size ≤ 1
    · rw [if_pos h1]
      exact getD_beq_iff a x base (by omega)
    · rw [if_neg h1]
      dsimp only
      -- the numbers ascend, so only one of the halves can hold `x`
      by_cases hx : x < a.getD (base + size / 2) 0
      · rw [if_pos hx, ih (by omega) (by omega) (by omega)]
        constructor
        · rintro ⟨i, h2, h3, h4⟩
          exact ⟨i, h2, by omega, h4⟩
        · rintro ⟨i, h2, h3, h4⟩
          refine ⟨i, h2, ?_, h4⟩
          rcases Nat.lt_trichotomy i (base + size / 2) with hi | rfl | hi
          · omega
          · omega
          · have := ha (base + size / 2) i hi (by omega)
            omega
      · rw [if_neg hx, ih (by omega) (by omega) (by omega)]
        constructor
        · rintro ⟨i, h2, h3, h4⟩
          exact ⟨i, by omega, by omega, h4⟩
        · rintro ⟨i, h2, h3, h4⟩
          refine ⟨i, ?_, by omega, h4⟩
          rcases Nat.lt_or_ge i (base + size / 2) with hi | hi
          · have := ha i (base + size / 2) hi (by omega)
            omega
          · exact hi

/-- In a strictly ascending list the search finds what is there. -/
theorem contains_iff {l : List Nat} (hl : l.Pairwise (· < ·)) (x : Nat) :
    contains l.toArray x = true ↔ x ∈ l := by
  have hget : ∀ i, i < l.length → l.toArray.getD i 0 = l[i]?.getD 0 := by
    intro i _
    rw [Array.getD_eq_getD_getElem?, List.getElem?_toArray]
  have ha : ∀ i j, i < j → j < l.toArray.size → l.toArray.getD i 0 < l.toArray.getD j 0 := by
    intro i j hij hj
    rw [List.size_toArray] at hj
    rw [hget i (by omega), hget j hj, List.getElem?_eq_getElem hj, List.getElem?_eq_getElem (by omega)]
    exact List.pairwise_iff_getElem.mp hl i j (by omega) hj hij
  unfold contains
  rw [Bool.and_eq_true, Bool.not_eq_true', Array.isEmpty_eq_false_iff]
  constructor
  · rintro ⟨hne, hfound⟩
    have hpos : 0 < l.toArray.size := Array.size_pos_iff.mpr hne
    obtain ⟨i, -, hi, hx⟩ := (search_iff ha x hpos (by omega) (by omega)).mp hfound
    rw [Nat.zero_add, List.size_toArray] at hi
    rw [hget i hi, List.getElem?_eq_getElem hi] at hx
    exact hx ▸ List.getElem_mem hi
  · intro hin
    obtain ⟨i, hi, hx⟩ := List.getElem_of_mem hin
    have hpos : 0 < l.toArray.size := by
      rw [List.size_toArray]
      omega
    refine ⟨Array.size_pos_iff.mp hpos, (search_iff ha x hpos (by omega) (by omega)).mpr ⟨i, ?_⟩⟩
    rw [hget i hi, List.getElem?_eq_getElem hi, List.size_toArray]
    exact ⟨Nat.zero_le i, by omega, hx⟩

end FlowGraph
end HeapRetention
