import HeapRetention.Dominance.Fixpoint
import HeapRetention.Proofs.CardBits

/-! What the passes do to the cards. Visits only make cards dirty; a card becomes clean when its own turn
comes, so the cards whose turn is still to come keep what they have. -/
namespace HeapRetention

/-- Cards that became dirty meanwhile; none became clean. -/
structure CardTable.Grows (t t' : CardTable) : Prop where
  bits : t'.bits = t.bits
  size : t'.chunks.size = t.chunks.size
  dirty : ∀ c, t.isDirty c = true → t'.isDirty c = true

theorem CardTable.Grows.refl (t : CardTable) : t.Grows t :=
  ⟨rfl, rfl, fun _ h => h⟩

theorem CardTable.Grows.trans {t t' t'' : CardTable} (h : t.Grows t') (h' : t'.Grows t'') : t.Grows t'' :=
  ⟨h'.bits.trans h.bits, h'.size.trans h.size, fun c hc => h'.dirty c (h.dirty c hc)⟩

theorem CardTable.isSet_chunk {t : CardTable} {index b : Nat} (hb : b < 64)
    (h : t.isDirty (index * 64 + b) = true) : CardTable.isSet (t.chunk index) b = true := by
  have hindex : (index * 64 + b) / 64 = index := by omega
  have hmod : (index * 64 + b) % 64 = b % 64 := by omega
  rw [CardTable.isDirty_iff, hindex] at h
  unfold CardTable.isSet at h ⊢
  rwa [hmod] at h

namespace Fixpoint

theorem update_grows (x : EdgeIndex) (root : Nat) (f : Fixpoint) (node : Nat) :
    f.cards.Grows (f.update x root node).cards := by
  unfold update
  cases x.incoming node with
  | nil => exact CardTable.Grows.refl _
  | cons p rest =>
    dsimp only
    split
    · exact CardTable.Grows.refl _
    · exact ⟨CardTable.bits_foldl_mark _ _, CardTable.size_chunks_foldl_mark _ _,
        fun c hc => CardTable.isDirty_foldl_mark _ _ c hc⟩

theorem visit_grows (x : EdgeIndex) (root : Nat) (f : Fixpoint) (node : Nat) :
    f.cards.Grows (f.visit x root node).cards := by
  unfold visit
  split
  · exact CardTable.Grows.refl _
  · exact update_grows x root f node

theorem visitRange_grows (x : EdgeIndex) (root base size : Nat) (f : Fixpoint) :
    f.cards.Grows (visitRange x root base size f).cards := by
  induction size generalizing f with
  | zero => exact CardTable.Grows.refl _
  | succ size ih => exact (visit_grows x root f (base + size)).trans (ih _)

theorem bits_visitCard (x : EdgeIndex) (root : Nat) (f : Fixpoint) (card : Nat) :
    (f.visitCard x root card).cards.bits = f.cards.bits := by
  unfold visitCard
  exact (visitRange_grows x root _ _ _).bits

/-- A card that is visited takes no other card from the dirty ones. -/
theorem isDirty_visitCard (x : EdgeIndex) (root : Nat) (f : Fixpoint) {card other : Nat}
    (h : f.cards.isDirty other = true) (hne : other ≠ card) :
    (f.visitCard x root card).cards.isDirty other = true := by
  unfold visitCard
  exact (visitRange_grows x root _ _ _).dirty other ((CardTable.isDirty_clear _ _ _).mpr ⟨h, hne⟩)

theorem bits_visitChunk (x : EdgeIndex) (root index : Nat) (chunk : UInt64) (bits : Nat) (f : Fixpoint) :
    (visitChunk x root index chunk bits f).cards.bits = f.cards.bits := by
  induction bits generalizing f with
  | zero => rfl
  | succ bits ih =>
    rw [visitChunk, ih]
    split
    · rfl
    · exact bits_visitCard x root f _

/-- The cards of a chunk that are visited leave those before the chunk alone. -/
theorem isDirty_visitChunk (x : EdgeIndex) (root : Nat) {index c : Nat} (hc : c < index * 64)
    (chunk : UInt64) (bits : Nat) (f : Fixpoint) (h : f.cards.isDirty c = true) :
    (visitChunk x root index chunk bits f).cards.isDirty c = true := by
  induction bits generalizing f with
  | zero => exact h
  | succ bits ih =>
    rw [visitChunk]
    apply ih
    split
    · exact h
    · exact isDirty_visitCard x root f h (by omega)

end Fixpoint
end HeapRetention
