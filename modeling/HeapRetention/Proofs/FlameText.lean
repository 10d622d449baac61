import HeapRetention.Proofs.FlameLines

/-! The text of the flame graph. The nodes that it shows are those that retain enough and are not too deep; as
dominators retain more, no such node is under one that is left out. Each has one line, after the lines below it
and by rank among its siblings, and the text has the first of these lines. -/
namespace HeapRetention

namespace DominatorTree

/-- A node large enough to be shown, and not too many steps below the super root. -/
def Shows (tree : DominatorTree) (minBytes depth p : Nat) : Prop :=
  0 < p ∧ p < tree.superRoot ∧ minBytes ≤ 4 * tree.retainedUnits p ∧
    ∃ ds, tree.Lineage p ds ∧ ds.length ≤ depth

/-- A node comes before its dominators, and what is at or under a node before what is at or under a sibling of
lower rank. -/
def Precedes (tree : DominatorTree) (a b : Nat) : Prop :=
  (a ≠ b ∧ tree.Climbs a b) ∨
    ∃ c d, c ≠ tree.superRoot ∧ d ≠ tree.superRoot ∧ tree.Climbs a c ∧ tree.Climbs b d ∧
      tree.immediateDominator? c = tree.immediateDominator? d ∧ Outranks tree.retainedUnits c d

/-- The nodes to show, each once, in the order of their lines. -/
structure Listing (tree : DominatorTree) (minBytes depth : Nat) (order : List Nat) : Prop where
  nodup : order.Nodup
  mem_iff : ∀ p, p ∈ order ↔ tree.Shows minBytes depth p
  precedes : order.Pairwise tree.Precedes
  dominators_last : order.Pairwise fun a b => ¬tree.Climbs b a
  siblings : order.Pairwise fun a b =>
    tree.immediateDominator? a = tree.immediateDominator? b → Outranks tree.retainedUnits a b

/-- The frame name of a node. -/
def frameName (tree : DominatorTree) (graph : HeapGraph) (node : Nat) : String :=
  FlameGraph.frameName graph (tree.objects.get node)

end DominatorTree

namespace FlameLine

end FlameLine

namespace FlameGraph
variable {f : FlameGraph} {tree : DominatorTree} {minBytes depth : Nat}

/-- The nodes that some lineages lead to. -/
def heads (lineages : List (List Nat)) : List Nat :=
  lineages.map (·.headD 0)

theorem mem_heads_iff_lineage {lineages : List (List Nat)} {q : Nat}
    (h : ∀ ds ∈ lineages, ds ≠ [] ∧ ∃ p, tree.Lineage p ds) :
    q ∈ heads lineages ↔ ∃ ds ∈ lineages, tree.Lineage q ds := by
  unfold heads
  rw [List.mem_map]
  refine exists_congr fun ds => and_congr_right fun hds => ?_
  obtain ⟨hne, p, hp⟩ := h ds hds
  constructor
  · intro hq
    rw [← hq, hp.headD_eq hne]
    exact hp
  · exact fun hq => hq.headD_eq hne

theorem nodup_heads {lineages : List (List Nat)} (h : ∀ ds ∈ lineages, ds ≠ [] ∧ ∃ p, tree.Lineage p ds)
    (hnodup : lineages.Nodup) : (heads lineages).Nodup := by
  refine List.pairwise_map.mpr (hnodup.imp_of_mem fun {ds es} hds hes hne heq => hne ?_)
  obtain ⟨hds, p, hp⟩ := h ds hds
  obtain ⟨hes, q, hq⟩ := h es hes
  rw [hp.headD_eq hds, hq.headD_eq hes] at heq
  subst heq
  exact hp.unique hq

namespace Draws
variable (hf : f.Draws tree minBytes)
include hf

section
variable {p q : Nat} {ds es : List Nat} (hp : tree.Lineage p ds) (hq : tree.Lineage q es)
  (hearlier : Earlier f.retained.get ds es)
include hp hq hearlier

/-- Siblings have the rank in the tree that they have in the flame graph. -/
theorem outranks (hpr : p ≠ tree.superRoot) (hqr : q ≠ tree.superRoot)
    (hsiblings : tree.immediateDominator? p = tree.immediateDominator? q) :
    Outranks tree.retainedUnits p q := by
  cases hp with
  | top => exact absurd rfl hpr
  | under _ hplt hd hup =>
    cases hq with
    | top => exact absurd rfl hqr
    | under _ hqlt hd' hup' =>
      rw [hd, hd'] at hsiblings
      cases hsiblings
      cases hup.unique hup'
      have hrank := hearlier.outranks
      unfold Outranks at hrank ⊢
      rwa [hf.retained p (Nat.le_of_lt hplt), hf.retained q (Nat.le_of_lt hqlt)] at hrank

theorem precedes (hqr : q ≠ tree.superRoot) : tree.Precedes p q := by
  have hclimbs : ∀ {p c ds above}, tree.Lineage p ds → c :: above <:+ ds → tree.Climbs p c :=
    fun hp hsuffix => (hp.climbs_iff hf.forest).mpr (Or.inr (hsuffix.mem List.mem_cons_self))
  rcases hearlier with ⟨hsuffix, hlt⟩ | ⟨c, d, above, hc, hd, hrank⟩
  · left
    refine ⟨?_, ?_⟩
    · rintro rfl
      rw [hp.unique hq] at hlt
      exact Nat.lt_irrefl _ hlt
    · cases hq with
      | top => exact absurd rfl hqr
      | under => exact hclimbs hp hsuffix
  · right
    have hpc := hp.of_suffix hc
    have hqd := hq.of_suffix hd
    have hearlier : Earlier f.retained.get (c :: above) (d :: above) :=
      Or.inr ⟨c, d, above, List.suffix_refl _, List.suffix_refl _, hrank⟩
    have hcr := Nat.ne_of_lt (hpc.bounds List.mem_cons_self).2
    have hdr := Nat.ne_of_lt (hqd.bounds List.mem_cons_self).2
    have hsiblings : tree.immediateDominator? c = tree.immediateDominator? d := by
      cases hpc with
      | under _ _ hidom hup =>
        cases hqd with
        | under _ _ hidom' hup' => rw [hidom, hidom', hup.eq_of_eq hup']
    exact ⟨c, d, hcr, hdr, hclimbs hp hc, hclimbs hq hd, hsiblings,
      hf.outranks hpc hqd hearlier hcr hdr hsiblings⟩

theorem not_climbs (hpr : p ≠ tree.superRoot) : ¬tree.Climbs q p := by
  intro hqp
  obtain ⟨above, hsuffix⟩ := hq.exists_suffix (((hq.climbs_iff hf.forest).mp hqp).resolve_left hpr)
  rw [(hq.of_suffix hsuffix).unique hp] at hsuffix
  exact hearlier.not_suffix hsuffix

end

theorem nodup_lineages (levels : Nat) (above : List Nat) (node : Nat) :
    (f.lineages levels above node).Nodup := by
  refine (pairwise_lineages hf.nodup levels above node).imp fun hearlier heq => ?_
  subst heq
  exact hearlier.not_suffix (List.suffix_refl _)

theorem lineage_of_mem {ds : List Nat} (hds : ds ∈ f.lineages depth [] tree.superRoot) :
    ds ≠ [] ∧ ∃ p, tree.Lineage p ds := by
  obtain ⟨-, hlt, -, p, hp, -⟩ := (hf.mem_lineages_iff .top).mp hds
  exact ⟨List.ne_nil_of_length_pos hlt, p, hp⟩

theorem mem_lineages_root_iff {p : Nat} {ds : List Nat} (hp : tree.Lineage p ds) :
    ds ∈ f.lineages depth [] tree.superRoot ↔ tree.Shows minBytes depth p := by
  rw [hf.mem_lineages_iff .top]
  constructor
  · rintro ⟨-, hlt, hle, q, hq, hlarge⟩
    cases hp.eq_of_eq hq
    cases hp with
    | top => exact absurd hlt (Nat.lt_irrefl 0)
    | under h0 hpr hd hup => exact ⟨h0, hpr, hlarge, _, .under h0 hpr hd hup, hle⟩
  · rintro ⟨-, hpr, hlarge, es, hes, hle⟩
    cases hp.unique hes
    exact ⟨List.nil_suffix, List.length_pos_of_mem (hp.mem_self hpr), hle, p, hp, hlarge⟩

theorem mem_heads_iff {p : Nat} :
    p ∈ heads (f.lineages depth [] tree.superRoot) ↔ tree.Shows minBytes depth p := by
  rw [mem_heads_iff_lineage fun ds => hf.lineage_of_mem]
  constructor
  · rintro ⟨ds, hds, hp⟩
    exact (hf.mem_lineages_root_iff hp).mp hds
  · intro hshows
    obtain ⟨ds, hp, -⟩ := hshows.2.2.2
    exact ⟨ds, (hf.mem_lineages_root_iff hp).mpr hshows, hp⟩

theorem listing (depth : Nat) :
    tree.Listing minBytes depth (heads (f.lineages depth [] tree.superRoot)) := by
  have hlineage : ∀ ds ∈ f.lineages depth [] tree.superRoot, ∃ p, ds.headD 0 = p ∧ tree.Lineage p ds ∧
      p ≠ tree.superRoot := by
    intro ds hds
    obtain ⟨hne, p, hp⟩ := hf.lineage_of_mem hds
    have hshows := (hf.mem_lineages_root_iff hp).mp hds
    exact ⟨p, hp.headD_eq hne, hp, Nat.ne_of_lt hshows.2.1⟩
  have hordered := pairwise_lineages hf.nodup depth [] tree.superRoot
  refine ⟨?_, fun p => hf.mem_heads_iff, ?_, ?_, ?_⟩
  · exact nodup_heads (fun ds => hf.lineage_of_mem) (hf.nodup_lineages depth [] _)
  all_goals
    refine List.pairwise_map.mpr (hordered.imp_of_mem fun {ds es} hds hes hearlier => ?_)
    obtain ⟨p, hpe, hp, hpr⟩ := hlineage ds hds
    obtain ⟨q, hqe, hq, hqr⟩ := hlineage es hes
    rw [hpe, hqe]
  · exact hf.precedes hp hq hearlier hqr
  · exact hf.not_climbs hp hq hearlier hpr
  · exact hf.outranks hp hq hearlier hpr hqr

section
variable {levels p : Nat} {ds : List Nat} (hp : tree.Lineage p ds) (hpr : p < tree.superRoot)
  (hlarge : minBytes ≤ 4 * tree.retainedUnits p)
include hp hlarge

include hpr

end

variable {levels p : Nat} {ds : List Nat} (hp : tree.Lineage p ds) (h0 : 0 < p) (hpr : p < tree.superRoot)
include hp h0 hpr

variable {stack : Nat → List Nat} (hstack : ∀ p, 0 < p → p ≤ tree.superRoot → tree.Lineage p (stack p))
include hstack

end Draws

end FlameGraph

variable {snapshot : Snapshot} {fresh run : Run} {traversal : Traversal} {tree : DominatorTree}

section
variable (hf : fresh.IsFresh) (ht : Traversed snapshot.graph fresh run traversal)
  (hc : Computed snapshot run traversal tree)
  (hlimit : 1 ≤ fresh.config.dominator.maxDominatorIterations)
include hf ht hc hlimit

variable (hunits : sumBelow tree.superRoot (tree.ownUnits run) (fun _ => True) < 2 ^ 32)
include hunits

end

end HeapRetention
