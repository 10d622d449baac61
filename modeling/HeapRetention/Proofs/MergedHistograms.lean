import HeapRetention.Proofs.HeapConservation
import Mathlib.Data.List.Nodup
import Mathlib.Data.String.Basic

/-! Merging histograms. The order of entries is a total one, so a histogram is determined by what its entries
are, in whatever order they come; and collecting entries class by class leaves each class with all that was
counted of it. Entries that count the same thus merge to one and the same histogram. -/
namespace HeapRetention

/-- An entry comes before another one: it has more instances, or as many and more bytes, or as many of both
and a lesser name. -/
def HistogramEntry.Outranks (a b : HistogramEntry) : Prop :=
  b.instances < a.instances ∨
    a.instances = b.instances ∧ (b.bytes < a.bytes ∨ a.bytes = b.bytes ∧ a.className < b.className)

/-- The instances and bytes of an entry. -/
def HistogramEntry.stock (e : HistogramEntry) : Nat × Nat :=
  (e.instances, e.bytes)

namespace Histogram

/-- The totals of some entries fit 64 bits. -/
def Fits (entries : List HistogramEntry) : Prop :=
  total (entries.map (·.instances)) ≤ longMax ∧ total (entries.map (·.bytes)) ≤ longMax

instance (entries : List HistogramEntry) : Decidable (Fits entries) :=
  inferInstanceAs (Decidable (_ ∧ _))

/-- The class names of some entries. -/
def names (entries : List HistogramEntry) : List String :=
  entries.map (·.className)

/-- What some entries have under the class names that satisfy `p`. -/
def stockWhere (p : String → Bool) (entries : List HistogramEntry) : Nat × Nat :=
  ((entries.filter fun e => p e.className).map fun e => e.stock).sum

/-- The entries of some classes, each class once, as merging collects them. -/
def collect (entries : List HistogramEntry) : List HistogramEntry :=
  entries.foldl (fun acc e => addEntry e acc) []

/-- A histogram of some entries. -/
def sorted (entries : List HistogramEntry) : Histogram :=
  ⟨entries.mergeSort HistogramEntry.before, total (entries.map (·.instances)), total (entries.map (·.bytes))⟩

/-- Two lists of entries have the same class names and under each of them the same. -/
structure Alike (first second : List HistogramEntry) : Prop where
  mem : ∀ name, name ∈ names first ↔ name ∈ names second
  stock : ∀ p, stockWhere p first = stockWhere p second

/-- A histogram has the classes of two others, each of them once with all that both have of it, in order. -/
structure IsSum (a b sum : Histogram) : Prop where
  nodup : (names sum.entries).Nodup
  mem : ∀ name, name ∈ names sum.entries ↔ name ∈ names a.entries ∨ name ∈ names b.entries
  stock : ∀ e ∈ sum.entries, e.stock = a.stockUnder e.className + b.stockUnder e.className
  ordered : sum.entries.Pairwise HistogramEntry.Outranks
  totals : sum.stock = a.stock + b.stock

end Histogram

/-! ### The order of entries -/

namespace HistogramEntry
variable {a b c : HistogramEntry}

theorem before_iff : before a b = true ↔ a.Outranks b ∨ a = b := by
  obtain ⟨name, instances, bytes⟩ := a
  obtain ⟨name', instances', bytes'⟩ := b
  unfold before Outranks
  dsimp only
  rw [mk.injEq]
  by_cases hinstances : instances = instances'
  · rw [if_neg (not_not.mpr hinstances)]
    by_cases hbytes : bytes = bytes'
    · rw [if_neg (not_not.mpr hbytes), Bool.not_eq_true', decide_eq_false_iff_not, not_lt, le_iff_lt_or_eq]
      subst hinstances hbytes
      simp only [Nat.lt_irrefl, false_or, true_and, and_true]
    · rw [if_pos hbytes, decide_eq_true_iff]
      omega
  · rw [if_pos hinstances, decide_eq_true_iff]
    omega

theorem Outranks.trans (hab : a.Outranks b) (hbc : b.Outranks c) : a.Outranks c := by
  unfold Outranks at *
  rcases hab with hab | ⟨hab, hab' | ⟨hab', hname⟩⟩ <;> rcases hbc with hbc | ⟨hbc, hbc' | ⟨hbc', hname'⟩⟩
  all_goals try omega
  exact Or.inr ⟨hab.trans hbc, Or.inr ⟨hab'.trans hbc', lt_trans hname hname'⟩⟩

theorem Outranks.irrefl (a : HistogramEntry) : ¬ a.Outranks a := by
  rintro (h | ⟨-, h | ⟨-, h⟩⟩)
  · exact Nat.lt_irrefl _ h
  · exact Nat.lt_irrefl _ h
  · exact lt_irrefl _ h

/-- Entries that differ at all are in order one way or the other. -/
theorem outranks_or_eq (a b : HistogramEntry) : a.Outranks b ∨ a = b ∨ b.Outranks a := by
  obtain ⟨name, instances, bytes⟩ := a
  obtain ⟨name', instances', bytes'⟩ := b
  unfold Outranks
  dsimp only
  rcases Nat.lt_trichotomy instances instances' with h | rfl | h
  · exact Or.inr (Or.inr (Or.inl h))
  · rcases Nat.lt_trichotomy bytes bytes' with h | rfl | h
    · exact Or.inr (Or.inr (Or.inr ⟨rfl, Or.inl h⟩))
    · rcases lt_trichotomy name name' with h | rfl | h
      · exact Or.inl (Or.inr ⟨rfl, Or.inr ⟨rfl, h⟩⟩)
      · exact Or.inr (Or.inl rfl)
      · exact Or.inr (Or.inr (Or.inr ⟨rfl, Or.inr ⟨rfl, h⟩⟩))
    · exact Or.inl (Or.inr ⟨rfl, Or.inl h⟩)
  · exact Or.inl (Or.inl h)

theorem pairwise_before (entries : List HistogramEntry) :
    (entries.mergeSort before).Pairwise fun a b => before a b = true := by
  refine List.pairwise_mergeSort (fun a b c hab hbc => ?_) (fun a b => ?_) entries
  · rw [before_iff] at hab hbc ⊢
    rcases hab with hab | rfl
    · rcases hbc with hbc | rfl
      · exact Or.inl (hab.trans hbc)
      · exact Or.inl hab
    · exact hbc
  · rw [Bool.or_eq_true, before_iff, before_iff]
    rcases outranks_or_eq a b with h | h | h
    · exact Or.inl (Or.inl h)
    · exact Or.inl (Or.inr h)
    · exact Or.inr (Or.inl h)

theorem pairwise_outranks {entries : List HistogramEntry} (hnodup : entries.Nodup) :
    (entries.mergeSort before).Pairwise Outranks := by
  have hdistinct := (List.mergeSort_perm entries before).nodup_iff.mpr hnodup
  exact ((pairwise_before entries).and hdistinct).imp fun ⟨h, hne⟩ => (before_iff.mp h).resolve_right hne

/-- Sorting forgets in which order the entries came. -/
theorem mergeSort_before_perm {first second : List HistogramEntry} (h : first.Perm second) :
    first.mergeSort before = second.mergeSort before := by
  refine List.Perm.eq_of_pairwise (fun a b _ _ hab hba => ?_) (pairwise_before first) (pairwise_before second) ?_
  · rw [before_iff] at hab hba
    rcases hab with hab | hab
    · rcases hba with hba | hba
      · exact absurd (hab.trans hba) (Outranks.irrefl a)
      · exact hba.symm
    · exact hab
  · exact (List.mergeSort_perm first before).trans (h.trans (List.mergeSort_perm second before).symm)

end HistogramEntry

namespace Histogram
variable {first second third entries : List HistogramEntry} {a b : Histogram} {p : String → Bool} {name : String}

/-! ### What entries count -/

theorem stockWhere_cons (e : HistogramEntry) (entries : List HistogramEntry) :
    stockWhere p (e :: entries) = (if p e.className then e.stock else 0) + stockWhere p entries := by
  unfold stockWhere
  rw [List.filter_cons]
  split
  · rw [List.map_cons, List.sum_cons]
  · rw [zero_add]

theorem stockWhere_append : stockWhere p (first ++ second) = stockWhere p first + stockWhere p second := by
  unfold stockWhere
  rw [List.filter_append, List.map_append, List.sum_append]

theorem stockWhere_true (entries : List HistogramEntry) : stockWhere (fun _ => true) entries =
    (total (entries.map (·.instances)), total (entries.map (·.bytes))) := by
  unfold stockWhere
  rw [List.filter_true, total_eq_sum, total_eq_sum]
  exact sum_pairs _ _ _

/-- An entry has all of its class where no other one has its name. -/
theorem stockWhere_name (hnodup : (names entries).Nodup) {e : HistogramEntry} (he : e ∈ entries) :
    stockWhere (· == e.className) entries = e.stock := by
  have hother : ∀ rest : List HistogramEntry, e.className ∉ names rest → stockWhere (· == e.className) rest = 0 := by
    intro rest hrest
    unfold stockWhere
    rw [List.filter_eq_nil_iff.mpr]
    · rfl
    · intro f hf hname
      exact hrest (eq_of_beq hname ▸ List.mem_map_of_mem hf)
  induction entries with
  | nil => exact absurd he List.not_mem_nil
  | cons f entries ih =>
    obtain ⟨hf, hnodup⟩ := List.nodup_cons.mp hnodup
    rw [stockWhere_cons]
    rcases List.mem_cons.mp he with rfl | he
    · rw [if_pos (beq_self_eq_true _), hother entries hf, add_zero]
    · have hne : f.className ≠ e.className := by
        intro hsame
        exact hf (List.mem_map.mpr ⟨e, he, hsame.symm⟩)
      rw [if_neg (by rwa [beq_iff_eq]), zero_add]
      exact ih hnodup he

namespace Alike

theorem symm (h : Alike first second) : Alike second first :=
  ⟨fun name => (h.mem name).symm, fun p => (h.stock p).symm⟩

theorem trans (h : Alike first second) (h' : Alike second third) : Alike first third :=
  ⟨fun name => (h.mem name).trans (h'.mem name), fun p => (h.stock p).trans (h'.stock p)⟩

theorem of_perm (h : first.Perm second) : Alike first second :=
  ⟨fun _ => (h.map _).mem_iff, fun _ => ((h.filter _).map _).sum_eq⟩

theorem append {first' second' : List HistogramEntry} (h : Alike first first') (h' : Alike second second') :
    Alike (first ++ second) (first' ++ second') := by
  constructor
  · intro name
    unfold names
    rw [List.map_append, List.map_append, List.mem_append, List.mem_append]
    exact or_congr (h.mem name) (h'.mem name)
  · intro p
    rw [stockWhere_append, stockWhere_append, h.stock, h'.stock]

theorem totals (h : Alike first second) : total (first.map (·.instances)) = total (second.map (·.instances)) ∧
    total (first.map (·.bytes)) = total (second.map (·.bytes)) := by
  have hall := h.stock fun _ => true
  rw [stockWhere_true, stockWhere_true] at hall
  exact Prod.mk.inj hall

/-- Where each class has one entry, the entries are the same. -/
theorem perm (h : Alike first second) (hfirst : (names first).Nodup) (hsecond : (names second).Nodup) :
    first.Perm second := by
  have hsub : ∀ {first second}, Alike first second → (names first).Nodup → (names second).Nodup →
      ∀ e ∈ first, e ∈ second := by
    intro first second h hfirst hsecond e he
    obtain ⟨f, hf, hname⟩ := List.mem_map.mp ((h.mem e.className).mp (List.mem_map_of_mem he))
    have hstock : f.stock = e.stock := by
      rw [← stockWhere_name hfirst he, h.stock, ← hname, stockWhere_name hsecond hf]
    obtain ⟨hinstances, hbytes⟩ := Prod.mk.inj hstock
    have heq : f = e := by
      cases f
      cases e
      cases hname
      cases hinstances
      cases hbytes
      rfl
    exact heq ▸ hf
  rw [List.perm_ext_iff_of_nodup (hfirst.of_map _) (hsecond.of_map _)]
  exact fun e => ⟨hsub h hfirst hsecond e, hsub h.symm hsecond hfirst e⟩

end Alike

/-! ### Collecting entries class by class -/

theorem mem_names_addEntry (e : HistogramEntry) (acc : List HistogramEntry) :
    name ∈ names (addEntry e acc) ↔ name ∈ names (e :: acc) := by
  induction acc with
  | nil => exact Iff.rfl
  | cons f acc ih =>
    unfold names at ih ⊢
    rw [addEntry]
    split
    · next hsame =>
      rw [List.map_cons, List.map_cons, List.map_cons, hsame, List.mem_cons, List.mem_cons, List.mem_cons,
        or_self_left]
    · rw [List.map_cons, List.mem_cons, ih, List.map_cons, List.map_cons, List.map_cons, List.mem_cons,
        List.mem_cons, List.mem_cons, or_left_comm]

theorem nodup_names_addEntry (e : HistogramEntry) {acc : List HistogramEntry} (h : (names acc).Nodup) :
    (names (addEntry e acc)).Nodup := by
  induction acc with
  | nil => exact List.nodup_singleton _
  | cons f acc ih =>
    obtain ⟨hf, hacc⟩ := List.nodup_cons.mp h
    rw [addEntry]
    split
    · exact h
    · next hother =>
      refine List.nodup_cons.mpr ⟨fun hmem => ?_, ih hacc⟩
      rcases List.mem_cons.mp ((mem_names_addEntry e acc).mp hmem) with hname | hmem
      · exact hother hname
      · exact hf hmem

theorem stockWhere_addEntry (e : HistogramEntry) (acc : List HistogramEntry) :
    stockWhere p (addEntry e acc) = stockWhere p (e :: acc) := by
  induction acc with
  | nil => rfl
  | cons f acc ih =>
    rw [addEntry]
    split
    · next hsame =>
      rw [stockWhere_cons, stockWhere_cons, stockWhere_cons, hsame, ← add_assoc]
      split
      · rw [add_comm e.stock f.stock]
        rfl
      · rw [add_zero]
    · rw [stockWhere_cons, ih, stockWhere_cons, stockWhere_cons, stockWhere_cons, add_left_comm]

/-- Each class has one entry with all that was counted of it. -/
theorem collect_alike (entries : List HistogramEntry) :
    (names (collect entries)).Nodup ∧ Alike (collect entries) entries := by
  -- over an accumulator that has each class once
  have hfold : ∀ entries acc : List HistogramEntry, (names acc).Nodup →
      (names (entries.foldl (fun acc e => addEntry e acc) acc)).Nodup ∧
        Alike (entries.foldl (fun acc e => addEntry e acc) acc) (entries ++ acc) := by
    intro entries
    induction entries with
    | nil => exact fun acc h => ⟨h, .of_perm (List.Perm.refl _)⟩
    | cons e entries ih =>
      intro acc h
      obtain ⟨hnodup, halike⟩ := ih _ (nodup_names_addEntry e h)
      have hone : Alike (addEntry e acc) (e :: acc) :=
        ⟨fun _ => mem_names_addEntry e acc, fun _ => stockWhere_addEntry e acc⟩
      have hhere : Alike entries entries := .of_perm (List.Perm.refl _)
      exact ⟨hnodup, halike.trans ((hhere.append hone).trans (.of_perm List.perm_middle))⟩
  obtain ⟨hnodup, halike⟩ := hfold entries [] List.nodup_nil
  rw [List.append_nil] at halike
  exact ⟨hnodup, halike⟩

/-! ### Making histograms -/

theorem ofEntries_perm (h : first.Perm second) : ofEntries first = ofEntries second := by
  obtain ⟨hinstances, hbytes⟩ := (Alike.of_perm h).totals
  unfold ofEntries
  rw [HistogramEntry.mergeSort_before_perm h, hinstances, hbytes]

theorem ofEntries_ok (h : Fits entries) : ofEntries entries = .ok (sorted entries) :=
  if_neg (not_or.mpr ⟨Nat.not_lt.mpr h.1, Nat.not_lt.mpr h.2⟩)

theorem sorted_alike (entries : List HistogramEntry) : Alike (sorted entries).entries entries :=
  .of_perm (List.mergeSort_perm entries _)

theorem Alike.fits (h : Alike first second) (hfits : Fits second) : Fits first := by
  obtain ⟨hinstances, hbytes⟩ := h.totals
  unfold Fits
  rw [hinstances, hbytes]
  exact hfits

theorem fits_append (h : Fits (first ++ second)) : Fits first ∧ Fits second := by
  unfold Fits at h ⊢
  simp only [List.map_append, total_eq_sum, List.sum_append] at h ⊢
  omega

/-- A merged histogram depends on nothing but what the entries of both count together. -/
theorem merge_eq (h : Alike (a.entries ++ b.entries) entries) (hfits : Fits entries) :
    a.merge b = .ok (sorted (collect entries)) := by
  obtain ⟨hnodup, halike⟩ := collect_alike (a.entries ++ b.entries)
  obtain ⟨hnodup', halike'⟩ := collect_alike entries
  have hperm : (collect (a.entries ++ b.entries)).Perm (collect entries) :=
    (halike.trans (h.trans halike'.symm)).perm hnodup hnodup'
  calc a.merge b = ofEntries (collect (a.entries ++ b.entries)) := rfl
    _ = ofEntries (collect entries) := ofEntries_perm hperm
    _ = .ok (sorted (collect entries)) := ofEntries_ok (halike'.fits hfits)

theorem stock_sorted (entries : List HistogramEntry) : (sorted entries).stock = stockWhere (fun _ => true) entries :=
  (stockWhere_true entries).symm

theorem isSum_collect (first second : List HistogramEntry) :
    (sorted first).IsSum (sorted second) (sorted (collect (first ++ second))) := by
  obtain ⟨hnodup, halike⟩ := collect_alike (first ++ second)
  have hsorted := sorted_alike (collect (first ++ second))
  have hnames : (names (sorted (collect (first ++ second))).entries).Nodup :=
    ((List.mergeSort_perm (collect (first ++ second)) HistogramEntry.before).map _).nodup_iff.mpr hnodup
  have hboth : Alike (sorted (collect (first ++ second))).entries
      ((sorted first).entries ++ (sorted second).entries) :=
    hsorted.trans (halike.trans ((sorted_alike first).append (sorted_alike second)).symm)
  exact {
    nodup := hnames
    mem := fun name => by
      have hmem := hboth.mem name
      unfold names at hmem ⊢
      rwa [List.map_append, List.mem_append] at hmem
    stock := fun e he => by
      rw [← stockWhere_name hnames he, hboth.stock, stockWhere_append]
      rfl
    ordered := HistogramEntry.pairwise_outranks (hnodup.of_map _)
    totals := by
      rw [stock_sorted, stock_sorted, stock_sorted, halike.stock, stockWhere_append] }

/-- Merging is adding up class by class. From whatever entries two histograms are made, with repeated names
also, as long as the totals fit 64 bits the merged one has each class of the two once, with all that both have
of it, in order of instances, bytes and names. It is the same the other way round and from whatever order the
collected classes come in; merging a third one is the same before and after; and histograms of the same entries
are the same in whatever order these came. -/
theorem merge_classwise :
    (∀ first second : List HistogramEntry, first.Perm second → ofEntries first = ofEntries second) ∧
    ∀ first second : List HistogramEntry, Fits (first ++ second) →
      ∃ a b ab, ofEntries first = .ok a ∧ ofEntries second = .ok b ∧
        a.merge b = .ok ab ∧ b.merge a = .ok ab ∧ a.IsSum b ab ∧
        (∀ listed : List HistogramEntry, listed.Perm (collect (a.entries ++ b.entries)) →
          ofEntries listed = .ok ab) ∧
        ∀ third : List HistogramEntry, Fits (first ++ second ++ third) →
          ∃ c bc abc, ofEntries third = .ok c ∧ b.merge c = .ok bc ∧
            ab.merge c = .ok abc ∧ a.merge bc = .ok abc := by
  refine ⟨fun _ _ => ofEntries_perm, fun first second hfits => ?_⟩
  obtain ⟨hfirst, hsecond⟩ := fits_append hfits
  have hentries : Alike ((sorted first).entries ++ (sorted second).entries) (first ++ second) :=
    (sorted_alike first).append (sorted_alike second)
  have hmerge := merge_eq hentries hfits
  have hswapped := merge_eq ((Alike.of_perm List.perm_append_comm).trans hentries) hfits
  refine ⟨_, _, _, ofEntries_ok hfirst, ofEntries_ok hsecond, hmerge, hswapped, isSum_collect first second,
    fun listed hlisted => (ofEntries_perm hlisted).trans hmerge, fun third hall => ?_⟩
  obtain ⟨-, hrest⟩ := fits_append (List.append_assoc first second third ▸ hall)
  obtain ⟨-, hthird⟩ := fits_append hrest
  have hcollected : ∀ entries, Alike (sorted (collect entries)).entries entries :=
    fun entries => (sorted_alike _).trans (collect_alike entries).2
  refine ⟨_, _, _, ofEntries_ok hthird,
    merge_eq ((sorted_alike second).append (sorted_alike third)) hrest,
    merge_eq ((hcollected (first ++ second)).append (sorted_alike third)) hall, ?_⟩
  apply merge_eq _ hall
  rw [List.append_assoc]
  exact (sorted_alike first).append (hcollected (second ++ third))

/-- Two of the entries have one name. -/
def repeatedEntries : List HistogramEntry :=
  [⟨"A", 2, 20⟩, ⟨"B", 1, 8⟩, ⟨"A", 1, 4⟩]

/-- With these all three classes count the same. -/
def tyingEntries : List HistogramEntry :=
  [⟨"C", 3, 24⟩, ⟨"B", 2, 16⟩]

/-- With these the last one by name comes first. -/
def overtakingEntries : List HistogramEntry :=
  [⟨"C", 1, 8⟩]

theorem merge_classwise_ties :
    repeatedEntries.Perm repeatedEntries.reverse ∧ ofEntries repeatedEntries = ofEntries repeatedEntries.reverse ∧
    Fits (repeatedEntries ++ tyingEntries) ∧ Fits (repeatedEntries ++ tyingEntries ++ overtakingEntries) ∧
    ∃ a b c ab bc abc, ofEntries repeatedEntries = .ok a ∧ ofEntries tyingEntries = .ok b ∧
      ofEntries overtakingEntries = .ok c ∧ a.merge b = .ok ab ∧ b.merge a = .ok ab ∧ b.merge c = .ok bc ∧
      ab.merge c = .ok abc ∧ a.merge bc = .ok abc ∧
      ab = ⟨[⟨"A", 3, 24⟩, ⟨"B", 3, 24⟩, ⟨"C", 3, 24⟩], 9, 72⟩ ∧
      (collect (a.entries ++ b.entries)).reverse.Perm (collect (a.entries ++ b.entries)) ∧
      ofEntries (collect (a.entries ++ b.entries)).reverse = .ok ab ∧
      abc = ⟨[⟨"C", 4, 32⟩, ⟨"A", 3, 24⟩, ⟨"B", 3, 24⟩], 10, 80⟩ := by
  have hboth : Fits (repeatedEntries ++ tyingEntries) := by decide
  have hall : Fits (repeatedEntries ++ tyingEntries ++ overtakingEntries) := by decide
  have hreverse : repeatedEntries.Perm repeatedEntries.reverse := (List.reverse_perm _).symm
  obtain ⟨hperm, hmerge⟩ := merge_classwise
  obtain ⟨a, b, ab, ha, hb, hab, hba, -, hlisted, hthird⟩ := hmerge repeatedEntries tyingEntries hboth
  obtain ⟨c, bc, abc, hc, hbc, habc, habc'⟩ := hthird overtakingEntries hall
  have hsum : ab = sorted (collect (repeatedEntries ++ tyingEntries)) := by
    cases ha.symm.trans (ofEntries_ok (by decide))
    cases hb.symm.trans (ofEntries_ok (by decide))
    exact Except.ok.inj (hab.symm.trans (merge_eq ((sorted_alike _).append (sorted_alike _)) hboth))
  have hsum' : abc = sorted (collect (collect (repeatedEntries ++ tyingEntries) ++ overtakingEntries)) := by
    cases hc.symm.trans (ofEntries_ok (by decide))
    subst hsum
    exact Except.ok.inj (habc.symm.trans (merge_eq ((sorted_alike _).append (sorted_alike _)) (by decide)))
  have hvalue : ab = ⟨[⟨"A", 3, 24⟩, ⟨"B", 3, 24⟩, ⟨"C", 3, 24⟩], 9, 72⟩ := by
    have hcollect : collect (repeatedEntries ++ tyingEntries) =
        [⟨"A", 3, 24⟩, ⟨"B", 3, 24⟩, ⟨"C", 3, 24⟩] := by decide
    rw [hsum, hcollect, sorted, List.mergeSort_of_pairwise (by decide)]
    rfl
  have hvalue' : abc = ⟨[⟨"C", 4, 32⟩, ⟨"A", 3, 24⟩, ⟨"B", 3, 24⟩], 10, 80⟩ := by
    have hcollect : (collect (collect (repeatedEntries ++ tyingEntries) ++ overtakingEntries)).Perm
        [⟨"C", 4, 32⟩, ⟨"A", 3, 24⟩, ⟨"B", 3, 24⟩] := by decide
    rw [hsum', sorted, HistogramEntry.mergeSort_before_perm hcollect, List.mergeSort_of_pairwise (by decide)]
    rfl
  have hcollected := List.reverse_perm (collect (a.entries ++ b.entries))
  exact ⟨hreverse, hperm _ _ hreverse, hboth, hall, a, b, c, ab, bc, abc, ha, hb, hc, hab, hba, hbc, habc, habc',
    hvalue, hcollected, hlisted _ hcollected, hvalue'⟩

end Histogram
end HeapRetention
