import HeapRetention.Proofs.CheckedWords
import HeapRetention.Proofs.RootSearch
import Mathlib.Data.List.Perm.Basic

/-! Short lists packed side by side into one list of words. They are made from entries with keys, as by a
counting sort: the entries of every key are counted, the sums of the counts tell where the words of each key
begin, and each entry then goes behind those of its key that came before. -/
namespace HeapRetention

/-- The words of each key; where they end, those of the next key begin. -/
structure PackedLists where
  offsets : Slots
  words : Slots

/-- An entry is a key with a word that belongs to it. -/
abbrev Entry := Nat × Nat

namespace PackedLists

/-- The words of a key. -/
def range (l : PackedLists) (key : Nat) : Except Crash (List Nat) := do
  let start ← l.offsets.read key
  let stop ← l.offsets.read (key + 1)
  l.words.readAll start (stop - start)

/-- Adds one to the count of each entry's key. -/
def count : Slots → List Entry → Except Crash Slots
  | counts, [] => .ok counts
  | counts, e :: rest => do
    let counts ← counts.increment e.1
    count counts rest

/-- Replaces the counts of some keys by the sums of all counts before. -/
def sumUp : (counts : Slots) → (keys : List Nat) → (sum : Nat) → Except Crash (Slots × Nat)
  | counts, [], sum => .ok (counts, sum)
  | counts, key :: keys, sum => do
    let n ← counts.read key
    let counts ← counts.store key sum
    let sum ← fit wordMax (sum + n)
    sumUp counts keys sum

/-- Puts entries behind those of their keys that are there; `cursors` has their numbers. -/
def fill : PackedLists → (cursors : Slots) → List Entry → Except Crash (PackedLists × Slots)
  | l, cursors, [] => .ok (l, cursors)
  | l, cursors, e :: rest => do
    let filled ← cursors.read e.1
    let start ← l.offsets.read e.1
    let slot ← fit wordMax (start + filled)
    let words ← l.words.store slot e.2
    let cursors ← cursors.store e.1 (filled + 1)
    fill { l with words } cursors rest

/-- Sorts the words of a key. -/
def sortRange (l : PackedLists) (key : Nat) : Except Crash PackedLists := do
  let vs ← l.range key
  if vs.length ≤ 1 then return l
  let start ← l.offsets.read key
  let words ← l.words.storeAll start (vs.mergeSort fun a b => a ≤ b)
  return { l with words }

/-- Sorts the words of some keys. -/
def sortRanges : PackedLists → (keys : List Nat) → Except Crash PackedLists
  | l, [] => .ok l
  | l, key :: keys => do
    let l ← l.sortRange key
    sortRanges l keys

/-- A key has some words. -/
structure Holds (l : PackedLists) (key : Nat) (vs : List Nat) : Prop where
  capacity : key + 1 < l.offsets.capacity
  stop : l.offsets.get (key + 1) = l.offsets.get key + vs.length
  within : l.offsets.get (key + 1) ≤ l.words.capacity
  words : ∀ i v, vs[i]? = some v → l.words.get (l.offsets.get key + i) = v

variable {l : PackedLists} {counts cursors : Slots} {entries done rest : List Entry} {key keys start n : Nat}
  {vs : List Nat}

theorem Holds.range_ok (h : l.Holds key vs) : l.range key = .ok vs := by
  have hcapacity := h.capacity
  have hread := @Slots.readAll_ok l.words (l.offsets.get key) vs.length (by rw [← h.stop]; exact h.within)
  have hvs : (List.range' (l.offsets.get key) vs.length).map l.words.get = vs := by
    apply List.ext_getElem?
    intro i
    rw [List.getElem?_map]
    by_cases hi : i < vs.length
    · rw [List.getElem?_range' hi, List.getElem?_eq_getElem hi, Option.map_some, Nat.one_mul,
        h.words i _ (List.getElem?_eq_getElem hi)]
    · rw [List.getElem?_eq_none (Nat.not_lt.mp hi), List.getElem?_eq_none, Option.map_none]
      rw [List.length_range']
      exact Nat.not_lt.mp hi
  unfold range
  rw [Slots.read_ok (by omega), ok_bind, Slots.read_ok hcapacity, ok_bind, h.stop, Nat.add_sub_cancel_left,
    hread, hvs]

/-- The words of an entry's key. -/
def wordsOf (entries : List Entry) (key : Nat) : List Nat :=
  (entries.filter fun e => e.1 = key).map Prod.snd

/-- The number of entries with lesser keys. -/
def ahead (entries : List Entry) (key : Nat) : Nat :=
  entries.countP fun e => e.1 < key

theorem wordsOf_append (done rest : List Entry) (key : Nat) :
    wordsOf (done ++ rest) key = wordsOf done key ++ wordsOf rest key := by
  unfold wordsOf
  rw [List.filter_append, List.map_append]

theorem wordsOf_cons (e : Entry) (rest : List Entry) (key : Nat) :
    wordsOf (e :: rest) key = (if e.1 = key then [e.2] else []) ++ wordsOf rest key := by
  unfold wordsOf
  rw [List.filter_cons]
  by_cases he : e.1 = key
  · simp only [he, decide_true, if_true, List.map_cons, List.cons_append, List.nil_append]
  · simp only [he, decide_false, Bool.false_eq_true, if_false, List.nil_append]

/-- The word of the latest entry comes behind those of its key. -/
theorem wordsOf_concat (done : List Entry) (e : Entry) (key : Nat) :
    wordsOf (done ++ [e]) key = if e.1 = key then wordsOf done key ++ [e.2] else wordsOf done key := by
  rw [wordsOf_append, wordsOf_cons]
  split
  · rfl
  · exact List.append_nil _

theorem ahead_succ (entries : List Entry) (key : Nat) :
    ahead entries (key + 1) = ahead entries key + (wordsOf entries key).length := by
  unfold ahead
  induction entries with
  | nil => rfl
  | cons e rest ih =>
    rw [List.countP_cons, List.countP_cons, ih, wordsOf_cons, List.length_append]
    by_cases he : e.1 = key
    · simp only [he, Nat.lt_succ_self, decide_true, if_true, Nat.lt_irrefl, decide_false, Bool.false_eq_true,
        if_false, List.length_singleton]
      omega
    · have hiff : e.1 < key + 1 ↔ e.1 < key := by omega
      simp only [hiff, he, if_false, List.length_nil]
      omega

theorem ahead_zero (entries : List Entry) : ahead entries 0 = 0 := by
  unfold ahead
  rw [List.countP_eq_zero]
  intro e _
  simp only [Nat.not_lt_zero, decide_false, Bool.false_eq_true, not_false_eq_true]

theorem ahead_le_length (entries : List Entry) (key : Nat) : ahead entries key ≤ entries.length :=
  List.countP_le_length

theorem ahead_mono (entries : List Entry) {key other : Nat} (h : key ≤ other) :
    ahead entries key ≤ ahead entries other := by
  apply List.countP_mono_left
  intro e _ he
  rw [decide_eq_true_iff] at he ⊢
  omega

/-- The words of the keys lie side by side, so every place among them belongs to one key. -/
theorem exists_key {entries : List Entry} {first last i : Nat} (hfirst : ahead entries first ≤ i)
    (hlast : i < ahead entries last) :
    ∃ key, first ≤ key ∧ key < last ∧ ahead entries key ≤ i ∧ i < ahead entries (key + 1) := by
  induction last with
  | zero =>
    rw [ahead_zero] at hlast
    exact absurd hlast (Nat.not_lt_zero i)
  | succ last ih =>
    by_cases hi : i < ahead entries last
    · obtain ⟨key, hge, hlt, hplace⟩ := ih hi
      exact ⟨key, hge, Nat.lt_succ_of_lt hlt, hplace⟩
    · refine ⟨last, ?_, Nat.lt_succ_self last, Nat.not_lt.mp hi, hlast⟩
      by_contra hlt
      have hmono := ahead_mono entries (show last + 1 ≤ first by omega)
      omega

theorem key_unique {entries : List Entry} {a b i : Nat} (ha : ahead entries a ≤ i ∧ i < ahead entries (a + 1))
    (hb : ahead entries b ≤ i ∧ i < ahead entries (b + 1)) : a = b := by
  rcases Nat.lt_trichotomy a b with hlt | heq | hgt
  · have hmono := ahead_mono entries (show a + 1 ≤ b from hlt)
    omega
  · exact heq
  · have hmono := ahead_mono entries (show b + 1 ≤ a from hgt)
    omega

theorem get_increment {e : Entry} (hkey : e.1 < counts.capacity) (rest : List Entry) (key : Nat) :
    (counts.put e.1 (counts.get e.1 + 1)).get key + (wordsOf rest key).length =
      counts.get key + (wordsOf (e :: rest) key).length := by
  rw [wordsOf_cons, List.length_append]
  by_cases he : e.1 = key
  · rw [if_pos he, List.length_singleton, ← he, Slots.get_put_self hkey]
    omega
  · rw [if_neg he, List.length_nil, Slots.get_put_of_ne he, Nat.zero_add]

/-- Every key's count grows by the number of its entries. -/
theorem count_ok (hkeys : ∀ e ∈ entries, e.1 < counts.capacity)
    (hroom : ∀ e ∈ entries, counts.get e.1 + (wordsOf entries e.1).length ≤ wordMax) :
    ∃ counts', count counts entries = .ok counts' ∧ counts'.capacity = counts.capacity ∧
      ∀ key, counts'.get key = counts.get key + (wordsOf entries key).length := by
  induction entries generalizing counts with
  | nil => exact ⟨counts, rfl, rfl, fun _ => rfl⟩
  | cons e rest ih =>
    have hkey : e.1 < counts.capacity := hkeys e List.mem_cons_self
    have hmore := get_increment hkey rest
    have hfull : counts.get e.1 < wordMax := by
      have hone := hroom e List.mem_cons_self
      rw [← hmore, Slots.get_put_self hkey] at hone
      omega
    obtain ⟨counts', hrest, hcapacity, hget⟩ := @ih (counts.put e.1 (counts.get e.1 + 1))
      (fun other hother => by rw [Slots.capacity_put]; exact hkeys other (List.mem_cons_of_mem e hother))
      fun other hother => by rw [hmore]; exact hroom other (List.mem_cons_of_mem e hother)
    rw [Slots.capacity_put] at hcapacity
    refine ⟨counts', ?_, hcapacity, fun key => by rw [hget, hmore]⟩
    rw [count, Slots.increment_ok hkey hfull, ok_bind, hrest]

theorem count_of_ok {counts' : Slots} (h : count counts entries = .ok counts') (key : Nat) :
    counts'.get key = counts.get key + (wordsOf entries key).length := by
  induction entries generalizing counts with
  | nil =>
    cases h
    rfl
  | cons e rest ih =>
    obtain ⟨next, hnext, hrest⟩ := ok_of_bind h
    obtain ⟨n, hread, hstore⟩ := ok_of_bind hnext
    obtain ⟨hkey, rfl⟩ := Slots.read_of_ok hread
    obtain ⟨-, -, rfl⟩ := Slots.store_of_ok hstore
    rw [ih hrest, get_increment hkey]

/-- The sums that are stored count the entries with lesser keys. -/
theorem sumUp_of_ok {offsets : Slots} {sum : Nat}
    (hcounts : ∀ key, start ≤ key → key < start + n → counts.get key = (wordsOf entries key).length)
    (h : sumUp counts (List.range' start n) (ahead entries start) = .ok (offsets, sum)) :
    sum = ahead entries (start + n) := by
  induction n generalizing start counts with
  | zero =>
    cases h
    rfl
  | succ n ih =>
    rw [List.range'_succ] at h
    obtain ⟨len, hread, h⟩ := ok_of_bind h
    obtain ⟨next, hstore, h⟩ := ok_of_bind h
    obtain ⟨more, hfit, h⟩ := ok_of_bind h
    obtain ⟨-, rfl⟩ := Slots.read_of_ok hread
    obtain ⟨-, -, rfl⟩ := Slots.store_of_ok hstore
    obtain ⟨-, rfl⟩ := fit_of_ok hfit
    rw [hcounts start (Nat.le_refl start) (by omega), ← ahead_succ] at h
    rw [ih _ h, Nat.add_right_comm]
    · rfl
    · intro key hkey hlt
      rw [Slots.get_put_of_ne (by omega)]
      exact hcounts key (by omega) (by omega)

/-- From the counts of the entries the offsets are found, up to a key beyond all others. -/
theorem sumUp_ok (hcapacity : start + n ≤ counts.capacity) (hlength : entries.length ≤ wordMax)
    (hcounts : ∀ key, start ≤ key → key < start + n → counts.get key = (wordsOf entries key).length) :
    ∃ offsets, sumUp counts (List.range' start n) (ahead entries start) =
        .ok (offsets, ahead entries (start + n)) ∧ offsets.capacity = counts.capacity ∧
      (∀ key, start ≤ key → key < start + n → offsets.get key = ahead entries key) ∧
      ∀ key < start, offsets.get key = counts.get key := by
  -- key by key: once the count of a key is taken in, its offset is put in its place
  induction n generalizing start counts with
  | zero => exact ⟨counts, rfl, rfl, fun key hkey hlt => absurd hlt (Nat.not_lt.mpr hkey), fun _ _ => rfl⟩
  | succ n ih =>
    have hfits := ahead_le_length entries (start + 1)
    have hbefore := ahead_le_length entries start
    have hsum := ahead_succ entries start
    obtain ⟨offsets, hrest, hsame, hinside, hbelow⟩ :=
      @ih (counts.put start (ahead entries start)) (start + 1) (by rw [Slots.capacity_put]; omega)
        fun key hkey hlt => by
          rw [Slots.get_put_of_ne (by omega)]
          exact hcounts key (by omega) (by omega)
    rw [Slots.capacity_put] at hsame
    refine ⟨offsets, ?_, hsame, ?_, ?_⟩
    · have hthis := hcounts start (Nat.le_refl start) (by omega)
      rw [List.range'_succ, sumUp, Slots.read_ok (by omega), ok_bind, hthis,
        Slots.store_ok (by omega) (by omega), ok_bind, ← hsum, fit_ok (by omega), ok_bind, hrest,
        Nat.add_right_comm]
      rfl
    · intro key hkey hlt
      rcases Nat.eq_or_lt_of_le hkey with rfl | hmore
      · rw [hbelow start (Nat.lt_succ_self start), Slots.get_put_self (by omega)]
      · exact hinside key hmore (by omega)
    · intro key hkey
      rw [hbelow key (by omega), Slots.get_put_of_ne (by omega)]

/-- The lists of all entries, of which some are filled in. -/
structure Filling (entries done : List Entry) (keys : Nat) (l : PackedLists) (cursors : Slots) : Prop where
  capacity : keys < l.offsets.capacity ∧ keys ≤ cursors.capacity
  within : entries.length ≤ l.words.capacity
  offsets : ∀ key ≤ keys, l.offsets.get key = ahead entries key
  cursors : ∀ key < keys, cursors.get key = (wordsOf done key).length
  words : ∀ key < keys, ∀ i v, (wordsOf done key)[i]? = some v → l.words.get (ahead entries key + i) = v

/-- With all entries filled in, every key has its words. -/
theorem Filling.holds (h : Filling entries entries keys l cursors) (hkey : key < keys) :
    l.Holds key (wordsOf entries key) := by
  have hcapacity := h.capacity
  have hstop := ahead_succ entries key
  exact {
    capacity := by omega
    stop := by
      rw [h.offsets _ hkey, h.offsets key (Nat.le_of_lt hkey), hstop]
    within := by
      rw [h.offsets _ hkey]
      exact Nat.le_trans (ahead_le_length entries _) h.within
    words := by
      rw [h.offsets key (Nat.le_of_lt hkey)]
      exact h.words key hkey }

/-- The next entry goes to a word of its own. -/
theorem Filling.put {e : Entry} (h : Filling entries done keys l cursors)
    (hentries : done ++ e :: rest = entries) (hkey : e.1 < keys) :
    ahead entries e.1 + (wordsOf done e.1).length < entries.length ∧
    Filling entries (done ++ [e]) keys
      { l with words := l.words.put (ahead entries e.1 + (wordsOf done e.1).length) e.2 }
      (cursors.put e.1 ((wordsOf done e.1).length + 1)) := by
  have hmore : (wordsOf done e.1).length < (wordsOf entries e.1).length := by
    rw [← hentries, wordsOf_append, wordsOf_cons, if_pos rfl, List.length_append, List.length_append,
      List.length_singleton]
    omega
  have hstop := ahead_succ entries e.1
  have hend := ahead_le_length entries (e.1 + 1)
  have hcapacity := h.capacity
  have hwithin := h.within
  have hplace : ahead entries e.1 + (wordsOf done e.1).length < l.words.capacity := by omega
  exact ⟨by omega, {
    capacity := by
      rw [Slots.capacity_put]
      exact hcapacity
    within := by
      rw [Slots.capacity_put]
      exact hwithin
    offsets := h.offsets
    cursors := by
      intro key hlt
      rw [wordsOf_concat]
      by_cases he : e.1 = key
      · rw [if_pos he, ← he, Slots.get_put_self (Nat.lt_of_lt_of_le hkey hcapacity.2), List.length_append,
          List.length_singleton]
      · rw [if_neg he, Slots.get_put_of_ne he, h.cursors key hlt]
    words := by
      intro key hlt
      have hold : Row (fun i => l.words.get (ahead entries key + i)) (wordsOf done key) := h.words key hlt
      rw [wordsOf_concat]
      by_cases he : e.1 = key
      · subst he
        rw [if_pos rfl]
        refine row_append_iff.mpr ⟨hold.congr fun i hi => Slots.get_put_of_ne (by omega) _, ?_⟩
        exact row_singleton_iff.mpr (Slots.get_put_self hplace _)
      · rw [if_neg he]
        have hsub : (wordsOf done key).length ≤ (wordsOf entries key).length := by
          rw [← hentries, wordsOf_append, List.length_append]
          exact Nat.le_add_right _ _
        have hother := ahead_succ entries key
        refine hold.congr fun i hi => Slots.get_put_of_ne (fun heq => he ?_) _
        -- no place belongs to two keys
        exact @key_unique entries e.1 key (ahead entries key + i) (by omega) (by omega) }⟩

/-- Entries that come next are filled in without leaving the lists. -/
theorem Filling.fill_ok {part left : List Entry} (h : Filling entries done keys l cursors)
    (hentries : done ++ (part ++ left) = entries) (hkeys : ∀ e ∈ part, e.1 < keys)
    (hwords : ∀ e ∈ part, e.2 ≤ wordMax) (hlength : entries.length ≤ wordMax) :
    ∃ l' cursors', fill l cursors part = .ok (l', cursors') ∧ cursors'.capacity = cursors.capacity ∧
      Filling entries (done ++ part) keys l' cursors' := by
  induction part generalizing done l cursors with
  | nil =>
    rw [List.append_nil]
    exact ⟨l, cursors, rfl, rfl, h⟩
  | cons e part ih =>
    have hkey := hkeys e List.mem_cons_self
    have hcapacity := h.capacity
    have hwithin := h.within
    have hnow : done ++ e :: (part ++ left) = entries := hentries
    obtain ⟨hslot, hnext⟩ := h.put hnow hkey
    obtain ⟨l', cursors', hrest, hsame, hdone⟩ := ih hnext (by rw [List.append_assoc]; exact hentries)
      (fun other hother => hkeys other (List.mem_cons_of_mem e hother))
      fun other hother => hwords other (List.mem_cons_of_mem e hother)
    rw [Slots.capacity_put] at hsame
    rw [List.append_assoc] at hdone
    refine ⟨l', cursors', ?_, hsame, hdone⟩
    rw [fill, Slots.read_ok (by omega), ok_bind, h.cursors e.1 hkey, Slots.read_ok (by omega), ok_bind,
      h.offsets e.1 (Nat.le_of_lt hkey), fit_ok (by omega), ok_bind,
      Slots.store_ok (by omega) (hwords e List.mem_cons_self), ok_bind,
      Slots.store_ok (by omega) (by omega), ok_bind, hrest]

/-- The words of a lesser key end before those of a larger one begin. -/
theorem Holds.apart {contents : Nat → List Nat} (h : ∀ key < keys, l.Holds key (contents key)) {a b : Nat}
    (hab : a < b) (hb : b < keys) : l.offsets.get a + (contents a).length ≤ l.offsets.get b := by
  induction hab with
  | refl => exact Nat.le_of_eq (h a (Nat.lt_of_succ_lt hb)).stop.symm
  | @step b hle ih =>
    have hstop : l.offsets.get (b + 1) = _ := (h b (Nat.lt_of_succ_lt hb)).stop
    have hbefore := ih (Nat.lt_of_succ_lt hb)
    change _ ≤ l.offsets.get (b + 1)
    omega

theorem mergeSort_of_length_le_one (h : vs.length ≤ 1) : vs.mergeSort (fun a b => a ≤ b) = vs := by
  apply List.mergeSort_of_pairwise
  cases vs with
  | nil => exact List.Pairwise.nil
  | cons v vs =>
    rw [List.length_cons] at h
    rw [List.length_eq_zero_iff.mp (Nat.le_zero.mp (Nat.le_of_succ_le_succ h))]
    exact List.pairwise_singleton _ _

/-- The words of one key are sorted where they are. -/
theorem sortRange_ok {contents : Nat → List Nat} (h : ∀ key < keys, l.Holds key (contents key))
    (hwords : ∀ v ∈ contents key, v ≤ wordMax) (hkey : key < keys) :
    ∃ l', l.sortRange key = .ok l' ∧ ∀ other < keys,
      l'.Holds other (if other = key then (contents key).mergeSort fun a b => a ≤ b else contents other) := by
  have hthis := h key hkey
  have hcapacity := hthis.capacity
  unfold sortRange
  rw [hthis.range_ok, ok_bind]
  by_cases hshort : (contents key).length ≤ 1
  · rw [if_pos hshort]
    refine ⟨l, rfl, ?_⟩
    intro other hother
    split
    · next he =>
      rw [mergeSort_of_length_le_one hshort, he]
      exact hthis
    · exact h other hother
  · have hperm := List.mergeSort_perm (contents key) (fun a b => decide (a ≤ b))
    have hlength := hperm.length_eq
    have hfits := hthis.within
    rw [hthis.stop] at hfits
    obtain ⟨words, hstore, hsame, hinside, houtside⟩ := @Slots.storeAll_ok l.words (l.offsets.get key)
      ((contents key).mergeSort fun a b => a ≤ b) (by rw [hlength]; exact hfits)
      fun v hv => hwords v (hperm.mem_iff.mp hv)
    rw [hlength] at houtside
    rw [if_neg hshort, Slots.read_ok (by omega), ok_bind, hstore]
    refine ⟨_, rfl, ?_⟩
    intro other hother
    have hthat := h other hother
    refine ⟨hthat.capacity, ?_, ?_, ?_⟩
    · dsimp only
      rw [hthat.stop]
      split
      · next he => rw [hlength, he]
      · rfl
    · dsimp only
      rw [hsame]
      exact hthat.within
    · dsimp only
      split
      · next he =>
        rw [he]
        exact hinside
      -- no word of another key lies among those that are sorted
      · next he =>
        have hrow : Row (fun i => l.words.get (l.offsets.get other + i)) (contents other) := hthat.words
        refine hrow.congr fun i hi => houtside _ ?_
        rcases Nat.lt_or_gt_of_ne he with hbelow | habove
        · have := Holds.apart h hbelow hkey
          omega
        · have := Holds.apart h habove hother
          omega

theorem offsets_sortRange {l' : PackedLists} (h : l.sortRange key = .ok l') : l'.offsets = l.offsets := by
  unfold sortRange at h
  obtain ⟨vs, -, h⟩ := ok_of_bind h
  split at h
  · cases h
    rfl
  · obtain ⟨start, -, h⟩ := ok_of_bind h
    obtain ⟨words, -, h⟩ := ok_of_bind h
    cases h
    rfl

theorem offsets_sortRanges {l' : PackedLists} {part : List Nat} (h : l.sortRanges part = .ok l') :
    l'.offsets = l.offsets := by
  induction part generalizing l with
  | nil =>
    cases h
    rfl
  | cons first part ih =>
    obtain ⟨next, hnext, h⟩ := ok_of_bind h
    rw [ih h, offsets_sortRange hnext]

/-- Sorting the words of some keys leaves those of the others as they are. -/
theorem sortRanges_ok {contents : Nat → List Nat} {part : List Nat}
    (h : ∀ key < keys, l.Holds key (contents key)) (hwords : ∀ key ∈ part, ∀ v ∈ contents key, v ≤ wordMax)
    (hkeys : ∀ key ∈ part, key < keys) (hnodup : part.Nodup) :
    ∃ l', l.sortRanges part = .ok l' ∧ ∀ key < keys,
      l'.Holds key (if key ∈ part then (contents key).mergeSort fun a b => a ≤ b else contents key) := by
  -- each key comes up once, so what is sorted later leaves it alone
  induction part generalizing l contents with
  | nil =>
    refine ⟨l, rfl, ?_⟩
    intro key hkey
    rw [if_neg List.not_mem_nil]
    exact h key hkey
  | cons first part ih =>
    obtain ⟨hnot, hrest⟩ := List.nodup_cons.mp hnodup
    obtain ⟨next, hnext, hheld⟩ := sortRange_ok h (hwords first List.mem_cons_self)
      (hkeys first List.mem_cons_self)
    have hkept : ∀ key ∈ part, ¬key = first := fun key hkey he => hnot (he ▸ hkey)
    obtain ⟨l', hl', hdone⟩ := ih hheld
      (fun key hkey => by
        rw [if_neg (hkept key hkey)]
        exact hwords key (List.mem_cons_of_mem first hkey))
      (fun key hkey => hkeys key (List.mem_cons_of_mem first hkey)) hrest
    refine ⟨l', ?_, ?_⟩
    · rw [sortRanges, hnext, ok_bind, hl']
    · intro key hkey
      have hthis := hdone key hkey
      by_cases he : key = first
      · subst he
        rw [if_neg hnot, if_pos rfl] at hthis
        rwa [if_pos List.mem_cons_self]
      · simp only [he, if_false] at hthis
        simp only [List.mem_cons, he, false_or]
        exact hthis

end PackedLists
end HeapRetention
