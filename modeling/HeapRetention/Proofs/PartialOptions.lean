import HeapRetention.Options.Codec
import HeapRetention.Proofs.SkippedValues

/-! Options that are written in part. In whatever order the fields of a record come, and whatever else stands
among them, each field that is there replaces its default; so an object that keeps some fields of some options
is read as the defaults with these fields. -/
namespace HeapRetention
namespace Json

/-- The member of an object that has a name. -/
def Tree.member? : Tree → String → Option Tree
  | .object ms, name => ms.lookup name
  | _, _ => none

/-- The names of the members of an object. -/
def names {α : Type} (members : List (String × α)) : List String :=
  members.map Prod.fst

/-- Members that are left of those of an object, in any order, among others with names that it does not have;
`keep` says how the value of a member may look. -/
structure Amends (keep : Value → Tree → Prop) (whole : List (String × Value)) (part : List (String × Tree)) :
    Prop where
  kept : ∀ m ∈ part, m.1 ∈ names whole → ∃ v, (m.1, v) ∈ whole ∧ keep v m.2
  once : ((names part).filter (· ∈ names whole)).Nodup

/-- An object with members that are left of another one and with unknown ones. -/
def Value.AmendedTo (keep : Value → Tree → Prop) (v : Value) (t : Tree) : Prop :=
  ∃ whole part, v = .object whole ∧ t = .object part ∧ Amends keep whole part

/-- Some fields of a group of options are left as they are, and unknown ones are added. -/
def Value.AmendedGroup : Value → Tree → Prop :=
  Value.AmendedTo fun v t => t = v.tree

/-- Some groups of options are left, each with some of its fields, and unknown ones are added. -/
def Value.AmendedGroups : Value → Tree → Prop :=
  Value.AmendedTo Value.AmendedGroup

/-- A reader finds `x` wherever the tree `t` is spelled in front of a text that ends it. -/
def Finds {α : Type} (item : Reader α) (t : Tree) (x : α) : Prop :=
  ∀ cs rest, t.Spells cs rest → Stops rest → item cs = .ok (x, rest)

section
variable {α β : Type} {item : Reader α} {v : Value} {t : Tree} {x : α} {keep : Value → Tree → Prop}
  {whole : List (String × Value)} {part : List (String × Tree)} {key : String} {cs rest bound : List Char}
  {seen : List String} {fields : List (RecordField α)} {isFirst : Bool}

theorem Reads.finds (h : Reads item v x) : Finds item v.tree x :=
  fun cs rest ht hrest => h cs rest (Value.spells_of_tree ht) hrest

theorem finds_make {name : String} {required : Bool} {store : β → α → β} {r r' : β} (h : Finds item t x)
    (hstore : store r x = r') : Finds ((RecordField.make name required item store).update r) t r' := by
  intro cs rest ht hrest
  unfold RecordField.make
  dsimp only
  rw [bind_of_ok (h cs rest ht hrest), ← hstore]
  rfl

/-- A field that is left as it was. -/
theorem finds_field {name : String} {required : Bool} {store : β → α → β} {r r' : β} (h : Reads item v x)
    (hstore : store r x = r') (ht : t = v.tree) :
    Finds ((RecordField.make name required item store).update r) t r' := by
  rw [ht]
  exact finds_make h.finds hstore

/-- An object is what is left of it when nothing is deleted. -/
theorem amendedTo_tree (fields : List (RecordField α)) (hknown : fields.map (·.name) = names whole)
    (hnodup : (fields.map (·.name)).Nodup) (hkeep : ∀ m ∈ whole, keep m.2 m.2.tree) :
    Value.AmendedTo keep (.object whole) (Value.object whole).tree := by
  have hmembers : ∀ fs, membersOf fs = fs.map fun m => (m.1, m.2.tree) := by
    intro fs
    induction fs with
    | nil => rfl
    | cons m fs ih => exact congrArg ((m.1, m.2.tree) :: ·) ih
  rw [hknown] at hnodup
  refine ⟨whole, membersOf whole, rfl, rfl, fun m hm _ => ?_, ?_⟩
  · rw [hmembers] at hm
    obtain ⟨m, hm', rfl⟩ := List.mem_map.mp hm
    exact ⟨m.2, hm', hkeep m hm'⟩
  · have hsame : names (membersOf whole) = names whole := by
      unfold names
      rw [hmembers, List.map_map]
      rfl
    rw [hsame]
    exact hnodup.filter _

theorem Amends.tail (h : Amends keep whole ((key, t) :: part)) : Amends keep whole part := by
  refine ⟨fun m hm => h.kept m (List.mem_cons_of_mem _ hm), ?_⟩
  have honce := h.once
  unfold names at honce
  rw [List.map_cons, List.filter_cons] at honce
  split at honce
  · exact (List.nodup_cons.mp honce).2
  · exact honce

/-- A member that is known comes once. -/
theorem Amends.notMem_names (h : Amends keep whole ((key, t) :: part)) (hkey : key ∈ names whole) :
    key ∉ names part := by
  have honce := h.once
  unfold names at honce hkey
  rw [List.map_cons, List.filter_cons, if_pos (decide_eq_true hkey), List.nodup_cons] at honce
  exact fun hmem => honce.1 (List.mem_filter.mpr ⟨hmem, decide_eq_true hkey⟩)

theorem lookup_eq_none (h : key ∉ names part) : part.lookup key = none := by
  rw [List.lookup_eq_none_iff]
  intro m hm
  rw [bne_iff_ne]
  rintro rfl
  exact h (List.mem_map_of_mem hm)

/-- The record is a function of the members that were read so far. Each of its fields reads its own member,
and no other members make a difference. -/
structure Picks (fields : List (RecordField α)) (keep : Value → Tree → Prop) (whole : List (String × Value))
    (pick : (String → Option Tree) → α) : Prop where
  known : fields.map (·.name) = names whole
  optional : ∀ f ∈ fields, f.required = false
  reads : ∀ m ∈ whole, ∃ f, fields.find? (fun f => f.name == m.1) = some f ∧ ∀ get t, keep m.2 t →
    Finds (f.update (pick get)) t (pick fun name => if name = m.1 then some t else get name)
  congr : ∀ get get', (∀ name ∈ names whole, get name = get' name) → pick get = pick get'

variable {pick : (String → Option Tree) → α} {get : String → Option Tree}

theorem Picks.find?_eq_none (hp : Picks fields keep whole pick) (hkey : key ∉ names whole) :
    fields.find? (fun f => f.name == key) = none := by
  rw [List.find?_eq_none]
  intro f hf hname
  rw [← hp.known] at hkey
  exact hkey (List.mem_map.mpr ⟨f, hf, eq_of_beq hname⟩)

theorem SpellsMembers.keyAhead (h : SpellsMembers isFirst ((key, t) :: part) cs rest) :
    ∃ inner next, KeyAhead isFirst cs key inner ∧ t.Spells inner next ∧ SpellsMembers false part next rest := by
  cases h with
  | first hk hcolon ht hmore => exact ⟨_, _, keyAhead_first hk hcolon, ht, hmore⟩
  | next hcomma hk hcolon ht hmore => exact ⟨_, _, keyAhead_next hcomma hk hcolon, ht, hmore⟩

/-- A member that was just read is found before those that were read earlier. -/
theorem or_lookup_cons (hkey : key ∉ names part) (get : String → Option Tree) (name : String) :
    (part.lookup name).or (if name = key then some t else get name) =
      (((key, t) :: part).lookup name).or (get name) := by
  by_cases hsame : name = key
  · subst hsame
    rw [if_pos rfl, List.lookup_cons_self, lookup_eq_none hkey]
    rfl
  · rw [if_neg hsame, List.lookup_cons, beq_eq_false_iff_ne.mpr hsame]

/-- The members behind those that were read. The text bounds their number. -/
theorem readFields_amended (hp : Picks fields keep whole pick) (ha : Amends keep whole part)
    (hseen : ∀ name ∈ seen, name ∉ names part) (h : SpellsMembers isFirst part cs rest)
    (hbound : part.length < bound.length) : ∃ seen', readFields fields bound seen (pick get) isFirst cs =
      .ok ((seen', pick fun name => (part.lookup name).or (get name)), rest) := by
  induction part generalizing bound seen get isFirst cs with
  | nil =>
    cases bound with
    | nil => exact absurd hbound (Nat.not_lt_zero _)
    | cons b bound =>
      cases h with
      | nil h => exact ⟨seen, readFields_end h⟩
  | cons m part ih =>
    obtain ⟨key, t⟩ := m
    cases bound with
    | nil => exact absurd hbound (Nat.not_lt_zero _)
    | cons b bound =>
      have hless : part.length < bound.length := Nat.lt_of_succ_lt_succ hbound
      have hlater : ∀ name ∈ seen, name ∉ names part := fun name hname hmem =>
        hseen name hname (List.mem_cons_of_mem _ hmem)
      obtain ⟨inner, next, hahead, ht, hmore⟩ := h.keyAhead
      -- behind the key its field is read, or its value is skipped
      by_cases hknown : key ∈ names whole
      · obtain ⟨v, hv, hkeep⟩ := ha.kept _ List.mem_cons_self hknown
        obtain ⟨f, hf, hread⟩ := hp.reads _ hv
        have hfound := List.find?_some hf
        have hname : f.name = key := eq_of_beq hfound
        have hnew : seen.contains f.name = false := by
          rw [List.contains_eq_mem, decide_eq_false_iff_not, hname]
          exact fun hmem => hseen key hmem List.mem_cons_self
        have hseen' : ∀ name ∈ f.name :: seen, name ∉ names part := by
          rw [List.forall_mem_cons, hname]
          exact ⟨ha.notMem_names hknown, hlater⟩
        rw [readFields_known hahead hf hnew (hread get t hkeep _ _ ht hmore.stops)]
        obtain ⟨seen', hrest⟩ := @ih next bound (f.name :: seen) false
          (fun name => if name = key then some t else get name) ha.tail hseen' hmore hless
        simp only [or_lookup_cons (ha.notMem_names hknown)] at hrest
        exact ⟨seen', hrest⟩
      · rw [readFields_unknown hahead (hp.find?_eq_none hknown) (skipValue_spelled ht hmore.stops)]
        obtain ⟨seen', hrest⟩ := @ih next bound seen false get ha.tail hlater hmore hless
        have hpick : pick (fun name => (part.lookup name).or (get name)) =
            pick fun name => (((key, t) :: part).lookup name).or (get name) := by
          apply hp.congr
          intro name hname
          have hother : name ≠ key := fun hsame => hknown (hsame ▸ hname)
          rw [List.lookup_cons, beq_eq_false_iff_ne.mpr hother]
        rw [hpick] at hrest
        exact ⟨seen', hrest⟩

/-- An object with some of the members of a record is read as the record that these members make. -/
theorem finds_amended (title : String) (hp : Picks fields keep whole pick) (ha : Amends keep whole part) :
    Finds (readRecord title fields (pick fun _ => none)) (.object part) (pick fun name => part.lookup name) := by
  intro cs rest ht _
  cases ht with
  | @object _ inner _ _ hstart hms =>
    have hbound : part.length < ('\x7b' :: inner).length := by
      have hlength := hms.length_lt
      rw [List.length_cons]
      omega
    obtain ⟨seen, hread⟩ := @readFields_amended _ _ _ _ _ _ _ [] _ _ _ (fun _ => none) hp ha
      (fun _ hname => absurd hname List.not_mem_nil) hms hbound
    simp only [Option.or_none] at hread
    have hall : fields.find? (fun f => f.required && !seen.contains f.name) = none := by
      rw [List.find?_eq_none]
      intro f hf
      rw [hp.optional f hf, Bool.false_and]
      exact Bool.false_ne_true
    unfold readRecord
    rw [bind_of_ok (nextChar_eq hstart)]
    dsimp only
    rw [if_pos rfl, bind_of_ok hread]
    dsimp only
    rw [hall]
    rfl

end
end Json

open Json

/-! ### The groups of options -/

section
variable (has : String → Bool)

/-- The fields of a group that are kept, and the defaults of the others. -/
def TraverseOptions.keeping (o : TraverseOptions) : TraverseOptions where
  onlyStrongReferences :=
    if has "only_strong_references" then o.onlyStrongReferences else ({} : TraverseOptions).onlyStrongReferences
  includeSyntheticTreeEdges :=
    if has "include_synthetic_tree_edges" then o.includeSyntheticTreeEdges
    else ({} : TraverseOptions).includeSyntheticTreeEdges
  includeFieldInformation :=
    if has "include_field_information" then o.includeFieldInformation
    else ({} : TraverseOptions).includeFieldInformation

def PerClassOptions.keeping (o : PerClassOptions) : PerClassOptions where
  classNames := if has "class_names" then o.classNames else ({} : PerClassOptions).classNames
  includeClassList := if has "include_class_list" then o.includeClassList else ({} : PerClassOptions).includeClassList

def HistogramOptions.keeping (o : HistogramOptions) : HistogramOptions where
  includeByCount := if has "include_by_count" then o.includeByCount else ({} : HistogramOptions).includeByCount
  includeBySize := if has "include_by_size" then o.includeBySize else ({} : HistogramOptions).includeBySize
  includeSummary := if has "include_summary" then o.includeSummary else ({} : HistogramOptions).includeSummary
  classByCountLimit :=
    if has "class_by_count_limit" then o.classByCountLimit else ({} : HistogramOptions).classByCountLimit
  classBySizeLimit :=
    if has "class_by_size_limit" then o.classBySizeLimit else ({} : HistogramOptions).classBySizeLimit

def DominatorOptions.keeping (o : DominatorOptions) : DominatorOptions where
  includeDominatorTree :=
    if has "include_dominator_tree" then o.includeDominatorTree else ({} : DominatorOptions).includeDominatorTree
  minNodeSize := if has "min_node_size" then o.minNodeSize else ({} : DominatorOptions).minNodeSize
  maxDepth := if has "max_depth" then o.maxDepth else ({} : DominatorOptions).maxDepth
  maxDominatorIterations :=
    if has "max_dominator_iterations" then o.maxDominatorIterations
    else ({} : DominatorOptions).maxDominatorIterations
  diskSpaceThreshold :=
    if has "disk_space_threshold" then o.diskSpaceThreshold else ({} : DominatorOptions).diskSpaceThreshold
  headLimit := if has "head_limit" then o.headLimit else ({} : DominatorOptions).headLimit

def MetaOptions.keeping (o : MetaOptions) : MetaOptions where
  included := if has "include" then o.included else ({} : MetaOptions).included

end

/-- The fields of the options that are kept, group by group, and the defaults of the others. -/
def AnalysisConfig.keeping (has : String → String → Bool) (c : AnalysisConfig) : AnalysisConfig where
  traverse := c.traverse.keeping (has "traverse")
  perClass := c.perClass.keeping (has "per_class")
  histogram := c.histogram.keeping (has "histogram")
  dominator := c.dominator.keeping (has "dominator")
  metaInfo := c.metaInfo.keeping (has "meta_info")

/-- The numbers of some options are words of 64 bits. -/
structure AnalysisConfig.Sized (c : AnalysisConfig) : Prop where
  classByCountLimit : c.histogram.classByCountLimit < powerOfTwo 64
  classBySizeLimit : c.histogram.classBySizeLimit < powerOfTwo 64
  minNodeSize : c.dominator.minNodeSize < powerOfTwo 64
  maxDepth : c.dominator.maxDepth < powerOfTwo 64
  maxDominatorIterations : c.dominator.maxDominatorIterations < powerOfTwo 64
  diskSpaceThreshold : c.dominator.diskSpaceThreshold < powerOfTwo 64
  headLimit : c.dominator.headLimit < powerOfTwo 64

/-- Whether a tree has a field in a group. -/
def Json.Tree.has (t : Tree) (group field : String) : Bool :=
  ((t.member? group).bind fun o => o.member? field).isSome

/-- A group with some of its fields is read as the defaults with these fields. -/
theorem finds_group {α : Type} {fields : List (RecordField α)} {whole : List (String × Value)} {t : Tree}
    (title : String) (keeping : (String → Bool) → α) (ha : Value.AmendedGroup (.object whole) t)
    (hp : Picks fields (fun v t => t = v.tree) whole fun get => keeping fun name => (get name).isSome) :
    Finds (readRecord title fields (keeping fun _ => false)) t (keeping fun name => (t.member? name).isSome) := by
  obtain ⟨_, part, ⟨⟩, rfl, ha⟩ := ha
  exact finds_amended title hp ha

theorem TraverseOptions.picks (o : TraverseOptions) : Picks fields (fun v t => t = v.tree)
    [("only_strong_references", .boolean o.onlyStrongReferences),
      ("include_synthetic_tree_edges", .boolean o.includeSyntheticTreeEdges),
      ("include_field_information", .boolean o.includeFieldInformation)]
    fun get => o.keeping fun name => (get name).isSome where
  known := rfl
  optional := by simp [fields, RecordField.make]
  reads := by
    simp only [List.forall_mem_cons, List.not_mem_nil, false_implies, implies_true, and_true]
    exact ⟨⟨_, rfl, fun _ _ => finds_field (reads_boolean _) rfl⟩,
      ⟨_, rfl, fun _ _ => finds_field (reads_boolean _) rfl⟩,
      ⟨_, rfl, fun _ _ => finds_field (reads_boolean _) rfl⟩⟩
  congr := by
    intro get get' h
    simp only [names, List.map_cons, List.map_nil, List.forall_mem_cons] at h
    simp only [keeping, h]

theorem PerClassOptions.picks (o : PerClassOptions) : Picks fields (fun v t => t = v.tree)
    [("class_names", .ofList .string o.classNames), ("include_class_list", .boolean o.includeClassList)]
    fun get => o.keeping fun name => (get name).isSome where
  known := rfl
  optional := by simp [fields, RecordField.make]
  reads := by
    simp only [List.forall_mem_cons, List.not_mem_nil, false_implies, implies_true, and_true]
    exact ⟨⟨_, rfl, fun _ _ => finds_field (reads_list fun s _ => reads_string s) rfl⟩,
      ⟨_, rfl, fun _ _ => finds_field (reads_boolean _) rfl⟩⟩
  congr := by
    intro get get' h
    simp only [names, List.map_cons, List.map_nil, List.forall_mem_cons] at h
    simp only [keeping, h]

theorem HistogramOptions.picks {o : HistogramOptions} (hcount : o.classByCountLimit < powerOfTwo 64)
    (hsize : o.classBySizeLimit < powerOfTwo 64) : Picks fields (fun v t => t = v.tree)
    [("include_by_count", .boolean o.includeByCount), ("include_by_size", .boolean o.includeBySize),
      ("include_summary", .boolean o.includeSummary), ("class_by_count_limit", .number o.classByCountLimit),
      ("class_by_size_limit", .number o.classBySizeLimit)]
    fun get => o.keeping fun name => (get name).isSome where
  known := rfl
  optional := by simp [fields, RecordField.make]
  reads := by
    simp only [List.forall_mem_cons, List.not_mem_nil, false_implies, implies_true, and_true]
    exact ⟨⟨_, rfl, fun _ _ => finds_field (reads_boolean _) rfl⟩,
      ⟨_, rfl, fun _ _ => finds_field (reads_boolean _) rfl⟩,
      ⟨_, rfl, fun _ _ => finds_field (reads_boolean _) rfl⟩,
      ⟨_, rfl, fun _ _ => finds_field (reads_word (by decide) _ hcount) rfl⟩,
      ⟨_, rfl, fun _ _ => finds_field (reads_word (by decide) _ hsize) rfl⟩⟩
  congr := by
    intro get get' h
    simp only [names, List.map_cons, List.map_nil, List.forall_mem_cons] at h
    simp only [keeping, h]

theorem DominatorOptions.picks {o : DominatorOptions} (hnode : o.minNodeSize < powerOfTwo 64)
    (hdepth : o.maxDepth < powerOfTwo 64) (hiterations : o.maxDominatorIterations < powerOfTwo 64)
    (hdisk : o.diskSpaceThreshold < powerOfTwo 64) (hhead : o.headLimit < powerOfTwo 64) :
    Picks fields (fun v t => t = v.tree)
    [("include_dominator_tree", .boolean o.includeDominatorTree), ("min_node_size", .number o.minNodeSize),
      ("max_depth", .number o.maxDepth), ("max_dominator_iterations", .number o.maxDominatorIterations),
      ("disk_space_threshold", .number o.diskSpaceThreshold), ("head_limit", .number o.headLimit)]
    fun get => o.keeping fun name => (get name).isSome where
  known := rfl
  optional := by simp [fields, RecordField.make]
  reads := by
    simp only [List.forall_mem_cons, List.not_mem_nil, false_implies, implies_true, and_true]
    exact ⟨⟨_, rfl, fun _ _ => finds_field (reads_boolean _) rfl⟩,
      ⟨_, rfl, fun _ _ => finds_field (reads_word (by decide) _ hnode) rfl⟩,
      ⟨_, rfl, fun _ _ => finds_field (reads_word (by decide) _ hdepth) rfl⟩,
      ⟨_, rfl, fun _ _ => finds_field (reads_word (by decide) _ hiterations) rfl⟩,
      ⟨_, rfl, fun _ _ => finds_field (reads_word (by decide) _ hdisk) rfl⟩,
      ⟨_, rfl, fun _ _ => finds_field (reads_word (by decide) _ hhead) rfl⟩⟩
  congr := by
    intro get get' h
    simp only [names, List.map_cons, List.map_nil, List.forall_mem_cons] at h
    simp only [keeping, h]

theorem MetaOptions.picks (o : MetaOptions) : Picks fields (fun v t => t = v.tree)
    [("include", .boolean o.included)] fun get => o.keeping fun name => (get name).isSome where
  known := rfl
  optional := by simp [fields, RecordField.make]
  reads := by
    simp only [List.forall_mem_cons, List.not_mem_nil, false_implies, implies_true, and_true]
    exact ⟨_, rfl, fun _ _ => finds_field (reads_boolean _) rfl⟩
  congr := by
    intro get get' h
    simp only [names, List.map_cons, List.map_nil, List.forall_mem_cons] at h
    simp only [keeping, h]

namespace AnalysisConfig
variable {c : AnalysisConfig} {t : Tree} {text : String}

/-- Each group fills its place among the options. -/
theorem Sized.picks (h : c.Sized) : Picks fields Value.AmendedGroup
    [("traverse", c.traverse.toJson), ("per_class", c.perClass.toJson), ("histogram", c.histogram.toJson),
      ("dominator", c.dominator.toJson), ("meta_info", c.metaInfo.toJson)]
    fun get => c.keeping fun group field => ((get group).bind fun o => o.member? field).isSome where
  known := rfl
  optional := by simp [fields, RecordField.make]
  reads := by
    have hhistogram := HistogramOptions.picks h.classByCountLimit h.classBySizeLimit
    have hdominator := DominatorOptions.picks h.minNodeSize h.maxDepth h.maxDominatorIterations
      h.diskSpaceThreshold h.headLimit
    simp only [List.forall_mem_cons, List.not_mem_nil, false_implies, implies_true, and_true]
    exact ⟨⟨_, rfl, fun _ _ ha => finds_make (finds_group _ (fun has => c.traverse.keeping has) ha c.traverse.picks) rfl⟩,
      ⟨_, rfl, fun _ _ ha => finds_make (finds_group _ (fun has => c.perClass.keeping has) ha c.perClass.picks) rfl⟩,
      ⟨_, rfl, fun _ _ ha => finds_make (finds_group _ (fun has => c.histogram.keeping has) ha hhistogram) rfl⟩,
      ⟨_, rfl, fun _ _ ha => finds_make (finds_group _ (fun has => c.dominator.keeping has) ha hdominator) rfl⟩,
      ⟨_, rfl, fun _ _ ha => finds_make (finds_group _ (fun has => c.metaInfo.keeping has) ha c.metaInfo.picks) rfl⟩⟩
  congr := by
    intro get get' h
    simp only [names, List.map_cons, List.map_nil, List.forall_mem_cons] at h
    simp only [keeping, h]

theorem Sized.finds (h : c.Sized) (ha : c.toJson.AmendedGroups t) : Finds reader t (c.keeping t.has) := by
  obtain ⟨_, part, ⟨⟩, rfl, ha⟩ := ha
  exact finds_amended "AnalysisConfig" h.picks ha

theorem Sized.ofText_amended (h : c.Sized) (ha : c.toJson.AmendedGroups t) (htext : t.SpelledBy text) :
    ofText text = .ok (c.keeping t.has) := by
  obtain ⟨rest, ht, hrest⟩ := htext
  exact readDocument_of_ok (h.finds ha _ rest ht (stops_of_blank hrest)) hrest

/-- Nothing has to be deleted. -/
theorem amendedGroups_tree (c : AnalysisConfig) : c.toJson.AmendedGroups c.toJson.tree := by
  refine amendedTo_tree fields rfl (by decide) ?_
  simp only [List.forall_mem_cons, List.not_mem_nil, false_implies, implies_true, and_true]
  exact ⟨amendedTo_tree TraverseOptions.fields rfl (by decide) fun _ _ => rfl,
    amendedTo_tree PerClassOptions.fields rfl (by decide) fun _ _ => rfl,
    amendedTo_tree HistogramOptions.fields rfl (by decide) fun _ _ => rfl,
    amendedTo_tree DominatorOptions.fields rfl (by decide) fun _ _ => rfl,
    amendedTo_tree MetaOptions.fields rfl (by decide) fun _ _ => rfl⟩

/-- Where no field is missing, none has its default. -/
theorem keeping_of_all {has : String → String → Bool}
    (hall : ∀ group field, c.toJson.tree.has group field = true → has group field = true) : c.keeping has = c := by
  unfold keeping TraverseOptions.keeping PerClassOptions.keeping HistogramOptions.keeping DominatorOptions.keeping
    MetaOptions.keeping
  rw [hall "traverse" "only_strong_references" rfl, hall "traverse" "include_synthetic_tree_edges" rfl,
    hall "traverse" "include_field_information" rfl, hall "per_class" "class_names" rfl,
    hall "per_class" "include_class_list" rfl, hall "histogram" "include_by_count" rfl,
    hall "histogram" "include_by_size" rfl, hall "histogram" "include_summary" rfl,
    hall "histogram" "class_by_count_limit" rfl, hall "histogram" "class_by_size_limit" rfl,
    hall "dominator" "include_dominator_tree" rfl, hall "dominator" "min_node_size" rfl,
    hall "dominator" "max_depth" rfl, hall "dominator" "max_dominator_iterations" rfl,
    hall "dominator" "disk_space_threshold" rfl, hall "dominator" "head_limit" rfl,
    hall "meta_info" "include" rfl]
  rfl

/-- Options that are written in part are the defaults with the fields that are there. Whatever groups and
fields of the JSON of some options are deleted, in whatever order the others stand and whatever values of any
kind are added under unknown names, among the groups or within them, a text of it is read as the options whose
kept fields are as they were and whose others have their defaults. With nothing deleted these are the options
themselves, as they are from what is written of them. -/
theorem partialOptions_read (c : AnalysisConfig) (hc : c.Sized) :
    (∀ t, c.toJson.AmendedGroups t → ∀ text, t.SpelledBy text → ofText text = .ok (c.keeping t.has)) ∧
    (∀ t, c.toJson.AmendedGroups t → (∀ group field, c.toJson.tree.has group field = true → t.has group field = true) →
      ∀ text, t.SpelledBy text → ofText text = .ok c) ∧
    (∀ text, c.toJson.SpelledBy text → ofText text = .ok c) ∧
    ofText c.toJson.render = .ok c ∧ ofText c.toJson.renderPretty = .ok c := by
  have hkept : ∀ t, c.toJson.AmendedGroups t →
      (∀ group field, c.toJson.tree.has group field = true → t.has group field = true) →
      ∀ text, t.SpelledBy text → ofText text = .ok c := by
    intro t ht hall text htext
    rw [hc.ofText_amended ht htext, keeping_of_all hall]
  have hwhole : ∀ text, c.toJson.SpelledBy text → ofText text = .ok c := fun text htext =>
    hkept _ (amendedGroups_tree c) (fun _ _ h => h) text htext.tree
  exact ⟨fun t ht text => hc.ofText_amended ht, hkept, hwhole, hwhole _ c.toJson.spelledBy_render,
    hwhole _ c.toJson.spelledBy_renderPretty⟩

/-- Options with the largest numbers and a name that has to be escaped. -/
def tunedOptions : AnalysisConfig where
  traverse := { onlyStrongReferences := true, includeFieldInformation := false }
  perClass := { classNames := ["A\t\"B\"", "C"] }
  dominator := { includeDominatorTree := false, maxDepth := 18446744073709551615, headLimit := 1 }

/-- The number -1.5e+30. -/
def debt : Literal where
  negative := true
  whole := ['1']
  fraction? := some ['5']
  exponent? := some (true, ['3', '0'])
  whole_digits := by simp [Digits, isDigit]
  whole_short := nofun
  fraction_digits := by simp [Digits, isDigit]
  exponent_digits := by simp [Digits, isDigit]

/-- Some of their fields, in another order and with a value of another kind between them. -/
def trimmedDominator : Tree :=
  .object [
    ("head_limit", (Value.number 1).tree),
    ("notes", .array [.null, .object [("head_limit", .array [])], .string "\x01"]),
    ("max_depth", (Value.number 18446744073709551615).tree)]

def trimmedPerClass : Tree :=
  .object [
    ("traverse", .null),
    ("class_names", (Value.ofList Value.string ["A\t\"B\"", "C"]).tree)]

/-- Two of the groups, among unknown members with names from elsewhere. -/
def trimmedOptions : Tree :=
  .object [
    ("max_depth", .number debt),
    ("dominator", trimmedDominator),
    ("max_depth", .boolean true),
    ("per_class", trimmedPerClass)]

theorem partialOptions_read_trimmedOptions : tunedOptions.Sized ∧ tunedOptions.toJson.AmendedGroups trimmedOptions ∧
    trimmedOptions.SpelledBy trimmedOptions.render ∧
    ofText trimmedOptions.render = .ok { ({} : AnalysisConfig) with
      perClass := { classNames := ["A\t\"B\"", "C"] }
      dominator := { maxDepth := 18446744073709551615, headLimit := 1 } } ∧
    ofText tunedOptions.toJson.render = .ok tunedOptions := by
  have hsized : tunedOptions.Sized := by
    constructor <;> decide
  have hdominator : tunedOptions.dominator.toJson.AmendedGroup trimmedDominator := by
    refine ⟨_, _, rfl, rfl, ?_, by decide⟩
    rintro m (_ | ⟨_, _ | ⟨_, _ | ⟨_, ⟨⟩⟩⟩⟩) hname
    · exact ⟨.number tunedOptions.dominator.headLimit, by simp, rfl⟩
    · exact absurd hname (by decide)
    · exact ⟨.number tunedOptions.dominator.maxDepth, by simp, rfl⟩
  have hperClass : tunedOptions.perClass.toJson.AmendedGroup trimmedPerClass := by
    refine ⟨_, _, rfl, rfl, ?_, by decide⟩
    rintro m (_ | ⟨_, _ | ⟨_, ⟨⟩⟩⟩) hname
    · exact absurd hname (by decide)
    · exact ⟨.ofList .string tunedOptions.perClass.classNames, by simp, rfl⟩
  have hamended : tunedOptions.toJson.AmendedGroups trimmedOptions := by
    refine ⟨_, _, rfl, rfl, ?_, by decide⟩
    rintro m (_ | ⟨_, _ | ⟨_, _ | ⟨_, _ | ⟨_, ⟨⟩⟩⟩⟩⟩) hname
    · exact absurd hname (by decide)
    · exact ⟨tunedOptions.dominator.toJson, by simp, hdominator⟩
    · exact absurd hname (by decide)
    · exact ⟨tunedOptions.perClass.toJson, by simp, hperClass⟩
  obtain ⟨hread, -, -, hwhole, -⟩ := partialOptions_read tunedOptions hsized
  exact ⟨hsized, hamended, trimmedOptions.spelledBy_render,
    hread _ hamended _ trimmedOptions.spelledBy_render, hwhole⟩

end AnalysisConfig

end HeapRetention
