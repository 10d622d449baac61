import HeapRetention.Proofs.FirstClaims
import HeapRetention.Proofs.HeapConservation
import HeapRetention.Proofs.Rankings
import HeapRetention.Proofs.RootSearch

/-! What the report says about nominated classes. The walk notes exactly the visited instances of each of
them, and the report lists the largest ones. How an object was reached is known only if roles are recorded;
without them every object passes for a root. -/
namespace HeapRetention

theorem nodup_eraseDups {α : Type} [BEq α] [LawfulBEq α] : (as : List α) → as.eraseDups.Nodup
  | [] => List.nodup_nil
  | a :: as => by
    rw [List.eraseDups_cons, List.nodup_cons]
    refine ⟨fun ha => ?_, nodup_eraseDups (as.filter fun b => !b == a)⟩
    rw [List.mem_eraseDups, List.mem_filter, beq_self_eq_true] at ha
    exact absurd ha.2 (by decide)
  termination_by as => as.length
  decreasing_by exact Nat.lt_succ_of_le (List.length_filter_le _ _)

/-- A key whose entries all agree is looked up with success. -/
theorem lookup_of_agree {α β : Type} [BEq α] [LawfulBEq α] {l : List (α × β)} {k : α} {v : β}
    (hmem : (k, v) ∈ l) (hagree : ∀ v', (k, v') ∈ l → v' = v) : l.lookup k = some v := by
  cases hl : l.lookup k with
  | none =>
    have hne := List.lookup_eq_none_iff.mp hl (k, v) hmem
    simp at hne
  | some v' =>
    obtain ⟨before, after, rfl, -⟩ := List.lookup_eq_some_iff.mp hl
    rw [hagree v' (List.mem_append_right before List.mem_cons_self)]

namespace ClassTable

/-- A class that a list was numbered with has its own number. -/
theorem get?_of_named? {classes : List ClassDefinition} {name : String} {c : ClassDefinition}
    (h : (ofList classes).named? name = some c) : (ofList classes).get? c.id = some c ∧ c.name = name := by
  have hname := List.find?_some h
  have hmem := List.mem_reverse.mp (List.mem_of_find?_eq_some h)
  obtain ⟨i, hi, hget⟩ := List.mem_iff_getElem.mp hmem
  have hnumber : c.id = i + 1 := by
    rw [← hget]
    simp [ofList]
  refine ⟨?_, eq_of_beq hname⟩
  unfold get?
  rw [if_neg (hnumber ▸ Nat.succ_ne_zero i), hnumber, Nat.add_sub_cancel]
  rw [← Array.getElem?_toList]
  exact List.getElem?_eq_some_iff.mpr ⟨hi, hget⟩

end ClassTable

theorem noteNominated_map (classId : ClassId) (id : ObjectId) (instances : ClassId → List ObjectId)
    {keys : List ClassId} (hnodup : keys.Nodup) :
    noteNominated classId id (keys.map fun k => (k, instances k)) =
      keys.map fun k => (k, if classId = k then id :: instances k else instances k) := by
  induction keys with
  | nil => rfl
  | cons k keys ih =>
    obtain ⟨hk, hnodup⟩ := List.nodup_cons.mp hnodup
    rw [List.map_cons, List.map_cons, noteNominated]
    by_cases he : k = classId
    · -- no other key is that of the class
      subst he
      rw [if_pos rfl, if_pos rfl]
      refine congrArg _ (List.map_congr_left fun j hj => ?_)
      rw [if_neg fun he : k = j => hk (he ▸ hj)]
    · rw [if_neg he, if_neg (Ne.symm he), ih hnodup]

namespace Walk
variable {t : Terrain} {fresh : Run} {w : Walk} {next rest held : List ObjectId} {id : ObjectId}
  {segment : Phase → List ObjectId} {keys : List ClassId}

/-- The walk has noted all visited instances of the classes with the given numbers. -/
def Notes (t : Terrain) (keys : List ClassId) (w : Walk) : Prop :=
  w.nominated = keys.map fun k =>
    (k, ((w.run.visitOrder w.visitedCount).filter fun id => t.graph.classOf id = k).reverse)

theorem visit_nominated (t : Terrain) (w : Walk) (next : List ObjectId) (id : ObjectId) :
    (w.visit t next id).1.nominated = noteNominated (t.graph.classOf id) id w.nominated := by
  obtain ⟨q, hq, -⟩ := postpone_eq t w id
  unfold visit
  rw [hq]

theorem Notes.visit (hw : Inv t fresh w segment (next ++ id :: rest) held) (hnodup : keys.Nodup)
    (h : w.Notes t keys) : (w.visit t next id).1.Notes t keys := by
  unfold Notes at h ⊢
  rw [visit_nominated, h, noteNominated_map _ _ _ hnodup]
  refine List.map_congr_left fun k _ => congrArg (Prod.mk k) ?_
  rw [hw.visitOrder_visit, List.filter_append, List.reverse_append]
  by_cases hk : t.graph.classOf id = k
  · have hone : [id].filter (fun id => t.graph.classOf id = k) = [id] :=
      List.filter_cons_of_pos (decide_eq_true hk)
    rw [if_pos hk, hone]
    rfl
  · have hnone : [id].filter (fun id => t.graph.classOf id = k) = [] :=
      List.filter_cons_of_neg fun h => hk (of_decide_eq_true h)
    rw [if_neg hk, hnone]
    rfl

theorem kept_notes (t : Terrain) (fresh : Run) (hnodup : keys.Nodup) : Kept t fresh (Notes t keys) := by
  apply Kept.of_visits
  · intro w parents roles phase frontier queues roots h
    exact h
  · intro w segment next id rest held hw h
    exact h.visit hw hnodup

/-- What seeds leave alone. -/
def unseeded (w : Walk) : List (ClassId × List ObjectId) × Slots :=
  (w.nominated, w.run.roles)

theorem unseeded_claimRoot (w : Walk) (id : ObjectId) : (w.claimRoot id).unseeded = w.unseeded := by
  unfold claimRoot
  split <;> rfl

theorem unseeded_addRoot (w : Walk) (root : GcRoot) : (w.addRoot root).unseeded = w.unseeded := by
  unfold addRoot
  split
  · split <;> rfl
  · exact unseeded_claimRoot w root.id

theorem unseeded_foldl {α : Type} {f : Walk → α → Walk} (hf : ∀ w a, (f w a).unseeded = w.unseeded)
    (as : List α) (w : Walk) : (as.foldl f w).unseeded = w.unseeded := by
  induction as generalizing w with
  | nil => rfl
  | cons a as ih => exact (ih (f w a)).trans (hf w a)

theorem unseeded_start (t : Terrain) (run : Run) (keys : List ClassId) :
    (start t run keys).unseeded = (keys.map fun k => (k, []), run.roles) := by
  have hroots := unseeded_foldl unseeded_addRoot t.graph.roots
    { run := run, nominated := keys.map fun k => (k, []) }
  have hheld := unseeded_foldl unseeded_claimRoot (t.graph.classes.toList.flatMap ClassDefinition.held)
    (t.graph.roots.foldl addRoot { run := run, nominated := keys.map fun k => (k, []) })
  unfold start
  dsimp only
  split <;> exact hheld.trans hroots

theorem notes_start (hf : fresh.IsFresh) (keys : List ClassId) : (start t fresh keys).Notes t keys := by
  obtain ⟨w, hw, heq⟩ := exists_opening t hf keys
  have hcount : (start t fresh keys).visitedCount = 0 := by
    rw [heq]
    exact hw.blank.1
  have hnominated := congrArg Prod.fst (unseeded_start t fresh keys)
  unfold Notes
  rw [hcount]
  exact hnominated

theorem nominated_of_traversal {classes : ClassTable} {traversal : Traversal}
    (h : w.traversal classes = .ok traversal) : traversal.nominated =
      w.nominated.filterMap fun p => (classes.get? p.1).map fun c => (c.name, ascending p.2) := by
  unfold Walk.traversal at h
  obtain ⟨strong, -, h⟩ := ok_of_bind h
  obtain ⟨nonStrong, -, h⟩ := ok_of_bind h
  cases h
  rfl

end Walk

section
variable {graph : HeapGraph} {fresh run : Run} {traversal : Traversal}

/-- The class of a nominated name has exactly its visited instances noted. -/
theorem lookup_nominated (hf : fresh.IsFresh) (ht : Traversed graph fresh run traversal)
    {classes : List ClassDefinition} (hclasses : graph.classes = .ofList classes) {name : String}
    (hname : name ∈ fresh.config.perClass.classNames) {c : ClassDefinition}
    (hc : graph.classes.named? name = some c) : ∃ ids, traversal.nominated.lookup name = some ids ∧
      ids.Pairwise (· < ·) ∧
      ∀ id, id ∈ ids ↔ id ∈ run.visitOrder traversal.visitedCount ∧ graph.classOf id = c.id := by
  have hk := Walk.kept_notes (.of graph fresh) fresh
    (nodup_eraseDups (fresh.config.perClass.classNames.filterMap graph.classNamed?))
  obtain ⟨w, segment, held, -, -, hnotes, rfl, hresult⟩ :=
    exists_walk_keeping hk (Walk.notes_start hf _) hf ht
  have hnumber : ∀ {name c}, graph.classes.named? name = some c →
      graph.classes.get? c.id = some c ∧ c.name = name := by
    rw [hclasses]
    exact ClassTable.get?_of_named?
  obtain ⟨instances, hinstances⟩ : ∃ instances : ClassId → List ObjectId, ∀ k, instances k =
      ascending ((w.run.visitOrder w.visitedCount).filter fun id => graph.classOf id = k).reverse :=
    ⟨_, fun _ => rfl⟩
  -- the entries are those of the nominated classes
  have hentry : ∀ ids, (name, ids) ∈ traversal.nominated ↔ ids = instances c.id := by
    intro ids
    rw [Walk.nominated_of_traversal hresult, hnotes, List.filterMap_map, List.mem_filterMap]
    constructor
    · rintro ⟨k, hk, hids⟩
      obtain ⟨n, -, hn⟩ := List.mem_filterMap.mp (List.mem_eraseDups.mp hk)
      obtain ⟨d, hd, rfl⟩ := Option.map_eq_some_iff.mp hn
      obtain ⟨hget, hdname⟩ := hnumber hd
      rw [Function.comp_apply, hget, Option.map_some] at hids
      cases hids
      rw [hdname, hd] at hc
      cases hc
      exact (hinstances _).symm
    · rintro rfl
      obtain ⟨hget, hcname⟩ := hnumber hc
      refine ⟨c.id, List.mem_eraseDups.mpr (List.mem_filterMap.mpr ⟨name, hname, ?_⟩), ?_⟩
      · exact Option.map_eq_some_iff.mpr ⟨c, hc, rfl⟩
      · rw [Function.comp_apply, hget, Option.map_some, hcname, hinstances]
        rfl
  refine ⟨instances c.id, lookup_of_agree ((hentry _).mpr rfl) fun ids => (hentry ids).mp, ?_, fun id => ?_⟩
  · rw [hinstances]
    exact pairwise_ascending _
  · rw [hinstances, mem_ascending, List.mem_reverse, List.mem_filter, decide_eq_true_iff,
      (Walk.traversal_eq hresult).1]

end

/-! Roles that are not recorded. -/
section
variable {t : Terrain} {holder : ObjectId} {isArray : Bool} {fieldCount : Nat}

theorem Claims.roles_followAll (c : Claims) (targets : List ObjectId) (index : Nat) :
    (Claims.followAll holder isArray false fieldCount c targets index).run.roles = c.run.roles := by
  induction targets generalizing c index with
  | nil => rfl
  | cons target targets ih =>
    have hstep : (c.follow holder isArray false fieldCount target index).run.roles = c.run.roles := by
      unfold Claims.follow
      split
      · rfl
      · split <;> rfl
    exact (ih _ _).trans hstep

namespace Walk
variable {fresh : Run} {w : Walk}

theorem roles_releaseAll (hinfo : t.options.includeFieldInformation = false) (w : Walk) (next : List ObjectId)
    (es : List PendingEdge) : (releaseAll t w next es).1.run.roles = w.run.roles := by
  induction es generalizing w next with
  | nil => rfl
  | cons e es ih =>
    have hstep : (w.release t next e).1.run.roles = w.run.roles := by
      cases e with
      | root id =>
        unfold release
        dsimp only
        split <;> rfl
      | referent referent holder role =>
        unfold release
        dsimp only
        rw [hinfo]
        split <;> rfl
      | revisit id =>
        unfold release
        dsimp only
        split
        · rfl
        · split <;> rfl
    exact (ih _ _).trans hstep

/-- Where roles are not recorded a walk leaves them alone. -/
theorem kept_roles (hinfo : t.options.includeFieldInformation = false) (fresh : Run) :
    Kept t fresh fun w => w.run.roles = fresh.roles where
  frontier _ h _ := h
  visit {w _ next id _ _} _ _ h := by
    obtain ⟨q, nominated, summary, heq, -⟩ := visit_eq t w next id
    rw [heq]
    unfold Walk.claims
    dsimp only
    rw [hinfo]
    exact (Claims.roles_followAll _ _ _).trans h
  passOver {w _ _ id _ _} _ _ h := by
    unfold Walk.passOver
    split
    · exact h
    · split <;> exact h
  advance {w _ _} _ _ h := by
    rw [advance_eq]
    exact (roles_releaseAll hinfo _ _ _).trans h

end Walk
end

section
variable {graph : HeapGraph} {fresh run : Run} {traversal : Traversal}

theorem role?_of_unrecorded (hf : fresh.IsFresh)
    (hinfo : fresh.config.traverse.includeFieldInformation = false)
    (ht : Traversed graph fresh run traversal) (id : ObjectId) : run.role? id = none := by
  have hk := Walk.kept_roles (t := .of graph fresh) hinfo fresh
  obtain ⟨w, segment, held, -, -, hroles, rfl, -⟩ :=
    exists_walk_keeping hk (congrArg Prod.snd (Walk.unseeded_start _ fresh _)) hf ht
  have hcode : w.run.roles.get id = 0 := by
    rw [hroles, hf.roles_blank]
    exact Slots.get_create _ id
  unfold Run.role?
  rw [hcode]
  split <;> rfl

theorem Role.text_ne_root (role : Role) : role.text ≠ "root" := by
  cases role with
  | field index =>
    intro h
    have hfirst := congrArg (fun text => text.toList.head?) h
    dsimp only [text] at hfirst
    rw [String.toList_append, List.head?_append] at hfirst
    cases hfirst
  | _ => decide

/-- What the report says about the way an object was reached. It tells the truth if roles are recorded, and
calls every object a root otherwise. -/
theorem label_of_parent? (hf : fresh.IsFresh) (ht : Traversed graph fresh run traversal) {x p : ObjectId}
    (hp : run.parent? x = some p) :
    (((run.role? x).map Role.text).getD "root" = "root" ↔
      p = x ∨ fresh.config.traverse.includeFieldInformation = false) ∧
    (p ≠ x → fresh.config.traverse.includeFieldInformation = true → ∃ role, run.role? x = some role ∧
      ((run.role? x).map Role.text).getD "root" = role.text ∧
      FirstClaim (.of graph fresh) fresh.objectCount (run.visitOrder traversal.visitedCount) x p (some role)) := by
  cases hinfo : fresh.config.traverse.includeFieldInformation with
  | false =>
    rw [role?_of_unrecorded hf hinfo ht]
    exact ⟨iff_of_true rfl (Or.inr rfl), nofun⟩
  | true =>
    obtain ⟨hvalid, hrole, htold⟩ := told_of_parent? hf hinfo ht hp
    have hfirst := FirstClaim.of_told hvalid htold
    rw [← hrole] at hfirst
    cases hsome : run.role? x with
    | none =>
      have hroot := hfirst.root.mp hsome
      exact ⟨iff_of_true rfl (Or.inl hroot), fun hne => absurd hroot hne⟩
    | some role =>
      rw [hsome] at hfirst
      refine ⟨iff_of_false role.text_ne_root ?_, fun _ _ => ⟨role, rfl, rfl, hfirst⟩⟩
      rintro (hroot | hnone)
      · cases hfirst.root.mpr hroot
      · cases hnone

end

theorem exists_parent? {graph : HeapGraph} {fresh run : Run} {traversal : Traversal} (hf : fresh.IsFresh)
    (ht : Traversed graph fresh run traversal) {id : ObjectId}
    (hid : id ∈ run.visitOrder traversal.visitedCount) : ∃ p, run.parent? id = some p := by
  obtain ⟨w, segment, held, hw, -, rfl, hresult⟩ := exists_walk hf ht
  rw [(Walk.traversal_eq hresult).1, hw.visits.order] at hid
  have hclaimed := hw.ledger.claimed id (List.mem_append_left _ hid)
  exact ⟨_, Run.parent?_eq_some_iff.mpr ⟨hclaimed, rfl⟩⟩

/-- The report of an analysis has the instances of each nominated class that the heap has. -/
theorem Report.contains_instances {run : Run} {t : Traversal} {name : String} {ids : List ObjectId}
    (hname : name ∈ run.config.perClass.classNames) (hids : t.nominated.lookup name = some ids)
    (full : Histogram) (summary : String) (dominators : DominatorOutcome) :
    Text.Contains (mainPart run t full summary dominators) (instances run name ids) := by
  have hblock := Text.contains_join (fun name => (t.nominated.lookup name).map (instances run name)) hname
    (congrArg (Option.map _) hids)
  have hsome : run.config.perClass.classNames.isEmpty ≠ true :=
    fun h => List.ne_nil_of_mem hname (List.isEmpty_iff.mp h)
  unfold mainPart nominatedClasses titled
  dsimp only
  rw [if_neg hsome]
  exact (((hblock.prepend _).prepend _).prepend _).append _

/-- Of each nominated class that the heap has, exactly the visited instances are collected, and the report
lists the ten largest of them by folded size. It tells how each of them was reached: that it is a root exactly
if it is its own parent, and else what its first claim was, as long as roles are recorded. Without them it
calls every object a root. -/
theorem report_lists_nominated {input : AnalysisInput} {journal : Journal} {a : Analysis}
    (ha : (Analysis.analyze input journal).2 = .ok a) {classes : List ClassDefinition}
    (hclasses : input.snapshot.graph.classes = .ofList classes) {name : String}
    (hname : name ∈ input.config.perClass.classNames) {c : ClassDefinition}
    (hc : input.snapshot.graph.classes.named? name = some c) : ∃ fresh run ids listed,
    Run.create input.config input.snapshot.graph.objectCount input.tree? input.space = .ok fresh ∧
    Traversed input.snapshot.graph fresh run a.traversal ∧ a.run = run.foldSizes a.traversal.visitedCount ∧
    a.traversal.nominated.lookup name = some ids ∧ ids.Pairwise (· < ·) ∧
    (∀ id, id ∈ ids ↔ id ∈ a.run.visitOrder a.traversal.visitedCount ∧
      input.snapshot.graph.classOf id = c.id) ∧
    LargestOf a.run.sizeUnits 10 ids listed ∧
    Text.Contains a.report.main ("CLASS: " ++ name ++ " (" ++ toString ids.length ++ " objects)\n" ++
      String.join (listed.map fun id => Report.instanceLine a.run id ++ "\n") ++
      Text.removalNote (ids.length - 10) ++ "\n") ∧
    ∀ id ∈ ids, ∃ p label, a.run.parent? id = some p ∧
      Report.instanceLine a.run id = "  #" ++ toString id ++ " " ++
        Text.paddedSize (a.run.sizeUnits id * 4) ++ " via " ++ label ∧
      (label = "root" ↔ p = id ∨ input.config.traverse.includeFieldInformation = false) ∧
      (p ≠ id → input.config.traverse.includeFieldInformation = true → ∃ role,
        a.run.role? id = some role ∧ label = role.text ∧
        FirstClaim (.of input.snapshot.graph fresh) fresh.objectCount
          (a.run.visitOrder a.traversal.visitedCount) id p (some role)) := by
  obtain ⟨fresh, run, full, hfresh, ht, hfull, hfound, summary, dominators, hmain⟩ :=
    Analysis.found_of_analyze ha
  have hf : fresh.IsFresh := ⟨_, _, _, _, hfresh⟩
  have hconfig := Analysis.config_eq hfresh ht hfound
  obtain ⟨hfreshConfig, -⟩ := Run.create_fields hfresh
  obtain ⟨ids, hids, hascend, hmem⟩ := lookup_nominated hf ht hclasses (hfreshConfig ▸ hname) hc
  obtain ⟨sizes, hfolded⟩ := run.foldSizes_eq a.traversal.visitedCount
  have hrun : a.run = { run with sizes := sizes } := hfound.run.trans hfolded
  have hlargest := largestOf_take a.run.sizeUnits 10 (hascend.imp Nat.ne_of_lt)
  refine ⟨fresh, run, ids, _, hfresh, ht, hfound.run, hids, hascend, ?_, hlargest, ?_, fun id hid => ?_⟩
  · rw [hrun]
    exact hmem
  · have hin := Report.contains_instances (hconfig ▸ hname) hids full summary dominators
    rw [← hmain] at hin
    unfold Report.instances at hin
    rw [Text.headText_eq, (List.mergeSort_perm ids _).length_eq, ← String.append_assoc] at hin
    exact hin
  · obtain ⟨p, hp⟩ := exists_parent? hf ht ((hmem id).mp hid).1
    obtain ⟨hroot, hother⟩ := label_of_parent? hf ht hp
    rw [hfreshConfig] at hroot hother
    rw [hrun]
    exact ⟨p, _, hp, rfl, hroot, hother⟩

/-- A root that holds one instance of the nominated class. -/
def leakHeap : HeapGraph where
  classes := .ofList [{ name := "App" }, { name := "Leak" }]
  objects := #[
    { classId := 1, size := 16, references := [2] },
    { classId := 2, size := 400 }]
  roots := [{ id := 1 }]

def leakInput (recorded : Bool) : AnalysisInput where
  snapshot := { graph := leakHeap }
  tree? := none
  config := {
    traverse := { includeFieldInformation := recorded }
    perClass := { classNames := ["Leak"] }
    dominator := { includeDominatorTree := false } }
  space := { available := .ok 1000000000 }

def leakClass : ClassDefinition where
  id := 2
  name := "Leak"

set_option maxRecDepth 10000 in
theorem exists_leak (recorded : Bool) : ∃ a, (Analysis.analyze (leakInput recorded) {}).2 = .ok a ∧
    a.run.visitOrder a.traversal.visitedCount = [1, 2] ∧ a.run.parent? 2 = some 1 ∧
    a.run.role? 2 = (if recorded then some (.field 0) else none) ∧
    a.traversal.nominated.lookup "Leak" = some [2] ∧ "Leak" ∈ a.run.config.perClass.classNames ∧
    Report.instances a.run "Leak" [2] = "CLASS: Leak (1 objects)\n  #2    400b via " ++
      (if recorded then "field #1" else "root") ++ "\n\n" := by
  have hdone : (Analysis.analyze (leakInput recorded) {}).2.toOption.any (fun a =>
      a.run.visitOrder a.traversal.visitedCount = [1, 2] ∧ a.run.parent? 2 = some 1 ∧
        a.run.role? 2 = (if recorded then some (.field 0) else none) ∧
        a.traversal.nominated.lookup "Leak" = some [2] ∧ "Leak" ∈ a.run.config.perClass.classNames ∧
        Report.instances a.run "Leak" [2] = "CLASS: Leak (1 objects)\n  #2    400b via " ++
          (if recorded then "field #1" else "root") ++ "\n\n") = true := by
    cases recorded <;> decide +kernel
  obtain ⟨a, ha, hall⟩ := exists_ok_of_any hdone
  exact ⟨a, ha, of_decide_eq_true hall⟩

theorem named?_leak : leakHeap.classes.named? "Leak" = some leakClass := by
  decide +kernel

theorem report_lists_nominated_leakHeap : ∃ a, (Analysis.analyze (leakInput true) {}).2 = .ok a ∧
    leakHeap.classes = .ofList [{ name := "App" }, { name := "Leak" }] ∧
    "Leak" ∈ (leakInput true).config.perClass.classNames ∧ leakHeap.classes.named? "Leak" = some leakClass ∧
    ∃ fresh ids listed, a.traversal.nominated.lookup "Leak" = some ids ∧ 2 ∈ ids ∧
      LargestOf a.run.sizeUnits 10 ids listed ∧ a.run.role? 2 = some (.field 0) ∧
      FirstClaim (.of leakHeap fresh) fresh.objectCount [1, 2] 2 1 (some (.field 0)) := by
  obtain ⟨a, ha, horder, hparent, hrole, -⟩ := exists_leak true
  obtain ⟨fresh, run, ids, listed, -, -, -, hlookup, -, hmem, hlisted, -, hlabels⟩ :=
    @report_lists_nominated (leakInput true) {} a ha _ rfl "Leak" List.mem_cons_self leakClass named?_leak
  have hin : 2 ∈ ids := (hmem 2).mpr ⟨by rw [horder]; decide, by decide⟩
  obtain ⟨p, label, hp, hline, -, hfirst⟩ := hlabels 2 hin
  rw [hparent] at hp
  cases hp
  obtain ⟨role, hsome, -, hfirst⟩ := hfirst (by decide) rfl
  rw [hrole] at hsome
  cases hsome
  rw [horder] at hfirst
  exact ⟨a, ha, rfl, List.mem_cons_self, named?_leak, fresh, ids, listed, hlookup, hin, hlisted, hrole, hfirst⟩

/-- Without recorded roles the report calls the instance a root, though another object holds it. -/
theorem unrecorded_called_root : ∃ a, (Analysis.analyze (leakInput false) {}).2 = .ok a ∧
    leakHeap.classes.named? "Leak" = some leakClass ∧ a.traversal.nominated.lookup "Leak" = some [2] ∧
    a.run.parent? 2 = some 1 ∧
    Text.Contains a.report.main "CLASS: Leak (1 objects)\n  #2    400b via root\n\n" := by
  obtain ⟨a, ha, -, hparent, -, hids, hname, hblock⟩ := exists_leak false
  obtain ⟨fresh, run, full, -, -, -, -, summary, dominators, hmain⟩ := Analysis.found_of_analyze ha
  have hin := Report.contains_instances hname hids full summary dominators
  rw [← hmain, hblock] at hin
  exact ⟨a, ha, named?_leak, hids, hparent, hin⟩

end HeapRetention
